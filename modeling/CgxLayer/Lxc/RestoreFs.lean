import CgxLayer.Lxc.GetFs

namespace CgxLayer.Lxc

open Text

variable {F : Type}

namespace Host

/-- A change of the tree that `get_fs` opened, which a mount that is not read-only writes to its
file. -/
def modify (f : Tree F → Tree F) (h : Host F) : Place → Host F
  | .temp n =>
    match h.temps[n]? with
    | some (some (.mounted ⟨t, .named name, false⟩)) => { h.setTemp n (some (.mounted ⟨f t, .named name, false⟩)) with
        files := Function.update h.files name (some (.ext (f t))) }
    | some (some (.untarred t)) => h.setTemp n (some (.untarred (f t)))
    | _ => h
  | _ => h

-- `rm -rf`
def rmrf (h : Host F) : Place → Host F
  | .temp n => h.setTemp n none
  | _ => h

/-- `tar -c` with no operand, which it refuses, or with an empty one only, for which it finds no file
once it has cut off the archive. -/
def tarCreate (h : Host F) (comp : Option Comp) (filename : Text) : Bool × Host F :=
  match comp with
  | some _ => (false, h)
  | none => (false, { h with files := Function.update h.files filename (some .empty) })

end Host

def restoreComp (filename : Text) : Option Comp :=
  if endsLike ".ext?.gz".toList filename then some .gzip
  else if endsLike ".ext?.bz".toList filename then some .bzip2
  else if endsLike ".tar.gz".toList filename then some .gzip
  else if endsLike ".tar.bz".toList filename then some .bzip2
  else none

def restoreFs (e : Ends F) (inplace : Bool) (filename : Text) (untarLoc : Place) (mounted : ℕ) (h : Host F) :
    Bool × Host F :=
  if mounted = 0 then
    let h := h.umount untarLoc
    match restoreComp filename with
    | some k =>
      if inplace then h.compress e k (sedName filename) else (true, h)
    | none => (true, h)
  else
    match h.tarCreate (restoreComp filename) filename with
    | (false, h) => (false, exitFailure h)
    | (true, h) => (true, h.rmrf untarLoc)

/-- The target file opened, changed and closed, as in the main program. -/
def openClose (e : Ends F) (filename : Text) (f : Tree F → Tree F) (h : Host F) : Bool × Host F :=
  match getFs e true filename .empty h with
  | (none, h) => (false, h)
  | (some (loc, mounted), h) => restoreFs e true filename loc mounted (h.modify f loc)

def RoundTrip (e : Ends F) (i : Image F) (f : Tree F → Tree F) (others : Text → Option (Content F)) : Prop :=
  let run := openClose e i.filename f (i.host others)
  (run.1 = false ∧ run.2.files i.filename = some (i.contentOf i.tree)) ∨
    run.2.files i.filename = some (i.contentOf (f i.tree))

/-- A compressed file system that is decompressed is a gzip one, `sed` gives the name it is
decompressed to, and it is compressed again. A tar archive without compression is not extracted. -/
def Restores (e : Ends F) (i : Image F) : Prop :=
  if i.mounted then
    ∀ k, i.comp = some k → e.decompresses = true → k = .gzip ∧ sedName i.filename = i.plainName ∧ e.compresses = true
  else i.comp = none → e.untars = false

variable {e : Ends F} {i : Image F} {f : Tree F → Tree F} {others : Text → Option (Content F)} {h h' : Host F}
  {k : Comp}

theorem restoreComp_filename (i : Image F) : restoreComp i.filename = i.comp := by
  obtain ⟨stem, form, comp, tree, root⟩ := i
  cases form with
  | ext version =>
    rcases comp with _ | _ | _ <;>
      simp [restoreComp, Image.filename, Image.plainName, Image.ending, Comp.suffix, endsLike, likeRev]
  | tar =>
    rcases comp with _ | _ | _ <;>
      simp [restoreComp, Image.filename, Image.plainName, Image.ending, Comp.suffix, endsLike, likeRev]

theorem filename_packed (hcomp : i.comp = some k) : i.filename = i.plainName ++ k.suffix := by
  rw [Image.filename, hcomp, Option.elim_some]

theorem unpackedName_filename (hcomp : i.comp = some k) : Host.unpackedName i.filename = i.plainName := by
  have hsuffix : k.suffix.length = 3 := by cases k <;> rfl
  rw [Host.unpackedName, filename_packed hcomp, List.length_append, hsuffix, Nat.add_sub_cancel, List.take_left]

theorem cutSuffix_packed (hcomp : i.comp = some k) : cutSuffix i.filename = i.plainName := by
  have hdot : '.' ∈ i.filename := by
    rw [filename_packed hcomp]
    cases k <;> simp [Comp.suffix]
  rw [cutSuffix, if_pos hdot, filename_packed hcomp, List.reverse_append]
  cases k <;> exact List.reverse_reverse _

theorem sedName_oneLine (hcomp : i.comp = some k) (hline : '\n' ∉ i.filename) : sedName i.filename = i.plainName := by
  have hplain : '\n' ∉ i.plainName.reverse := by
    intro hmem
    apply hline
    rw [filename_packed hcomp]
    exact List.mem_append_left _ (List.mem_reverse.mp hmem)
  rw [sedName, List.splitOn_eq_singleton hline, List.map_singleton, joinWith_singleton, cutSuffix_packed hcomp]
  have hkeep : i.plainName.reverse.dropWhile (· == '\n') = i.plainName.reverse := by
    apply List.dropWhile_eq_self_iff.mpr
    intro hlength heq
    exact hplain (beq_iff_eq.mp heq ▸ List.getElem_mem hlength)
  rw [hkeep, List.reverse_reverse]

example : sedName "root.ext2.gz".toList = "root.ext2".toList := by decide

theorem plainName_ne (hcomp : i.comp = some k) : i.filename ≠ i.plainName := by
  intro h
  have hlength := congrArg List.length ((filename_packed hcomp).symm.trans h)
  have hsuffix : k.suffix.length = 3 := by cases k <;> rfl
  rw [List.length_append, hsuffix] at hlength
  omega

theorem umount_files (h : Host F) (loc : Place) : (h.umount loc).files = h.files := by
  unfold Host.umount
  split
  · split <;> rfl
  · rfl

theorem compress_of_failure {name : Text} (hends : e.compresses = false) : h.compress e k name = (false, h) := by
  rw [Host.compress, hends]

theorem compress_eq {name : Text} {c : Content F} (hends : e.compresses = true) (hfile : h.files name = some c) :
    h.compress e k name = (true, { h with
      files := Function.update (Function.update h.files name none) (name ++ k.ownSuffix) (some (pack k c)) }) := by
  rw [Host.compress, hends, hfile]

theorem ownSuffix_ne (name : Text) (hcomp : i.comp = some k)
    (h : ¬(k = .gzip ∧ name = i.plainName)) : i.filename ≠ name ++ k.ownSuffix := by
  rw [filename_packed hcomp]
  intro heq
  cases k with
  | gzip => exact h ⟨rfl, (List.append_cancel_right heq).symm⟩
  | bzip2 =>
    have hlast := congrArg List.getLast? heq
    simp [Comp.suffix, Comp.ownSuffix] at hlast

theorem compress_lost (hcomp : i.comp = some k)
    (hends : ¬(k = .gzip ∧ sedName i.filename = i.plainName ∧ e.compresses = true))
    (hnone : h.files i.filename = none) : (h.compress e k (sedName i.filename)).2.files i.filename = none := by
  cases hcompresses : e.compresses with
  | false =>
    rw [compress_of_failure hcompresses]
    exact hnone
  | true =>
    cases hfile : h.files (sedName i.filename) with
    | none =>
      rw [Host.compress, hcompresses, hfile]
      exact hnone
    | some c =>
      have hne := ownSuffix_ne (sedName i.filename) hcomp (fun hgzip => hends ⟨hgzip.1, hgzip.2, hcompresses⟩)
      rw [compress_eq hcompresses hfile]
      simp only [Function.update_of_ne hne]
      rcases eq_or_ne i.filename (sedName i.filename) with heq | hother
      · rw [← heq]
        exact Function.update_self _ _ _
      · rw [Function.update_of_ne hother]
        exact hnone

theorem compress_restored (hcomp : i.comp = some .gzip) (hsed : sedName i.filename = i.plainName)
    (hcompresses : e.compresses = true) {c : Content F} (hfile : h.files i.plainName = some c) :
    (h.compress e .gzip (sedName i.filename)).2.files i.filename = some (.gzip c) := by
  have hname : i.filename = sedName i.filename ++ Comp.gzip.ownSuffix := by
    rw [hsed]
    exact filename_packed hcomp
  rw [← hsed] at hfile
  rw [compress_eq hcompresses hfile, ← hname]
  exact Function.update_self _ _ _

theorem openClose_of_failure {filename : Text} (hget : (getFs e true filename .empty h).1 = none) :
    openClose e filename f h = (false, (getFs e true filename .empty h).2) := by
  rw [openClose]
  split
  · rename_i hrun
    rw [hrun]
  · rename_i hrun
    rw [hrun] at hget
    cases hget

theorem modify_mounted {t : Tree F} {name : Text} (f : Tree F → Tree F) (h : Host F) :
    ((h.mktemp (some (.mounted ⟨t, .named name, false⟩))).modify f (.temp h.temps.length)).files =
      Function.update h.files name (some (.ext (f t))) := by
  have hat : (h.mktemp (some (.mounted ⟨t, .named name, false⟩))).temps[h.temps.length]? =
      some (some (.mounted ⟨t, .named name, false⟩)) := List.getElem?_concat_length
  simp only [Host.modify, hat]
  rfl

theorem openClose_mounted {t : Tree F} {name : Text} (hget : getFs e true i.filename .empty (i.host others) =
    (some (.temp h.temps.length, 0), h.mktemp (some (.mounted ⟨t, .named name, false⟩)))) : ∃ changed : Host F,
    changed.files = Function.update h.files name (some (.ext (f t))) ∧
      openClose e i.filename f (i.host others) = match i.comp with
        | none => (true, changed)
        | some k => changed.compress e k (sedName i.filename) := by
  refine ⟨((h.mktemp (some (.mounted ⟨t, .named name, false⟩))).modify f (.temp h.temps.length)).umount
    (.temp h.temps.length), ?_, ?_⟩
  · rw [umount_files, modify_mounted]
  · simp only [openClose, hget, restoreFs, if_pos, restoreComp_filename]
    cases i.comp <;> rfl

theorem getFs_mounted (hmounted : i.mounted = true) :
    getFs e true i.filename .empty (i.host others) = mountFs e true i.filename i.comp (i.host others) := by
  rw [Image.getFs_eq, hmounted, if_pos rfl]

theorem mountFs_inplace {filename name : Text} {comp : Option Comp}
    (hdec : decompress e true filename comp h = (some (.named name), h')) :
    (∃ t, h'.files name = some (.ext t) ∧ mountFs e true filename comp h =
      (some (.temp h'.temps.length, 0), h'.mktemp (some (.mounted ⟨t, .named name, false⟩)))) ∨
    mountFs e true filename comp h = (none, exitFailure (match comp with
      | none => h'.mktemp none
      | some k => ((h'.mktemp none).compress e k (sedName filename)).2)) := by
  cases hmount : (h'.mktemp (some .dir)).mount e (.named name) false h'.temps.length with
  | none =>
    have hrefused := mountFs_of_refused hdec hmount
    simp only [if_true] at hrefused
    exact .inr hrefused
  | some h'' =>
    obtain ⟨-, t, hcontent, rfl⟩ := mount_eq_some hmount
    rw [mktemp_setTemp] at hmount
    have hmounted := mountFs_of_mount hdec hmount
    rw [Bool.not_true, Bool.and_false] at hmounted
    exact .inl ⟨t, hcontent, hmounted⟩

theorem roundTrip_plain (hmounted : i.mounted = true) (hcomp : i.comp = none) : RoundTrip e i f others := by
  have hfile : (i.host others).files i.filename = some (.ext i.tree) := by
    rw [Image.host_filename, Image.contentOf_plain hmounted hcomp]
  have hdec : decompress e true i.filename i.comp (i.host others) = (some (.named i.filename), i.host others) := by
    rw [hcomp, decompress]
  rcases mountFs_inplace hdec with ⟨t, ht, hmount⟩ | hrefused
  · obtain rfl : i.tree = t := by simpa using hfile.symm.trans ht
    obtain ⟨changed, hfiles, hrun⟩ := openClose_mounted (f := f) ((getFs_mounted hmounted).trans hmount)
    right
    rw [hrun, hcomp, Image.contentOf_plain hmounted hcomp, hfiles]
    exact Function.update_self _ _ _
  · have hget := (getFs_mounted hmounted).trans hrefused
    left
    rw [openClose_of_failure (by rw [hget]), hget, hcomp]
    exact ⟨rfl, Image.host_filename⟩

theorem decompress_fails_inplace (others : Text → Option (Content F)) (hcomp : i.comp = some k)
    (hfails : e.decompresses = false) :
    decompress e true i.filename i.comp (i.host others) = (none, i.host others) := by
  rw [hcomp, decompress, Image.unpacked_eq hcomp, hfails]
  rfl

theorem roundTrip_packed (hmounted : i.mounted = true) (hcomp : i.comp = some k) (hfails : e.decompresses = false) :
    RoundTrip e i f others := by
  have hget := (getFs_mounted hmounted).trans (mountFs_of_decompress (decompress_fails_inplace others hcomp hfails))
  left
  rw [openClose_of_failure (by rw [hget]), hget]
  exact ⟨rfl, Image.host_filename⟩

def unpackedHost (i : Image F) (others : Text → Option (Content F)) : Host F :=
  let removed := Function.update (i.host others).files i.filename none
  { i.host others with files := Function.update removed i.plainName (some (.ext i.tree)) }

theorem decompress_inplace (others : Text → Option (Content F)) (hmounted : i.mounted = true)
    (hcomp : i.comp = some k) (hdec : e.decompresses = true) :
    decompress e true i.filename i.comp (i.host others) =
      (some (.named (sedName i.filename)), unpackedHost i others) := by
  rw [hcomp, decompress, Image.unpacked_eq hcomp, if_pos hdec, Image.plainContent_mounted hmounted,
    unpackedName_filename hcomp]
  rfl

theorem unpackedHost_filename (hcomp : i.comp = some k) : (unpackedHost i others).files i.filename = none := by
  rw [unpackedHost]
  simp only [Function.update_of_ne (plainName_ne hcomp)]
  exact Function.update_self _ _ _

theorem unpackedHost_plainName : (unpackedHost i others).files i.plainName = some (.ext i.tree) :=
  Function.update_self _ _ _

theorem roundTrip_gzip (hmounted : i.mounted = true) (hcomp : i.comp = some .gzip) (hdec : e.decompresses = true)
    (hsed : sedName i.filename = i.plainName) (hcompresses : e.compresses = true) : RoundTrip e i f others := by
  rcases mountFs_inplace (decompress_inplace others hmounted hcomp hdec) with ⟨t, ht, hmount⟩ | hrefused
  · rw [hsed] at ht hmount
    obtain rfl : i.tree = t := by simpa using unpackedHost_plainName.symm.trans ht
    obtain ⟨changed, hfiles, hrun⟩ := openClose_mounted (f := f) ((getFs_mounted hmounted).trans hmount)
    have hchanged : changed.files i.plainName = some (.ext (f i.tree)) := by
      rw [hfiles]
      exact Function.update_self _ _ _
    right
    rw [hrun, hcomp, Image.contentOf_packed hmounted hcomp]
    exact compress_restored hcomp hsed hcompresses hchanged
  · have hget := (getFs_mounted hmounted).trans hrefused
    left
    rw [openClose_of_failure (by rw [hget]), hget, hcomp, Image.contentOf_packed hmounted hcomp]
    exact ⟨rfl, compress_restored hcomp hsed hcompresses unpackedHost_plainName⟩

theorem not_roundTrip_packed (hmounted : i.mounted = true) (hcomp : i.comp = some k) (hdec : e.decompresses = true)
    (hends : ¬(k = .gzip ∧ sedName i.filename = i.plainName ∧ e.compresses = true)) : ¬RoundTrip e i f others := by
  have hlost : (openClose e i.filename f (i.host others)).2.files i.filename = none := by
    rcases mountFs_inplace (decompress_inplace others hmounted hcomp hdec) with ⟨t, ht, hmount⟩ | hrefused
    · obtain ⟨changed, hfiles, hrun⟩ := openClose_mounted (f := f) ((getFs_mounted hmounted).trans hmount)
      have hother : i.filename ≠ sedName i.filename := by
        intro heq
        rw [← heq, unpackedHost_filename hcomp] at ht
        cases ht
      rw [hrun, hcomp]
      apply compress_lost hcomp hends
      rw [hfiles, Function.update_of_ne hother]
      exact unpackedHost_filename hcomp
    · have hget := (getFs_mounted hmounted).trans hrefused
      rw [openClose_of_failure (by rw [hget]), hget, hcomp]
      exact compress_lost hcomp hends (unpackedHost_filename hcomp)
  rintro (⟨-, hfile⟩ | hfile)
  · rw [hlost] at hfile
    cases hfile
  · rw [hlost] at hfile
    cases hfile

theorem getFs_untarred (hmounted : i.mounted = false) : getFs e true i.filename .empty (i.host others) =
    if e.untars then (some (.empty, 2), i.host others) else (none, exitFailure (i.host others)) := by
  rw [Image.getFs_eq, hmounted, if_neg Bool.false_ne_true, untarFs, untar, Image.archived_eq hmounted]
  cases e.untars <;> rfl

theorem openClose_untarred (hmounted : i.mounted = false) (huntars : e.untars = true) :
    openClose e i.filename f (i.host others) =
      (false, exitFailure ((i.host others).tarCreate i.comp i.filename).2) := by
  have hget : getFs e true i.filename .empty (i.host others) = (some (.empty, 2), i.host others) := by
    rw [getFs_untarred hmounted, huntars, if_pos rfl]
  simp only [openClose, hget, restoreFs, restoreComp_filename]
  cases i.comp <;> rfl

theorem roundTrip_of_not_untarred (hmounted : i.mounted = false) (huntars : e.untars = false) :
    RoundTrip e i f others := by
  have hget : getFs e true i.filename .empty (i.host others) = (none, exitFailure (i.host others)) := by
    rw [getFs_untarred hmounted, huntars, if_neg Bool.false_ne_true]
  left
  rw [openClose_of_failure (by rw [hget]), hget]
  exact ⟨rfl, Image.host_filename⟩

theorem roundTrip_of_refused (hmounted : i.mounted = false) (hcomp : i.comp = some k) (huntars : e.untars = true) :
    RoundTrip e i f others := by
  left
  rw [openClose_untarred hmounted huntars, hcomp]
  exact ⟨rfl, Image.host_filename⟩

theorem not_roundTrip_cut (hmounted : i.mounted = false) (hcomp : i.comp = none) (huntars : e.untars = true) :
    ¬RoundTrip e i f others := by
  have hcut : (openClose e i.filename f (i.host others)).2.files i.filename = some .empty := by
    rw [openClose_untarred hmounted huntars, hcomp]
    exact Function.update_self _ _ _
  have hne : ∀ t, some (.empty : Content F) ≠ some (i.contentOf t) := by
    intro t
    rw [Image.contentOf, hcomp, Option.elim_none, Image.plainContent_untarred hmounted]
    rintro ⟨⟩
  rintro (⟨-, hfile⟩ | hfile)
  · exact hne _ (hcut.symm.trans hfile)
  · exact hne _ (hcut.symm.trans hfile)

theorem roundTrip_untarred (hmounted : i.mounted = false) :
    RoundTrip e i f others ↔ (i.comp = none → e.untars = false) := by
  cases huntars : e.untars with
  | false => exact iff_of_true (roundTrip_of_not_untarred hmounted huntars) (fun _ => rfl)
  | true =>
    cases hcomp : i.comp with
    | none => exact iff_of_false (not_roundTrip_cut hmounted hcomp huntars) (fun h => by cases h rfl)
    | some k => exact iff_of_true (roundTrip_of_refused hmounted hcomp huntars) (fun h => by cases h)

theorem roundTrip_iff (e : Ends F) (i : Image F) (f : Tree F → Tree F) (others : Text → Option (Content F)) :
    RoundTrip e i f others ↔ Restores e i := by
  rw [Restores]
  cases hmounted : i.mounted with
  | false => exact roundTrip_untarred hmounted
  | true =>
    rw [if_pos rfl]
    constructor
    · intro hround k hcomp hdec
      by_contra hends
      exact not_roundTrip_packed hmounted hcomp hdec hends hround
    · intro hrestores
      cases hcomp : i.comp with
      | none => exact roundTrip_plain hmounted hcomp
      | some k =>
        cases hdec : e.decompresses with
        | false => exact roundTrip_packed hmounted hcomp hdec
        | true =>
          obtain ⟨rfl, hsed, hcompresses⟩ := hrestores k hcomp hdec
          exact roundTrip_gzip hmounted hcomp hdec hsed hcompresses

def rootExt2Bz : Image Unit where
  stem := "root".toList
  form := .ext '2'
  comp := some .bzip2
  tree := etcTree
  root := etcTree_root

theorem bz_not_restored : ¬RoundTrip succeeding rootExt2Bz id (fun _ => none) :=
  not_roundTrip_packed rfl rfl rfl (fun h => by cases h.1)

end CgxLayer.Lxc
