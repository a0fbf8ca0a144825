import CgxLayer.Acyclic
import CgxLayer.PathWalk
import CgxLayer.Ramdisk.Links

namespace CgxLayer.Ramdisk

open Text Relation PathWalk

def stepOf (c : Text) : Step Text := if c = [] ∨ c = ['.'] then .stay else if c = dots then .up else .down c

def stepsOf (s : Text) : List (Step Text) := (s.splitOn '/').map stepOf

def placeOf (p : Text) : List Text := walk [] (stepsOf p)

def followLink (bin l : Text) : Option Text :=
  if startsWith ['/'] l then some l else removeDotDot (dirname bin ++ '/' :: l)

def linkTarget (bin l : Text) : Text :=
  if startsWith ['/'] l then l else lexical (dirname bin ++ '/' :: l)

-- neither a field separator, nor special to `read` or to a pattern
def nameChar (c : Char) : Bool := !shBlank c && c ∉ ['\\', '*', '?', '[']

structure Components (cs : List Text) : Prop where
  tame : Tame cs
  words : ∀ c ∈ cs, ∀ x ∈ c, nameChar x = true

def PathName (p : Text) : Prop := ∃ cs c, p = render (cs ++ [c]) ∧ Components (cs ++ [c])

def RelativeName (l : Text) : Prop :=
  ∃ rs, rs ≠ [] ∧ l = joinWith '/' rs ∧ Components rs ∧ ∀ c ∈ rs, c ≠ []

def lddEntry : List Text → Option Text
  | [] => none
  | name :: rest =>
    if name = "linux-gate.so.1".toList ∨ name = "static".toList ∨ name = "not".toList then none
    else some ((rest.drop 1).headD [])

def isSpecial (q : Text) : Bool := q.isEmpty || startsWith ['('] q

/-- The text that the system resolves for a link at a place, from the directory it is found in. -/
def targetText (q : List Text) (l : Text) : Text :=
  if startsWith ['/'] l then l else render q.dropLast ++ '/' :: l

/-- The files of the system. `place` is where it finds a name (not following a link at the end), as the
names from the top directory; `linkAt` is the text of the link at a place; `ldd` is what is printed for
a name. -/
structure FileSystem where
  lib64 : Bool
  place : Text → Option (List Text)
  linkAt : List Text → Option Text
  links : List (List Text)
  readable : Text → Bool
  ldd : Text → List (List Text)
  libraries : List Text
  place_name : ∀ p q, place p = some q →
    PathName p ∧ place (render q) = some q ∧ ∀ c ∈ q, ∀ x ∈ c, nameChar x = true
  links_finite : ∀ q, linkAt q ≠ none → q ∈ links
  link_text : ∀ q l, linkAt q = some l → PathName l ∨ RelativeName l
  links_acyclic : ∀ q, ¬ TransGen (fun q q' => ∃ l, linkAt q = some l ∧ place (targetText q l) = some q') q q
  ldd_words : ∀ p, ∀ ws ∈ ldd p, ∀ w ∈ ws, IsWord shBlank w
  ldd_files : ∀ p, ∀ ws ∈ ldd p, ∀ q, lddEntry ws = some q → isSpecial q = false →
    q ∈ libraries ∧ readable q = true ∧ PathName q ∧ '%' ∉ q

-- `test -h` and the text that `ls -l` shows
def FileSystem.link (fs : FileSystem) (p : Text) : Option Text := (fs.place p).bind fs.linkAt

def FileSystem.libdir (fs : FileSystem) : Text :=
  if fs.lib64 then "lib64".toList else "lib".toList

-- `sed "s/%LIB%/${libdir}/"`
def substLib (libdir : Text) : Text → Text
  | [] => []
  | c :: s => if startsWith "%LIB%".toList (c :: s) then libdir ++ (c :: s).drop 5 else c :: substLib libdir s

inductive Item where
  | skipped
  | busybox (target : Text)
  | missingTarget
  | file (bin target : Text)

def busybox : Text := "busybox".toList

def readItem (libdir : Text) : List Text → Item
  | [] => .skipped
  | bin :: rest =>
    if startsWith ['#'] bin then .skipped
    else if startsWith ['('] bin then .skipped
    else if bin = busybox then
      match rest with
      | [] => .missingTarget
      | target :: _ => .busybox target
    else .file (substLib libdir bin) (rest.headD (substLib libdir bin))

structure Round where
  proc : List (Text × Text)
  new : List Text
  error : Bool

variable (fs : FileSystem)

def chase : ℕ → Text → Option (List Text)
  | 0, _ => none
  | limit + 1, bin =>
    match fs.link bin with
    | none => some []
    | some l =>
      match followLink bin l with
      | none => none
      | some next => (chase limit next).map (next :: ·)

def processLine (limit : ℕ) (s : Round) (line : List Text) : Option Round :=
  match readItem fs.libdir line with
  | .skipped => some s
  | .busybox target => some { s with proc := s.proc ++ [(busybox, target)] }
  | .missingTarget => some { s with error := true }
  | .file bin target =>
    if !fs.readable bin then some { s with error := true }
    else
      match chase fs limit bin with
      | none => none
      | some names => some { s with
          proc := s.proc ++ (bin, target) :: names.map (fun n => (n, n)),
          new := s.new ++ (fs.ldd (names.getLastD bin)).filterMap lddEntry }

def processTmpFile (limit : ℕ) : List (List Text) → Round → Option Round
  | [], s => some s
  | line :: rest, s =>
    match processLine fs limit s line with
    | none => none
    | some s => processTmpFile limit rest s

/-- The loop of `make_base`; the new list is there to be read once something was echoed to it. -/
def baseLoop (limit : ℕ) : ℕ → List (List Text) → Round → Option Round
  | 0, _, _ => none
  | fuel + 1, tmp, s =>
    match processTmpFile fs limit tmp s with
    | none => none
    | some s =>
      if s.new.isEmpty then some s
      else baseLoop limit fuel ((sortUniq s.new).map (words shBlank)) { s with new := [] }

def procLine (e : Text × Text) : Text := e.1 ++ ' ' :: e.2

/-- The lines that `make_base` leaves in PROCFILE, or its exit on an error. -/
def makeBase (limit fuel : ℕ) (requiredBinaries : List (List Text)) : Option (Option (List Text)) :=
  (baseLoop fs limit fuel requiredBinaries ⟨[], [], false⟩).map (fun s =>
    if s.error then none else some (sortUniq (s.proc.map procLine)))

/-- The name of the file that a link leads to: the one that the link's name and text spell, where the
system finds that file under it, and else its own path. -/
def nameOfTarget (p l : Text) (q : List Text) : Text :=
  if fs.place (linkTarget p l) = some q then linkTarget p l else render q

/-- The next name along a chain of links, as the system follows them. -/
def Next (p q : Text) : Prop :=
  ∃ place l target, fs.place p = some place ∧ fs.linkAt place = some l ∧
    fs.place (targetText place l) = some target ∧ q = nameOfTarget fs p l target

/-- The next name as `process_tmp_file` has it. -/
def Goes (p q : Text) : Prop := ∃ l, fs.link p = some l ∧ followLink p l = some q

variable {fs}

theorem link_eq_some {p l : Text} : fs.link p = some l ↔ ∃ q, fs.place p = some q ∧ fs.linkAt q = some l :=
  Option.bind_eq_some_iff

theorem link_name {p l : Text} (h : fs.link p = some l) : PathName p ∧ (PathName l ∨ RelativeName l) := by
  obtain ⟨q, hq, hl⟩ := link_eq_some.mp h
  exact ⟨(fs.place_name p q hq).1, fs.link_text q l hl⟩

theorem place_nameOfTarget {p l : Text} {q target : List Text} (ht : fs.place (targetText q l) = some target) :
    fs.place (nameOfTarget fs p l target) = some target := by
  rw [nameOfTarget]
  split_ifs with hspelled
  · exact hspelled
  · exact (fs.place_name _ _ ht).2.1

theorem Next.functional {p q q' : Text} (h : Next fs p q) (h' : Next fs p q') : q = q' := by
  obtain ⟨place, l, target, hp, hl, ht, rfl⟩ := h
  obtain ⟨place', l', target', hp', hl', ht', rfl⟩ := h'
  obtain rfl := Option.some.inj (hp.symm.trans hp')
  obtain rfl := Option.some.inj (hl.symm.trans hl')
  rw [Option.some.inj (ht.symm.trans ht')]

theorem Goes.functional {p q q' : Text} (h : Goes fs p q) (h' : Goes fs p q') : q = q' := by
  obtain ⟨l, hl, hq⟩ := h
  obtain ⟨l', hl', hq'⟩ := h'
  obtain rfl := Option.some.inj (hl.symm.trans hl')
  exact Option.some.inj (hq.symm.trans hq')

theorem Next.link {p q : Text} (h : Next fs p q) : fs.link p ≠ none := by
  obtain ⟨place, l, -, hp, hl, -⟩ := h
  rw [link_eq_some.mpr ⟨place, hp, hl⟩]
  exact Option.some_ne_none l

theorem Goes.link {p q : Text} (h : Goes fs p q) : fs.link p ≠ none := by
  obtain ⟨l, hl, -⟩ := h
  rw [hl]
  exact Option.some_ne_none l

theorem PathName.startsWith {p : Text} (h : PathName p) : startsWith ['/'] p = true := by
  obtain ⟨cs, c, rfl, -⟩ := h
  cases cs <;> rfl

theorem RelativeName.not_startsWith {l : Text} (h : RelativeName l) : startsWith ['/'] l = false := by
  obtain ⟨rs, hrs, rfl, hcs, hne⟩ := h
  obtain ⟨c, rs, rfl⟩ := List.exists_cons_of_ne_nil hrs
  obtain ⟨x, s, rfl⟩ := List.exists_cons_of_ne_nil (hne c (List.mem_cons_self ..))
  have hx : x ≠ '/' := fun h => hcs.tame.plain _ (List.mem_cons_self ..) (h ▸ List.mem_cons_self ..)
  cases rs with
  | nil => simp [joinWith_singleton, Text.startsWith, List.isPrefixOf, hx.symm]
  | cons d ds => simp [joinWith_cons_cons, Text.startsWith, List.isPrefixOf, hx.symm]

theorem joined_components {p l : Text} (hp : PathName p) (hl : RelativeName l) :
    ∃ cs, dirname p ++ '/' :: l = render cs ∧ Components cs := by
  obtain ⟨cs, c, rfl, hcs⟩ := hp
  obtain ⟨rs, hrs, rfl, hrel, hne⟩ := hl
  obtain ⟨ds, hjoin, hds⟩ := dirname_join cs rs c hcs.tame hrs
  refine ⟨ds ++ rs, hjoin, ?_⟩
  have hmem : ∀ x ∈ ds ++ rs, x = [] ∨ x ∈ cs ++ [c] ∨ x ∈ rs := by
    intro x hx
    rcases List.mem_append.mp hx with hx | hx
    · rcases hds with rfl | rfl
      · exact .inl (List.mem_singleton.mp hx)
      · exact .inr (.inl (List.mem_append_left _ hx))
    · exact .inr (.inr hx)
  refine ⟨⟨fun x hx => ?_, fun x hx hdots => ?_, fun x hx => ?_⟩, fun x hx => ?_⟩
  · rcases hmem x hx with rfl | hx | hx
    · exact List.not_mem_nil
    · exact hcs.tame.plain x hx
    · exact hrel.tame.plain x hx
  · rcases hmem x hx with rfl | hx | hx
    · cases hdots
    · exact hcs.tame.dotted x hx hdots
    · exact hrel.tame.dotted x hx hdots
  · rcases hds with rfl | rfl
    · exact hne x hx
    · cases ds with
      | nil => exact hne x (List.mem_of_mem_tail hx)
      | cons d ds =>
        rw [List.cons_append, List.tail_cons] at hx
        rcases List.mem_append.mp hx with hx | hx
        · exact hcs.tame.nonempty x (by simp [hx])
        · exact hne x hx
  · rcases hmem x hx with rfl | hx | hx
    · exact fun y hy => absurd hy List.not_mem_nil
    · exact hcs.words x hx
    · exact hrel.words x hx

theorem followLink_eq {p l q : Text} (h : fs.link p = some l) (hq : followLink p l = some q) :
    q = linkTarget p l := by
  obtain ⟨hp, hl⟩ := link_name h
  rw [followLink] at hq
  rw [linkTarget]
  split_ifs at hq ⊢ with habs
  · exact (Option.some.inj hq).symm
  · have hrel : RelativeName l := hl.resolve_left (fun hl => habs hl.startsWith)
    obtain ⟨cs, hcs, htame⟩ := joined_components hp hrel
    rw [hcs] at hq ⊢
    exact removeDotDot_eq htame.tame hq

theorem mem_foldl_pushComponent {cs st : List Text} {c : Text}
    (h : c ∈ cs.foldl pushComponent st) : c ∈ cs ∨ c ∈ st := by
  induction cs generalizing st with
  | nil => exact .inr h
  | cons d cs ih =>
    rcases ih h with h | h
    · exact .inl (List.mem_cons_of_mem _ h)
    · unfold pushComponent at h
      split_ifs at h
      · match st with
        | [] => exact .inr h
        | x :: xs =>
          dsimp only at h
          split_ifs at h
          · exact .inr h
          · exact .inr (List.mem_cons_of_mem _ h)
      · rcases List.mem_cons.mp h with rfl | h
        · exact .inl (List.mem_cons_self ..)
        · exact .inr h

theorem noBlank_render {cs : List Text} (h : ∀ c ∈ cs, ∀ x ∈ c, nameChar x = true) :
    ∀ x ∈ render cs, shBlank x = false := by
  intro x hx
  obtain ⟨c, hc, hx⟩ := List.mem_flatMap.mp hx
  rcases List.mem_cons.mp hx with rfl | hx
  · decide
  · have hname := h c hc x hx
    rw [nameChar, Bool.and_eq_true] at hname
    simpa using hname.1

theorem noBlank_linkTarget {p l : Text} (h : fs.link p = some l) : ∀ x ∈ linkTarget p l, shBlank x = false := by
  obtain ⟨hp, hl⟩ := link_name h
  rw [linkTarget]
  split_ifs with habs
  · rcases hl with ⟨cs, c, rfl, hcs⟩ | hl
    · exact noBlank_render hcs.words
    · rw [hl.not_startsWith] at habs
      cases habs
  · have hrel : RelativeName l := hl.resolve_left (fun hl => habs hl.startsWith)
    obtain ⟨cs, hcs, hwords⟩ := joined_components hp hrel
    rw [hcs, lexical_render cs hwords.tame]
    apply noBlank_render
    intro c hc
    rw [List.mem_reverse] at hc
    exact hwords.words c ((mem_foldl_pushComponent hc).resolve_right List.not_mem_nil)

theorem Goes.noBlank {p q : Text} (h : Goes fs p q) : ∀ x ∈ q, shBlank x = false := by
  obtain ⟨l, hl, hq⟩ := h
  rw [followLink_eq hl hq]
  exact noBlank_linkTarget hl

theorem Next.noBlank {p q : Text} (h : Next fs p q) : ∀ x ∈ q, shBlank x = false := by
  obtain ⟨place, l, target, hp, hl, ht, rfl⟩ := h
  rw [nameOfTarget]
  split_ifs
  · exact noBlank_linkTarget (link_eq_some.mpr ⟨place, hp, hl⟩)
  · exact noBlank_render (fs.place_name _ _ ht).2.2

end CgxLayer.Ramdisk
