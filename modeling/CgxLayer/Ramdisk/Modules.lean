import CgxLayer.Ramdisk.Shell

namespace CgxLayer.Ramdisk

open Text

-- neither a blank, nor special to a pattern, a regular expression or `read`
def plainChar (c : Char) : Bool :=
  !shBlank c && c ∉ [':', '\\', '*', '?', '[', ']', '^', '$']

structure IsPath (p : Text) : Prop where
  plain : ∀ c ∈ p, plainChar c = true
  relative : ∃ c s, p = c :: s ∧ c ≠ '/' ∧ c ≠ '.'

structure DepEntry where
  key : Text
  deps : List Text

def DepEntry.line (e : DepEntry) : Text := joinWith ' ' ((e.key ++ [':']) :: e.deps)

/-- The directory /lib/modules/<ver>: the pathnames below it in collating order, of its modules and of
what else there is, and what `test -r` says of a name there (the empty one is the directory's own) and
of one relative to the current directory. -/
structure ModuleTree where
  ver : Text
  names : List Text
  isModule : Text → Bool
  readable : Text → Bool
  entries : List DepEntry
  here : Text → Bool
  ver_plain : ∀ c ∈ ver, plainChar c = true ∧ c ≠ '/'
  names_plain : ∀ n ∈ names, ∀ c ∈ n, plainChar c = true
  modules_named : ∀ n, isModule n = true → n ∈ names
  readable_plain : ∀ n, readable n = true → ∀ c ∈ n, plainChar c = true
  entries_path : ∀ e ∈ entries, IsPath e.key ∧ ∀ d ∈ e.deps, IsPath d
  keys_nodup : (entries.map DepEntry.key).Nodup

def modulesDir : Text := "/lib/modules/".toList

namespace ModuleTree

variable (t : ModuleTree)

def pfx : Text := modulesDir ++ (t.ver ++ ['/'])

def testR (j : Text) : Bool :=
  if startsWith t.pfx j then t.readable (j.drop t.pfx.length) else t.here j

-- A pattern that matches nothing stands for itself.
def expand (first : Bool) (i : Text) : List Text :=
  if first then
    let found := t.names.filter (pathMatch i)
    if found.isEmpty then [t.pfx ++ i] else found.map (t.pfx ++ ·)
  else [i]

def depLine (j : Text) : Option Text :=
  (t.entries.map DepEntry.line).find? (dotPrefix (cutFrom5 j ++ [':']))

-- `sed "s:^${2}\:::"`
def sedStrip (j line : Text) : Text :=
  if dotPrefix (j ++ [':']) line then line.drop (j.length + 1) else line

/-- `get_deps` as the list of words it prints; `none` is its ERROR. -/
def getDeps (j : Text) : Option (List Text) :=
  match t.depLine j with
  | none => none
  | some line =>
    let l := joinWith ' ' (words shBlank line)
    if l.isEmpty then none else some (words shBlank (sedStrip j l))

end ModuleTree

structure Scan where
  tmp : List Text
  new : List Text
  olist : List Text
  error : Bool

def moduleName (j : Text) : Text := dropKo (basename j)

variable (t : ModuleTree)

def scanModule (first : Bool) (s : Scan) (j : Text) : Scan :=
  if !t.testR j then s
  else if s.tmp.any (dotMatch j) then s
  else
    let s := { s with tmp := s.tmp ++ [j], olist := if first then s.olist ++ [moduleName j] else s.olist }
    match t.getDeps j with
    | none => { s with error := true }
    | some deps => { s with new := s.new ++ deps }

def scanRound (first : Bool) (pf : List Text) (s : Scan) : Scan :=
  pf.foldl (fun s i => (t.expand first i).foldl (scanModule t first) s) { s with new := [] }

def scanLoop : ℕ → Bool → List Text → Scan → Option Scan
  | 0, _, _, _ => none
  | fuel + 1, first, pf, s =>
    let s := scanRound t first pf s
    if s.new.isEmpty then some s else scanLoop fuel false s.new s

/-- The list that `copy_kernel_modules` hands to cpio, and the modprobe list. -/
def copyKernelModules (fuel : ℕ) (requiredModules : List Text) : Option (List Text × List Text) :=
  (scanLoop t fuel true requiredModules ⟨[], [], [], false⟩).map (fun s => (sortUniq s.tmp, s.olist))

variable {t}

theorem not_shBlank_of_plain {c : Char} (h : plainChar c = true) : shBlank c = false := by
  rw [plainChar, Bool.and_eq_true] at h
  simpa using h.1

theorem ne_of_plain {c d : Char} (h : plainChar c = true) (hd : plainChar d = false) : c ≠ d := by
  intro hcd
  rw [hcd, hd] at h
  cases h

theorem IsPath.isWord {p : Text} (h : IsPath p) : IsWord shBlank p := by
  obtain ⟨c, s, rfl, -⟩ := h.relative
  exact ⟨List.cons_ne_nil c s, fun d hd => not_shBlank_of_plain (h.plain d hd)⟩

namespace ModuleTree

theorem startsWith_pfx (m : Text) : startsWith t.pfx (t.pfx ++ m) = true :=
  startsWith_iff.mpr (List.prefix_append _ _)

theorem testR_pfx (m : Text) : t.testR (t.pfx ++ m) = t.readable m := by
  rw [testR, startsWith_pfx, if_pos rfl, List.drop_left]

def Relative (x : Text) : Prop := ∃ c s, x = c :: s ∧ c ≠ '/' ∧ c ≠ '.'

theorem pfx_cons (t : ModuleTree) : ∃ s, t.pfx = '/' :: s := ⟨_, rfl⟩

theorem Relative.not_startsWith {x : Text} (h : Relative x) : startsWith t.pfx x = false := by
  obtain ⟨c, s, rfl, hc, -⟩ := h
  obtain ⟨u, hu⟩ := pfx_cons t
  rw [Bool.eq_false_iff, ne_eq, startsWith_iff, hu, List.cons_prefix_cons]
  exact fun h => hc h.1.symm

theorem testR_relative {x : Text} (h : Relative x) : t.testR x = t.here x := by
  rw [testR, h.not_startsWith]
  rfl

end ModuleTree

namespace DepEntry

structure Written (e : DepEntry) : Prop where
  key : IsPath e.key
  deps : ∀ d ∈ e.deps, IsPath d

variable {e : DepEntry}

theorem Written.fields_words (h : Written e) : ∀ w ∈ (e.key ++ [':']) :: e.deps, IsWord shBlank w := by
  intro w hw
  rcases List.mem_cons.mp hw with rfl | hw
  · refine ⟨by simp, fun c hc => ?_⟩
    rcases List.mem_append.mp hc with hc | hc
    · exact h.key.isWord.2 c hc
    · rw [List.mem_singleton.mp hc]
      decide
  · exact (h.deps w hw).isWord

theorem Written.words_line (h : Written e) : words shBlank e.line = (e.key ++ [':']) :: e.deps :=
  words_joinWith (by decide) _ h.fields_words

theorem line_eq (e : DepEntry) : e.line = e.key ++ ':' :: e.deps.flatMap (fun d => ' ' :: d) := by
  have hjoin : ∀ w : Text, joinWith ' ' (w :: e.deps) = w ++ e.deps.flatMap (fun d => ' ' :: d) := by
    induction e.deps with
    | nil => simp [joinWith_singleton]
    | cons d ds ih =>
      intro w
      rw [joinWith_cons_cons, ih d]
      simp
  rw [line, hjoin]
  simp

theorem Written.colon_unique (h : Written e) {i : ℕ} (hi : e.line[i]? = some ':') : i = e.key.length := by
  have hplain : ∀ p : Text, IsPath p → ':' ∉ p := fun p hp hmem => ne_of_plain (hp.plain _ hmem) (by decide) rfl
  rw [line_eq] at hi
  rcases Nat.lt_trichotomy i e.key.length with hlt | rfl | hgt
  · rw [List.getElem?_append_left hlt] at hi
    exact absurd (List.mem_of_getElem? hi) (hplain _ h.key)
  · rfl
  · obtain ⟨k, rfl⟩ : ∃ k, i = e.key.length + (k + 1) := ⟨i - e.key.length - 1, by omega⟩
    rw [List.getElem?_append_right (by omega), Nat.add_sub_cancel_left, List.getElem?_cons_succ] at hi
    obtain ⟨d, hd, hmem⟩ := List.mem_flatMap.mp (List.mem_of_getElem? hi)
    rcases List.mem_cons.mp hmem with hblank | hmem
    · exact absurd hblank (by decide)
    · exact absurd hmem (hplain _ (h.deps d hd))

theorem Written.words_rest (h : Written e) :
    words shBlank (e.deps.flatMap (fun d => ' ' :: d)) = e.deps :=
  words_flatMap (by decide) _ (fun d hd => (h.deps d hd).isWord)

end DepEntry

namespace ModuleTree

theorem written {e : DepEntry} (he : e ∈ t.entries) : e.Written :=
  ⟨(t.entries_path e he).1, (t.entries_path e he).2⟩

theorem depLine_some {j line : Text} (h : t.depLine j = some line) :
    ∃ e ∈ t.entries, line = e.line := by
  obtain ⟨e, he, rfl⟩ := List.mem_map.mp (List.mem_of_find?_eq_some h)
  exact ⟨e, he, rfl⟩

theorem getDeps_line {j : Text} {e : DepEntry} (he : e ∈ t.entries) (h : t.depLine j = some e.line) :
    t.getDeps j = some (words shBlank (sedStrip j e.line)) := by
  have hjoin : joinWith ' ' (words shBlank e.line) = e.line := by
    rw [(written he).words_line]
    rfl
  have hne : e.line.isEmpty = false := by
    rw [DepEntry.line_eq]
    cases e.key <;> rfl
  simp only [getDeps, h, hjoin, hne, Bool.false_eq_true, if_false]

theorem sedStrip_pfx {e : DepEntry} (he : e ∈ t.entries) (m : Text) :
    sedStrip (t.pfx ++ m) e.line = e.line := by
  obtain ⟨c, s, hkey, hc, -⟩ := (written he).key.relative
  obtain ⟨u, hu⟩ := pfx_cons t
  rw [sedStrip, if_neg]
  intro h
  rw [DepEntry.line_eq, hkey, hu] at h
  exact hc (dotPrefix_head (by decide) h).symm

theorem words_sedStrip {e : DepEntry} (he : e ∈ t.entries) (j : Text) :
    words shBlank (sedStrip j e.line) = (e.key ++ [':']) :: e.deps ∨
      words shBlank (sedStrip j e.line) = e.deps := by
  rw [sedStrip]
  split_ifs with h
  · -- the colon of the pattern can only meet the colon after the key
    have hlen := (written he).colon_unique (dotPrefix_snoc (by decide) j e.line h)
    have hdrop : e.line.drop (j.length + 1) = e.deps.flatMap (fun d => ' ' :: d) := by
      rw [hlen, DepEntry.line_eq, List.drop_length_add_append]
      rfl
    rw [hdrop]
    exact .inr (written he).words_rest
  · exact .inl (written he).words_line

theorem getDeps_relative {j k : Text} {ks : List Text} (h : t.getDeps j = some ks) (hk : k ∈ ks) :
    Relative k := by
  cases hline : t.depLine j with
  | none => simp [getDeps, hline] at h
  | some line =>
    obtain ⟨e, he, rfl⟩ := depLine_some hline
    rw [getDeps_line he hline] at h
    obtain rfl := Option.some.inj h
    have hdeps : ∀ d ∈ e.deps, Relative d := fun d hd => ((written he).deps d hd).relative
    rcases words_sedStrip he j with hw | hw
    · rw [hw] at hk
      rcases List.mem_cons.mp hk with rfl | hk
      · obtain ⟨c, s, hkey, hc⟩ := (written he).key.relative
        exact ⟨c, s ++ [':'], by rw [hkey, List.cons_append], hc⟩
      · exact hdeps k hk
    · rw [hw] at hk
      exact hdeps k hk

theorem getDeps_pfx {m : Text} {e : DepEntry} (he : e ∈ t.entries)
    (h : t.depLine (t.pfx ++ m) = some e.line) :
    t.getDeps (t.pfx ++ m) = some ((e.key ++ [':']) :: e.deps) := by
  rw [getDeps_line he h, sedStrip_pfx he, (written he).words_line]

end ModuleTree

end CgxLayer.Ramdisk
