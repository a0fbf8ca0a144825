import CgxLayer.Ramdisk.Binaries
import CgxLayer.Ramdisk.DotDot
import Mathlib.Data.Set.Function

namespace CgxLayer.Ramdisk

open Text Relation PathWalk

structure RequiredBinaries (fs : FileSystem) where
  lines : List (List Text)
  words : ∀ ws ∈ lines, ∀ w ∈ ws, IsWord shBlank w
  targets : ∀ ws ∈ lines, readItem fs.libdir ws ≠ .missingTarget
  exist : ∀ ws ∈ lines, ∀ bin target, readItem fs.libdir ws = .file bin target → fs.readable bin = true

section

-- The next name along a chain of links, by the system's rule or by the script's.
variable (fs : FileSystem) (next : Text → Text → Prop)

def Final (p f : Text) : Prop := ReflTransGen next p f ∧ fs.link f = none

def Needs (p q : Text) : Prop :=
  ∃ f, Final fs next p f ∧ (∃ ws ∈ fs.ldd f, lddEntry ws = some q) ∧ isSpecial q = false

inductive Processed (lines : List (List Text)) : Text → Prop where
  | listed {ws : List Text} {p target : Text} : ws ∈ lines → readItem fs.libdir ws = .file p target →
      Processed lines p
  | library {p q : Text} : Processed lines p → Needs fs next p q → Processed lines q

inductive InClosure (lines : List (List Text)) : Text × Text → Prop where
  | busybox {ws : List Text} {target : Text} : ws ∈ lines → readItem fs.libdir ws = .busybox target →
      InClosure lines (Ramdisk.busybox, target)
  | listed {ws : List Text} {p target : Text} : ws ∈ lines → readItem fs.libdir ws = .file p target →
      InClosure lines (p, target)
  | link {p q : Text} : Processed fs next lines p → TransGen next p q → InClosure lines (q, q)
  | library {p q : Text} : Processed fs next lines p → Needs fs next p q → InClosure lines (q, q)

end

def ListsClosure (fs : FileSystem) (required : RequiredBinaries fs) : Prop :=
  ∃ limit fuel procfile, makeBase fs limit fuel required.lines = some (some procfile) ∧
    procfile.Nodup ∧ Set.BijOn procLine {e | InClosure fs (Next fs) required.lines e} {x | x ∈ procfile}

/-- On every link met on the way from `p`, `remove_dot_dot` ends, and with the name of the file that
the link leads to. -/
def Followable (fs : FileSystem) (p : Text) : Prop :=
  ∀ q l, ReflTransGen (Next fs) p q → fs.link q = some l → ∃ r, followLink q l = some r ∧ Next fs q r

structure Unwinds (fs : FileSystem) (required : RequiredBinaries fs) : Prop where
  acyclic : ∀ p, Processed fs (Next fs) required.lines p → ¬ TransGen (Needs fs (Next fs)) p p
  links : ∀ p, Processed fs (Next fs) required.lines p → Followable fs p

/-- Where the script comes to a link it goes on with a wrong name, and that is one of the closure's all
the same. -/
def Accidental (fs : FileSystem) (required : RequiredBinaries fs) : Prop :=
  ∃ p q r, Processed fs (Goes fs) required.lines p ∧ ReflTransGen (Goes fs) p q ∧ Goes fs q r ∧ ¬ Next fs q r ∧
    InClosure fs (Next fs) required.lines (r, r)

def ChaseEnds (fs : FileSystem) (p : Text) : Prop :=
  ∀ q l, ReflTransGen (Goes fs) p q → fs.link q = some l → followLink q l ≠ none

inductive LinePair (fs : FileSystem) (ws : List Text) : Text × Text → Prop where
  | busybox {target : Text} : readItem fs.libdir ws = .busybox target →
      LinePair fs ws (Ramdisk.busybox, target)
  | listed {p target : Text} : readItem fs.libdir ws = .file p target → LinePair fs ws (p, target)
  | link {p target q : Text} : readItem fs.libdir ws = .file p target → TransGen (Goes fs) p q →
      LinePair fs ws (q, q)

def LineEntry (fs : FileSystem) (ws : List Text) (w : Text) : Prop :=
  ∃ p target f, readItem fs.libdir ws = .file p target ∧ Final fs (Goes fs) p f ∧
    ∃ line ∈ fs.ldd f, lddEntry line = some w

structure Good (fs : FileSystem) (ws : List Text) : Prop where
  target : readItem fs.libdir ws ≠ .missingTarget
  readable : ∀ p target, readItem fs.libdir ws = .file p target → fs.readable p = true

variable {fs : FileSystem}

theorem Final.unique {next : Text → Text → Prop} (hnext : ∀ p q q', next p q → next p q' → q = q')
    (hlink : ∀ p q, next p q → fs.link p ≠ none) {p f f' : Text} (h : Final fs next p f) (h' : Final fs next p f') :
    f = f' := by
  obtain ⟨hf, hend⟩ := h
  induction hf using ReflTransGen.head_induction_on with
  | refl =>
    rcases h'.1.cases_head with heq | ⟨q, hq, -⟩
    · exact heq
    · exact absurd hend (hlink _ _ hq)
  | head hstep hrest ih =>
    apply ih
    rcases h'.1.cases_head with heq | ⟨q, hq, hqf⟩
    · rw [heq] at hstep
      exact absurd h'.2 (hlink _ _ hstep)
    · exact ⟨hnext _ _ _ hq hstep ▸ hqf, h'.2⟩

theorem Final.goes_unique {p f f' : Text} (h : Final fs (Goes fs) p f) : Final fs (Goes fs) p f' → f = f' :=
  @Final.unique fs (Goes fs) (fun _ _ _ => Goes.functional) (fun _ _ => Goes.link) p f f' h

theorem Final.next_unique {p f f' : Text} (h : Final fs (Next fs) p f) : Final fs (Next fs) p f' → f = f' :=
  @Final.unique fs (Next fs) (fun _ _ _ => Next.functional) (fun _ _ => Next.link) p f f' h

theorem getLastD_cons (x d : Text) (xs : List Text) : (x :: xs).getLastD d = xs.getLastD x := by
  cases xs <;> rfl

theorem chase_end (limit : ℕ) {p : Text} (h : fs.link p = none) : chase fs (limit + 1) p = some [] := by
  simp only [chase, h]

theorem chase_stuck (limit : ℕ) {p l : Text} (h : fs.link p = some l) (hl : followLink p l = none) :
    chase fs (limit + 1) p = none := by
  simp only [chase, h, hl]

theorem chase_step (limit : ℕ) {p l q : Text} (h : fs.link p = some l) (hl : followLink p l = some q) :
    chase fs (limit + 1) p = (chase fs limit q).map (q :: ·) := by
  simp only [chase, h, hl]

theorem transGen_goes_iff {p r q : Text} (h : Goes fs p r) :
    TransGen (Goes fs) p q ↔ q = r ∨ TransGen (Goes fs) r q := by
  constructor
  · intro hq
    obtain ⟨r', hr, hrq⟩ := TransGen.head'_iff.mp hq
    rw [hr.functional h] at hrq
    exact reflTransGen_iff_eq_or_transGen.mp hrq
  · rintro (rfl | hq)
    · exact .single h
    · exact .head h hq

theorem chaseEnds_end {p : Text} (h : fs.link p = none) : ChaseEnds fs p := by
  intro q l hq hl
  rcases hq.cases_head with rfl | ⟨r, hr, -⟩
  · rw [h] at hl
    cases hl
  · exact absurd h hr.link

theorem chaseEnds_step {p q : Text} (h : Goes fs p q) (hq : ChaseEnds fs q) : ChaseEnds fs p := by
  intro r l hr hl
  rcases hr.cases_head with rfl | ⟨r', hr', hrest⟩
  · obtain ⟨l', hl', hfollow⟩ := h
    obtain rfl := Option.some.inj (hl'.symm.trans hl)
    rw [hfollow]
    exact Option.some_ne_none q
  · exact hq r l (hr'.functional h ▸ hrest) hl

theorem chase_some {limit : ℕ} {p : Text} {names : List Text} (h : chase fs limit p = some names) :
    (∀ q, q ∈ names ↔ TransGen (Goes fs) p q) ∧ Final fs (Goes fs) p (names.getLastD p) ∧ ChaseEnds fs p := by
  induction limit generalizing p names with
  | zero => cases h
  | succ limit ih =>
    cases hlink : fs.link p with
    | none =>
      rw [chase_end limit hlink] at h
      obtain rfl := Option.some.inj h
      refine ⟨fun q => ⟨fun hq => absurd hq List.not_mem_nil, fun hq => ?_⟩, ⟨.refl, hlink⟩, chaseEnds_end hlink⟩
      obtain ⟨r, hr, -⟩ := TransGen.head'_iff.mp hq
      exact absurd hlink hr.link
    | some l =>
      cases hnext : followLink p l with
      | none =>
        rw [chase_stuck limit hlink hnext] at h
        cases h
      | some next =>
        rw [chase_step limit hlink hnext] at h
        obtain ⟨rest, hrest, rfl⟩ := Option.map_eq_some_iff.mp h
        obtain ⟨hmem, hfinal, hends⟩ := ih hrest
        have hstep : Goes fs p next := ⟨l, hlink, hnext⟩
        refine ⟨fun q => ?_, ?_, chaseEnds_step hstep hends⟩
        · rw [List.mem_cons, hmem, transGen_goes_iff hstep]
        · rw [getLastD_cons]
          exact ⟨.head hstep hfinal.1, hfinal.2⟩

theorem linePair_skipped {ws : List Text} (h : readItem fs.libdir ws = .skipped) (e : Text × Text) :
    ¬ LinePair fs ws e := by
  rintro (⟨hp⟩ | ⟨hp⟩ | ⟨hp, -⟩)
  all_goals
    rw [h] at hp
    cases hp

theorem linePair_busybox {ws : List Text} {target : Text} (h : readItem fs.libdir ws = .busybox target)
    (e : Text × Text) : LinePair fs ws e ↔ e = (busybox, target) := by
  constructor
  · rintro (⟨hp⟩ | ⟨hp⟩ | ⟨hp, -⟩)
    all_goals
      rw [h] at hp
      cases hp
    rfl
  · rintro rfl
    exact .busybox h

theorem linePair_file {ws : List Text} {bin target : Text} (h : readItem fs.libdir ws = .file bin target)
    (e : Text × Text) :
    LinePair fs ws e ↔ e = (bin, target) ∨ ∃ q, TransGen (Goes fs) bin q ∧ (q, q) = e := by
  constructor
  · rintro (⟨hp⟩ | ⟨hp⟩ | ⟨hp, hq⟩)
    all_goals
      rw [h] at hp
      cases hp
    · exact .inl rfl
    · exact .inr ⟨_, hq, rfl⟩
  · rintro (rfl | ⟨q, hq, rfl⟩)
    · exact .listed h
    · exact .link h hq

theorem not_lineEntry {ws : List Text} (h : ∀ p target, readItem fs.libdir ws ≠ .file p target) (w : Text) :
    ¬ LineEntry fs ws w :=
  fun ⟨p, target, _, hp, _⟩ => h p target hp

theorem lineEntry_file {ws : List Text} {bin target f : Text} (h : readItem fs.libdir ws = .file bin target)
    (hf : Final fs (Goes fs) bin f) (w : Text) : LineEntry fs ws w ↔ ∃ line ∈ fs.ldd f, lddEntry line = some w := by
  constructor
  · rintro ⟨p, target', f', hp, hf', hw⟩
    rw [h] at hp
    cases hp
    rwa [hf.goes_unique hf']
  · exact fun hw => ⟨bin, target, f, h, hf, hw⟩

theorem processLine_some {limit : ℕ} {s s' : Round} {ws : List Text} (hws : Good fs ws)
    (h : processLine fs limit s ws = some s') :
    (∀ e, e ∈ s'.proc ↔ e ∈ s.proc ∨ LinePair fs ws e) ∧
    (∀ w, w ∈ s'.new ↔ w ∈ s.new ∨ LineEntry fs ws w) ∧ s'.error = s.error ∧
    ∀ p target, readItem fs.libdir ws = .file p target → ChaseEnds fs p := by
  unfold processLine at h
  cases hitem : readItem fs.libdir ws with
  | skipped =>
    rw [hitem] at h
    obtain rfl := Option.some.inj h
    have hno : ∀ p target, readItem fs.libdir ws ≠ .file p target := by simp [hitem]
    refine ⟨fun e => ?_, fun w => ?_, rfl, fun p target hp => by cases hp⟩
    · rw [or_iff_left (linePair_skipped hitem e)]
    · rw [or_iff_left (not_lineEntry hno w)]
  | missingTarget => exact absurd hitem hws.target
  | busybox target =>
    rw [hitem] at h
    obtain rfl := Option.some.inj h
    have hno : ∀ p target, readItem fs.libdir ws ≠ .file p target := by simp [hitem]
    refine ⟨fun e => ?_, fun w => ?_, rfl, fun p target hp => by cases hp⟩
    · rw [List.mem_append, List.mem_singleton, linePair_busybox hitem]
    · rw [or_iff_left (not_lineEntry hno w)]
  | file bin target =>
    rw [hitem] at h
    dsimp only at h
    rw [hws.readable bin target hitem] at h
    cases hchase : chase fs limit bin with
    | none =>
      rw [hchase] at h
      cases h
    | some names =>
      rw [hchase] at h
      obtain rfl := Option.some.inj h
      obtain ⟨hnames, hfinal, hends⟩ := chase_some hchase
      refine ⟨fun e => ?_, fun w => ?_, rfl, fun p target' hp => ?_⟩
      · simp only [List.mem_append, List.mem_cons, List.mem_map, hnames, linePair_file hitem]
      · rw [List.mem_append, List.mem_filterMap, lineEntry_file hitem hfinal]
      · cases hp
        exact hends

theorem processTmpFile_some {limit : ℕ} {tmp : List (List Text)} {s s' : Round}
    (htmp : ∀ ws ∈ tmp, Good fs ws) (h : processTmpFile fs limit tmp s = some s') :
    (∀ e, e ∈ s'.proc ↔ e ∈ s.proc ∨ ∃ ws ∈ tmp, LinePair fs ws e) ∧
    (∀ w, w ∈ s'.new ↔ w ∈ s.new ∨ ∃ ws ∈ tmp, LineEntry fs ws w) ∧ s'.error = s.error ∧
    ∀ ws ∈ tmp, ∀ p target, readItem fs.libdir ws = .file p target → ChaseEnds fs p := by
  induction tmp generalizing s with
  | nil =>
    obtain rfl := Option.some.inj h
    simp
  | cons ws tmp ih =>
    rw [processTmpFile] at h
    cases hline : processLine fs limit s ws with
    | none =>
      rw [hline] at h
      cases h
    | some t =>
      rw [hline] at h
      rw [List.forall_mem_cons] at htmp
      obtain ⟨hproc, hnew, herror, hends⟩ := processLine_some htmp.1 hline
      obtain ⟨hproc', hnew', herror', hends'⟩ := ih htmp.2 h
      refine ⟨fun e => ?_, fun w => ?_, herror'.trans herror, List.forall_mem_cons.mpr ⟨hends, hends'⟩⟩
      · simp only [hproc', hproc, List.exists_mem_cons_iff, or_assoc]
      · simp only [hnew', hnew, List.exists_mem_cons_iff, or_assoc]

theorem substLib_plain (libdir : Text) {s : Text} (hs : '%' ∉ s) : substLib libdir s = s := by
  induction s with
  | nil => rfl
  | cons c s ih =>
    rw [List.mem_cons, not_or] at hs
    have hno : ¬ startsWith "%LIB%".toList (c :: s) = true := by
      rw [startsWith_iff]
      intro h
      exact hs.1 (List.cons_prefix_cons.mp h).1
    rw [substLib, if_neg hno, ih hs.2]

theorem lddEntry_word {line : List Text} (hline : ∀ v ∈ line, IsWord shBlank v) {w : Text}
    (h : lddEntry line = some w) : w = [] ∨ IsWord shBlank w := by
  cases line with
  | nil => cases h
  | cons name rest =>
    rw [lddEntry] at h
    split_ifs at h
    obtain rfl := Option.some.inj h
    cases hrest : rest.drop 1 with
    | nil => exact .inl rfl
    | cons shlib dummy =>
      right
      apply hline
      apply List.mem_cons_of_mem
      apply List.mem_of_mem_drop
      rw [hrest]
      exact List.mem_cons_self ..

theorem readItem_path {p : Text} (hp : PathName p) (hlib : '%' ∉ p) :
    readItem fs.libdir [p] = .file p p := by
  obtain ⟨s, rfl⟩ := startsWith_iff.mp hp.startsWith
  have hhash : startsWith ['#'] (['/'] ++ s) = false := rfl
  have hparen : startsWith ['('] (['/'] ++ s) = false := rfl
  have hbusybox : ['/'] ++ s ≠ busybox := by
    intro h
    have hhead : some '/' = busybox.head? := congrArg List.head? h
    revert hhead
    decide
  simp only [readItem, hhash, hparen, hbusybox, substLib_plain _ hlib, Bool.false_eq_true, if_false,
    List.headD_nil]

theorem readItem_entry {f w : Text} {line : List Text} (hline : line ∈ fs.ldd f)
    (hw : lddEntry line = some w) :
    (isSpecial w = true ∧ readItem fs.libdir (words shBlank w) = .skipped) ∨
    (isSpecial w = false ∧ readItem fs.libdir (words shBlank w) = .file w w ∧ fs.readable w = true) := by
  rcases lddEntry_word (fs.ldd_words f line hline) hw with rfl | hword
  · exact .inl ⟨rfl, by rw [words_nil]; rfl⟩
  · rw [words_word hword]
    cases hspecial : isSpecial w with
    | true =>
      have hparen : startsWith ['('] w = true := by
        rw [isSpecial, Bool.or_eq_true, List.isEmpty_iff] at hspecial
        exact hspecial.resolve_left hword.1
      refine .inl ⟨rfl, ?_⟩
      rw [readItem]
      split_ifs
      · rfl
      · rfl
    | false =>
      obtain ⟨-, hread, hpath, hlib⟩ := fs.ldd_files f line hline w hw hspecial
      exact .inr ⟨rfl, readItem_path hpath hlib, hread⟩

def NextLines (fs : FileSystem) (tmp tmp' : List (List Text)) : Prop :=
  ∀ ws, ws ∈ tmp' ↔ ∃ w, (∃ line ∈ tmp, LineEntry fs line w) ∧ ws = words shBlank w

variable {tmp tmp' : List (List Text)}

theorem NextLines.good (h : NextLines fs tmp tmp') : ∀ ws ∈ tmp', Good fs ws := by
  intro ws hws
  obtain ⟨w, ⟨line, -, p, target, f, -, -, dep, hdep, hw⟩, rfl⟩ := (h ws).mp hws
  rcases readItem_entry hdep hw with ⟨-, hitem⟩ | ⟨-, hitem, hread⟩
  · constructor
    · rw [hitem]
      exact Item.noConfusion
    · intro p target hp
      rw [hitem] at hp
      cases hp
  · constructor
    · rw [hitem]
      exact Item.noConfusion
    · intro p target hp
      rw [hitem] at hp
      cases hp
      exact hread

theorem NextLines.file (h : NextLines fs tmp tmp') {ws : List Text} (hws : ws ∈ tmp') {q target : Text}
    (hq : readItem fs.libdir ws = .file q target) :
    target = q ∧ ∃ line ∈ tmp, ∃ p t, readItem fs.libdir line = .file p t ∧ Needs fs (Goes fs) p q := by
  obtain ⟨w, ⟨line, hline, p, t, f, hp, hf, dep, hdep, hw⟩, rfl⟩ := (h ws).mp hws
  rcases readItem_entry hdep hw with ⟨-, hitem⟩ | ⟨hspecial, hitem, -⟩
  · rw [hitem] at hq
    cases hq
  · rw [hitem] at hq
    cases hq
    exact ⟨rfl, line, hline, p, t, hp, f, hf, ⟨dep, hdep, hw⟩, hspecial⟩

theorem NextLines.not_busybox (h : NextLines fs tmp tmp') {ws : List Text} (hws : ws ∈ tmp')
    (target : Text) : readItem fs.libdir ws ≠ .busybox target := by
  obtain ⟨w, ⟨line, -, p, t, f, -, -, dep, hdep, hw⟩, rfl⟩ := (h ws).mp hws
  rcases readItem_entry hdep hw with ⟨-, hitem⟩ | ⟨-, hitem, -⟩
  · rw [hitem]
    exact Item.noConfusion
  · rw [hitem]
    exact Item.noConfusion

theorem NextLines.of_needs (h : NextLines fs tmp tmp') {line : List Text} (hline : line ∈ tmp)
    {p target q : Text} (hp : readItem fs.libdir line = .file p target) (hq : Needs fs (Goes fs) p q) :
    ∃ ws ∈ tmp', readItem fs.libdir ws = .file q q := by
  obtain ⟨f, hf, ⟨dep, hdep, hw⟩, hspecial⟩ := hq
  refine ⟨words shBlank q, (h _).mpr ⟨q, ⟨line, hline, p, target, f, hp, hf, dep, hdep, hw⟩, rfl⟩, ?_⟩
  rcases readItem_entry hdep hw with ⟨hno, -⟩ | ⟨-, hitem, -⟩
  · rw [hspecial] at hno
    cases hno
  · exact hitem

theorem NextLines.processed (h : NextLines fs tmp tmp') {p : Text} : Processed fs (Goes fs) tmp p ↔
    (∃ ws ∈ tmp, ∃ target, readItem fs.libdir ws = .file p target) ∨ Processed fs (Goes fs) tmp' p := by
  constructor
  · intro hp
    induction hp with
    | listed hws hp => exact .inl ⟨_, hws, _, hp⟩
    | library hp hq ih =>
      rcases ih with ⟨ws, hws, target, hitem⟩ | hlater
      · obtain ⟨line, hline, hitem⟩ := h.of_needs hws hitem hq
        exact .inr (.listed hline hitem)
      · exact .inr (.library hlater hq)
  · rintro (⟨ws, hws, target, hp⟩ | hp)
    · exact .listed hws hp
    · induction hp with
      | listed hws hp =>
        obtain ⟨-, line, hline, p, t, hitem, hneeds⟩ := h.file hws hp
        exact .library (.listed hline hitem) hneeds
      | library hp hq ih => exact .library ih hq

theorem NextLines.inClosure (h : NextLines fs tmp tmp') {e : Text × Text} : InClosure fs (Goes fs) tmp e ↔
    (∃ ws ∈ tmp, LinePair fs ws e) ∨ InClosure fs (Goes fs) tmp' e := by
  constructor
  · rintro (⟨hws, hitem⟩ | ⟨hws, hitem⟩ | ⟨hp, hlink⟩ | ⟨hp, hneeds⟩)
    · exact .inl ⟨_, hws, .busybox hitem⟩
    · exact .inl ⟨_, hws, .listed hitem⟩
    · rcases h.processed.mp hp with ⟨ws, hws, target, hitem⟩ | hlater
      · exact .inl ⟨ws, hws, .link hitem hlink⟩
      · exact .inr (.link hlater hlink)
    · rcases h.processed.mp hp with ⟨ws, hws, target, hitem⟩ | hlater
      · obtain ⟨line, hline, hitem⟩ := h.of_needs hws hitem hneeds
        exact .inr (.listed hline hitem)
      · exact .inr (.library hlater hneeds)
  · rintro (⟨ws, hws, hitem | hitem | ⟨hitem, hlink⟩⟩ | hlater)
    · exact .busybox hws hitem
    · exact .listed hws hitem
    · exact .link (.listed hws hitem) hlink
    · rcases hlater with ⟨hws, hitem⟩ | ⟨hws, hitem⟩ | ⟨hp, hlink⟩ | ⟨hp, hneeds⟩
      · exact absurd hitem (h.not_busybox hws _)
      · obtain ⟨rfl, line, hline, p, t, hitem, hneeds⟩ := h.file hws hitem
        exact .library (.listed hline hitem) hneeds
      · exact .link (h.processed.mpr (.inr hp)) hlink
      · exact .library (h.processed.mpr (.inr hp)) hneeds

theorem nextLines_of_new {s : Round} (hs : ∀ w, w ∈ s.new ↔ ∃ ws ∈ tmp, LineEntry fs ws w) :
    NextLines fs tmp ((sortUniq s.new).map (words shBlank)) := by
  intro ws
  rw [List.mem_map]
  constructor
  · rintro ⟨w, hw, rfl⟩
    rw [mem_sortUniq, hs] at hw
    exact ⟨w, hw, rfl⟩
  · rintro ⟨w, hw, rfl⟩
    rw [← hs, ← mem_sortUniq] at hw
    exact ⟨w, hw, rfl⟩

theorem not_processed_nil {p : Text} : ¬ Processed fs (Goes fs) [] p := by
  intro h
  induction h with
  | listed hws _ => exact List.not_mem_nil hws
  | library _ _ ih => exact ih

theorem not_inClosure_nil {e : Text × Text} : ¬ InClosure fs (Goes fs) [] e := by
  rintro (⟨hws, -⟩ | ⟨hws, -⟩ | ⟨hp, -⟩ | ⟨hp, -⟩)
  · exact List.not_mem_nil hws
  · exact List.not_mem_nil hws
  · exact not_processed_nil hp
  · exact not_processed_nil hp

def Deep (fs : FileSystem) : ℕ → Text → Prop
  | 0, _ => True
  | n + 1, p => ∃ q, Needs fs (Goes fs) p q ∧ Deep fs n q

theorem nextLines_of_round {limit : ℕ} {s t : Round} (htmp : ∀ ws ∈ tmp, Good fs ws) (hs : s.new = [])
    (hround : processTmpFile fs limit tmp s = some t) :
    NextLines fs tmp ((sortUniq t.new).map (words shBlank)) := by
  apply nextLines_of_new
  intro w
  rw [(processTmpFile_some htmp hround).2.1, hs]
  simp

theorem baseLoop_succ {limit fuel : ℕ} {s s' : Round} (h : baseLoop fs limit (fuel + 1) tmp s = some s') :
    ∃ t, processTmpFile fs limit tmp s = some t ∧ (t.new = [] ∧ s' = t ∨
      baseLoop fs limit fuel ((sortUniq t.new).map (words shBlank)) { t with new := [] } = some s') := by
  rw [baseLoop] at h
  cases hround : processTmpFile fs limit tmp s with
  | none =>
    rw [hround] at h
    cases h
  | some t =>
    rw [hround] at h
    refine ⟨t, rfl, ?_⟩
    dsimp only at h
    split_ifs at h with hnone
    · exact .inl ⟨List.isEmpty_iff.mp hnone, (Option.some.inj h).symm⟩
    · exact .inr h

theorem baseLoop_some {limit fuel : ℕ} {s s' : Round} (htmp : ∀ ws ∈ tmp, Good fs ws)
    (hs : s.new = []) (h : baseLoop fs limit fuel tmp s = some s') :
    (∀ e, e ∈ s'.proc ↔ e ∈ s.proc ∨ InClosure fs (Goes fs) tmp e) ∧ s'.error = s.error ∧
    (∀ p, Processed fs (Goes fs) tmp p → ChaseEnds fs p) ∧
    ∀ ws ∈ tmp, ∀ p target, readItem fs.libdir ws = .file p target → ¬ Deep fs fuel p := by
  induction fuel generalizing tmp s with
  | zero => cases h
  | succ fuel ih =>
    obtain ⟨t, hround, hlast⟩ := baseLoop_succ h
    obtain ⟨hproc, -, herror, hends⟩ := processTmpFile_some htmp hround
    have hnext := nextLines_of_round htmp hs hround
    -- an empty new list closes the loop as a round over nothing would
    have hrest : (∀ e, e ∈ s'.proc ↔ e ∈ t.proc ∨ InClosure fs (Goes fs) ((sortUniq t.new).map (words shBlank)) e) ∧
        s'.error = t.error ∧
        (∀ p, Processed fs (Goes fs) ((sortUniq t.new).map (words shBlank)) p → ChaseEnds fs p) ∧
        ∀ ws ∈ (sortUniq t.new).map (words shBlank), ∀ p target,
          readItem fs.libdir ws = .file p target → ¬ Deep fs fuel p := by
      rcases hlast with ⟨hnone, rfl⟩ | hloop
      · rw [hnone, sortUniq, sorted, List.insertionSort_nil, dropRepeats, List.map_nil]
        refine ⟨fun e => ?_, rfl, fun p hp => absurd hp not_processed_nil, by simp⟩
        rw [or_iff_left not_inClosure_nil]
      · exact ih (s := { t with new := [] }) hnext.good rfl hloop
    obtain ⟨hproc', herror', hends', hdeep⟩ := hrest
    refine ⟨fun e => ?_, herror'.trans herror, fun p hp => ?_, fun ws hws p target hp => ?_⟩
    · rw [hproc', hproc, hnext.inClosure, or_assoc]
    · rcases hnext.processed.mp hp with ⟨ws, hws, target, hitem⟩ | hlater
      · exact hends ws hws p target hitem
      · exact hends' p hlater
    · rintro ⟨q, hq, hrest⟩
      obtain ⟨line, hline, hitem⟩ := hnext.of_needs hws hp hq
      exact hdeep line hline q q hitem hrest

theorem exists_processLine {limit : ℕ} {ws : List Text} (s : Round)
    (h : ∀ p target, readItem fs.libdir ws = .file p target → (chase fs limit p).isSome) :
    ∃ s', processLine fs limit s ws = some s' := by
  unfold processLine
  cases hitem : readItem fs.libdir ws with
  | skipped => exact ⟨_, rfl⟩
  | busybox target => exact ⟨_, rfl⟩
  | missingTarget => exact ⟨_, rfl⟩
  | file bin target =>
    obtain ⟨names, hnames⟩ := Option.isSome_iff_exists.mp (h bin target hitem)
    dsimp only
    rw [hnames]
    split_ifs
    · exact ⟨_, rfl⟩
    · exact ⟨_, rfl⟩

theorem exists_processTmpFile {limit : ℕ} (s : Round) (h : ∀ ws ∈ tmp, ∀ p target,
    readItem fs.libdir ws = .file p target → (chase fs limit p).isSome) :
    ∃ s', processTmpFile fs limit tmp s = some s' := by
  induction tmp generalizing s with
  | nil => exact ⟨s, rfl⟩
  | cons ws tmp ih =>
    rw [List.forall_mem_cons] at h
    obtain ⟨t, ht⟩ := exists_processLine s h.1
    rw [processTmpFile, ht]
    exact ih t h.2

theorem exists_baseLoop {limit : ℕ} (n : ℕ) {s : Round} (htmp : ∀ ws ∈ tmp, Good fs ws)
    (hs : s.new = []) (hchase : ∀ p, Processed fs (Goes fs) tmp p → (chase fs limit p).isSome)
    (hdeep : ∀ ws ∈ tmp, ∀ p target, readItem fs.libdir ws = .file p target → ¬ Deep fs n p) :
    ∃ s', baseLoop fs limit (n + 1) tmp s = some s' := by
  induction n generalizing tmp s with
  | zero =>
    have hround : ∃ t, processTmpFile fs limit tmp s = some t :=
      exists_processTmpFile s (fun ws hws p target hp => hchase p (.listed hws hp))
    obtain ⟨t, ht⟩ := hround
    have hnew : t.new = [] := by
      rw [List.eq_nil_iff_forall_not_mem]
      intro w hw
      rw [(processTmpFile_some htmp ht).2.1, hs] at hw
      rcases hw with hw | ⟨ws, hws, p, target, f, hp, -⟩
      · exact List.not_mem_nil hw
      · exact hdeep ws hws p target hp trivial
    exact ⟨t, by simp only [baseLoop, ht, hnew, List.isEmpty_nil, if_true]⟩
  | succ n ih =>
    have hround : ∃ t, processTmpFile fs limit tmp s = some t :=
      exists_processTmpFile s (fun ws hws p target hp => hchase p (.listed hws hp))
    obtain ⟨t, ht⟩ := hround
    have hnext := nextLines_of_round htmp hs ht
    have hrest : ∃ s', baseLoop fs limit (n + 1) ((sortUniq t.new).map (words shBlank))
        { t with new := [] } = some s' := by
      apply ih hnext.good rfl
      · exact fun p hp => hchase p (hnext.processed.mpr (.inr hp))
      · intro ws hws q target hq hdeepq
        obtain ⟨-, line, hline, p, t, hp, hneeds⟩ := hnext.file hws hq
        exact hdeep line hline p t hp ⟨q, hneeds, hdeepq⟩
    rw [baseLoop, ht]
    dsimp only
    split_ifs
    · exact ⟨t, rfl⟩
    · exact hrest

theorem deep_of_cycle {p : Text} (h : TransGen (Needs fs (Goes fs)) p p) (n : ℕ) : Deep fs n p := by
  have hall : ∀ n, ∀ q, ReflTransGen (Needs fs (Goes fs)) q p → Deep fs n q := by
    intro n
    induction n with
    | zero => exact fun _ _ => trivial
    | succ n ih =>
      intro q hq
      have hcycle : TransGen (Needs fs (Goes fs)) q p := TransGen.trans_right hq h
      obtain ⟨r, hr, hrp⟩ := TransGen.head'_iff.mp hcycle
      exact ⟨r, hr, ih r hrp⟩
  exact hall n p .refl

theorem deep_of_needs {p q : Text} (h : Needs fs (Goes fs) p q) (hq : ∀ n, Deep fs n q) (n : ℕ) : Deep fs n p := by
  cases n with
  | zero => trivial
  | succ n => exact ⟨q, h, hq n⟩

theorem not_deep_of_listed {n : ℕ} (h : ∀ ws ∈ tmp, ∀ p target,
    readItem fs.libdir ws = .file p target → ¬ Deep fs n p) {p : Text} (hp : Processed fs (Goes fs) tmp p) :
    ¬ ∀ n, Deep fs n p := by
  induction hp with
  | listed hws hitem => exact fun hdeep => h _ hws _ _ hitem (hdeep n)
  | library _ hneeds ih => exact fun hdeep => ih (deep_of_needs hneeds hdeep)

theorem RequiredBinaries.good (required : RequiredBinaries fs) : ∀ ws ∈ required.lines, Good fs ws :=
  fun ws hws => ⟨required.targets ws hws, required.exist ws hws⟩

theorem mem_substLib {libdir s : Text} {c : Char} (h : c ∈ substLib libdir s) : c ∈ libdir ∨ c ∈ s := by
  induction s with
  | nil => exact .inr h
  | cons d s ih =>
    rw [substLib] at h
    split_ifs at h
    · rcases List.mem_append.mp h with h | h
      · exact .inl h
      · exact .inr (List.mem_of_mem_drop h)
    · rcases List.mem_cons.mp h with rfl | h
      · exact .inr (List.mem_cons_self ..)
      · exact (ih h).imp_right (List.mem_cons_of_mem _)

theorem noBlank_libdir : ∀ c ∈ fs.libdir, shBlank c = false := by
  unfold FileSystem.libdir
  cases fs.lib64 <;> decide

theorem readItem_file {libdir : Text} {ws : List Text} {p target : Text}
    (h : readItem libdir ws = .file p target) : ws ≠ [] ∧ p = substLib libdir (ws.headD []) := by
  match ws with
  | [] => cases h
  | bin :: rest =>
    refine ⟨List.cons_ne_nil _ _, ?_⟩
    simp only [readItem] at h
    split_ifs at h
    · cases rest <;> cases h
    · cases h
      rfl

section

variable {next : Text → Text → Prop}

theorem Needs.isWord {p q : Text} (h : Needs fs next p q) : IsWord shBlank q := by
  obtain ⟨f, -, ⟨line, hline, hw⟩, hspecial⟩ := h
  rcases lddEntry_word (fs.ldd_words f line hline) hw with rfl | hword
  · cases hspecial
  · exact hword

theorem Needs.mem_libraries {p q : Text} (h : Needs fs next p q) : q ∈ fs.libraries := by
  obtain ⟨f, -, ⟨line, hline, hw⟩, hspecial⟩ := h
  exact (fs.ldd_files f line hline q hw hspecial).1

theorem InClosure.noBlank {required : RequiredBinaries fs} {e : Text × Text}
    (hnext : ∀ {p q}, next p q → ∀ x ∈ q, shBlank x = false) (h : InClosure fs next required.lines e) :
    ' ' ∉ e.1 := by
  have hblank : ∀ s : Text, (∀ c ∈ s, shBlank c = false) → ' ' ∉ s := by
    intro s hs hmem
    exact absurd (hs ' ' hmem) (by decide)
  cases h with
  | busybox =>
    have hbusybox : ' ' ∉ Ramdisk.busybox := by decide
    exact hbusybox
  | listed hws hitem =>
    obtain ⟨hne, rfl⟩ := readItem_file hitem
    obtain ⟨bin, rest, rfl⟩ := List.exists_cons_of_ne_nil hne
    apply hblank
    intro c hc
    rcases mem_substLib hc with hc | hc
    · exact noBlank_libdir c hc
    · exact (required.words _ hws bin (List.mem_cons_self ..)).2 c hc
  | link _ hlink =>
    obtain ⟨r, -, hr⟩ := TransGen.tail'_iff.mp hlink
    exact hblank _ (hnext hr)
  | library _ hneeds => exact hblank _ hneeds.isWord.2

end

theorem procLine_inj {e e' : Text × Text} (he : ' ' ∉ e.1) (he' : ' ' ∉ e'.1) (heq : procLine e = procLine e') :
    e = e' := by
  have hsplit := splitFirst_append e.1 e.2 he
  rw [show e.1 ++ ' ' :: e.2 = procLine e' from heq, procLine, splitFirst_append e'.1 e'.2 he'] at hsplit
  exact (Option.some.inj hsplit).symm

def candidates (required : RequiredBinaries fs) : List Text :=
  required.lines.map (fun ws => substLib fs.libdir (ws.headD [])) ++ fs.libraries

theorem Processed.mem_candidates {next : Text → Text → Prop} {required : RequiredBinaries fs} {p : Text}
    (h : Processed fs next required.lines p) : p ∈ candidates required := by
  cases h with
  | listed hws hitem =>
    apply List.mem_append_left
    exact List.mem_map.mpr ⟨_, hws, (readItem_file hitem).2.symm⟩
  | library _ hneeds => exact List.mem_append_right _ hneeds.mem_libraries

theorem makeBase_lists {required : RequiredBinaries fs} {limit fuel : ℕ} {procfile : List Text}
    (h : makeBase fs limit fuel required.lines = some (some procfile)) :
    (∀ x, x ∈ procfile ↔ ∃ e, InClosure fs (Goes fs) required.lines e ∧ procLine e = x) ∧ procfile.Nodup ∧
      (∀ p, Processed fs (Goes fs) required.lines p → ChaseEnds fs p ∧ ¬ TransGen (Needs fs (Goes fs)) p p) := by
  obtain ⟨s, hloop, hout⟩ := Option.map_eq_some_iff.mp h
  obtain ⟨hproc, herror, hends, hdeep⟩ := baseLoop_some required.good rfl hloop
  rw [herror] at hout
  obtain rfl := Option.some.inj hout
  refine ⟨fun x => ?_, sortUniq_nodup _, fun p hp => ⟨hends p hp, fun hcycle => ?_⟩⟩
  · rw [mem_sortUniq, List.mem_map]
    simp only [hproc, List.not_mem_nil, false_or]
  · exact not_deep_of_listed hdeep hp (deep_of_cycle hcycle)

theorem exists_not_deep {required : RequiredBinaries fs}
    (h : ∀ p, Processed fs (Goes fs) required.lines p → ¬ TransGen (Needs fs (Goes fs)) p p) (p : Text) :
    ∃ n, ∀ m ≥ n, Processed fs (Goes fs) required.lines p → ¬ Deep fs m p := by
  let r := fun p q => Processed fs (Goes fs) required.lines p ∧ Needs fs (Goes fs) p q
  have hmem : ∀ p q, r p q → q ∈ fs.libraries := fun p q hpq => hpq.2.mem_libraries
  have hcycle : ∀ p, ¬ TransGen r p p := by
    intro p hp
    obtain ⟨q, hq, -⟩ := TransGen.head'_iff.mp hp
    exact h p hq.1 (hp.lift id (fun _ _ h => h.2))
  have hacc : Acc (fun q p => r p q) p := Acyclic.acc_of_finite (List.finite_toSet _) hmem hcycle p
  apply Acyclic.exists_level_of_mem hmem _ hacc
  rintro n p ih hp ⟨q, hq, hdeep⟩
  exact ih q ⟨hp, hq⟩ (.library hp hq) hdeep

theorem makeBase_ends {required : RequiredBinaries fs}
    (hcycle : ∀ p, Processed fs (Goes fs) required.lines p → ¬ TransGen (Needs fs (Goes fs)) p p)
    (hchase : ∀ p, Processed fs (Goes fs) required.lines p → ∃ n, ∀ m ≥ n, (chase fs m p).isSome) :
    ∃ limit fuel procfile, makeBase fs limit fuel required.lines = some (some procfile) := by
  have hlevel : ∀ p ∈ candidates required, ∃ n, ∀ m ≥ n, Processed fs (Goes fs) required.lines p →
      (chase fs m p).isSome ∧ ¬ Deep fs m p := by
    intro p _
    by_cases hp : Processed fs (Goes fs) required.lines p
    · obtain ⟨k, hk⟩ := hchase p hp
      obtain ⟨n, hn⟩ := exists_not_deep hcycle p
      exact ⟨max k n, fun m hm _ => ⟨hk m (by omega), hn m (by omega) hp⟩⟩
    · exact ⟨0, fun m _ hp' => absurd hp' hp⟩
  obtain ⟨n, hn⟩ := Acyclic.exists_level_forall hlevel
  have hloop : ∃ s, baseLoop fs n (n + 1) required.lines ⟨[], [], false⟩ = some s := by
    apply exists_baseLoop n required.good rfl
    · exact fun p hp => (hn n le_rfl p hp.mem_candidates hp).1
    · intro ws hws p target hitem
      have hp : Processed fs (Goes fs) required.lines p := .listed hws hitem
      exact (hn n le_rfl p hp.mem_candidates hp).2
  obtain ⟨s, hs⟩ := hloop
  obtain ⟨-, herror, -⟩ := baseLoop_some required.good rfl hs
  refine ⟨n, n + 1, sortUniq (s.proc.map procLine), ?_⟩
  rw [makeBase, hs, Option.map_some, herror]
  rfl

theorem followable_next {p q : Text} (h : Followable fs p) (hq : Next fs p q) : Followable fs q :=
  fun r l hr => h r l (.head hq hr)

theorem Followable.goes_iff {p q r : Text} (h : Followable fs p) (hq : ReflTransGen (Next fs) p q) :
    Goes fs q r ↔ Next fs q r := by
  constructor
  · rintro ⟨l, hl, hr⟩
    obtain ⟨r', hr', hnext⟩ := h q l hq hl
    obtain rfl := Option.some.inj (hr.symm.trans hr')
    exact hnext
  · intro hr
    obtain ⟨l, hl⟩ := Option.ne_none_iff_exists'.mp hr.link
    obtain ⟨r', hr', hnext⟩ := h q l hq hl
    rw [hnext.functional hr] at hr'
    exact ⟨l, hl, hr'⟩

theorem Followable.reflTransGen_iff {p q : Text} (h : Followable fs p) :
    ReflTransGen (Goes fs) p q ↔ ReflTransGen (Next fs) p q := by
  constructor
  · intro hq
    induction hq with
    | refl => exact .refl
    | tail _ hstep ih => exact ih.tail ((h.goes_iff ih).mp hstep)
  · intro hq
    induction hq with
    | refl => exact .refl
    | tail hpre hstep ih => exact ih.tail ((h.goes_iff hpre).mpr hstep)

theorem Followable.transGen_iff {p q : Text} (h : Followable fs p) :
    TransGen (Goes fs) p q ↔ TransGen (Next fs) p q := by
  rw [TransGen.tail'_iff, TransGen.tail'_iff]
  constructor
  · rintro ⟨r, hr, hq⟩
    rw [h.reflTransGen_iff] at hr
    exact ⟨r, hr, (h.goes_iff hr).mp hq⟩
  · rintro ⟨r, hr, hq⟩
    exact ⟨r, h.reflTransGen_iff.mpr hr, (h.goes_iff hr).mpr hq⟩

theorem Followable.needs_iff {p q : Text} (h : Followable fs p) :
    Needs fs (Goes fs) p q ↔ Needs fs (Next fs) p q := by
  simp only [Needs, Final, h.reflTransGen_iff]

section

variable {lines : List (List Text)}

theorem processed_goes_iff (h : ∀ p, Processed fs (Next fs) lines p → Followable fs p) {p : Text} :
    Processed fs (Goes fs) lines p ↔ Processed fs (Next fs) lines p := by
  constructor
  · intro hp
    induction hp with
    | listed hws hitem => exact .listed hws hitem
    | library _ hneeds ih => exact .library ih ((h _ ih).needs_iff.mp hneeds)
  · intro hp
    induction hp with
    | listed hws hitem => exact .listed hws hitem
    | library hp hneeds ih => exact .library ih ((h _ hp).needs_iff.mpr hneeds)

theorem inClosure_goes_iff (h : ∀ p, Processed fs (Next fs) lines p → Followable fs p) {e : Text × Text} :
    InClosure fs (Goes fs) lines e ↔ InClosure fs (Next fs) lines e := by
  constructor
  · rintro (⟨hws, hitem⟩ | ⟨hws, hitem⟩ | ⟨hp, hlink⟩ | ⟨hp, hneeds⟩)
    · exact .busybox hws hitem
    · exact .listed hws hitem
    · rw [processed_goes_iff h] at hp
      exact .link hp ((h _ hp).transGen_iff.mp hlink)
    · rw [processed_goes_iff h] at hp
      exact .library hp ((h _ hp).needs_iff.mp hneeds)
  · rintro (⟨hws, hitem⟩ | ⟨hws, hitem⟩ | ⟨hp, hlink⟩ | ⟨hp, hneeds⟩)
    · exact .busybox hws hitem
    · exact .listed hws hitem
    · exact .link ((processed_goes_iff h).mpr hp) ((h _ hp).transGen_iff.mpr hlink)
    · exact .library ((processed_goes_iff h).mpr hp) ((h _ hp).needs_iff.mpr hneeds)

theorem needs_cycle_iff (h : ∀ p, Processed fs (Next fs) lines p → Followable fs p) {p : Text}
    (hp : Processed fs (Next fs) lines p) :
    TransGen (Needs fs (Goes fs)) p p ↔ TransGen (Needs fs (Next fs)) p p := by
  have hgoes : ∀ {q}, TransGen (Needs fs (Goes fs)) p q →
      TransGen (Needs fs (Next fs)) p q ∧ Processed fs (Next fs) lines q := by
    intro q hq
    induction hq with
    | single hneeds =>
      have hnext := (h p hp).needs_iff.mp hneeds
      exact ⟨.single hnext, .library hp hnext⟩
    | tail _ hneeds ih =>
      have hnext := (h _ ih.2).needs_iff.mp hneeds
      exact ⟨ih.1.tail hnext, .library ih.2 hnext⟩
  have hnext : ∀ {q}, TransGen (Needs fs (Next fs)) p q →
      TransGen (Needs fs (Goes fs)) p q ∧ Processed fs (Next fs) lines q := by
    intro q hq
    induction hq with
    | single hneeds => exact ⟨.single ((h p hp).needs_iff.mpr hneeds), .library hp hneeds⟩
    | tail _ hneeds ih => exact ⟨ih.1.tail ((h _ ih.2).needs_iff.mpr hneeds), .library ih.2 hneeds⟩
  exact ⟨fun hq => (hgoes hq).1, fun hq => (hnext hq).1⟩

end

def LinkStep (fs : FileSystem) (q q' : List Text) : Prop :=
  ∃ l, fs.linkAt q = some l ∧ fs.place (targetText q l) = some q'

theorem exists_chase_at (fs : FileSystem) (q : List Text) :
    ∃ n, ∀ m ≥ n, ∀ p, fs.place p = some q → Followable fs p → (chase fs m p).isSome := by
  have hmem : ∀ q q', LinkStep fs q q' →
      q' ∈ fs.links.map (fun q => (fs.place (targetText q ((fs.linkAt q).getD []))).getD []) := by
    rintro q q' ⟨l, hl, hq'⟩
    refine List.mem_map.mpr ⟨q, fs.links_finite q (by rw [hl]; exact Option.some_ne_none l), ?_⟩
    rw [hl, Option.getD_some, hq', Option.getD_some]
  have hacc : Acc (fun q' q => LinkStep fs q q') q :=
    Acyclic.acc_of_finite (List.finite_toSet _) hmem fs.links_acyclic q
  apply Acyclic.exists_level_of_mem hmem _ hacc
  intro n q ih p hp hfollow
  cases hlink : fs.link p with
  | none =>
    rw [chase_end n hlink]
    rfl
  | some l =>
    obtain ⟨r, hr, hnext⟩ := hfollow p l .refl hlink
    obtain ⟨place, l', target, hplace, hl', htarget, rfl⟩ := id hnext
    obtain rfl := Option.some.inj (hp.symm.trans hplace)
    rw [chase_step n hlink hr, Option.isSome_map]
    exact ih target ⟨l', hl', htarget⟩ _ (place_nameOfTarget htarget) (followable_next hfollow hnext)

theorem exists_chase {p : Text} (h : Followable fs p) : ∃ n, ∀ m ≥ n, (chase fs m p).isSome := by
  cases hplace : fs.place p with
  | none =>
    refine ⟨1, fun m hm => ?_⟩
    obtain ⟨k, rfl⟩ : ∃ k, m = k + 1 := ⟨m - 1, by omega⟩
    rw [chase_end k (by rw [FileSystem.link, hplace]; rfl)]
    rfl
  | some q =>
    obtain ⟨n, hn⟩ := exists_chase_at fs q
    exact ⟨n, fun m hm => hn m hm p hplace h⟩

variable {required : RequiredBinaries fs}

theorem listsClosure_of_unwinds (h : Unwinds fs required) : ListsClosure fs required := by
  have hprocessed : ∀ {p}, Processed fs (Goes fs) required.lines p → Processed fs (Next fs) required.lines p :=
    (processed_goes_iff h.links).mp
  obtain ⟨limit, fuel, procfile, hmake⟩ := makeBase_ends
    (fun p hp hcycle => h.acyclic p (hprocessed hp) ((needs_cycle_iff h.links (hprocessed hp)).mp hcycle))
    (fun p hp => exists_chase (h.links p (hprocessed hp)))
  obtain ⟨hmem, hnodup, -⟩ := makeBase_lists hmake
  refine ⟨limit, fuel, procfile, hmake, hnodup, fun e he => ?_, fun e he e' he' => ?_, fun x hx => ?_⟩
  · exact (hmem _).mpr ⟨e, (inClosure_goes_iff h.links).mpr he, rfl⟩
  · exact procLine_inj (InClosure.noBlank Next.noBlank he) (InClosure.noBlank Next.noBlank he')
  · obtain ⟨e, he, rfl⟩ := (hmem x).mp hx
    exact ⟨e, (inClosure_goes_iff h.links).mp he, rfl⟩

theorem not_accidental_of_unwinds (h : Unwinds fs required) : ¬ Accidental fs required := by
  rintro ⟨p, q, r, hp, hq, hr, hno, -⟩
  have hfollow := h.links p ((processed_goes_iff h.links).mp hp)
  exact hno ((hfollow.goes_iff (hfollow.reflTransGen_iff.mp hq)).mp hr)

theorem unwinds_of_listsClosure (h : ListsClosure fs required) (hno : ¬ Accidental fs required) :
    Unwinds fs required := by
  obtain ⟨limit, fuel, procfile, hmake, -, hmaps, hinj, hsurj⟩ := h
  obtain ⟨hmem, -, hends⟩ := makeBase_lists hmake
  have hlisted : ∀ e, InClosure fs (Goes fs) required.lines e → InClosure fs (Next fs) required.lines e := by
    intro e he
    obtain ⟨e', he', heq⟩ := hsurj ((hmem (procLine e)).mpr ⟨e, he, rfl⟩)
    rwa [← procLine_inj (InClosure.noBlank Next.noBlank he') (InClosure.noBlank Goes.noBlank he) heq]
  -- a name the script goes on with is listed, so that it is the right one or an accident
  have hright : ∀ p q r, Processed fs (Goes fs) required.lines p → ReflTransGen (Goes fs) p q → Goes fs q r →
      Next fs q r := by
    intro p q r hp hq hr
    by_contra hwrong
    exact hno ⟨p, q, r, hp, hq, hr, hwrong, hlisted _ (.link hp (TransGen.tail' hq hr))⟩
  have hfollow : ∀ p, Processed fs (Goes fs) required.lines p → Followable fs p := by
    intro p hp q l hq hl
    have hgoes : ∀ q, ReflTransGen (Next fs) p q → ReflTransGen (Goes fs) p q := by
      intro q hq
      induction hq with
      | refl => exact .refl
      | @tail b c _ hstep ih =>
        obtain ⟨l, hl⟩ := Option.ne_none_iff_exists'.mp hstep.link
        obtain ⟨r, hr⟩ := Option.ne_none_iff_exists'.mp ((hends p hp).1 b l ih hl)
        rw [hstep.functional (hright p b r hp ih ⟨l, hl, hr⟩)]
        exact ih.tail ⟨l, hl, hr⟩
    obtain ⟨r, hr⟩ := Option.ne_none_iff_exists'.mp ((hends p hp).1 q l (hgoes q hq) hl)
    exact ⟨r, hr, hright p q r hp (hgoes q hq) ⟨l, hl, hr⟩⟩
  have hprocessed : ∀ {p}, Processed fs (Next fs) required.lines p → Processed fs (Goes fs) required.lines p := by
    intro p hp
    induction hp with
    | listed hws hitem => exact .listed hws hitem
    | library _ hneeds ih => exact .library ih ((hfollow _ ih).needs_iff.mpr hneeds)
  have hlinks : ∀ p, Processed fs (Next fs) required.lines p → Followable fs p :=
    fun p hp => hfollow p (hprocessed hp)
  exact ⟨fun p hp hcycle => (hends p (hprocessed hp)).2 ((needs_cycle_iff hlinks hp).mpr hcycle), hlinks⟩

theorem listsClosure_iff_unwinds (fs : FileSystem) (required : RequiredBinaries fs) :
    ListsClosure fs required ∧ ¬ Accidental fs required ↔ Unwinds fs required :=
  ⟨fun h => unwinds_of_listsClosure h.1 h.2, fun h => ⟨listsClosure_of_unwinds h, not_accidental_of_unwinds h⟩⟩

def isPathName (p : Text) : Bool :=
  startsWith ['/'] p && (components p).all (fun c => (!startsWith dots c || c == dots) && c.all nameChar) &&
    (components p).tail.all (fun c => !c.isEmpty)

theorem pathName_of_isPathName {p : Text} (h : isPathName p = true) : PathName p := by
  rw [isPathName, Bool.and_eq_true, Bool.and_eq_true, startsWith_iff] at h
  obtain ⟨⟨hslash, hall⟩, htail⟩ := h
  have hne : components p ≠ [] := by
    obtain ⟨s, rfl⟩ := hslash
    rw [List.singleton_append, components_cons]
    exact List.splitOn_ne_nil _ _
  refine ⟨(components p).dropLast, (components p).getLast hne, ?_, ?_⟩
  all_goals rw [List.dropLast_append_getLast]
  · exact (render_components hslash).symm
  · simp only [List.all_eq_true, Bool.and_eq_true, Bool.or_eq_true, Bool.not_eq_true', beq_iff_eq] at hall htail
    refine ⟨⟨slash_not_mem_components hslash, fun c hc hdots => ?_, fun c hc => ?_⟩, fun c hc => (hall c hc).2⟩
    · exact (hall c hc).1.resolve_left (by simp [hdots])
    · simpa using htail c hc

def placeIn (dirs files : List (List Text)) (p : Text) : Option (List Text) :=
  if isPathName p && (trail [] (stepsOf p).dropLast).all dirs.contains && files.contains (placeOf p) then
    some (placeOf p)
  else none

theorem placeIn_name {dirs files : List (List Text)} (hfiles : ∀ q ∈ files,
    placeIn dirs files (render q) = some q ∧ ∀ c ∈ q, ∀ x ∈ c, nameChar x = true) (p : Text) (q : List Text)
    (h : placeIn dirs files p = some q) :
    PathName p ∧ placeIn dirs files (render q) = some q ∧ ∀ c ∈ q, ∀ x ∈ c, nameChar x = true := by
  rw [placeIn] at h
  split_ifs at h with hp
  obtain rfl := Option.some.inj h
  rw [Bool.and_eq_true, Bool.and_eq_true, List.contains_iff_mem] at hp
  exact ⟨pathName_of_isPathName hp.1.1, hfiles _ hp.2⟩

def udev : Text := "/sbin/udevd".toList

def libA : Text := "/lib/liba.so.1".toList

def libB : Text := "/lib/libb.so.1".toList

def lineA : List Text := ["liba.so.1".toList, "=>".toList, libA, "(0xb7f00000)".toList]

def lineB : List Text := ["libb.so.1".toList, "=>".toList, libB, "(0xb7e00000)".toList]

theorem lddEntry_lineA : lddEntry lineA = some libA := by decide

theorem lddEntry_lineB : lddEntry lineB = some libB := by decide

theorem pathName_libA : PathName libA :=
  ⟨["lib".toList], "liba.so.1".toList, by decide, ⟨by decide, by decide, by decide⟩, by decide⟩

theorem pathName_libB : PathName libB :=
  ⟨["lib".toList], "libb.so.1".toList, by decide, ⟨by decide, by decide, by decide⟩, by decide⟩

def mutualLdd (p : Text) : List (List Text) :=
  if p = udev then [lineA, lineB]
  else if p = libA then [lineB]
  else if p = libB then [lineA]
  else []

theorem mem_mutualLdd {p : Text} {ws : List Text} (h : ws ∈ mutualLdd p) :
    ws = lineA ∨ ws = lineB := by
  unfold mutualLdd at h
  split_ifs at h
  · exact List.mem_pair.mp h
  · exact .inr (List.mem_singleton.mp h)
  · exact .inl (List.mem_singleton.mp h)
  · exact absurd h List.not_mem_nil

def mutualDirs : List (List Text) := [[], ["sbin".toList], ["lib".toList]]

def mutualFiles : List (List Text) := [udev, libA, libB].map components

def mutualLibs : FileSystem where
  lib64 := false
  place := placeIn mutualDirs mutualFiles
  linkAt := fun _ => none
  links := []
  readable := fun p => p ∈ [udev, libA, libB]
  ldd := mutualLdd
  libraries := [libA, libB]
  place_name := placeIn_name (by decide +kernel)
  links_finite := fun _ h => absurd rfl h
  link_text := by
    intro q l h
    cases h
  links_acyclic := by
    intro p h
    obtain ⟨q, ⟨l, hl, -⟩, -⟩ := TransGen.head'_iff.mp h
    cases hl
  ldd_words := by
    intro p ws hws
    rcases mem_mutualLdd hws with rfl | rfl
    · unfold IsWord
      decide
    · unfold IsWord
      decide
  ldd_files := by
    intro p ws hws q hq _
    rcases mem_mutualLdd hws with rfl | rfl
    · obtain rfl := Option.some.inj (lddEntry_lineA.symm.trans hq)
      exact ⟨by decide, by decide, pathName_libA, by decide⟩
    · obtain rfl := Option.some.inj (lddEntry_lineB.symm.trans hq)
      exact ⟨by decide, by decide, pathName_libB, by decide⟩

def udevList : RequiredBinaries mutualLibs where
  lines := [[udev]]
  words := by
    intro ws hws w hw
    obtain rfl := List.mem_singleton.mp hws
    obtain rfl := List.mem_singleton.mp hw
    exact ⟨by decide, by decide⟩
  targets := by
    intro ws hws
    obtain rfl := List.mem_singleton.mp hws
    exact Item.noConfusion
  exist := by
    intro ws hws bin target h
    obtain rfl := List.mem_singleton.mp hws
    obtain ⟨-, rfl⟩ := readItem_file h
    decide

theorem mutual_link (p : Text) : mutualLibs.link p = none := by
  rw [FileSystem.link]
  cases mutualLibs.place p <;> rfl

theorem mutual_libraries_never_listed : ¬ ListsClosure mutualLibs udevList := by
  rintro ⟨limit, fuel, procfile, hmake, -⟩
  obtain ⟨-, -, hends⟩ := makeBase_lists hmake
  have hneeds : ∀ p q line, line ∈ mutualLdd p → lddEntry line = some q → isSpecial q = false →
      Needs mutualLibs (Goes mutualLibs) p q :=
    fun p q line hline hq hspecial => ⟨p, ⟨.refl, mutual_link p⟩, ⟨line, hline, hq⟩, hspecial⟩
  have hAB := hneeds libA libB lineB (by decide) lddEntry_lineB (by decide)
  have hBA := hneeds libB libA lineA (by decide) lddEntry_lineA (by decide)
  have hitem : readItem mutualLibs.libdir [udev] = .file udev udev := rfl
  have hudev : Processed mutualLibs (Goes mutualLibs) udevList.lines udev :=
    .listed (List.mem_singleton.mpr rfl) hitem
  have hA : Processed mutualLibs (Goes mutualLibs) udevList.lines libA :=
    .library hudev (hneeds udev libA lineA (by decide) lddEntry_lineA (by decide))
  exact (hends libA hA).2 (.tail (.single hAB) hBA)

end CgxLayer.Ramdisk
