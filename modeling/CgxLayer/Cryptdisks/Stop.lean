import CgxLayer.Cryptdisks.Start
import CgxLayer.Peeling

namespace CgxLayer.Cryptdisks

open Text Peeling

def busyCode : InitState → ℕ
  | .early => 1
  | .manual => 1
  | .remaining => 2
  | .udev => 0

/-- `handle_crypttab_line_stop` with its return code; what has nothing on it closes without an error. -/
def handleCrypttabLineStop (state : InitState) (k : Kernel) (e : TabEntry) : Kernel × ℕ :=
  if k.has e.dst = false then (k, 0)
  else if k.openCount e.dst ≠ 0 then
    (k, busyCode state)
  else (k.drop e.dst, 0)

/-- The loop of `do_stop` for one line, `sleep` being what goes on meanwhile. -/
def stopEntry (state : InitState) (sleep : ℕ → Kernel → Kernel) (e : TabEntry) : List ℕ → Kernel → Kernel
  | [], k => k
  | i :: is, k =>
    match handleCrypttabLineStop state k e with
    | (k, 0) => k
    | (k, ret) => if ret = 1 ∨ (ret = 2 ∧ 16 < i) then k else stopEntry state sleep e is (sleep i k)

def doStop (state : InitState) (sleep : ℕ → Kernel → Kernel) (es : List TabEntry) (k : Kernel) : Kernel :=
  es.foldl (fun k e => stopEntry state sleep e [1, 2, 4, 8, 16, 32] k) k

def stops (state : InitState) (sleep : ℕ → Kernel → Kernel) (es : List TabEntry) : ℕ → Kernel → Kernel
  | 0, k => k
  | n + 1, k => doStop state sleep es (stops state sleep es n k)

/-- A mapping that is open from outside, or under one that is, or with so many levels above it. -/
def InUse (openers : Text → ℕ) (ms : List Mapping) : ℕ → Mapping → Prop
  | 0, _ => True
  | n + 1, m => 0 < openers m.name ∨ ∃ above ∈ ms, above.under = m.path ∧ InUse openers ms n above

def pile (openers : Text → ℕ) : Pile Mapping Text where
  key := Mapping.path
  base := Mapping.under
  held path := 0 < openers (path.drop mapperDir.length)

def TabEntry.path (e : TabEntry) : Text := mapperDir ++ e.dst

variable {state : InitState} {sleep : ℕ → Kernel → Kernel} {k : Kernel} {e : TabEntry} {es : List TabEntry}

theorem held_path (openers : Text → ℕ) (name : Text) :
    (pile openers).held (mapperDir ++ name) = true ↔ 0 < openers name := by
  simp [pile]

theorem path_injective {name name' : Text} (h : mapperDir ++ name = mapperDir ++ name') : name = name' :=
  List.append_cancel_left h

theorem openCount_ne : k.openCount e.dst ≠ 0 ↔
    ((pile k.openers).held e.path || (pile k.openers).covered k.mappings e.path) = true := by
  rw [Bool.or_eq_true, TabEntry.path, held_path, covered_iff, Kernel.openCount]
  have hcount : 0 < k.mappings.countP (fun m => m.under = mapperDir ++ e.dst) ↔
      ∃ m ∈ k.mappings, m.under = mapperDir ++ e.dst := by
    rw [List.countP_pos_iff]
    simp
  rw [← Nat.pos_iff_ne_zero, Nat.add_pos_iff_pos_or_pos, hcount]
  rfl

theorem drop_mappings : (k.drop e.dst).mappings = k.mappings.filter (fun m => (pile k.openers).key m ≠ e.path) := by
  apply List.filter_congr
  intro m _
  have hiff : m.name ≠ e.dst ↔ m.path ≠ e.path :=
    ⟨fun h hpath => h (path_injective hpath), fun h hname => h (congrArg (mapperDir ++ ·) hname)⟩
  exact decide_eq_decide.mpr hiff

theorem stop_mappings (state : InitState) (k : Kernel) (e : TabEntry) :
    (handleCrypttabLineStop state k e).1.mappings = (pile k.openers).visit k.mappings e.path ∧
      (handleCrypttabLineStop state k e).1.openers = k.openers := by
  rw [handleCrypttabLineStop, Pile.visit]
  by_cases hhas : k.has e.dst = false
  · rw [if_pos hhas, ← drop_mappings, Kernel.drop_absent hhas, ite_self]
    exact ⟨rfl, rfl⟩
  · rw [if_neg hhas]
    by_cases hcount : k.openCount e.dst ≠ 0
    · rw [if_pos hcount, if_pos (openCount_ne.mp hcount)]
      exact ⟨rfl, rfl⟩
    · rw [if_neg hcount, if_neg (fun hheld => hcount (openCount_ne.mpr hheld))]
      exact ⟨drop_mappings, rfl⟩

-- But for a stop of the remaining disks no line is tried again.
theorem stopEntry_once (h : state ≠ .remaining) (i : ℕ) (is : List ℕ) (k : Kernel) :
    stopEntry state sleep e (i :: is) k = (handleCrypttabLineStop state k e).1 := by
  rw [stopEntry, handleCrypttabLineStop]
  split_ifs
  · rfl
  · cases state with
    | early => rfl
    | udev => rfl
    | manual => rfl
    | remaining => exact absurd rfl h
  · rfl

theorem doStop_mappings (h : state ≠ .remaining) (es : List TabEntry) (k : Kernel) :
    (doStop state sleep es k).mappings = (pile k.openers).pass (es.map TabEntry.path) k.mappings ∧
      (doStop state sleep es k).openers = k.openers := by
  induction es generalizing k with
  | nil => exact ⟨rfl, rfl⟩
  | cons e es ih =>
    obtain ⟨hmappings, hopeners⟩ := stop_mappings state k e
    obtain ⟨hrest, hrest'⟩ := ih (handleCrypttabLineStop state k e).1
    rw [doStop, List.foldl_cons, stopEntry_once h]
    refine ⟨hrest.trans ?_, hrest'.trans hopeners⟩
    rw [hmappings, hopeners]
    rfl

theorem stops_mappings (h : state ≠ .remaining) (n : ℕ) (k : Kernel) :
    (stops state sleep es n k).mappings = (pile k.openers).rounds (es.map TabEntry.path) n k.mappings ∧
      (stops state sleep es n k).openers = k.openers := by
  induction n with
  | zero => exact ⟨rfl, rfl⟩
  | succ n ih =>
    obtain ⟨hmappings, hopeners⟩ := @doStop_mappings state sleep h es (stops state sleep es n k)
    refine ⟨hmappings.trans ?_, hopeners.trans ih.2⟩
    rw [ih.1, ih.2]
    rfl

theorem stays_iff {openers : Text → ℕ} {ks : List Text} {ms : List Mapping} (hks : ∀ m ∈ ms, m.path ∈ ks)
    (n : ℕ) {m : Mapping} (hm : m ∈ ms) :
    (pile openers).Stays ks ms n m ↔ InUse openers ms n m := by
  induction n generalizing m with
  | zero => exact Iff.rfl
  | succ n ih =>
    have hlisted : ¬ (pile openers).key m ∉ ks := not_not.mpr (hks m hm)
    rw [Pile.Stays, InUse, or_iff_right hlisted]
    refine or_congr (held_path openers m.name) (exists_congr (fun above => ?_))
    exact and_congr_right (fun habove => and_congr_right (fun _ => ih habove))

structure Grounded (openers : Text → ℕ) (es rest : List TabEntry) (ms : List Mapping) : Prop where
  listed : ∀ m ∈ ms, m.path ∈ es.map TabEntry.path
  below : ∀ m ∈ ms, m.under ∉ rest.map TabEntry.path
  ordered : (pile openers).BasesFirst (es.map TabEntry.path) ms

variable {s : Setting} {w : Disks} {k' : Kernel} {rest : List TabEntry} {openers : Text → ℕ} {ms : List Mapping}

theorem basesFirst_concat {ks : List Text} {q : Text} (h : (pile openers).BasesFirst ks ms)
    (hq : ∀ m ∈ ms, m.under ≠ q) : (pile openers).BasesFirst (ks ++ [q]) ms := by
  intro as p bs hks m hm hbase
  rcases List.eq_nil_or_concat' bs with rfl | ⟨bs, b, rfl⟩
  · obtain ⟨-, hpq⟩ := List.append_inj' hks rfl
    exact absurd (hbase.trans (List.head_eq_of_cons_eq hpq).symm) (hq m hm)
  · rw [← List.cons_append, ← List.append_assoc] at hks
    exact h as p bs (List.append_inj' hks rfl).1 m hm hbase

theorem basesFirst_add {ks : List Text} {q : Text} {m : Mapping} (h : (pile openers).BasesFirst (ks ++ [q]) ms)
    (hpath : m.path = q) (hks : q ∉ ks) : (pile openers).BasesFirst (ks ++ [q]) (ms ++ [m]) := by
  intro as p bs hsplit y hy hbase
  obtain hy | hy := List.mem_append.mp hy
  · exact h as p bs hsplit y hy hbase
  · obtain rfl := List.mem_singleton.mp hy
    have hprefix : as <+: ks := by
      rcases List.eq_nil_or_concat' bs with rfl | ⟨bs, b, rfl⟩
      · rw [(List.append_inj' hsplit rfl).1]
      · rw [← List.cons_append, ← List.append_assoc] at hsplit
        exact ⟨p :: bs, (List.append_inj' hsplit rfl).1.symm⟩
    intro hmem
    exact hks (hpath ▸ hprefix.subset hmem)

theorem paths_nodup (h : (es.map TabEntry.dst).Nodup) : (es.map TabEntry.path).Nodup := by
  have hmap : es.map TabEntry.path = (es.map TabEntry.dst).map (mapperDir ++ ·) := (List.map_map).symm
  rw [hmap]
  exact h.map (fun _ _ => path_injective)

theorem grounded_next (hnodup : ((es ++ e :: rest).map TabEntry.dst).Nodup)
    (hfresh : ∀ e' ∈ rest, w.present e'.path = false) (h : Grounded openers es (e :: rest) k.mappings)
    {code fuel : ℕ} (hline : handleCrypttabLineStart s w fuel k e = some (k', code)) :
    Grounded openers (es ++ [e]) rest k'.mappings := by
  have hpaths : (es ++ [e]).map TabEntry.path = es.map TabEntry.path ++ [e.path] := List.map_append
  have hdisjoint := paths_nodup hnodup
  rw [List.map_append, List.map_cons, List.nodup_append] at hdisjoint
  obtain ⟨-, -, hapart⟩ := hdisjoint
  have hkept : Grounded openers (es ++ [e]) rest k.mappings := by
    refine ⟨fun m hm => ?_, fun m hm hrest => h.below m hm (List.mem_cons_of_mem _ hrest), ?_⟩
    · rw [hpaths]
      exact List.mem_append_left _ (h.listed m hm)
    · rw [hpaths]
      exact basesFirst_concat h.ordered (fun m hm heq => h.below m hm (heq ▸ List.mem_cons_self ..))
  obtain rfl | ⟨-, hadded⟩ := lineStart_cases hline
  · exact hkept
  · obtain rfl := hadded.made
    refine ⟨fun m hm => ?_, fun m hm hrest => ?_, ?_⟩
    · obtain hm | hm := List.mem_append.mp hm
      · exact hkept.listed m hm
      · obtain rfl := List.mem_singleton.mp hm
        rw [hpaths]
        exact List.mem_append_right _ (List.mem_singleton_self _)
    · obtain hm | hm := List.mem_append.mp hm
      · exact hkept.below m hm hrest
      · obtain rfl := List.mem_singleton.mp hm
        obtain ⟨e', he', hpath⟩ := List.mem_map.mp hrest
        have hunder : e'.path = w.links (sourcePath e.src) := hpath
        obtain hpresent | hmapped := Bool.or_eq_true_iff.mp hadded.readable
        · rw [← hunder, hfresh e' he'] at hpresent
          cases hpresent
        · obtain ⟨m, hm, hpath⟩ := List.any_eq_true.mp hmapped
          have hearlier := h.listed m hm
          rw [of_decide_eq_true hpath, ← hunder] at hearlier
          exact hapart _ hearlier _ (List.mem_cons_of_mem _ (List.mem_map_of_mem he')) rfl
    · have hordered := hkept.ordered
      rw [hpaths] at hordered ⊢
      exact basesFirst_add hordered rfl (fun hmem => hapart _ hmem _ (List.mem_cons_self ..) rfl)

theorem grounded_doStart {fuel : ℕ} (hnodup : ((es ++ rest).map TabEntry.dst).Nodup)
    (hfresh : ∀ e ∈ rest, w.present e.path = false) (h : Grounded openers es rest k.mappings)
    (hstart : doStart s w fuel k rest = some k') : Grounded openers (es ++ rest) [] k'.mappings := by
  induction rest generalizing es k with
  | nil =>
    cases hstart
    rw [List.append_nil]
    exact h
  | cons e rest ih =>
    obtain ⟨middle, code, hline, hrest⟩ := doStart_cons hstart
    have hfresh' := (List.forall_mem_cons.mp hfresh).2
    have hnext := grounded_next hnodup hfresh' h hline
    rw [List.append_cons] at hnodup ⊢
    exact ih hnodup hfresh' hnext hrest

theorem stops_take_levels (s : Setting) (w : Disks) (fuel : ℕ) (es : List TabEntry) (openers openers' : Text → ℕ)
    (k : Kernel) (state : InitState) (sleep : ℕ → Kernel → Kernel) (hnodup : (es.map TabEntry.dst).Nodup)
    (hfresh : ∀ e ∈ es, w.present e.path = false) (hstart : doStart s w fuel ⟨[], openers⟩ es = some k)
    (hstate : state ≠ .remaining) (n : ℕ) (m : Mapping) :
    m ∈ (stops state sleep es n { k with openers := openers' }).mappings ↔
      m ∈ k.mappings ∧ InUse openers' k.mappings n m := by
  have hempty : Grounded openers' [] es ([] : List Mapping) :=
    ⟨fun m hm => absurd hm List.not_mem_nil, fun m hm => absurd hm List.not_mem_nil,
      fun as p bs hsplit y hy => absurd hy List.not_mem_nil⟩
  have hground := @grounded_doStart ⟨[], openers⟩ [] s w k es openers' fuel hnodup hfresh hempty hstart
  rw [List.nil_append] at hground
  rw [(stops_mappings hstate n _).1, mem_rounds hground.ordered]
  exact and_congr_right (fun hm => stays_iff hground.listed n hm)

theorem one_stop_leaves_base : ∃ k,
    doStart (bareSetting .early) nested 3 ⟨[], fun _ => 0⟩ (entries nestedTab) = some k ∧
    baseMapping ∈ (stops .early (fun _ k => k) (entries nestedTab) 1 k).mappings ∧
    baseMapping ∉ (stops .early (fun _ k => k) (entries nestedTab) 2 k).mappings := by
  have hmappings : (doStart (bareSetting .early) nested 3 ⟨[], fun _ => 0⟩ (entries nestedTab)).map Kernel.mappings =
      some [baseMapping, topMapping] := by
    decide +kernel
  obtain ⟨k, hstart, hk⟩ := Option.map_eq_some_iff.mp hmappings
  have hnodup : ((entries nestedTab).map TabEntry.dst).Nodup := by decide +kernel
  have hfresh : ∀ e ∈ entries nestedTab, nested.present e.path = false := by decide +kernel
  have hstops := stops_take_levels (bareSetting .early) nested 3 (entries nestedTab) (fun _ => 0) (fun _ => 0) k
    .early (fun _ k => k) hnodup hfresh hstart (fun h => by cases h)
  have hopeners : k.openers = fun _ => 0 := (doStart_adds hstart).1
  rw [← hopeners] at hstops
  refine ⟨k, hstart, (hstops 1 baseMapping).mpr ⟨by simp [hk], .inr ⟨topMapping, by simp [hk], rfl, trivial⟩⟩, ?_⟩
  rintro hstill
  obtain ⟨-, hheld | ⟨above, habove, hunder, hheld | ⟨m, hm, hpath, -⟩⟩⟩ := (hstops 2 baseMapping).mp hstill
  · rw [hopeners] at hheld
    exact absurd hheld (lt_irrefl 0)
  · rw [hopeners] at hheld
    exact absurd hheld (lt_irrefl 0)
  · rw [hk] at habove hm
    have hall : ∀ x ∈ [baseMapping, topMapping], x.under = baseMapping.path →
        ∀ y ∈ [baseMapping, topMapping], y.under ≠ x.path := by
      decide
    exact hall above habove hunder m hm hpath

end CgxLayer.Cryptdisks
