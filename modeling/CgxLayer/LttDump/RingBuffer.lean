import CgxLayer.LttDump.PacketChain

namespace CgxLayer.LttDump

variable (d : Dumper) (b : RingBuffer)

/-- The calls of `handle_buffer`'s loop and the one after it, if `fuel` rounds are enough. -/
def visitLoop (oidx ooffset : ℕ) : ℕ → ℕ → ℕ → Option (List Call)
  | 0, _, _ => none
  | fuel + 1, cidx, coffset =>
    if oidx ≠ cidx then
      (visitLoop oidx ooffset fuel ((cidx + 1) % d.numSubbuf) 0).map (⟨cidx, coffset, 0⟩ :: ·)
    else some [⟨cidx, coffset, ooffset - coffset⟩]

def visits (fuel : ℕ) : Option (List Call) :=
  visitLoop d (b.offset / d.subbufSize % d.numSubbuf) (b.offset % d.subbufSize) fuel
    (b.consumed / d.subbufSize % d.numSubbuf) (b.consumed % d.subbufSize)

def handleBuffer (fuel : ℕ) (file : Bytes) : Option Bytes :=
  (visits d b fuel).map (fun calls => calls.foldl (handleSubbuffer d b) file)

/-- The states that the tracer's overwrite mode can leave. -/
structure OverwriteMode : Prop where
  power : ∃ k, d.subbufSize = 2 ^ k
  aligned : d.subbufSize ∣ b.consumed
  consumed_le : b.consumed ≤ b.offset
  offset_le : b.offset ≤ b.consumed + d.numSubbuf * d.subbufSize

def held : ℕ := (b.offset - b.consumed + (d.subbufSize - 1)) / d.subbufSize

def heldVisits : List Call :=
  (List.range (held d b)).map (fun i => ⟨(b.consumed / d.subbufSize + i) % d.numSubbuf, 0,
    if i + 1 = held d b then (b.offset % d.subbufSize : ℕ) else 0⟩)

def heldIndices : List ℕ := (heldVisits d b).map Call.cidx

/-- The sub-buffers in use are visited in order, and any other visit extracts nothing. -/
def ExtractsHeld : Prop :=
  ∃ fuel calls, visits d b fuel = some calls ∧
    calls.filter (fun c => c.cidx ∈ heldIndices d b) = heldVisits d b ∧
    ∀ c ∈ calls, c.cidx ∉ heldIndices d b → ∀ file, handleSubbuffer d b file c = file

/-- The offset is inside a sub-buffer, or the only sub-buffer is full, or the ring is not full and
nothing is committed where the next write goes. -/
def Unmistakable : Prop :=
  b.offset % d.subbufSize ≠ 0 ∨
    (b.offset = b.consumed + d.numSubbuf * d.subbufSize ∧ d.numSubbuf = 1) ∨
    (b.offset < b.consumed + d.numSubbuf * d.subbufSize ∧
      d.subbufSize ∣ b.commitHot (b.offset / d.subbufSize % d.numSubbuf) ∧
      b.dataSize (subbufIndex d b (b.offset / d.subbufSize % d.numSubbuf)) = 0)

variable {d b}

theorem subbufSize_pos {d : Layout} : 0 < d.subbufSize := Nat.mul_pos d.size_pos d.pages_pos

theorem add_mod_ne {p t n : ℕ} (ht : 0 < t) (htn : t < n) : (p + t) % n ≠ p % n := by
  intro h
  have hzero := Nat.sub_mod_eq_zero_of_mod_eq h
  rw [Nat.add_sub_cancel_left, Nat.mod_eq_of_lt htn] at hzero
  omega

theorem visitLoop_eq (ooffset t fuel p : ℕ) (htn : t < d.numSubbuf) (hfuel : t < fuel) :
    visitLoop d ((p + t) % d.numSubbuf) ooffset fuel (p % d.numSubbuf) 0 =
      some ((List.range t).map (fun i => ⟨(p + i) % d.numSubbuf, 0, 0⟩) ++
        [⟨(p + t) % d.numSubbuf, 0, ooffset⟩]) := by
  induction t generalizing fuel p with
  | zero =>
    obtain ⟨fuel, rfl⟩ : ∃ k, fuel = k + 1 := ⟨fuel - 1, by omega⟩
    simp [visitLoop]
  | succ t ih =>
    obtain ⟨fuel, rfl⟩ : ∃ k, fuel = k + 1 := ⟨fuel - 1, by omega⟩
    have hne := add_mod_ne (p := p) (Nat.succ_pos t) htn
    have hnext := ih fuel (p + 1) (by omega) (by omega)
    have hshift : p + 1 + t = p + (t + 1) := by omega
    rw [hshift] at hnext
    rw [visitLoop, if_pos hne, Nat.mod_add_mod, hnext, Option.map_some, List.range_succ_eq_map,
      List.map_cons, List.map_map]
    simp [Function.comp_def, Nat.add_assoc, Nat.add_comm 1]

theorem visitLoop_succ {oidx ooffset fuel cidx coffset : ℕ} {calls : List Call}
    (h : visitLoop d oidx ooffset fuel cidx coffset = some calls) :
    visitLoop d oidx ooffset (fuel + 1) cidx coffset = some calls := by
  induction fuel generalizing cidx coffset calls with
  | zero => cases h
  | succ fuel ih =>
    rw [visitLoop] at h ⊢
    split_ifs at h ⊢ with hne
    · obtain ⟨rest, hrest, rfl⟩ := Option.map_eq_some_iff.mp h
      rw [ih hrest, Option.map_some]
    · exact h

theorem visits_mono {fuel fuel' : ℕ} {calls : List Call} (h : visits d b fuel = some calls)
    (hle : fuel ≤ fuel') : visits d b fuel' = some calls := by
  induction hle with
  | refl => exact h
  | step _ ih => exact visitLoop_succ ih

theorem visits_unique {fuel fuel' : ℕ} {calls calls' : List Call} (h : visits d b fuel = some calls)
    (h' : visits d b fuel' = some calls') : calls = calls' := by
  have hmax := visits_mono h (Nat.le_max_left fuel fuel')
  have hmax' := visits_mono h' (Nat.le_max_right fuel fuel')
  exact Option.some.inj (hmax.symm.trans hmax')

structure Position (d : Dumper) (b : RingBuffer) (q m r : ℕ) : Prop where
  consumed : b.consumed = q * d.subbufSize
  offset : b.offset = (q + m) * d.subbufSize + r
  rest_lt : r < d.subbufSize
  whole_le : m ≤ d.numSubbuf
  full : m = d.numSubbuf → r = 0

theorem OverwriteMode.position (h : OverwriteMode d b) : ∃ q m r, Position d b q m r := by
  obtain ⟨q, hq⟩ := h.aligned
  rw [Nat.mul_comm] at hq
  have hpos := subbufSize_pos (d := d)
  have hle := h.consumed_le
  have hmax := h.offset_le
  have hsplit := Nat.div_add_mod' (b.offset - b.consumed) d.subbufSize
  have hrest := Nat.mod_lt (b.offset - b.consumed) hpos
  refine ⟨q, (b.offset - b.consumed) / d.subbufSize, (b.offset - b.consumed) % d.subbufSize, hq, ?_,
    hrest, ?_, fun hm => ?_⟩
  · rw [Nat.add_mul, Nat.add_assoc, hsplit, ← hq]
    omega
  · apply Nat.le_of_mul_le_mul_right _ hpos
    omega
  · rw [hm] at hsplit
    omega

namespace Position

variable {q m r : ℕ}

theorem consumed_div (h : Position d b q m r) : b.consumed / d.subbufSize = q := by
  rw [h.consumed, Nat.mul_div_cancel _ subbufSize_pos]

theorem consumed_mod (h : Position d b q m r) : b.consumed % d.subbufSize = 0 := by
  rw [h.consumed, Nat.mul_mod_left]

theorem offset_div (h : Position d b q m r) : b.offset / d.subbufSize = q + m := by
  rw [h.offset, Nat.mul_comm, Nat.mul_add_div subbufSize_pos, Nat.div_eq_of_lt h.rest_lt, Nat.add_zero]

theorem offset_mod (h : Position d b q m r) : b.offset % d.subbufSize = r := by
  rw [h.offset, Nat.mul_comm, Nat.mul_add_mod, Nat.mod_eq_of_lt h.rest_lt]

theorem held_eq (h : Position d b q m r) : held d b = if r = 0 then m else m + 1 := by
  have hpos := subbufSize_pos (d := d)
  have hrest := h.rest_lt
  have hlen : b.offset - b.consumed = d.subbufSize * m + r := by
    rw [h.offset, h.consumed, Nat.add_mul, Nat.mul_comm m]
    omega
  rw [held, hlen, Nat.add_assoc, Nat.mul_add_div hpos]
  split_ifs with hr
  · rw [hr, Nat.zero_add, Nat.div_eq_of_lt (by omega), Nat.add_zero]
  · have hone : (r + (d.subbufSize - 1)) / d.subbufSize = 1 := by
      apply Nat.div_eq_of_lt_le <;> omega
    rw [hone]

theorem visits_eq (h : Position d b q m r) (hm : m < d.numSubbuf) :
    visits d b (m + 1) = some ((List.range m).map (fun i => ⟨(q + i) % d.numSubbuf, 0, 0⟩) ++
      [⟨(q + m) % d.numSubbuf, 0, r⟩]) := by
  rw [visits, h.offset_div, h.offset_mod, h.consumed_div, h.consumed_mod]
  exact visitLoop_eq r m (m + 1) q hm (Nat.lt_succ_self m)

theorem visits_full (h : Position d b q m r) (hm : m = d.numSubbuf) :
    visits d b 1 = some [⟨q % d.numSubbuf, 0, 0⟩] := by
  rw [visits, h.offset_div, h.offset_mod, h.consumed_div, h.consumed_mod, h.full hm, hm,
    Nat.add_mod_right]
  exact visitLoop_eq 0 0 1 q d.subbufs_pos (Nat.lt_succ_self 0)

theorem heldVisits_zero (h : Position d b q m r) (hr : r = 0) :
    heldVisits d b = (List.range m).map (fun i => ⟨(q + i) % d.numSubbuf, 0, 0⟩) := by
  simp only [heldVisits, h.held_eq, h.consumed_div, h.offset_mod, hr, if_true, Int.natCast_zero, ite_self]

theorem heldVisits_pos (h : Position d b q m r) (hr : r ≠ 0) :
    heldVisits d b = (List.range m).map (fun i => ⟨(q + i) % d.numSubbuf, 0, 0⟩) ++
      [⟨(q + m) % d.numSubbuf, 0, r⟩] := by
  simp only [heldVisits, h.held_eq, h.consumed_div, h.offset_mod, hr, if_false, List.range_succ,
    List.map_append, List.map_cons, List.map_nil, if_true]
  congr 1
  apply List.map_congr_left
  intro i hi
  have hlt := List.mem_range.mp hi
  have hne : ¬ i + 1 = m + 1 := by omega
  rw [if_neg hne]

end Position

theorem filter_held_self :
    (heldVisits d b).filter (fun c => c.cidx ∈ heldIndices d b) = heldVisits d b := by
  apply List.filter_eq_self.mpr
  intro c hc
  exact decide_eq_true (List.mem_map_of_mem hc)

theorem extractsHeld_of_visits {fuel : ℕ} (h : visits d b fuel = some (heldVisits d b)) :
    ExtractsHeld d b := by
  refine ⟨fuel, heldVisits d b, h, filter_held_self, fun c hc hno => ?_⟩
  exact absurd (List.mem_map_of_mem hc) hno

theorem silent_iff {c : Call} (hin : c.coffset < d.subbufSize) :
    (∀ file, handleSubbuffer d b file c = file) ↔ dumpSize d b c = 0 := by
  constructor
  · intro h
    by_contra hsize
    have hlen := congrArg List.length (h [])
    rw [handleSubbuffer_eq [] hsize, List.nil_append, (packetBytes_spec hsize hin).1] at hlen
    have hbounds := padded_bounds hsize hin
    rw [List.length_nil] at hlen
    omega
  · intro hsize file
    exact handleSubbuffer_zero file hsize

theorem committed_eq_zero_iff (hpower : ∃ k, d.subbufSize = 2 ^ k) (i : ℕ) :
    committed d b i = 0 ↔ d.subbufSize ∣ b.commitHot i ∧ b.dataSize (subbufIndex d b i) = 0 := by
  obtain ⟨k, hk⟩ := hpower
  rw [committed, hk, Nat.and_two_pow_sub_one_eq_mod, Nat.dvd_iff_mod_eq_zero]
  split_ifs with h
  · rw [and_iff_right h]
  · exact ⟨fun hzero => absurd hzero h, fun hzero => hzero.1⟩

namespace Position

variable {q m r : ℕ}

theorem not_mem_held (h : Position d b q m r) (hm : m < d.numSubbuf) (hr : r = 0) :
    (q + m) % d.numSubbuf ∉ heldIndices d b := by
  rw [heldIndices, h.heldVisits_zero hr, List.map_map]
  intro hmem
  obtain ⟨i, hi, hsame⟩ := List.mem_map.mp hmem
  have hlt := List.mem_range.mp hi
  have hne := add_mod_ne (p := q + i) (t := m - i) (n := d.numSubbuf) (by omega) (by omega)
  rw [show q + i + (m - i) = q + m by omega] at hne
  exact hne hsame.symm

theorem extractsHeld_boundary (h : Position d b q m r) (hm : m < d.numSubbuf) (hr : r = 0) :
    ExtractsHeld d b ↔ ∀ file, handleSubbuffer d b file ⟨(q + m) % d.numSubbuf, 0, 0⟩ = file := by
  have hvisits := h.visits_eq hm
  have hheld := h.heldVisits_zero hr
  have hnew := h.not_mem_held hm hr
  rw [hr, Int.natCast_zero, ← hheld] at hvisits
  constructor
  · rintro ⟨fuel, calls, hcalls, -, hothers⟩
    rw [visits_unique hcalls hvisits] at hothers
    exact hothers _ (by simp) hnew
  · intro hlast
    refine ⟨m + 1, _, hvisits, ?_, fun c hc hno => ?_⟩
    · rw [List.filter_append, filter_held_self]
      simp [hnew]
    · rcases List.mem_append.mp hc with hc | hc
      · exact absurd (List.mem_map_of_mem hc) hno
      · rw [List.mem_singleton.mp hc]
        exact hlast

-- of a full ring the loop sees only where it starts
theorem extractsHeld_full (h : Position d b q m r) (hm : m = d.numSubbuf) :
    ExtractsHeld d b ↔ d.numSubbuf = 1 := by
  have hvisits := h.visits_full hm
  have hheld := h.heldVisits_zero (h.full hm)
  constructor
  · rintro ⟨fuel, calls, hcalls, hfilter, -⟩
    rw [visits_unique hcalls hvisits] at hfilter
    have hlen := List.length_filter_le (fun c => decide (c.cidx ∈ heldIndices d b))
      [(⟨q % d.numSubbuf, 0, 0⟩ : Call)]
    rw [hfilter, hheld, List.length_map, List.length_range, hm, List.length_singleton] at hlen
    have hpos := d.subbufs_pos
    omega
  · intro hone
    have hall : visits d b 1 = some (heldVisits d b) := by
      rw [hvisits, hheld, hm, hone]
      simp
    exact extractsHeld_of_visits hall

end Position

theorem extractsHeld_iff_unmistakable (d : Dumper) (b : RingBuffer) (h : OverwriteMode d b) :
    ExtractsHeld d b ↔ Unmistakable d b := by
  obtain ⟨q, m, r, hp⟩ := h.position
  have hpos := subbufSize_pos (d := d)
  rw [Unmistakable, hp.offset_mod, hp.offset_div]
  rcases Nat.lt_or_eq_of_le hp.whole_le with hm | hm
  · have hnotfull : b.offset < b.consumed + d.numSubbuf * d.subbufSize := by
      have hmul := Nat.mul_le_mul_right d.subbufSize hm
      have hrest := hp.rest_lt
      rw [Nat.succ_mul] at hmul
      rw [hp.offset, hp.consumed, Nat.add_mul]
      omega
    by_cases hr : r = 0
    · rw [hp.extractsHeld_boundary hm hr, silent_iff (by exact hpos)]
      simp only [dumpSize, lt_irrefl, false_and, if_false, committed_eq_zero_iff h.power, hr, ne_eq,
        not_true_eq_false, false_or, hnotfull, hnotfull.ne, true_and]
    · have hvisits := hp.visits_eq hm
      rw [← hp.heldVisits_pos hr] at hvisits
      simp [extractsHeld_of_visits hvisits, hr]
  · have hfull : b.offset = b.consumed + d.numSubbuf * d.subbufSize := by
      rw [hp.offset, hp.consumed, hp.full hm, hm, Nat.add_mul, Nat.add_zero]
    rw [hp.extractsHeld_full hm]
    simp only [hp.full hm, ne_eq, not_true_eq_false, hfull, lt_irrefl, false_and, or_false, false_or, true_and]

theorem foldl_filter_of_silent {p : Call → Bool} (calls : List Call) (file : Bytes)
    (h : ∀ c ∈ calls, p c = false → ∀ file, handleSubbuffer d b file c = file) :
    calls.foldl (handleSubbuffer d b) file = (calls.filter p).foldl (handleSubbuffer d b) file := by
  induction calls generalizing file with
  | nil => rfl
  | cons c cs ih =>
    have htail := fun file => ih file (fun e he => h e (List.mem_cons_of_mem _ he))
    rw [List.foldl_cons, htail, List.filter_cons]
    cases hc : p c with
    | true => rfl
    | false =>
      rw [h c (List.mem_cons_self ..) hc]
      rfl

theorem handleBuffer_of_extractsHeld (h : ExtractsHeld d b) (file : Bytes) :
    ∃ fuel, handleBuffer d b fuel file = some ((heldVisits d b).foldl (handleSubbuffer d b) file) := by
  obtain ⟨fuel, calls, hcalls, hfilter, hsilent⟩ := h
  refine ⟨fuel, ?_⟩
  rw [handleBuffer, hcalls, Option.map_some, ← hfilter]
  congr 1
  apply foldl_filter_of_silent
  intro c hc hno
  exact hsilent c hc (of_decide_eq_false hno)

def littleGdb : Gdb := ⟨true, Bytes.encode true 8, fun _ _ => rfl⟩

def pageDumper (numSubbuf : ℕ) (h : 0 < numSubbuf) : Dumper where
  gdb := littleGdb
  pageSize := 64
  numPagesPerSubbuf := 1
  numSubbuf := numSubbuf
  idmask := 0xffffffff
  size_pos := by decide
  pageSize_pow := ⟨6, rfl⟩
  header := by decide
  pages_pos := by decide
  subbufs_pos := h
  fits := by decide

def committedBuffer (consumed offset : ℕ) : RingBuffer where
  memory := fun _ => 0
  offset := offset
  consumed := consumed
  id := fun i => i
  commitHot := fun _ => 64
  dataSize := fun _ => 64
  virt := fun i _ => 64 * i

theorem partial_last_extracted :
    OverwriteMode (pageDumper 4 (by decide)) (committedBuffer 64 138) ∧
      ExtractsHeld (pageDumper 4 (by decide)) (committedBuffer 64 138) := by
  have hmode : OverwriteMode (pageDumper 4 (by decide)) (committedBuffer 64 138) :=
    ⟨⟨6, rfl⟩, by decide, by decide, by decide⟩
  exact ⟨hmode, (extractsHeld_iff_unmistakable _ _ hmode).mpr (.inl (by decide))⟩

theorem full_ring_lost :
    OverwriteMode (pageDumper 2 (by decide)) (committedBuffer 0 128) ∧
      ¬ ExtractsHeld (pageDumper 2 (by decide)) (committedBuffer 0 128) := by
  refine ⟨⟨⟨6, rfl⟩, by decide, by decide, by decide⟩, ?_⟩
  rintro ⟨fuel, calls, hcalls, hfilter, -⟩
  have hone : visits (pageDumper 2 (by decide)) (committedBuffer 0 128) 1 = some [⟨0, 0, 0⟩] := rfl
  rw [visits_unique hcalls hone] at hfilter
  have hlen := congrArg List.length hfilter
  revert hlen
  decide

end CgxLayer.LttDump
