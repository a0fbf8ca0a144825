import CgxLayer.LttDump.RingBuffer

namespace CgxLayer.LttDump

/-- What the debugger evaluates, `none` where `parse_and_eval` raises an error. -/
structure Symbols where
  sizeofUnsignedLong : Option ℕ
  sizeofOnlineMask : Option ℕ
  onlineMaskBits : ℕ → Option ℕ
  perCpuOffset : ℕ → Option ℕ

structure CpuScan where
  cpu : ℕ
  cpus : List ℕ

def scanBits : ℕ → ℕ → CpuScan → CpuScan
  | 0, _, s => s
  | n + 1, mask, s => scanBits n (mask >>> 1) ⟨s.cpu + 1, if mask &&& 1 ≠ 0 then s.cpus ++ [s.cpu] else s.cpus⟩

def scanWord (g : Symbols) (ulongsize : ℕ) (s : CpuScan) (i : ℕ) : Option CpuScan :=
  (g.onlineMaskBits i).map (fun mask => scanBits (ulongsize * 8) mask s)

def scanMask (g : Symbols) : Option (List ℕ) := do
  let ulongsize ← g.sizeofUnsignedLong
  let size ← g.sizeofOnlineMask
  if ulongsize = 0 then none
  else
    let s ← (List.range (size / ulongsize)).foldlM (scanWord g ulongsize) ⟨0, []⟩
    some s.cpus

def getCpuList (g : Symbols) : List ℕ := (scanMask g).getD [0]

def getPercpuPtr (g : Symbols) (p cpu : ℕ) : ℕ := p + (g.perCpuOffset cpu).getD 0

/-- The loop of `invoke`, in which `ringAt` is the ring buffer at an address and each CPU has its
own output file. -/
def handleCpus (g : Symbols) (d : Dumper) (ringAt : ℕ → RingBuffer) (buf fuel : ℕ) :
    List ℕ → (ℕ → Bytes) → Option (ℕ → Bytes)
  | [], files => some files
  | cpu :: cpus, files =>
    match handleBuffer d (ringAt (getPercpuPtr g buf cpu)) fuel (files cpu) with
    | none => none
    | some file => handleCpus g d ringAt buf fuel cpus (Function.update files cpu file)

def invoke (g : Symbols) (d : Dumper) (ringAt : ℕ → RingBuffer) (buf fuel : ℕ) : Option (ℕ → Bytes) :=
  handleCpus g d ringAt buf fuel (getCpuList g) (fun _ => [])

structure OnlineMask where
  ulongsize : ℕ
  bits : List ℕ
  size_pos : 0 < ulongsize
  words : ∀ w ∈ bits, w < 2 ^ (ulongsize * 8)

def OnlineMask.wordBits (m : OnlineMask) : ℕ := m.ulongsize * 8

def OnlineMask.isOnline (m : OnlineMask) (c : ℕ) : Bool :=
  (m.bits.getD (c / m.wordBits) 0).testBit (c % m.wordBits)

def OnlineMask.symbols (m : OnlineMask) (perCpuOffset : ℕ → Option ℕ) : Symbols where
  sizeofUnsignedLong := some m.ulongsize
  sizeofOnlineMask := some (m.bits.length * m.ulongsize)
  onlineMaskBits := fun i => m.bits[i]?
  perCpuOffset := perCpuOffset

variable {m : OnlineMask} {d : Dumper} {b : RingBuffer}

theorem scanBits_eq (n mask : ℕ) (s : CpuScan) : scanBits n mask s =
    ⟨s.cpu + n, s.cpus ++ ((List.range n).filter (fun j => mask.testBit j)).map (s.cpu + ·)⟩ := by
  induction n generalizing mask s with
  | zero => simp [scanBits]
  | succ n ih =>
    have hbit : mask &&& 1 ≠ 0 ↔ mask.testBit 0 = true := by
      simp [Nat.testBit_zero, Nat.and_one_is_mod]
    have hrest : ((List.range n).filter (fun j => (mask >>> 1).testBit j)).map (s.cpu + 1 + ·) =
        (((List.range n).map (· + 1)).filter (fun j => mask.testBit j)).map (s.cpu + ·) := by
      rw [List.filter_map, List.map_map]
      simp only [Function.comp_def, Nat.testBit_shiftRight, Nat.add_comm 1, Nat.add_assoc]
    rw [scanBits, ih, List.range_succ_eq_map, hrest]
    simp only [hbit, List.filter_cons]
    cases mask.testBit 0 with
    | true => simp [Nat.add_assoc, Nat.add_comm 1]
    | false => simp [Nat.add_assoc, Nat.add_comm 1]

theorem isOnline_word {n j : ℕ} {w : ℕ} (hw : m.bits[n]? = some w) (hj : j < m.wordBits) :
    m.isOnline (n * m.wordBits + j) = w.testBit j := by
  have hpos : 0 < m.wordBits := by omega
  have hdiv : (n * m.wordBits + j) / m.wordBits = n := by
    rw [Nat.mul_comm, Nat.mul_add_div hpos, Nat.div_eq_of_lt hj, Nat.add_zero]
  have hmod : (n * m.wordBits + j) % m.wordBits = j := by
    rw [Nat.mul_comm, Nat.mul_add_mod, Nat.mod_eq_of_lt hj]
  rw [OnlineMask.isOnline, hdiv, hmod, List.getD_eq_getElem?_getD, hw, Option.getD_some]

def scanned (m : OnlineMask) (n : ℕ) : CpuScan :=
  ⟨n * m.wordBits, (List.range (n * m.wordBits)).filter m.isOnline⟩

theorem scanWord_scanned (perCpuOffset : ℕ → Option ℕ) {n : ℕ} (hn : n < m.bits.length) :
    scanWord (m.symbols perCpuOffset) m.ulongsize (scanned m n) n = some (scanned m (n + 1)) := by
  have hw : m.bits[n]? = some m.bits[n] := List.getElem?_eq_getElem hn
  have hnew : ((List.range m.wordBits).map (n * m.wordBits + ·)).filter m.isOnline =
      ((List.range m.wordBits).filter (fun j => (m.bits[n]).testBit j)).map (n * m.wordBits + ·) := by
    rw [List.filter_map]
    congr 1
    apply List.filter_congr
    intro j hj
    exact isOnline_word hw (List.mem_range.mp hj)
  have hbits : (m.symbols perCpuOffset).onlineMaskBits n = some m.bits[n] := hw
  rw [scanWord, hbits, Option.map_some, scanBits_eq, scanned, scanned, Nat.succ_mul, List.range_add,
    List.filter_append, hnew]
  rfl

theorem foldlM_scanWord (perCpuOffset : ℕ → Option ℕ) {n : ℕ} (hn : n ≤ m.bits.length) :
    (List.range n).foldlM (scanWord (m.symbols perCpuOffset) m.ulongsize) ⟨0, []⟩ = some (scanned m n) := by
  induction n with
  | zero => simp [scanned]
  | succ n ih =>
    rw [List.range_succ, List.foldlM_append, ih (by omega), Option.bind_eq_bind, Option.bind_some,
      List.foldlM_cons, scanWord_scanned perCpuOffset hn]
    rfl

theorem getCpuList_filter (m : OnlineMask) (perCpuOffset : ℕ → Option ℕ) :
    getCpuList (m.symbols perCpuOffset) = (List.range (m.bits.length * m.wordBits)).filter m.isOnline := by
  have hcount : m.bits.length * m.ulongsize / m.ulongsize = m.bits.length :=
    Nat.mul_div_cancel _ m.size_pos
  have hscan : scanMask (m.symbols perCpuOffset) = some (scanned m m.bits.length).cpus := by
    have hloop := foldlM_scanWord perCpuOffset (le_refl m.bits.length)
    simp only [scanMask, OnlineMask.symbols, Option.bind_eq_bind, Option.bind_some, hcount,
      m.size_pos.ne', if_false] at hloop ⊢
    rw [hloop, Option.bind_some]
  rw [getCpuList, hscan, Option.getD_some, scanned]

theorem lt_of_isOnline {c : ℕ} (h : m.isOnline c = true) : c < m.bits.length * m.wordBits := by
  by_contra hge
  have hpos : 0 < m.wordBits := Nat.mul_pos m.size_pos (by decide)
  have hdiv : m.bits.length ≤ c / m.wordBits := (Nat.le_div_iff_mul_le hpos).mpr (by omega)
  rw [OnlineMask.isOnline, List.getD_eq_getElem?_getD, List.getElem?_eq_none hdiv] at h
  simp at h

theorem mem_getCpuList (perCpuOffset : ℕ → Option ℕ) (c : ℕ) :
    c ∈ getCpuList (m.symbols perCpuOffset) ↔ m.isOnline c = true := by
  rw [getCpuList_filter, List.mem_filter, List.mem_range]
  exact ⟨fun h => h.2, fun h => ⟨lt_of_isOnline h, h⟩⟩

theorem getCpuList_pairwise (m : OnlineMask) (perCpuOffset : ℕ → Option ℕ) :
    (getCpuList (m.symbols perCpuOffset)).Pairwise (· < ·) := by
  rw [getCpuList_filter]
  exact List.Pairwise.filter _ List.pairwise_lt_range

theorem exists_visitLoop {oidx : ℕ} (ooffset : ℕ) {t fuel cidx : ℕ} (coffset : ℕ) (hcidx : cidx < d.numSubbuf)
    (hreach : (cidx + t) % d.numSubbuf = oidx) (hfuel : t < fuel) :
    ∃ calls, visitLoop d oidx ooffset fuel cidx coffset = some calls := by
  induction t generalizing fuel cidx coffset with
  | zero =>
    obtain ⟨fuel, rfl⟩ : ∃ k, fuel = k + 1 := ⟨fuel - 1, by omega⟩
    rw [Nat.add_zero, Nat.mod_eq_of_lt hcidx] at hreach
    exact ⟨_, by rw [visitLoop, if_neg (by omega)]⟩
  | succ t ih =>
    obtain ⟨fuel, rfl⟩ : ∃ k, fuel = k + 1 := ⟨fuel - 1, by omega⟩
    by_cases hsame : oidx = cidx
    · exact ⟨_, by rw [visitLoop, if_neg (by omega)]⟩
    · have hnext : ((cidx + 1) % d.numSubbuf + t) % d.numSubbuf = oidx := by
        rw [Nat.mod_add_mod, Nat.add_right_comm, Nat.add_assoc, hreach]
      obtain ⟨calls, hcalls⟩ := ih 0 (Nat.mod_lt _ d.subbufs_pos) hnext (by omega : t < fuel)
      exact ⟨_, by rw [visitLoop, if_pos hsame, hcalls, Option.map_some]⟩

theorem exists_handleBuffer (d : Dumper) (b : RingBuffer) (file : Bytes) :
    ∃ file', handleBuffer d b (2 * d.numSubbuf) file = some file' := by
  have hoidx := Nat.mod_lt (b.offset / d.subbufSize) d.subbufs_pos
  have hcidx := Nat.mod_lt (b.consumed / d.subbufSize) d.subbufs_pos
  have hreach : (b.consumed / d.subbufSize % d.numSubbuf +
      (b.offset / d.subbufSize % d.numSubbuf + d.numSubbuf - b.consumed / d.subbufSize % d.numSubbuf)) %
        d.numSubbuf = b.offset / d.subbufSize % d.numSubbuf := by
    rw [Nat.add_sub_cancel' (by omega), Nat.add_mod_right, Nat.mod_mod]
  obtain ⟨calls, hcalls⟩ := exists_visitLoop (b.offset % d.subbufSize) (b.consumed % d.subbufSize) hcidx
    hreach (by omega : _ < 2 * d.numSubbuf)
  exact ⟨_, by rw [handleBuffer, visits, hcalls, Option.map_some]⟩

theorem exists_handleCpus (g : Symbols) (d : Dumper) (ringAt : ℕ → RingBuffer) (buf : ℕ) {cpus : List ℕ}
    (hnodup : cpus.Nodup) (files : ℕ → Bytes) :
    ∃ files', handleCpus g d ringAt buf (2 * d.numSubbuf) cpus files = some files' ∧
      (∀ c ∈ cpus, handleBuffer d (ringAt (getPercpuPtr g buf c)) (2 * d.numSubbuf) (files c) = some (files' c)) ∧
      ∀ c ∉ cpus, files' c = files c := by
  induction cpus generalizing files with
  | nil => exact ⟨files, rfl, by simp, fun _ _ => rfl⟩
  | cons cpu cpus ih =>
    obtain ⟨hfirst, hrest⟩ := List.nodup_cons.mp hnodup
    obtain ⟨file, hfile⟩ := exists_handleBuffer d (ringAt (getPercpuPtr g buf cpu)) (files cpu)
    obtain ⟨files', hrun, honline, hother⟩ := ih hrest (Function.update files cpu file)
    refine ⟨files', ?_, fun c hc => ?_, fun c hc => ?_⟩
    · rw [handleCpus, hfile]
      exact hrun
    · rcases List.mem_cons.mp hc with rfl | hc
      · rw [hother c hfirst, Function.update_self, hfile]
      · have hne : c ≠ cpu := fun h => hfirst (h ▸ hc)
        have hhandled := honline c hc
        rwa [Function.update_of_ne hne] at hhandled
    · obtain ⟨hne, hc⟩ := not_or.mp (mt List.mem_cons.mpr hc)
      rw [hother c hc, Function.update_of_ne hne]

theorem invoke_online (m : OnlineMask) (perCpuOffset : ℕ → Option ℕ) (d : Dumper)
    (ringAt : ℕ → RingBuffer) (buf : ℕ) :
    (getCpuList (m.symbols perCpuOffset)).Pairwise (· < ·) ∧
      (∀ c, c ∈ getCpuList (m.symbols perCpuOffset) ↔ m.isOnline c = true) ∧
      ∃ fuel files, invoke (m.symbols perCpuOffset) d ringAt buf fuel = some files ∧
        (∀ c, m.isOnline c = true →
          handleBuffer d (ringAt (getPercpuPtr (m.symbols perCpuOffset) buf c)) fuel [] = some (files c)) ∧
        ∀ c, m.isOnline c = false → files c = [] := by
  have hpairwise := getCpuList_pairwise m perCpuOffset
  refine ⟨hpairwise, mem_getCpuList perCpuOffset, 2 * d.numSubbuf, ?_⟩
  obtain ⟨files, hrun, honline, hother⟩ := exists_handleCpus (m.symbols perCpuOffset) d ringAt buf
    (hpairwise.imp (fun h => h.ne)) (fun _ => [])
  refine ⟨files, hrun, fun c hc => ?_, fun c hc => ?_⟩
  · exact honline c ((mem_getCpuList perCpuOffset c).mpr hc)
  · apply hother
    rw [mem_getCpuList perCpuOffset, hc]
    exact Bool.false_ne_true

end CgxLayer.LttDump
