import CgxLayer.LttDump.Pages

namespace CgxLayer.LttDump

open Bytes

/-- The debugger: `append value` writes the eight bytes of a `uint64_t` in target byte order. -/
structure Gdb where
  little : Bool
  appendValue : ℕ → Bytes
  target_order : ∀ v < 2 ^ 64, appendValue v = encode little 8 v

structure Layout where
  gdb : Gdb
  pageSize : ℕ
  numPagesPerSubbuf : ℕ
  idmask : ℕ
  size_pos : 0 < pageSize
  pages_pos : 0 < numPagesPerSubbuf
  -- a sub-buffer's size in bits is the value of a `uint64_t`
  fits : 8 * (pageSize * numPagesPerSubbuf) < 2 ^ 64

/-- The dumper of a kernel, whose pages have room for a header. -/
structure Dumper extends Layout where
  numSubbuf : ℕ
  pageSize_pow : ∃ k, pageSize = 2 ^ k
  header : 64 ≤ pageSize
  subbufs_pos : 0 < numSubbuf

instance : Coe Dumper Layout := ⟨Dumper.toLayout⟩

def Layout.subbufSize (d : Layout) : ℕ := d.pageSize * d.numPagesPerSubbuf

structure RingBuffer where
  memory : ℕ → UInt8
  offset : ℕ
  consumed : ℕ
  id : ℕ → ℕ
  commitHot : ℕ → ℕ
  dataSize : ℕ → ℕ
  virt : ℕ → ℕ → ℕ

structure Call where
  cidx : ℕ
  coffset : ℕ
  length : ℤ

def align (v alignment : ℕ) : ℕ := Nat.ldiff (v + (alignment - 1)) (alignment - 1)

def addAlignment (file : Bytes) (size : ℕ) : Bytes := file ++ List.replicate size 0

variable (d : Layout) (b : RingBuffer)

def dumpPage (file : Bytes) (page start size : ℕ) : Bytes :=
  if size = 0 then file else file ++ (List.range size).map (fun j => b.memory (page + start + j))

def dumpPages (sbidx : ℕ) : List ℕ → ℕ → ℕ → Bytes × ℕ → Bytes × ℕ
  | [], _, _, out => out
  | i :: is, startOffset, size, (file, written) =>
    if size > d.pageSize - startOffset then
      dumpPages sbidx is 0 (size - (d.pageSize - startOffset))
        (dumpPage b file (b.virt sbidx i) startOffset (d.pageSize - startOffset),
          written + (d.pageSize - startOffset))
    else (dumpPage b file (b.virt sbidx i) startOffset size, written + size)

def dumpSubbuffer (file : Bytes) (sbidx start size : ℕ) : Bytes × ℕ :=
  let startPage := start / d.pageSize
  dumpPages d b sbidx (List.range' startPage (d.numPagesPerSubbuf - startPage)) (start % d.pageSize)
    size (file, 0)

def subbufIndex (cidx : ℕ) : ℕ := b.id cidx &&& d.idmask

def committed (cidx : ℕ) : ℕ :=
  if b.commitHot cidx &&& (d.subbufSize - 1) = 0 then b.dataSize (subbufIndex d b cidx)
  else b.commitHot cidx % d.subbufSize

def dumpSize (c : Call) : ℕ :=
  if 0 < c.length ∧ c.length < committed d b c.cidx then c.length.toNat else committed d b c.cidx

def readValue (file : Bytes) (pos : ℕ) : ℕ := decode d.gdb.little (readAt file pos 8)

def fixEndTsc (file : Bytes) (start : ℕ) : Bytes :=
  if readValue d file (start + 40) = 0 then
    overwrite file (start + 40) (d.gdb.appendValue 0xffffffffffffffff)
  else file

def fixHeader (file : Bytes) (start written padded : ℕ) : Bytes :=
  let file := fixEndTsc d file start
  let file := overwrite file (start + 48) (d.gdb.appendValue (written * 8))
  overwrite file (start + 56) (d.gdb.appendValue (padded * 8))

def handleSubbuffer (file : Bytes) (c : Call) : Bytes :=
  if dumpSize d b c = 0 then file
  else
    let start := file.length
    let (file, written) := dumpSubbuffer d b file (subbufIndex d b c.cidx) c.coffset (dumpSize d b c)
    let padded := align written d.pageSize
    fixHeader d (addAlignment file (padded - written)) start written padded

theorem align_eq (v k : ℕ) : align v (2 ^ k) = (v + (2 ^ k - 1)) / 2 ^ k * 2 ^ k := by
  apply Nat.eq_of_testBit_eq
  intro i
  rw [align, Nat.testBit_ldiff, Nat.testBit_two_pow_sub_one, Nat.testBit_mul_two_pow,
    Nat.testBit_div_two_pow]
  by_cases h : i < k
  · simp [h]
  · have hsub : i - k + k = i := by omega
    have hle : k ≤ i := by omega
    simp [hle, hsub]

theorem le_ldiff_add (v m : ℕ) : v ≤ Nat.ldiff v m + m := by
  induction v using Nat.binaryRec generalizing m with
  | zero => exact Nat.zero_le _
  | bit b v ih =>
    have hrest := ih (m >>> 1)
    rw [← Nat.bit_testBit_zero_shiftRight_one m, Nat.ldiff_bit, Nat.bit_val, Nat.bit_val, Nat.bit_val]
    cases b <;> cases m.testBit 0 <;> simp <;> omega

-- also of an alignment that is no power of two
theorem le_align (v alignment : ℕ) : v ≤ align v alignment := by
  have hle := le_ldiff_add (v + (alignment - 1)) (alignment - 1)
  rw [align]
  omega

variable {d b}

theorem pageSize_pos : 0 < d.pageSize := d.size_pos

section

variable {d : Dumper}

theorem pageSize_dvd_align (v : ℕ) : d.pageSize ∣ align v d.pageSize := by
  obtain ⟨k, hk⟩ := d.pageSize_pow
  rw [hk, align_eq]
  exact Nat.dvd_mul_left _ _

theorem align_le_subbufSize {v : ℕ} (h : v ≤ d.subbufSize) : align v d.pageSize ≤ d.subbufSize := by
  obtain ⟨k, hk⟩ := d.pageSize_pow
  have hpos := d.size_pos
  rw [Layout.subbufSize] at h ⊢
  rw [hk] at h hpos ⊢
  rw [align_eq, Nat.mul_comm (2 ^ k) d.numPagesPerSubbuf]
  apply Nat.mul_le_mul_right
  apply Nat.le_of_lt_succ
  apply Nat.div_lt_of_lt_mul
  rw [Nat.mul_succ]
  omega

end

def byteAt (d : Layout) (b : RingBuffer) (sbidx k : ℕ) : UInt8 :=
  b.memory (b.virt sbidx (k / d.pageSize) + k % d.pageSize)

def window (d : Layout) (b : RingBuffer) (sbidx start n : ℕ) : Bytes :=
  (List.range n).map (fun j => byteAt d b sbidx (start + j))

theorem length_window (sbidx start n : ℕ) : (window d b sbidx start n).length = n := by simp [window]

theorem window_append (sbidx start m n : ℕ) :
    window d b sbidx start m ++ window d b sbidx (start + m) n = window d b sbidx start (m + n) := by
  simp only [window, List.range_add, List.map_append, List.map_map, Function.comp_def, Nat.add_assoc]

theorem getElem?_window (sbidx start n j : ℕ) (h : j < n) :
    (window d b sbidx start n)[j]? = some (byteAt d b sbidx (start + j)) := by
  simp [window, h]

theorem drop_window (sbidx start n k : ℕ) :
    (window d b sbidx start n).drop k = window d b sbidx (start + k) (n - k) := by
  rcases Nat.le_total k n with hle | hle
  · have hsplit := window_append (d := d) (b := b) sbidx start k (n - k)
    have hlen := length_window (d := d) (b := b) sbidx start k
    rw [Nat.add_sub_cancel' hle] at hsplit
    rw [← hsplit, List.drop_left' hlen]
  · rw [Nat.sub_eq_zero_of_le hle, List.drop_eq_nil_of_le (by rw [length_window]; exact hle)]
    rfl

theorem take_window (sbidx start n k : ℕ) :
    (window d b sbidx start n).take k = window d b sbidx start (min k n) := by
  rw [window, ← List.map_take, List.take_range, window]

def pagesOf (d : Layout) (b : RingBuffer) (sbidx : ℕ) : SubbufPages where
  memory := b.memory
  pageSize := d.pageSize
  numPagesPerSubbuf := d.numPagesPerSubbuf
  virt := b.virt sbidx
  size_pos := pageSize_pos

theorem page_pagesOf (sbidx i : ℕ) : (pagesOf d b sbidx).page i = window d b sbidx (i * d.pageSize) d.pageSize := by
  apply List.map_congr_left
  intro j hj
  have hlt : j < d.pageSize := List.mem_range.mp hj
  have hpage : (i * d.pageSize + j) / d.pageSize = i := by
    rw [Nat.mul_comm, Nat.mul_add_div pageSize_pos, Nat.div_eq_of_lt hlt, Nat.add_zero]
  have hoffset : (i * d.pageSize + j) % d.pageSize = j := by
    rw [Nat.mul_comm, Nat.mul_add_mod, Nat.mod_eq_of_lt hlt]
  rw [byteAt, hpage, hoffset]
  rfl

theorem pagesFrom_pagesOf (sbidx p m : ℕ) :
    (pagesOf d b sbidx).pagesFrom p m = window d b sbidx (p * d.pageSize) (m * d.pageSize) := by
  induction m generalizing p with
  | zero => simp [SubbufPages.pagesFrom, window]
  | succ m ih =>
    rw [SubbufPages.pagesFrom_succ, page_pagesOf, ih, Nat.succ_mul p, window_append, Nat.succ_mul m,
      Nat.add_comm d.pageSize]

theorem dumpPages_pagesOf (sbidx : ℕ) (is : List ℕ) (startOffset size : ℕ) (out : Bytes × ℕ) :
    dumpPages d b sbidx is startOffset size out = (pagesOf d b sbidx).dumpPages is startOffset size out := by
  induction is generalizing startOffset size out with
  | nil => rfl
  | cons i is ih =>
    rw [dumpPages, SubbufPages.dumpPages, ih]
    rfl

theorem dumpSubbuffer_eq (file : Bytes) (sbidx start size : ℕ) :
    dumpSubbuffer d b file sbidx start size =
      (file ++ window d b sbidx start (min size (d.subbufSize - start)),
        min size (d.subbufSize - start)) := by
  have hslice : (pagesOf d b sbidx).slice start size =
      window d b sbidx start (min size (d.subbufSize - start)) := by
    have hbytes : (pagesOf d b sbidx).bytes = window d b sbidx (0 * d.pageSize) (d.numPagesPerSubbuf * d.pageSize) :=
      pagesFrom_pagesOf sbidx 0 d.numPagesPerSubbuf
    rw [SubbufPages.slice_eq, Layout.subbufSize, Nat.mul_comm d.pageSize, hbytes, Nat.zero_mul, drop_window,
      take_window, Nat.zero_add]
  have happend := (pagesOf d b sbidx).appends_slice file start size
  rw [hslice, length_window] at happend
  rw [dumpSubbuffer, dumpPages_pagesOf]
  exact happend

theorem readValue_append (xs ys : Bytes) (k : ℕ) :
    readValue d (xs ++ ys) (xs.length + k) = readValue d ys k := by
  rw [readValue, readAt_append, readValue]

theorem fixEndTsc_append (xs ys : Bytes) :
    fixEndTsc d (xs ++ ys) xs.length = xs ++ fixEndTsc d ys 0 := by
  rw [fixEndTsc, fixEndTsc, readValue_append, overwrite_append, Nat.zero_add]
  split_ifs <;> rfl

theorem fixHeader_append (xs ys : Bytes) (written padded : ℕ) :
    fixHeader d (xs ++ ys) xs.length written padded = xs ++ fixHeader d ys 0 written padded := by
  simp only [fixHeader, fixEndTsc_append, overwrite_append, Nat.zero_add]

theorem length_appendValue {v : ℕ} (h : v < 2 ^ 64) : (d.gdb.appendValue v).length = 8 := by
  rw [d.gdb.target_order v h, length_encode]

theorem decode_appendValue {v : ℕ} (h : v < 2 ^ 64) :
    decode d.gdb.little (d.gdb.appendValue v) = v := by
  rw [d.gdb.target_order v h]
  exact decode_encode _ 8 v h

theorem length_fixEndTsc (bs : Bytes) (h : 64 ≤ bs.length) :
    (fixEndTsc d bs 0).length = bs.length := by
  rw [fixEndTsc]
  split_ifs
  · rw [length_overwrite, length_appendValue (by omega)]
    omega
  · rfl

theorem getElem?_fixEndTsc (bs : Bytes) (h : 64 ≤ bs.length) (i : ℕ) (hi : i < 40 ∨ 48 ≤ i) :
    (fixEndTsc d bs 0)[i]? = bs[i]? := by
  rw [fixEndTsc]
  split_ifs
  · apply getElem?_overwrite
    · rw [length_appendValue (by omega)]
      omega
    · omega
  · rfl

theorem fixHeader_content (bs : Bytes) (written padded : ℕ) (hw : written * 8 < 2 ^ 64) :
    56 ≤ (fixHeader d bs 0 written padded).length ∧
      readValue d (fixHeader d bs 0 written padded) 48 = written * 8 := by
  let cs := overwrite (fixEndTsc d bs 0) 48 (d.gdb.appendValue (written * 8))
  have hfix : fixHeader d bs 0 written padded = overwrite cs 56 (d.gdb.appendValue (padded * 8)) := by
    simp only [fixHeader, Nat.zero_add, cs]
  have hwlen := length_appendValue (d := d) hw
  have hcs : 56 ≤ cs.length := by
    rw [length_overwrite]
    omega
  have hcontent : readAt cs 48 8 = d.gdb.appendValue (written * 8) := by
    have hread := readAt_overwrite (fixEndTsc d bs 0) 48 (d.gdb.appendValue (written * 8))
    rwa [hwlen] at hread
  rw [hfix]
  constructor
  · rw [length_overwrite]
    omega
  · rw [readValue, readAt_overwrite_of_le _ _ _ _ _ (by omega) hcs, hcontent, decode_appendValue hw]

theorem fixHeader_spec (bs : Bytes) (written padded : ℕ) (h : 64 ≤ bs.length)
    (hw : written * 8 < 2 ^ 64) (hp : padded * 8 < 2 ^ 64) :
    (fixHeader d bs 0 written padded).length = bs.length ∧
      readValue d (fixHeader d bs 0 written padded) 48 = written * 8 ∧
      readValue d (fixHeader d bs 0 written padded) 56 = padded * 8 ∧
      ∀ i, i < 40 ∨ 64 ≤ i → (fixHeader d bs 0 written padded)[i]? = bs[i]? := by
  let ts := fixEndTsc d bs 0
  let cs := overwrite ts 48 (d.gdb.appendValue (written * 8))
  have hfix : fixHeader d bs 0 written padded = overwrite cs 56 (d.gdb.appendValue (padded * 8)) := by
    simp only [fixHeader, Nat.zero_add, ts, cs]
  have hts : ts.length = bs.length := length_fixEndTsc bs h
  have hwlen := length_appendValue (d := d) hw
  have hplen := length_appendValue (d := d) hp
  have hcs : cs.length = bs.length := by
    rw [length_overwrite]
    omega
  have hpacket : readAt (overwrite cs 56 (d.gdb.appendValue (padded * 8))) 56 8 =
      d.gdb.appendValue (padded * 8) := by
    have hread := readAt_overwrite cs 56 (d.gdb.appendValue (padded * 8))
    rwa [hplen] at hread
  refine ⟨?_, (fixHeader_content bs written padded hw).2, ?_, fun i hi => ?_⟩
  · rw [hfix, length_overwrite]
    omega
  · rw [hfix, readValue, hpacket, decode_appendValue hp]
  · rw [hfix, getElem?_overwrite cs 56 i _ (by omega) (by omega),
      getElem?_overwrite ts 48 i _ (by omega) (by omega), getElem?_fixEndTsc bs h i (by omega)]

end CgxLayer.LttDump
