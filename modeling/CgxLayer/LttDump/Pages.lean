import CgxLayer.Bytes

namespace CgxLayer.LttDump

/-- The pages of one sub-buffer, of any size and at any addresses. -/
structure SubbufPages where
  memory : ℕ → UInt8
  pageSize : ℕ
  numPagesPerSubbuf : ℕ
  virt : ℕ → ℕ
  size_pos : 0 < pageSize

namespace SubbufPages

variable (s : SubbufPages)

def dumpPage (file : Bytes) (page start size : ℕ) : Bytes :=
  if size = 0 then file else file ++ (List.range size).map (fun j => s.memory (page + start + j))

def dumpPages : List ℕ → ℕ → ℕ → Bytes × ℕ → Bytes × ℕ
  | [], _, _, out => out
  | i :: is, startOffset, size, (file, written) =>
    if size > s.pageSize - startOffset then
      dumpPages is 0 (size - (s.pageSize - startOffset))
        (s.dumpPage file (s.virt i) startOffset (s.pageSize - startOffset),
          written + (s.pageSize - startOffset))
    else (s.dumpPage file (s.virt i) startOffset size, written + size)

def dumpSubbuffer (file : Bytes) (start size : ℕ) : Bytes × ℕ :=
  let startPage := start / s.pageSize
  s.dumpPages (List.range' startPage (s.numPagesPerSubbuf - startPage)) (start % s.pageSize) size (file, 0)

def page (i : ℕ) : Bytes := (List.range s.pageSize).map (fun j => s.memory (s.virt i + j))

def pagesFrom (p m : ℕ) : Bytes := (List.range' p m).flatMap s.page

def bytes : Bytes := s.pagesFrom 0 s.numPagesPerSubbuf

def slice (start size : ℕ) : Bytes :=
  (s.bytes.take (min (start + size) (s.numPagesPerSubbuf * s.pageSize))).drop start

variable {s}

theorem length_page (i : ℕ) : (s.page i).length = s.pageSize := by simp [page]

theorem pagesFrom_succ (p m : ℕ) : s.pagesFrom p (m + 1) = s.page p ++ s.pagesFrom (p + 1) m := by
  rw [pagesFrom, List.range'_succ, List.flatMap_cons, pagesFrom]

theorem length_pagesFrom (p m : ℕ) : (s.pagesFrom p m).length = m * s.pageSize := by
  induction m generalizing p with
  | zero => simp [pagesFrom]
  | succ m ih => rw [pagesFrom_succ, List.length_append, length_page, ih, Nat.succ_mul, Nat.add_comm]

theorem pagesFrom_add (p m n : ℕ) : s.pagesFrom p (m + n) = s.pagesFrom p m ++ s.pagesFrom (p + m) n := by
  have hrange : List.range' p m ++ List.range' (p + 1 * m) n = List.range' p (m + n) := List.range'_append
  rw [Nat.one_mul] at hrange
  rw [pagesFrom, ← hrange, List.flatMap_append, pagesFrom, pagesFrom]

theorem dumpPage_slice (file : Bytes) (i off n : ℕ) (h : off + n ≤ s.pageSize) :
    s.dumpPage file (s.virt i) off n = file ++ ((s.page i).drop off).take n := by
  have hbytes : ((s.page i).drop off).take n = (List.range n).map (fun j => s.memory (s.virt i + off + j)) := by
    apply List.ext_getElem
    · simp only [page, List.length_take, List.length_drop, List.length_map, List.length_range]
      omega
    · intro j _ _
      simp [page, Nat.add_assoc]
  rw [dumpPage, hbytes]
  split_ifs with hn
  · simp [hn]
  · rfl

theorem dumpPages_pagesFrom (m p off size written : ℕ) (file : Bytes) (hoff : off < s.pageSize) :
    s.dumpPages (List.range' p m) off size (file, written) =
      (file ++ ((s.pagesFrom p m).drop off).take size,
        written + (((s.pagesFrom p m).drop off).take size).length) := by
  induction m generalizing p off size written file with
  | zero => simp [dumpPages, pagesFrom]
  | succ m ih =>
    have hlen : ((s.page p).drop off).length = s.pageSize - off := by rw [List.length_drop, length_page]
    have hdrop : (s.pagesFrom p (m + 1)).drop off = (s.page p).drop off ++ s.pagesFrom (p + 1) m := by
      rw [pagesFrom_succ, List.drop_append_of_le_length (by rw [length_page]; omega)]
    rw [List.range'_succ, dumpPages, hdrop]
    split_ifs with hsize
    · have hpage : ((s.page p).drop off).take (s.pageSize - off) = (s.page p).drop off :=
        List.take_of_length_le (by rw [hlen])
      have htake : ((s.page p).drop off ++ s.pagesFrom (p + 1) m).take size =
          (s.page p).drop off ++ (s.pagesFrom (p + 1) m).take (size - (s.pageSize - off)) := by
        rw [List.take_append, hlen, List.take_of_length_le (by rw [hlen]; omega)]
      rw [ih _ _ _ _ _ s.size_pos, dumpPage_slice _ _ _ _ (by omega), hpage, htake, List.drop_zero,
        List.append_assoc, List.length_append, hlen, Nat.add_assoc]
    · have htake : ((s.page p).drop off ++ s.pagesFrom (p + 1) m).take size = ((s.page p).drop off).take size :=
        List.take_append_of_le_length (by rw [hlen]; omega)
      have hcount : (((s.page p).drop off).take size).length = size := by
        rw [List.length_take, hlen]
        omega
      rw [dumpPage_slice _ _ _ _ (by omega), htake, hcount]

theorem drop_bytes (start : ℕ) : s.bytes.drop start =
    (s.pagesFrom (start / s.pageSize) (s.numPagesPerSubbuf - start / s.pageSize)).drop (start % s.pageSize) := by
  have hsplit : start / s.pageSize * s.pageSize + start % s.pageSize = start := Nat.div_add_mod' start _
  rcases Nat.le_total (start / s.pageSize) s.numPagesPerSubbuf with hle | hle
  · have hpages := s.pagesFrom_add 0 (start / s.pageSize) (s.numPagesPerSubbuf - start / s.pageSize)
    rw [Nat.add_sub_cancel' hle, Nat.zero_add] at hpages
    have hlen := s.length_pagesFrom 0 (start / s.pageSize)
    rw [bytes, hpages]
    nth_rewrite 1 [← hsplit]
    rw [← hlen, List.drop_length_add_append]
  · have hmul := Nat.mul_le_mul_right s.pageSize hle
    have hlen := s.length_pagesFrom 0 s.numPagesPerSubbuf
    rw [Nat.sub_eq_zero_of_le hle, bytes, List.drop_eq_nil_of_le (by omega)]
    simp [pagesFrom]

theorem slice_eq (start size : ℕ) : s.slice start size = (s.bytes.drop start).take size := by
  have hlen : s.bytes.length = s.numPagesPerSubbuf * s.pageSize := length_pagesFrom 0 _
  rw [slice, ← hlen, ← List.take_eq_take_min, List.drop_take, Nat.add_sub_cancel_left]

theorem length_slice (start size : ℕ) : (s.slice start size).length =
    min (start + size) (s.numPagesPerSubbuf * s.pageSize) - start := by
  have hlen : s.bytes.length = s.numPagesPerSubbuf * s.pageSize := length_pagesFrom 0 _
  rw [slice, List.length_drop, List.length_take, hlen, Nat.min_assoc, Nat.min_self]

theorem appends_slice (s : SubbufPages) (file : Bytes) (start size : ℕ) :
    s.dumpSubbuffer file start size = (file ++ s.slice start size, (s.slice start size).length) := by
  rw [slice_eq, drop_bytes, dumpSubbuffer, dumpPages_pagesFrom _ _ _ _ _ _ (Nat.mod_lt _ s.size_pos),
    Nat.zero_add]

theorem dumpSubbuffer_slice (s : SubbufPages) (file : Bytes) (start size : ℕ) :
    s.dumpSubbuffer file start size = (file ++ s.slice start size, (s.slice start size).length) ∧
      (s.slice start size).length = min (start + size) (s.numPagesPerSubbuf * s.pageSize) - start :=
  ⟨s.appends_slice file start size, length_slice start size⟩

end SubbufPages

end CgxLayer.LttDump
