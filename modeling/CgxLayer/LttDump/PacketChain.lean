import CgxLayer.LttDump.Subbuffer

namespace CgxLayer.LttDump

open Bytes

abbrev InsideCall (d : Layout) := {c : Call // c.coffset < d.subbufSize}

section

variable (d : Layout) (b : RingBuffer)

def dumpAll (file : Bytes) (calls : List (InsideCall d)) : Bytes :=
  calls.foldl (fun file c => handleSubbuffer d b file c.1) file

structure Packet where
  start : ℕ
  sbidx : ℕ
  offset : ℕ
  count : ℕ

def dumpedCount (file : Bytes) (c : Call) : ℕ :=
  (dumpSubbuffer d b file (subbufIndex d b c.cidx) c.coffset (dumpSize d b c)).1.length - file.length

def packets (file : Bytes) : List (InsideCall d) → List Packet
  | [] => []
  | c :: cs =>
    if dumpSize d b c.1 = 0 then packets file cs
    else ⟨file.length, subbufIndex d b c.1.cidx, c.1.coffset, dumpedCount d b file c.1⟩ ::
      packets (handleSubbuffer d b file c.1) cs

structure PacketAt (file : Bytes) (p : Packet) : Prop where
  content : readValue d file (p.start + 48) = 8 * p.count
  room : readValue d file (p.start + 48) ≤ readValue d file (p.start + 56)
  bytes : ∀ j < p.count, j < 40 ∨ 64 ≤ j →
    file[p.start + j]? = some (byteAt d b p.sbidx (p.offset + j))

/-- Advancing by the packet sizes from `pos` meets these packets and then the end of the file. -/
def Walk (file : Bytes) (pos : ℕ) : List Packet → Prop
  | [] => pos = file.length
  | p :: ps => pos = p.start ∧ PacketAt d b file p ∧ Walk file (pos + readValue d file (pos + 56) / 8) ps

structure Chain (file : Bytes) (ps : List Packet) : Prop where
  aligned : d.pageSize ∣ file.length
  walk : Walk d b file 0 ps

def written (c : Call) : ℕ := min (dumpSize d b c) (d.subbufSize - c.coffset)

def padded (c : Call) : ℕ := align (written d b c) d.pageSize

def rawPacket (c : Call) : Bytes :=
  addAlignment (window d b (subbufIndex d b c.cidx) c.coffset (written d b c))
    (padded d b c - written d b c)

def packetBytes (c : Call) : Bytes :=
  fixHeader d (rawPacket d b c) 0 (written d b c) (padded d b c)

variable {d b}

theorem handleSubbuffer_zero (file : Bytes) {c : Call} (h : dumpSize d b c = 0) :
    handleSubbuffer d b file c = file := by
  rw [handleSubbuffer, if_pos h]

theorem handleSubbuffer_eq (file : Bytes) {c : Call} (h : dumpSize d b c ≠ 0) :
    handleSubbuffer d b file c = file ++ packetBytes d b c := by
  simp only [handleSubbuffer, if_neg h, dumpSubbuffer_eq, addAlignment, List.append_assoc]
  exact fixHeader_append file _ _ _

theorem dumpedCount_eq (file : Bytes) (c : Call) : dumpedCount d b file c = written d b c := by
  rw [dumpedCount, dumpSubbuffer_eq, List.length_append, length_window, Nat.add_sub_cancel_left, written]

theorem written_pos {c : Call} (hsize : dumpSize d b c ≠ 0) (hin : c.coffset < d.subbufSize) :
    0 < written d b c := by
  rw [written]
  omega

end

variable {d : Dumper} {b : RingBuffer}

theorem padded_bounds {c : Call} (hsize : dumpSize d b c ≠ 0) (hin : c.coffset < d.subbufSize) :
    written d b c ≤ padded d b c ∧ 64 ≤ padded d b c ∧ padded d b c ≤ d.subbufSize := by
  have hle : written d b c ≤ padded d b c := le_align _ _
  have hpos := written_pos hsize hin
  have hpage : d.pageSize ≤ padded d b c := Nat.le_of_dvd (by omega) (pageSize_dvd_align _)
  have hheader := d.header
  refine ⟨hle, by omega, ?_⟩
  apply align_le_subbufSize
  rw [written]
  omega

theorem length_rawPacket {c : Call} (hsize : dumpSize d b c ≠ 0) (hin : c.coffset < d.subbufSize) :
    (rawPacket d b c).length = padded d b c := by
  have hle := (padded_bounds hsize hin).1
  rw [rawPacket, addAlignment, List.length_append, length_window, List.length_replicate]
  omega

theorem packetBytes_spec {c : Call} (hsize : dumpSize d b c ≠ 0) (hin : c.coffset < d.subbufSize) :
    (packetBytes d b c).length = padded d b c ∧
      readValue d (packetBytes d b c) 48 = written d b c * 8 ∧
      readValue d (packetBytes d b c) 56 = padded d b c * 8 ∧
      ∀ j < written d b c, j < 40 ∨ 64 ≤ j → (packetBytes d b c)[j]? =
        some (byteAt d b (subbufIndex d b c.cidx) (c.coffset + j)) := by
  obtain ⟨hle, hheader, hmax⟩ := padded_bounds hsize hin
  have hraw := length_rawPacket hsize hin
  have hfits := d.fits
  rw [Layout.subbufSize] at hmax
  obtain ⟨hlen, hcontent, hpacket, hbytes⟩ :=
    fixHeader_spec (rawPacket d b c) (written d b c) (padded d b c) (by omega) (by omega) (by omega)
  refine ⟨hlen.trans hraw, hcontent, hpacket, fun j hj hout => ?_⟩
  rw [packetBytes, hbytes j hout, rawPacket, addAlignment, List.getElem?_append_left,
    getElem?_window _ _ _ _ hj]
  rwa [length_window]

theorem readValue_middle (pre xs post : Bytes) (k : ℕ) (h : k + 8 ≤ xs.length) :
    readValue d (pre ++ xs ++ post) (pre.length + k) = readValue d xs k := by
  rw [List.append_assoc, readValue_append, readValue, readValue, readAt_append_left _ _ _ _ h]

theorem prefix_handleSubbuffer (file : Bytes) (c : Call) : file <+: handleSubbuffer d b file c := by
  by_cases h : dumpSize d b c = 0
  · exact ⟨[], by rw [handleSubbuffer_zero file h, List.append_nil]⟩
  · rw [handleSubbuffer_eq file h]
    exact List.prefix_append _ _

theorem prefix_dumpAll (file : Bytes) (calls : List (InsideCall d)) :
    file <+: dumpAll d b file calls := by
  induction calls generalizing file with
  | nil => exact List.prefix_rfl
  | cons c cs ih => exact (prefix_handleSubbuffer file c.1).trans (ih _)

theorem dvd_length_handleSubbuffer (file : Bytes) (c : InsideCall d) (h : d.pageSize ∣ file.length) :
    d.pageSize ∣ (handleSubbuffer d b file c.1).length := by
  by_cases hsize : dumpSize d b c.1 = 0
  · rwa [handleSubbuffer_zero file hsize]
  · rw [handleSubbuffer_eq file hsize, List.length_append, (packetBytes_spec hsize c.2).1]
    exact Nat.dvd_add h (pageSize_dvd_align _)

theorem dvd_length_dumpAll (file : Bytes) (calls : List (InsideCall d))
    (h : d.pageSize ∣ file.length) : d.pageSize ∣ (dumpAll d b file calls).length := by
  induction calls generalizing file with
  | nil => exact h
  | cons c cs ih => exact ih _ (dvd_length_handleSubbuffer file c h)

theorem packetAt_of_append (file post : Bytes) {c : Call} (hsize : dumpSize d b c ≠ 0)
    (hin : c.coffset < d.subbufSize) :
    PacketAt d b (file ++ packetBytes d b c ++ post)
      ⟨file.length, subbufIndex d b c.cidx, c.coffset, dumpedCount d b file c⟩ := by
  obtain ⟨hlen, hcontent, hpacket, hbytes⟩ := packetBytes_spec hsize hin
  obtain ⟨hle, hheader, -⟩ := padded_bounds hsize hin
  have h48 := readValue_middle (d := d) file (packetBytes d b c) post 48 (by omega)
  have h56 := readValue_middle (d := d) file (packetBytes d b c) post 56 (by omega)
  rw [dumpedCount_eq]
  constructor
  · rw [h48, hcontent, Nat.mul_comm]
  · rw [h48, h56, hcontent, hpacket]
    omega
  · intro j hj hout
    dsimp only at hj ⊢
    rw [List.append_assoc, List.getElem?_append_right (by omega), Nat.add_sub_cancel_left,
      List.getElem?_append_left (by omega), hbytes j hj hout]

theorem walk_dumpAll (file : Bytes) (calls : List (InsideCall d)) :
    Walk d b (dumpAll d b file calls) file.length (packets d b file calls) := by
  induction calls generalizing file with
  | nil => rfl
  | cons c cs ih =>
    have hrun : dumpAll d b file (c :: cs) = dumpAll d b (handleSubbuffer d b file c.1) cs := rfl
    rw [packets, hrun]
    split_ifs with hsize
    · rw [handleSubbuffer_zero file hsize]
      exact ih file
    · have hnext := ih (handleSubbuffer d b file c.1)
      obtain ⟨post, hpost⟩ := prefix_dumpAll (b := b) (handleSubbuffer d b file c.1) cs
      obtain ⟨hlen, -, hpacket, -⟩ := packetBytes_spec hsize c.2
      obtain ⟨-, hheader, -⟩ := padded_bounds hsize c.2
      rw [handleSubbuffer_eq file hsize] at hnext hpost ⊢
      have hstep : file.length + readValue d (dumpAll d b (file ++ packetBytes d b c.1) cs)
          (file.length + 56) / 8 = (file ++ packetBytes d b c.1).length := by
        rw [← hpost, readValue_middle _ _ _ _ (by omega), hpacket, List.length_append, hlen]
        omega
      refine ⟨rfl, ?_, ?_⟩
      · rw [← hpost]
        exact packetAt_of_append file post hsize c.2
      · rw [hstep]
        exact hnext

theorem dumpAll_chain (d : Dumper) (b : RingBuffer) (calls : List (InsideCall d)) :
    Chain d b (dumpAll d b [] calls) (packets d b [] calls) ∧
      ∀ c, dumpAll d b [] calls <+: dumpAll d b [] (calls ++ [c]) := by
  refine ⟨⟨dvd_length_dumpAll [] calls (Nat.dvd_zero _), walk_dumpAll [] calls⟩, fun c => ?_⟩
  rw [dumpAll, dumpAll, List.foldl_append]
  exact prefix_handleSubbuffer _ c.1

end CgxLayer.LttDump
