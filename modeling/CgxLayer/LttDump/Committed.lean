import CgxLayer.LttDump.RingBuffer

namespace CgxLayer.LttDump

variable (d : Layout) (b : RingBuffer)

/-- How many bytes of a sub-buffer the tracer has committed. -/
def committedSize (cidx : ℕ) : ℕ :=
  if d.subbufSize ∣ b.commitHot cidx then b.dataSize (subbufIndex d b cidx)
  else b.commitHot cidx % d.subbufSize

def extent (c : Call) : ℕ :=
  if 0 < c.length ∧ c.coffset + c.length < committedSize d b c.cidx then c.coffset + c.length.toNat
  else committedSize d b c.cidx

def finishPacket (file bytes : Bytes) : Bytes :=
  let padded := align bytes.length d.pageSize
  fixHeader d (addAlignment (file ++ bytes) (padded - bytes.length)) file.length bytes.length padded

structure EmitsCommitted (file : Bytes) (c : Call) : Prop where
  bytes : c.coffset < extent d b c → handleSubbuffer d b file c =
    finishPacket d file (window d b (subbufIndex d b c.cidx) c.coffset (extent d b c - c.coffset))
  unchanged : extent d b c ≤ c.coffset → handleSubbuffer d b file c = file

def maskClear (cidx : ℕ) : Prop := b.commitHot cidx &&& (d.subbufSize - 1) = 0

instance (cidx : ℕ) : Decidable (maskClear d b cidx) := inferInstanceAs (Decidable (_ = 0))

/-- The call starts at the front, or nothing or everything is committed, or what it asks for ends
inside. The last two cases are of sizes for which the mask does not tell the multiples. -/
def EndsInside (c : Call) : Prop :=
  if maskClear d b c.cidx ↔ d.subbufSize ∣ b.commitHot c.cidx then
    c.coffset = 0 ∨ committedSize d b c.cidx = 0 ∨ committedSize d b c.cidx = d.subbufSize ∨
      (0 < c.length ∧ c.coffset + c.length ≤ committedSize d b c.cidx)
  else if d.subbufSize ∣ b.commitHot c.cidx then
    b.dataSize (subbufIndex d b c.cidx) ≤ c.coffset
  else if 0 < c.length ∧ c.coffset + c.length ≤ committedSize d b c.cidx then
    c.length ≤ b.dataSize (subbufIndex d b c.cidx)
  else b.dataSize (subbufIndex d b c.cidx) = committedSize d b c.cidx - c.coffset

instance (c : Call) : Decidable (EndsInside d b c) := by unfold EndsInside; infer_instance

variable {d b}

theorem committed_eq (cidx : ℕ) : committed d b cidx =
    if maskClear d b cidx then b.dataSize (subbufIndex d b cidx) else b.commitHot cidx % d.subbufSize := rfl

theorem maskClear_iff_dvd (hpower : ∃ k, d.subbufSize = 2 ^ k) (cidx : ℕ) :
    maskClear d b cidx ↔ d.subbufSize ∣ b.commitHot cidx := by
  obtain ⟨k, hk⟩ := hpower
  rw [maskClear, hk, Nat.and_two_pow_sub_one_eq_mod, Nat.dvd_iff_mod_eq_zero]

theorem handleSubbuffer_finish (file : Bytes) {c : Call} (hsize : dumpSize d b c ≠ 0) :
    handleSubbuffer d b file c =
      finishPacket d file (window d b (subbufIndex d b c.cidx) c.coffset (written d b c)) := by
  rw [finishPacket, length_window, handleSubbuffer, if_neg hsize, dumpSubbuffer_eq]
  rfl

theorem finishPacket_content (file bytes : Bytes) (h : bytes.length ≤ d.subbufSize) :
    file.length + 56 ≤ (finishPacket d file bytes).length ∧
      readValue d (finishPacket d file bytes) (file.length + 48) = bytes.length * 8 := by
  have hfits := d.fits
  rw [Layout.subbufSize] at h
  have hpacket : finishPacket d file bytes = file ++ fixHeader d
      (addAlignment bytes (align bytes.length d.pageSize - bytes.length)) 0 bytes.length
      (align bytes.length d.pageSize) := by
    simp only [finishPacket, addAlignment, List.append_assoc]
    exact fixHeader_append file _ _ _
  obtain ⟨hlen, hcontent⟩ := fixHeader_content (d := d)
    (addAlignment bytes (align bytes.length d.pageSize - bytes.length)) bytes.length
    (align bytes.length d.pageSize) (by omega)
  rw [hpacket, List.length_append, readValue_append]
  exact ⟨by omega, hcontent⟩

theorem written_le (c : Call) : written d b c ≤ d.subbufSize := (Nat.min_le_right _ _).trans (Nat.sub_le _ _)

theorem extent_le (c : Call) : extent d b c ≤ committedSize d b c.cidx := by
  rw [extent]
  split_ifs with h
  · omega
  · exact le_rfl

theorem handleSubbuffer_content (file : Bytes) {c : Call} (hsize : dumpSize d b c ≠ 0) :
    file.length + 56 ≤ (handleSubbuffer d b file c).length ∧
      readValue d (handleSubbuffer d b file c) (file.length + 48) = written d b c * 8 := by
  have hcontent := finishPacket_content (d := d) file
    (window d b (subbufIndex d b c.cidx) c.coffset (written d b c)) (by rw [length_window]; exact written_le c)
  rw [handleSubbuffer_finish file hsize]
  rwa [length_window] at hcontent

theorem emitsCommitted_iff_written (file : Bytes) {c : Call} (hin : c.coffset < d.subbufSize)
    (hle : committedSize d b c.cidx ≤ d.subbufSize) :
    EmitsCommitted d b file c ↔ written d b c = extent d b c - c.coffset := by
  have hextent := extent_le (d := d) (b := b) c
  constructor
  · intro h
    by_cases hempty : extent d b c ≤ c.coffset
    · have hsize : dumpSize d b c = 0 := by
        by_contra hsize
        have hlen := (handleSubbuffer_content (d := d) (b := b) file hsize).1
        rw [h.unchanged hempty] at hlen
        omega
      rw [written, hsize]
      omega
    · have hbytes := h.bytes (by omega)
      have hfile := finishPacket_content (d := d) file
        (window d b (subbufIndex d b c.cidx) c.coffset (extent d b c - c.coffset)) (by rw [length_window]; omega)
      rw [length_window, ← hbytes] at hfile
      have hsize : dumpSize d b c ≠ 0 := by
        intro hsize
        rw [handleSubbuffer_zero file hsize] at hfile
        omega
      have hcontent := (handleSubbuffer_content (d := d) (b := b) file hsize).2
      rw [hfile.2] at hcontent
      omega
  · intro h
    constructor
    · intro hlt
      have hsize : dumpSize d b c ≠ 0 := by
        intro hsize
        rw [written, hsize] at h
        omega
      rw [handleSubbuffer_finish file hsize, h]
    · intro hempty
      apply handleSubbuffer_zero
      by_contra hsize
      have hpos := written_pos hsize hin
      omega

theorem written_eq (c : Call) : (written d b c : ℤ) =
    if 0 < c.length ∧ c.length < committed d b c.cidx then min c.length (d.subbufSize - c.coffset : ℕ)
    else min (committed d b c.cidx) (d.subbufSize - c.coffset : ℕ) := by
  rw [written, dumpSize]
  split_ifs <;> omega

theorem extent_eq (c : Call) : (extent d b c : ℤ) =
    if 0 < c.length ∧ c.coffset + c.length < committedSize d b c.cidx then c.coffset + c.length
    else committedSize d b c.cidx := by
  rw [extent]
  split_ifs <;> omega

theorem committedSize_le {cidx : ℕ} (hdata : b.dataSize (subbufIndex d b cidx) ≤ d.subbufSize) :
    committedSize d b cidx ≤ d.subbufSize := by
  unfold committedSize
  split_ifs
  · exact hdata
  · exact (Nat.mod_lt _ subbufSize_pos).le

theorem written_iff_agree {c : Call} (hin : c.coffset < d.subbufSize)
    (hle : committedSize d b c.cidx ≤ d.subbufSize) (hsame : committed d b c.cidx = committedSize d b c.cidx) :
    written d b c = extent d b c - c.coffset ↔
      c.coffset = 0 ∨ committedSize d b c.cidx = 0 ∨ committedSize d b c.cidx = d.subbufSize ∨
        (0 < c.length ∧ c.coffset + c.length ≤ committedSize d b c.cidx) := by
  have hwritten := written_eq (d := d) (b := b) c
  have hextent := extent_eq (d := d) (b := b) c
  rw [hsame] at hwritten
  split_ifs at hwritten hextent <;> omega

theorem written_iff_none {c : Call} (hnone : committed d b c.cidx = 0) :
    written d b c = extent d b c - c.coffset ↔ committedSize d b c.cidx ≤ c.coffset := by
  have hwritten := written_eq (d := d) (b := b) c
  have hextent := extent_eq (d := d) (b := b) c
  rw [hnone] at hwritten
  split_ifs at hwritten hextent <;> omega

theorem written_iff_data {c : Call} (hin : c.coffset < d.subbufSize)
    (hlt : committedSize d b c.cidx < d.subbufSize) :
    written d b c = extent d b c - c.coffset ↔
      if 0 < c.length ∧ c.coffset + c.length ≤ committedSize d b c.cidx then c.length ≤ committed d b c.cidx
      else committed d b c.cidx = committedSize d b c.cidx - c.coffset := by
  have hwritten := written_eq (d := d) (b := b) c
  have hextent := extent_eq (d := d) (b := b) c
  split_ifs at hwritten hextent ⊢ <;> omega

theorem emitsCommitted_iff_endsInside (d : Layout) (b : RingBuffer) (file : Bytes) (c : InsideCall d)
    (hdata : b.dataSize (subbufIndex d b c.1.cidx) ≤ d.subbufSize) :
    EmitsCommitted d b file c.1 ↔ EndsInside d b c.1 := by
  have hle := committedSize_le hdata
  rw [emitsCommitted_iff_written file c.2 hle, EndsInside]
  have hcommitted := committed_eq (d := d) (b := b) c.1.cidx
  split_ifs with hagree hdvd hends
  · apply written_iff_agree c.2 hle
    rw [hcommitted, committedSize]
    simp only [hagree]
  · have hmask : ¬ maskClear d b c.1.cidx := fun hmask => hagree ⟨fun _ => hdvd, fun _ => hmask⟩
    rw [if_neg hmask, Nat.mod_eq_zero_of_dvd hdvd] at hcommitted
    rw [written_iff_none hcommitted, committedSize, if_pos hdvd]
  all_goals
    have hmask : maskClear d b c.1.cidx := by
      by_contra hmask
      exact hagree ⟨fun h => absurd h hmask, fun h => absurd h hdvd⟩
    have hlt : committedSize d b c.1.cidx < d.subbufSize := by
      rw [committedSize, if_neg hdvd]
      exact Nat.mod_lt _ subbufSize_pos
    rw [if_pos hmask] at hcommitted
    rw [written_iff_data c.2 hlt, hcommitted]
  · rw [if_pos hends]
  · rw [if_neg hends]

def partlyCommitted : RingBuffer where
  memory := fun _ => 0
  offset := 72
  consumed := 0
  id := fun i => i
  commitHot := fun _ => 72
  dataSize := fun _ => 0
  virt := fun _ i => 64 * i

def twoPages : Layout :=
  { pageDumper 1 Nat.one_pos with
    numPagesPerSubbuf := 2
    pages_pos := Nat.two_pos
    fits := by decide }

theorem front_emits_committed : EmitsCommitted twoPages partlyCommitted [] ⟨0, 0, 0⟩ :=
  (emitsCommitted_iff_endsInside twoPages partlyCommitted [] ⟨⟨0, 0, 0⟩, by decide⟩ (by decide)).mpr (by decide)

theorem later_start_reads_on : ¬ EmitsCommitted twoPages partlyCommitted [] ⟨0, 64, 0⟩ := by
  intro h
  have hwritten := (emitsCommitted_iff_written [] (by decide) (by decide)).mp h
  revert hwritten
  decide

end CgxLayer.LttDump
