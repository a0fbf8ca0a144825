import CgxLayer.Bytes
import CgxLayer.Text

namespace CgxLayer.Kdump

open Text

structure Log where
  tsNsec : ℕ
  len : ℕ
  textLen : ℕ

/-- The dumped kernel, with the `struct log` and the `char` that the debugger reads at an address. -/
structure Kernel where
  logBuf : ℕ
  logBufLen : ℕ
  logFirstIdx : ℕ
  logNextIdx : ℕ
  sizeofLog : ℕ
  log : ℕ → Log
  char : ℕ → UInt8
  fits : logBufLen ≤ 2 ^ 31

def ascii (s : Text) : Bytes := s.map (fun c => UInt8.ofNat c.toNat)

-- `%0<width>lu`
def zeroPadded (width n : ℕ) : Text := List.replicate (width - (decimal n).length) '0' ++ decimal n

def stamp (usecs : ℕ) : Text := zeroPadded 5 (usecs / 1000000) ++ '.' :: zeroPadded 6 (usecs % 1000000)

variable (k : Kernel)

def printText (msg textLen i : ℕ) : Bytes :=
  if i < textLen then k.char (msg + i) :: printText msg textLen (i + 1) else []
termination_by textLen - i

def printEntry (entry : ℕ) : Bytes :=
  let usecs := (k.log entry).tsNsec / 1000
  ascii ('[' :: stamp usecs ++ "] ".toList) ++
    (printText k (entry + k.sizeofLog) (k.log entry).textLen 0 ++ ascii ['\n'])

/-- The loop of `dmesg`, whose index is 32 bits wide, to at most `fuel` rounds. -/
def dmesgLoop : ℕ → ℕ → Option Bytes
  | 0, _ => none
  | fuel + 1, idx =>
    if idx ≠ k.logNextIdx then
      let entry := k.logBuf + idx
      if (k.log entry).len = 0 then dmesgLoop fuel 0
      else (dmesgLoop fuel ((idx + (k.log entry).len) % 2 ^ 32)).map (printEntry k entry ++ ·)
    else some []

def dmesg (fuel : ℕ) : Option Bytes := dmesgLoop k fuel k.logFirstIdx

def Kernel.record (idx : ℕ) : Log := k.log (k.logBuf + idx)

inductive Laid : ℕ → List ℕ → ℕ → Prop
  | stop (i : ℕ) : Laid i [] i
  | record {i j : ℕ} {rs : List ℕ} (hlen : 0 < (k.record i).len)
      (hinside : i + (k.record i).len < k.logBufLen) (hrest : Laid (i + (k.record i).len) rs j) :
      Laid i (i :: rs) j

inductive LogRing : List ℕ → Prop
  | straight {rs : List ℕ} (h : Laid k k.logFirstIdx rs k.logNextIdx) : LogRing rs
  | wrapped {rs rs' : List ℕ} {mark : ℕ} (h : Laid k k.logFirstIdx rs mark) (hmark : (k.record mark).len = 0)
      (hfirst : k.logNextIdx ∉ rs ++ [mark]) (h' : Laid k 0 rs' k.logNextIdx) : LogRing (rs ++ rs')

def DenotesMicros (s : Text) (usecs : ℕ) : Prop :=
  ∃ whole frac, s = whole ++ '.' :: frac ∧ whole ≠ [] ∧ frac.length = 6 ∧
    (∀ c ∈ whole ++ frac, c.isDigit = true) ∧ Nat.ofDigitChars 10 (whole ++ frac) 0 = usecs

def Kernel.text (idx : ℕ) : Bytes :=
  (List.range (k.record idx).textLen).map (fun j => k.char (k.logBuf + idx + k.sizeofLog + j))

def Line (idx : ℕ) (line : Bytes) : Prop :=
  ∃ s, DenotesMicros s ((k.record idx).tsNsec / 1000) ∧
    line = ascii ('[' :: s ++ "] ".toList) ++ (k.text idx ++ ascii ['\n'])

variable {k}

theorem ofDigitChars_zeroPadded (width n : ℕ) : Nat.ofDigitChars 10 (zeroPadded width n) 0 = n := by
  rw [zeroPadded, Nat.ofDigitChars_append, Nat.ofDigitChars_replicate_zero, Nat.mul_zero]
  exact Nat.ofDigitChars_ten_toDigits

theorem isDigit_of_mem_zeroPadded {width n : ℕ} {c : Char} (h : c ∈ zeroPadded width n) : c.isDigit = true := by
  rcases List.mem_append.mp h with h | h
  · rw [List.eq_of_mem_replicate h]
    rfl
  · exact isDigit_of_mem_decimal h

theorem length_zeroPadded {width n : ℕ} (hwidth : 0 < width) (h : n < 10 ^ width) :
    (zeroPadded width n).length = width := by
  have hle : (decimal n).length ≤ width := (Nat.length_toDigits_le_iff (by decide) hwidth).mpr h
  rw [zeroPadded, List.length_append, List.length_replicate]
  omega

theorem zeroPadded_ne_nil (width n : ℕ) : zeroPadded width n ≠ [] := by
  intro h
  exact Nat.toDigits_ne_nil (List.append_eq_nil_iff.mp h).2

theorem stamp_denotes (usecs : ℕ) : DenotesMicros (stamp usecs) usecs := by
  have hlen : (zeroPadded 6 (usecs % 1000000)).length = 6 :=
    length_zeroPadded (by decide) (Nat.mod_lt usecs (by decide))
  refine ⟨zeroPadded 5 (usecs / 1000000), zeroPadded 6 (usecs % 1000000), rfl, zeroPadded_ne_nil _ _, hlen, ?_, ?_⟩
  · intro c hc
    rcases List.mem_append.mp hc with hc | hc <;> exact isDigit_of_mem_zeroPadded hc
  · rw [Nat.ofDigitChars_append, ofDigitChars_zeroPadded, Nat.ofDigitChars_eq_ofDigitChars_zero, hlen,
      ofDigitChars_zeroPadded]
    omega

theorem printText_eq (msg textLen i : ℕ) :
    printText k msg textLen i = (List.range' i (textLen - i)).map (fun j => k.char (msg + j)) := by
  induction hrest : textLen - i generalizing i with
  | zero =>
    rw [printText, if_neg (by omega)]
    rfl
  | succ n ih =>
    rw [printText, if_pos (by omega), ih (i + 1) (by omega), List.range'_succ, List.map_cons]

theorem printEntry_line (idx : ℕ) : Line k idx (printEntry k (k.logBuf + idx)) := by
  refine ⟨_, stamp_denotes _, ?_⟩
  rw [printEntry, printText_eq, Nat.sub_zero, ← List.range_eq_range']
  rfl

namespace Laid

variable {i j : ℕ} {rs : List ℕ}

theorem bounds (h : Laid k i rs j) : i ≤ j ∧ ∀ r ∈ rs, i ≤ r ∧ r < j := by
  induction h with
  | stop i => simp
  | record hlen hinside hrest ih =>
    obtain ⟨hle, hmem⟩ := ih
    refine ⟨by omega, fun r hr => ?_⟩
    rcases List.mem_cons.mp hr with rfl | hr
    · omega
    · have hbound := hmem r hr
      omega

theorem nodup (h : Laid k i rs j) : rs.Nodup := by
  induction h with
  | stop i => exact List.nodup_nil
  | record hlen hinside hrest ih =>
    refine List.nodup_cons.mpr ⟨fun hmem => ?_, ih⟩
    have hbound := (hrest.bounds).2 _ hmem
    omega

theorem len_pos (h : Laid k i rs j) : ∀ r ∈ rs, 0 < (k.record r).len := by
  induction h with
  | stop i => simp
  | record hlen hinside hrest ih => exact List.forall_mem_cons.mpr ⟨hlen, ih⟩

theorem from_mem (h : Laid k i rs j) {r : ℕ} (hr : r ∈ rs) : ∃ rest, Laid k r rest j ∧ rest ⊆ rs := by
  induction h with
  | stop i => simp at hr
  | record hlen hinside hrest ih =>
    rcases List.mem_cons.mp hr with rfl | hr
    · exact ⟨_, .record hlen hinside hrest, fun _ h => h⟩
    · obtain ⟨rest, hlaid, hsub⟩ := ih hr
      exact ⟨rest, hlaid, fun x hx => List.mem_cons_of_mem _ (hsub hx)⟩

theorem meets {j' : ℕ} {rs' : List ℕ} (h : Laid k i rs j) (h' : Laid k i rs' j') : j = j' ∨ j ∈ rs' ∨ j' ∈ rs := by
  induction h generalizing rs' with
  | stop i =>
    cases h' with
    | stop => exact .inl rfl
    | record => exact .inr (.inl (List.mem_cons_self ..))
  | record hlen hinside hrest ih =>
    cases h' with
    | stop => exact .inr (.inr (List.mem_cons_self ..))
    | record _ _ hrest' =>
      rcases ih hrest' with heq | hmem | hmem
      · exact .inl heq
      · exact .inr (.inl (List.mem_cons_of_mem _ hmem))
      · exact .inr (.inr (List.mem_cons_of_mem _ hmem))

theorem dmesgLoop_run (h : Laid k i rs j) (hnext : k.logNextIdx ∉ rs) (fuel : ℕ) :
    dmesgLoop k (fuel + rs.length) i =
      (dmesgLoop k fuel j).map ((rs.map (fun r => printEntry k (k.logBuf + r))).flatten ++ ·) := by
  induction h with
  | stop i => simp
  | record hlen hinside hrest ih =>
    obtain ⟨hne, hnext⟩ := not_or.mp (mt List.mem_cons.mpr hnext)
    have hsmall := k.fits
    rw [List.length_cons, ← Nat.add_assoc, dmesgLoop, if_pos (Ne.symm hne)]
    dsimp only
    rw [← Kernel.record, if_neg hlen.ne', Nat.mod_eq_of_lt (by omega), ih hnext, Option.map_map]
    simp only [Function.comp_def, List.map_cons, List.flatten_cons, List.append_assoc]

end Laid

theorem LogRing.nodup {rs : List ℕ} (h : LogRing k rs) : rs.Nodup := by
  cases h with
  | straight h => exact h.nodup
  | wrapped h hmark hfirst h' =>
    refine List.nodup_append'.mpr ⟨h.nodup, h'.nodup, fun r hr hr' => ?_⟩
    obtain ⟨rest, hrest, hsub⟩ := h.from_mem hr
    obtain ⟨rest', hrest', hsub'⟩ := h'.from_mem hr'
    rcases hrest.meets hrest' with heq | hmem | hmem
    · exact hfirst (List.mem_append_right _ (List.mem_singleton.mpr heq.symm))
    · have hlen := h'.len_pos _ (hsub' hmem)
      omega
    · exact hfirst (List.mem_append_left _ (hsub hmem))

theorem LogRing.exists_dmesg {rs : List ℕ} (h : LogRing k rs) :
    ∃ fuel, dmesg k fuel = some (rs.map (fun r => printEntry k (k.logBuf + r))).flatten := by
  have hstop : dmesgLoop k 1 k.logNextIdx = some [] := by rw [dmesgLoop, if_neg (not_not.mpr rfl)]
  cases h with
  | @straight rs h =>
    have hnext : k.logNextIdx ∉ rs := fun hmem => (lt_irrefl _ ((h.bounds).2 _ hmem).2)
    refine ⟨1 + rs.length, ?_⟩
    rw [dmesg, h.dmesgLoop_run hnext, hstop, Option.map_some, List.append_nil]
  | @wrapped rs rs' mark h hmark hfirst h' =>
    obtain ⟨hnext, hne⟩ := not_or.mp (mt List.mem_append.mpr hfirst)
    have hnext' : k.logNextIdx ∉ rs' := fun hmem => (lt_irrefl _ ((h'.bounds).2 _ hmem).2)
    -- the marker is passed in a round of its own
    have hwrap : dmesgLoop k (1 + rs'.length + 1) mark = dmesgLoop k (1 + rs'.length) 0 := by
      rw [dmesgLoop, if_pos (fun heq => hne (List.mem_singleton.mpr heq.symm))]
      dsimp only
      rw [← Kernel.record, if_pos hmark]
    refine ⟨1 + rs'.length + 1 + rs.length, ?_⟩
    rw [dmesg, h.dmesgLoop_run hnext, hwrap, h'.dmesgLoop_run hnext', hstop, Option.map_some, Option.map_some,
      List.append_nil, List.map_append, List.flatten_append]

theorem dmesg_prints (k : Kernel) (rs : List ℕ) (h : LogRing k rs) :
    rs.Nodup ∧ ∃ fuel lines, dmesg k fuel = some lines.flatten ∧ List.Forall₂ (Line k) rs lines := by
  obtain ⟨fuel, hfuel⟩ := h.exists_dmesg
  refine ⟨h.nodup, fuel, _, hfuel, ?_⟩
  rw [List.forall₂_map_right_iff, List.forall₂_same]
  exact fun r _ => printEntry_line r

def wrappedKernel : Kernel where
  logBuf := 0
  logBufLen := 160
  logFirstIdx := 100
  logNextIdx := 40
  sizeofLog := 16
  log := fun a => if a = 132 then ⟨0, 0, 0⟩ else if a = 0 then ⟨123456789012, 40, 5⟩ else ⟨5000, 32, 3⟩
  char := fun a => UInt8.ofNat (48 + a % 64)
  fits := by decide

theorem wrapped_printed : [100, 0].Nodup ∧
    ∃ fuel lines, dmesg wrappedKernel fuel = some lines.flatten ∧ List.Forall₂ (Line wrappedKernel) [100, 0] lines :=
  dmesg_prints wrappedKernel [100, 0]
    (@LogRing.wrapped wrappedKernel [100] [0] 132 (.record (by decide) (by decide) (.stop _)) (by decide) (by decide)
      (.record (by decide) (by decide) (.stop _)))

end CgxLayer.Kdump
