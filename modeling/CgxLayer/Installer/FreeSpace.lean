import CgxLayer.Installer.Fstab
import CgxLayer.Rounding

namespace CgxLayer.Installer

open Text Rounding

def digits (s : Text) : Bool := !s.isEmpty && s.all Char.isDigit

def exactFloat (s : Text) : Option ℚ :=
  match splitFirst '.' s with
  | none => if digits s then some (Nat.ofDigitChars 10 s 0 : ℕ) else none
  | some (whole, frac) =>
    if digits whole && digits frac then
      some ((Nat.ofDigitChars 10 whole 0 : ℕ) + (Nat.ofDigitChars 10 frac 0 : ℕ) / 10 ^ frac.length)
    else none

-- A float has 53 bits; its exponent is not bounded here.
def double (q : ℚ) : ℚ := roundBits 52 q

def float (s : Text) : Option ℚ := (exactFloat s).map double

-- `int` of a float
def truncate (q : ℚ) : ℤ := if 0 ≤ q then ⌊q⌋ else ⌈q⌉

structure Slot where
  num : ℕ
  start : ℤ
  stop : ℤ

def truncateUp (q : ℚ) : ℤ := truncate (double (q + double (9999 / 10000)))

def addPartedLine (dev : Text) (acc : ℤ × List Slot) (l : Text) : Except Failure (ℤ × List Slot) :=
  match l.splitOn ':' with
  | [] => .ok acc
  | w :: ws =>
    if w = dev ∨ digits w then
      match ws with
      | [] => .error .indexError
      | w₁ :: _ =>
        match float (w₁.take (w₁.length - 2)) with
        | none => .error .valueError
        | some q =>
          if w = dev then .ok (truncate q, acc.2)
          else .ok (acc.1, acc.2 ++ [⟨Nat.ofDigitChars 10 w 0, truncate q, truncateUp q⟩])
    else .ok acc

def getPartitions (dev : Text) (lines : List Text) : Except Failure (ℤ × List Slot) :=
  lines.foldlM (addPartedLine dev) (0, [])

/-- A number of megabytes: sums with an `int` are exact, those with a `float` are rounded. -/
inductive Size where
  | int (n : ℤ)
  | float (q : ℚ)

def Size.value : Size → ℚ
  | .int n => n
  | .float q => q

def Size.after (start : ℤ) : Size → ℚ
  | .int n => (start + n : ℤ)
  | .float q => double (double start + q)

def firstFit (size : ℚ) (lastEnd : ℤ) : List Slot → Bool × ℤ
  | [] => (false, lastEnd)
  | p :: parts => if ((p.start - lastEnd : ℤ) : ℚ) ≥ size then (true, lastEnd) else firstFit size p.stop parts

def chooseRange (size : Size) (disksize : ℤ) (parts : List Slot) : Except Failure (ℤ × ℚ) :=
  match firstFit size.value 1 parts with
  | (true, lastEnd) => .ok (lastEnd, size.after lastEnd)
  | (false, lastEnd) =>
    if ((disksize - lastEnd : ℤ) : ℚ) ≥ size.value then .ok (lastEnd, size.after lastEnd)
    else .error .installerException

def createRange (dev : Text) (lines : List Text) (size : Size) : Except Failure (ℤ × ℚ) :=
  match getPartitions dev lines with
  | .error e => .error e
  | .ok (disksize, parts) => chooseRange size disksize parts

structure Decimal where
  whole : ℕ
  frac : Text
  digits : ∀ c ∈ frac, c.isDigit = true

def Decimal.text (d : Decimal) : Text :=
  decimal d.whole ++ (if d.frac = [] then [] else '.' :: d.frac)

def Decimal.value (d : Decimal) : ℚ :=
  d.whole + (Nat.ofDigitChars 10 d.frac 0 : ℕ) / 10 ^ d.frac.length

structure Part where
  num : ℕ
  start : Decimal
  stop : Decimal
  rest : Text

def Part.line (p : Part) : Text :=
  decimal p.num ++ ':' :: p.start.text ++ "MB:".toList ++ p.stop.text ++ "MB".toList ++ p.rest

/-- What parted prints of a disk in machine-readable form, in MB and in on-disk order. -/
structure PartedTable where
  dev : Text
  disk : Decimal
  rest : Text
  parts : List Part
  isDev : startsWith "/dev/".toList dev = true
  noColon : ':' ∉ dev
  proper : ∀ p ∈ parts, 1 ≤ p.start.value ∧ p.start.value < p.stop.value ∧ p.stop.value ≤ disk.value
  ordered : parts.Pairwise (fun p q => p.stop.value ≤ q.start.value)

def PartedTable.lines (t : PartedTable) : List Text :=
  "BYT;".toList :: (t.dev ++ ':' :: t.disk.text ++ "MB:".toList ++ t.rest) ::
    t.parts.map Part.line ++ [[]]

def Free (parts : List Part) (a b : ℚ) : Prop := ∀ p ∈ parts, p.stop.value ≤ a ∨ b ≤ p.start.value

def spaces (disk : ℚ) (start : ℤ) : List Part → List (ℤ × ℚ)
  | [] => [(start, disk)]
  | p :: parts => (start, ⌊p.start.value⌋) :: spaces disk ⌈p.stop.value⌉ parts

def Allocates (t : PartedTable) (size : Size) : Prop :=
  match createRange t.dev t.lines size with
  | .ok (a, b) => b = size.after a ∧ 0 ≤ a ∧ a + size.value ≤ t.disk.value ∧ Free t.parts a (a + size.value)
  | .error e => e = .installerException ∧ ∀ s ∈ spaces t.disk.value 1 t.parts, s.2 - s.1 < size.value

def Decimal.down (d : Decimal) : ℤ := ⌊double d.value⌋

def Decimal.up (d : Decimal) : ℤ := ⌊double (double d.value + double (9999 / 10000))⌋

/-- A space as it is counted, from 1 or the rounded up start of a partition to the next start or the
end of the disk, which is at `limit`; `before` are the partitions before its end. -/
structure Counted where
  before : List Part
  start : ℤ
  stop : ℤ
  limit : ℚ

def countedFrom (disk : Decimal) (before : List Part) (start : ℤ) : List Part → List Counted
  | [] => [⟨before, start, disk.down, disk.value⟩]
  | p :: parts => ⟨before, start, p.start.down, p.start.value⟩ :: countedFrom disk (before ++ [p]) p.start.up parts

def PartedTable.counted (t : PartedTable) : List Counted := countedFrom t.disk [] 1 t.parts

def Counted.Wide (c : Counted) (size : ℚ) : Prop := size ≤ c.stop - c.start

def Counted.Clear (c : Counted) (size : ℚ) : Prop :=
  Free c.before c.start (c.start + size) ∧ c.start + size ≤ c.limit

/-- A space that is counted wide enough though a partition reaches into it comes after a clear one;
and where the disk holds the size, a space is counted wide enough. -/
structure FirstSpaceClear (t : PartedTable) (size : ℚ) : Prop where
  clear : ∀ cs c ds, t.counted = cs ++ c :: ds → c.Wide size → ¬ c.Clear size →
    ∃ c' ∈ cs, c'.Wide size ∧ c'.Clear size
  held : (∃ s ∈ spaces t.disk.value 1 t.parts, size ≤ s.2 - s.1) → ∃ c ∈ t.counted, c.Wide size

theorem digits_decimal (n : ℕ) : digits (decimal n) = true := by
  have hne : decimal n ≠ [] := Nat.toDigits_ne_nil
  have hall : (decimal n).all Char.isDigit = true :=
    List.all_eq_true.mpr (fun c hc => isDigit_of_mem_decimal hc)
  simp [digits, hne, hall]

theorem not_mem_of_digits {s : Text} (h : ∀ c ∈ s, c.isDigit = true) {c : Char} (hc : c.isDigit = false) :
    c ∉ s := by
  intro hmem
  rw [h c hmem] at hc
  cases hc

theorem not_mem_decimal (n : ℕ) {c : Char} (hc : c.isDigit = false) : c ∉ decimal n :=
  not_mem_of_digits (fun _ h => isDigit_of_mem_decimal h) hc

theorem exactFloat_text (d : Decimal) : exactFloat d.text = some d.value := by
  have hdot : '.' ∉ decimal d.whole := not_mem_decimal _ (by decide)
  have hwhole : Nat.ofDigitChars 10 (decimal d.whole) 0 = d.whole := Nat.ofDigitChars_ten_toDigits
  by_cases hfrac : d.frac = []
  · rw [Decimal.text, if_pos hfrac, List.append_nil, exactFloat, splitFirst_none.mpr hdot]
    simp [digits_decimal, hwhole, Decimal.value, hfrac]
  · have hdigits : digits d.frac = true := by
      have hall : d.frac.all Char.isDigit = true := List.all_eq_true.mpr d.digits
      simp [digits, hfrac, hall]
    rw [Decimal.text, if_neg hfrac, exactFloat, splitFirst_append _ _ hdot]
    simp [digits_decimal, hdigits, hwhole, Decimal.value]

theorem value_nonneg (d : Decimal) : 0 ≤ d.value := by
  unfold Decimal.value
  positivity

theorem truncate_of_nonneg {q : ℚ} (h : 0 ≤ q) : truncate q = ⌊q⌋ := if_pos h

theorem float_text (d : Decimal) : float d.text = some (double d.value) := by
  rw [float, exactFloat_text, Option.map_some]

theorem double_nonneg {q : ℚ} (h : 0 ≤ q) : 0 ≤ double q := roundBits_nonneg h

theorem truncate_double (d : Decimal) : truncate (double d.value) = d.down :=
  truncate_of_nonneg (double_nonneg (value_nonneg d))

theorem truncateUp_double (d : Decimal) : truncateUp (double d.value) = d.up := by
  have hsum : 0 ≤ double d.value + double (9999 / 10000) :=
    add_nonneg (double_nonneg (value_nonneg d)) (double_nonneg (by norm_num))
  exact truncate_of_nonneg (double_nonneg hsum)

theorem take_mb (s : Text) : (s ++ "MB".toList).take ((s ++ "MB".toList).length - 2) = s := by
  have hlen : (s ++ "MB".toList).length - 2 = s.length := by
    rw [List.length_append]
    exact Nat.add_sub_cancel s.length 2
  rw [hlen, List.take_left]

theorem colon_not_mem_text (d : Decimal) : ':' ∉ d.text ++ "MB".toList := by
  have hwhole : ':' ∉ decimal d.whole := not_mem_decimal _ (by decide)
  have hfrac : ':' ∉ d.frac := not_mem_of_digits d.digits (by decide)
  have hmb : ':' ∉ "MB".toList := by decide
  unfold Decimal.text
  split_ifs
  · simp only [List.append_nil, List.mem_append, not_or]
    exact ⟨hwhole, hmb⟩
  · simp only [List.mem_append, List.mem_cons, not_or]
    exact ⟨⟨hwhole, by decide, hfrac⟩, hmb⟩

theorem splitOn_sized {w : Text} (hw : ':' ∉ w) (d : Decimal) (rest : Text) :
    (w ++ ':' :: d.text ++ "MB:".toList ++ rest).splitOn ':' = w :: (d.text ++ "MB".toList) :: rest.splitOn ':' := by
  have hassoc : w ++ ':' :: d.text ++ "MB:".toList ++ rest =
      w ++ ':' :: ((d.text ++ "MB".toList) ++ ':' :: rest) := by simp
  rw [hassoc, List.splitOn_append_cons_self_of_not_mem hw,
    List.splitOn_append_cons_self_of_not_mem (colon_not_mem_text d)]

def Part.slot (p : Part) : Slot := ⟨p.num, p.start.down, p.start.up⟩

theorem digits_head {dev : Text} (h : startsWith "/dev/".toList dev = true) : digits dev = false := by
  obtain ⟨name, rfl⟩ := startsWith_iff.mp h
  simp [digits]

theorem addPartedLine_part {dev : Text} (hdev : startsWith "/dev/".toList dev = true) (acc : ℤ × List Slot)
    (p : Part) : addPartedLine dev acc p.line = .ok (acc.1, acc.2 ++ [p.slot]) := by
  have hne : decimal p.num ≠ dev := by
    intro h
    have hno := digits_head hdev
    rw [← h, digits_decimal] at hno
    cases hno
  have hnum : Nat.ofDigitChars 10 (decimal p.num) 0 = p.num := Nat.ofDigitChars_ten_toDigits
  have hline : p.line = decimal p.num ++ ':' :: p.start.text ++ "MB:".toList ++
      (p.stop.text ++ "MB".toList ++ p.rest) := by simp [Part.line]
  rw [addPartedLine, hline, splitOn_sized (not_mem_decimal _ (by decide))]
  simp only [digits_decimal, or_true, if_true, take_mb, float_text, hne, if_false, hnum, truncate_double,
    truncateUp_double]
  rfl

theorem getPartitions_lines (t : PartedTable) :
    getPartitions t.dev t.lines = .ok (t.disk.down, t.parts.map Part.slot) := by
  have hparts (parts : List Part) (acc : ℤ × List Slot) :
      (parts.map Part.line ++ [[]]).foldlM (addPartedLine t.dev) acc =
        .ok (acc.1, acc.2 ++ parts.map Part.slot) := by
    induction parts generalizing acc with
    | nil =>
      have hne : [] ≠ t.dev := fun h => by
        have hdev := t.isDev
        rw [← h] at hdev
        cases hdev
      have hblank : addPartedLine t.dev acc [] = .ok acc := by
        simp [addPartedLine, digits, hne]
      simp [hblank]
    | cons p parts ih =>
      rw [List.map_cons, List.cons_append, List.foldlM_cons, addPartedLine_part t.isDev]
      change (parts.map Part.line ++ [[]]).foldlM (addPartedLine t.dev) _ = _
      rw [ih, List.map_cons, List.append_assoc]
      rfl
  have hhead : addPartedLine t.dev (0, []) "BYT;".toList = .ok (0, []) := by
    have hsplit : "BYT;".toList.splitOn ':' = ["BYT;".toList] := List.splitOn_eq_singleton (by decide)
    have hne : "BYT;".toList ≠ t.dev := fun h => by
      have hdev := t.isDev
      rw [← h] at hdev
      cases hdev
    rw [addPartedLine, hsplit]
    exact if_neg (fun h => h.elim hne (by decide))
  have hdisk : addPartedLine t.dev (0, []) (t.dev ++ ':' :: t.disk.text ++ "MB:".toList ++ t.rest) =
      .ok (t.disk.down, []) := by
    rw [addPartedLine, splitOn_sized t.noColon]
    simp only [true_or, if_true, take_mb, float_text, truncate_double]
  rw [getPartitions, PartedTable.lines, List.cons_append, List.foldlM_cons, hhead]
  change ((_ :: t.parts.map Part.line ++ [[]]) : List Text).foldlM (addPartedLine t.dev) (0, []) = _
  rw [List.cons_append, List.foldlM_cons, hdisk]
  exact hparts t.parts _

instance (c : Counted) (size : ℚ) : Decidable (c.Wide size) := inferInstanceAs (Decidable (size ≤ _))

def taken (size : Size) : Option Counted → Except Failure (ℤ × ℚ)
  | some c => .ok (c.start, size.after c.start)
  | none => .error .installerException

theorem wide_iff {c : Counted} {size : ℚ} : c.Wide size ↔ ((c.stop - c.start : ℤ) : ℚ) ≥ size := by
  rw [Counted.Wide, Int.cast_sub]

def rangeFrom (size : Size) (disksize lastEnd : ℤ) (parts : List Slot) : Except Failure (ℤ × ℚ) :=
  match firstFit size.value lastEnd parts with
  | (true, lastEnd) => .ok (lastEnd, size.after lastEnd)
  | (false, lastEnd) =>
    if ((disksize - lastEnd : ℤ) : ℚ) ≥ size.value then .ok (lastEnd, size.after lastEnd)
    else .error .installerException

theorem rangeFrom_nil (size : Size) (disksize lastEnd : ℤ) : rangeFrom size disksize lastEnd [] =
    if ((disksize - lastEnd : ℤ) : ℚ) ≥ size.value then .ok (lastEnd, size.after lastEnd)
    else .error .installerException := rfl

theorem rangeFrom_cons (size : Size) (disksize lastEnd : ℤ) (p : Slot) (parts : List Slot) :
    rangeFrom size disksize lastEnd (p :: parts) =
      if ((p.start - lastEnd : ℤ) : ℚ) ≥ size.value then .ok (lastEnd, size.after lastEnd)
      else rangeFrom size disksize p.stop parts := by
  unfold rangeFrom
  rw [firstFit]
  split_ifs <;> rfl

theorem rangeFrom_counted (size : Size) (disk : Decimal) (before : List Part) (lastEnd : ℤ) (parts : List Part) :
    rangeFrom size disk.down lastEnd (parts.map Part.slot) =
      taken size ((countedFrom disk before lastEnd parts).find? (fun c => c.Wide size.value)) := by
  induction parts generalizing before lastEnd with
  | nil =>
    rw [List.map_nil, rangeFrom_nil, countedFrom, List.find?_singleton]
    simp only [wide_iff, decide_eq_true_eq]
    split_ifs <;> rfl
  | cons p parts ih =>
    have hstart : p.slot.start = p.start.down := rfl
    have hstop : p.slot.stop = p.start.up := rfl
    rw [List.map_cons, rangeFrom_cons, countedFrom, List.find?_cons, hstart, hstop, ih (before ++ [p])]
    by_cases hwide : Counted.Wide ⟨before, lastEnd, p.start.down, p.start.value⟩ size.value
    · rw [if_pos (wide_iff.mp hwide), decide_eq_true hwide]
      rfl
    · rw [if_neg (fun h => hwide (wide_iff.mpr h)), decide_eq_false hwide]

theorem createRange_counted (t : PartedTable) (size : Size) : createRange t.dev t.lines size =
    taken size (t.counted.find? (fun c => c.Wide size.value)) := by
  rw [createRange, getPartitions_lines]
  exact rangeFrom_counted size t.disk [] 1 t.parts

structure Placed (t : PartedTable) (c : Counted) : Prop where
  nonneg : 0 ≤ c.start
  held : double c.start = c.start
  stop : (c.before = t.parts ∧ c.stop = t.disk.down ∧ c.limit = t.disk.value) ∨
    ∃ p parts, t.parts = c.before ++ p :: parts ∧ c.stop = p.start.down ∧ c.limit = p.start.value

theorem placed_of_mem (t : PartedTable) {before parts : List Part} {start : ℤ} {c : Counted}
    (hparts : t.parts = before ++ parts) (hstart : 0 ≤ start) (hheld : double start = start)
    (hc : c ∈ countedFrom t.disk before start parts) : Placed t c := by
  induction parts generalizing before start with
  | nil =>
    rw [List.mem_singleton.mp hc]
    rw [List.append_nil] at hparts
    exact ⟨hstart, hheld, .inl ⟨hparts.symm, rfl, rfl⟩⟩
  | cons p parts ih =>
    obtain rfl | hc := List.mem_cons.mp hc
    · exact ⟨hstart, hheld, .inr ⟨p, parts, hparts, rfl, rfl⟩⟩
    · have hsum : 0 ≤ double p.start.value + double (9999 / 10000) :=
        add_nonneg (double_nonneg (value_nonneg p.start)) (double_nonneg (by norm_num))
      apply ih _ (Int.floor_nonneg.mpr (double_nonneg hsum)) (roundBits_floor hsum) hc
      rw [hparts, List.append_assoc, List.singleton_append]

theorem double_one : double 1 = 1 := by
  have hone := @roundBits_intCast 52 1 one_pos.le (by norm_num)
  exact_mod_cast hone

theorem PartedTable.placed (t : PartedTable) {c : Counted} (hc : c ∈ t.counted) : Placed t c :=
  placed_of_mem t (List.nil_append _).symm one_pos.le (by exact_mod_cast double_one) hc

theorem start_lt_of_wide {c : Counted} (hheld : double c.start = c.start) {d : Decimal} {size : ℚ} (hsize : 0 < size)
    (hstop : c.stop = d.down) (hwide : c.Wide size) : c.start < d.value := by
  by_contra hle
  have hdown : (d.down : ℚ) ≤ c.start := by
    calc
      (d.down : ℚ) ≤ double d.value := Int.floor_le _
      _ ≤ double c.start := roundBits_mono (value_nonneg d) (not_lt.mp hle)
      _ = c.start := hheld
  rw [Counted.Wide, hstop] at hwide
  linarith

theorem clear_iff {t : PartedTable} {c : Counted} (hc : Placed t c) {size : ℚ} (hsize : 0 < size)
    (hwide : c.Wide size) :
    c.Clear size ↔ c.start + size ≤ t.disk.value ∧ Free t.parts c.start (c.start + size) := by
  obtain ⟨hbefore, hstop, hlimit⟩ | ⟨p, parts, hparts, hstop, hlimit⟩ := hc.stop
  · rw [Counted.Clear, hbefore, hlimit, and_comm]
  · have hordered := t.ordered
    rw [hparts, List.pairwise_append, List.pairwise_cons] at hordered
    have hproper : ∀ q ∈ p :: parts,
        1 ≤ q.start.value ∧ q.start.value < q.stop.value ∧ q.stop.value ≤ t.disk.value :=
      fun q hq => t.proper q (hparts ▸ List.mem_append_right _ hq)
    have hp := hproper p (List.mem_cons_self ..)
    rw [Counted.Clear, hlimit, hparts]
    constructor
    · rintro ⟨hfree, hend⟩
      refine ⟨by linarith, fun q hq => ?_⟩
      obtain hq | hq := List.mem_append.mp hq
      · exact hfree q hq
      · obtain rfl | hq := List.mem_cons.mp hq
        · exact .inr hend
        · have hle := hordered.2.1.1 q hq
          exact .inr (by linarith)
    · rintro ⟨-, hfree⟩
      refine ⟨fun q hq => hfree q (List.mem_append_left _ hq), ?_⟩
      have hlt := start_lt_of_wide hc.held hsize hstop hwide
      obtain hle | hle := hfree p (List.mem_append_right _ (List.mem_cons_self ..))
      · linarith
      · exact hle

theorem first_clear_iff {spaces : List Counted} {size : ℚ} {c : Counted}
    (hfind : spaces.find? (fun c => c.Wide size) = some c) :
    (∀ cs c ds, spaces = cs ++ c :: ds → c.Wide size → ¬ c.Clear size → ∃ c' ∈ cs, c'.Wide size ∧ c'.Clear size) ↔
      c.Clear size := by
  obtain ⟨hwide, cs, ds, heq, hbefore⟩ := List.find?_eq_some_iff_append.mp hfind
  rw [decide_eq_true_eq] at hwide
  have hnarrow : ∀ c' ∈ cs, ¬ c'.Wide size := by
    intro c' hc'
    simpa using hbefore c' hc'
  constructor
  · intro h
    by_contra hnot
    obtain ⟨c', hc', hwide', -⟩ := h cs c ds heq hwide hnot
    exact hnarrow c' hc' hwide'
  · intro hclear cs' c' ds' heq' hwide' hnot
    rw [heq] at heq'
    obtain ⟨as, rfl, has⟩ | ⟨as, rfl, has⟩ := List.append_eq_append_iff.mp heq'
    · cases as with
      | nil =>
        obtain ⟨rfl, -⟩ := List.cons.inj has
        exact absurd hclear hnot
      | cons d as =>
        obtain ⟨rfl, -⟩ := List.cons.inj has
        exact ⟨c, List.mem_append_right _ (List.mem_cons_self ..), hwide, hclear⟩
    · cases as with
      | nil =>
        obtain ⟨rfl, -⟩ := List.cons.inj has
        exact absurd hclear hnot
      | cons d as =>
        obtain ⟨rfl, -⟩ := List.cons.inj has
        exact absurd hwide' (hnarrow c' (List.mem_append_right _ (List.mem_cons_self ..)))

theorem allocates_iff_firstSpaceClear (t : PartedTable) (size : Size) (hsize : 0 < size.value) :
    Allocates t size ↔ FirstSpaceClear t size.value := by
  rw [Allocates, createRange_counted]
  cases hfind : t.counted.find? (fun c => c.Wide size.value) with
  | none =>
    have hnone : ∀ c ∈ t.counted, ¬ c.Wide size.value := by
      intro c hc
      simpa using List.find?_eq_none.mp hfind c hc
    constructor
    · rintro ⟨-, hall⟩
      refine ⟨fun cs c ds heq hwide => ?_, ?_⟩
      · exact absurd hwide (hnone c (heq ▸ List.mem_append_right _ (List.mem_cons_self ..)))
      · rintro ⟨s, hs, hle⟩
        exact absurd (hall s hs) (not_lt.mpr hle)
    · intro h
      refine ⟨rfl, fun s hs => ?_⟩
      by_contra hle
      obtain ⟨c, hc, hwide⟩ := h.held ⟨s, hs, not_lt.mp hle⟩
      exact hnone c hc hwide
  | some c =>
    have hmem : c ∈ t.counted := List.mem_of_find?_eq_some hfind
    have hwide : c.Wide size.value := by simpa using List.find?_some hfind
    have hplaced := t.placed hmem
    have hclear := clear_iff hplaced hsize hwide
    constructor
    · rintro ⟨-, -, hin⟩
      exact ⟨(first_clear_iff hfind).mpr (hclear.mpr hin), fun _ => ⟨c, hmem, hwide⟩⟩
    · intro h
      exact ⟨rfl, hplaced.nonneg, hclear.mp ((first_clear_iff hfind).mp h.clear)⟩

def mb (n : ℕ) : Decimal := ⟨n, [], by simp⟩

def bootDisk : PartedTable where
  dev := "/dev/sda".toList
  disk := mb 1000
  rest := "scsi:512:512:gpt:disk:;".toList
  parts := [⟨1, mb 1, mb 201, ":200MB:ext4::;".toList⟩]
  isDev := by decide
  noColon := by decide
  proper := by
    intro p hp
    rw [List.mem_singleton.mp hp]
    simp only [mb, Decimal.value]
    norm_num
  ordered := List.pairwise_singleton _ _

def emptyDisk : PartedTable :=
  { bootDisk with parts := [], proper := by simp, ordered := List.Pairwise.nil }

theorem empty_disk_allocates : Allocates emptyDisk (.int 200) := by
  have hdown : emptyDisk.disk.down = 1000 := by decide +kernel
  have hvalue : emptyDisk.disk.value = 1000 := by decide +kernel
  refine (allocates_iff_firstSpaceClear emptyDisk (.int 200) (by norm_num [Size.value])).mpr ⟨?_, fun _ => ?_⟩
  · intro cs c ds heq _ hnot
    exfalso
    obtain ⟨rfl, rfl⟩ : c = ⟨[], 1, emptyDisk.disk.down, emptyDisk.disk.value⟩ ∧ cs = [] := by
      cases cs with
      | nil => exact ⟨(List.cons.inj heq).1.symm, rfl⟩
      | cons d cs => exact absurd (List.cons.inj heq).2 (by simp)
    apply hnot
    refine ⟨fun p hp => absurd hp List.not_mem_nil, ?_⟩
    rw [hvalue]
    norm_num [Size.value]
  · refine ⟨⟨[], 1, emptyDisk.disk.down, emptyDisk.disk.value⟩, List.mem_singleton_self _, ?_⟩
    rw [Counted.Wide, hdown]
    norm_num [Size.value]

theorem new_partition_overlaps : ¬ ∀ (t : PartedTable) (size : Size), 0 < size.value → Allocates t size := by
  intro h
  have hboot := h bootDisk (.int 100) (by norm_num [Size.value])
  have hrange : createRange bootDisk.dev bootDisk.lines (.int 100) = .ok (1, 101) := by decide +kernel
  rw [Allocates, hrange] at hboot
  obtain ⟨-, -, -, hfree⟩ := hboot
  have hpart := hfree ⟨1, mb 1, mb 201, ":200MB:ext4::;".toList⟩ (List.mem_singleton_self _)
  simp only [mb, Decimal.value, Size.value] at hpart
  norm_num at hpart

end CgxLayer.Installer
