import CgxLayer.Installer.FreeSpace

namespace CgxLayer.Installer

open Text

/-- Python's `str.isdigit` on one character; characters outside ASCII are left open. -/
structure IsDigit where
  test : Char → Bool
  ascii : ∀ c, c.toNat < 128 → test c = c.isDigit

structure SerialParms where
  unit : Text
  speed : Text
  parity : Text
  word : Text
  stop : Text
deriving DecidableEq

def ttyS : Text := "ttyS".toList

def getSerialParms (isdigit : IsDigit) (console : Text) : Option SerialParms :=
  if !startsWith ttyS console then none
  else
    match console.splitOn ',' with
    | [] => none -- a split has at least one part
    | [l] => some ⟨l.drop 4, "9600".toList, "no".toList, ['8'], ['1']⟩
    | l :: w :: _ =>
      let i := (w.takeWhile isdigit.test).length
      let parity :=
        if w[i]? = some 'e' then "even".toList
        else if w[i]? = some 'o' then "odd".toList
        else "no".toList
      let word := (w[i + 1]?.map (fun c => [c])).getD ['8']
      let stop := (w[i + 2]?.map (fun c => [c])).getD ['1']
      some ⟨l.drop 4, w.take i, parity, word, stop⟩

/-- What `set_grub_serial` writes to 01_serial, if anything. -/
def setGrubSerial : Option SerialParms → Option Text
  | none => none
  | some p => some ("echo \"insmod serial\"\necho \"serial --unit=".toList ++ p.unit ++
      " --speed=".toList ++ p.speed ++ " --parity=".toList ++ p.parity ++ " --word=".toList ++
      p.word ++ " --stop=".toList ++ p.stop ++
      "\"\necho \"terminal_input serial\"\necho \"terminal_output serial\"\n".toList)

inductive Parity where
  | n
  | o
  | e
deriving DecidableEq

def Parity.letter : Parity → Char
  | n => 'n'
  | o => 'o'
  | e => 'e'

def Parity.word : Parity → Text
  | n => "no".toList
  | o => "odd".toList
  | e => "even".toList

abbrev Digit := {c : Char // c.isDigit = true}

inductive Fields where
  | none
  | parity (p : Parity)
  | bits (p : Parity) (b : Digit)
  | flow (p : Parity) (b : Digit)
deriving DecidableEq

namespace Fields

def text : Fields → Text
  | none => []
  | parity p => [p.letter]
  | bits p b => [p.letter, b.1]
  | flow p b => [p.letter, b.1, 'r']

def parityWord : Fields → Text
  | none => "no".toList
  | parity p => p.word
  | bits p _ => p.word
  | flow p _ => p.word

def wordLength : Fields → Text
  | none => ['8']
  | parity _ => ['8']
  | bits _ b => [b.1]
  | flow _ b => [b.1]

def hasFlow : Fields → Bool
  | flow _ _ => true
  | _ => false

end Fields

/-- The kernel's `ttyS<n>[,<baud>[<parity>[<bits>[<flow>]]]]`. -/
structure SerialPort where
  unit : List Digit
  unit_ne : unit ≠ []
  options : Option (List Digit × Fields)

namespace SerialPort

def text (p : SerialPort) : Text :=
  ttyS ++ (p.unit.map Subtype.val ++
    match p.options with
    | none => []
    | some (baud, fields) => ',' :: (baud.map Subtype.val ++ fields.text))

def parms (p : SerialPort) : SerialParms :=
  match p.options with
  | none => ⟨p.unit.map Subtype.val, "9600".toList, "no".toList, ['8'], ['1']⟩
  | some (baud, fields) => ⟨p.unit.map Subtype.val,
      if baud = [] then "9600".toList else baud.map Subtype.val, fields.parityWord, fields.wordLength, ['1']⟩

end SerialPort

structure GrubSerial (p : SerialParms) : Prop where
  unit : p.unit ≠ [] ∧ ∀ c ∈ p.unit, c.isDigit = true
  speed : p.speed ≠ [] ∧ ∀ c ∈ p.speed, c.isDigit = true
  parity : p.parity ∈ ["no".toList, "odd".toList, "even".toList]
  word : p.word ∈ [['5'], ['6'], ['7'], ['8']]
  stop : p.stop ∈ [['1'], ['2']]

structure NamesPort (console : Text) (unit : List Digit) (rest : Text) : Prop where
  split : console = ttyS ++ (unit.map Subtype.val ++ rest)
  unit_ne : unit ≠ []
  ends : ∀ c ∈ rest.head?, c = ','

/-- The parameters are the kernel's for each argument of its form, so grub is set to the same line
with values that it takes, and there are none for a console that is no such port. -/
structure ReadsConsole (isdigit : IsDigit) (console : Text) : Prop where
  parms : ∀ p : SerialPort, console = p.text → getSerialParms isdigit console = some p.parms
  grub : ∀ p : SerialPort, console = p.text →
    setGrubSerial (getSerialParms isdigit console) = setGrubSerial (some p.parms)
  valid : ∀ p : SerialPort, console = p.text → p.parms.word ∈ [['5'], ['6'], ['7'], ['8']] →
    ∀ q ∈ getSerialParms isdigit console, GrubSerial q
  others : (∀ unit rest, ¬ NamesPort console unit rest) → getSerialParms isdigit console = none

/-- Options begin with a baud rate and end before the flow control, and what begins like a serial
port is one. -/
structure PlainConsole (console : Text) : Prop where
  options : ∀ p : SerialPort, console = p.text → ∀ o ∈ p.options, o.1 ≠ [] ∧ o.2.hasFlow = false
  port : startsWith ttyS console = true → ∃ unit rest, NamesPort console unit rest

theorem comma_not_mem_digits (ds : List Digit) : ',' ∉ ds.map Subtype.val := by
  apply not_mem_of_digits _ (by decide)
  intro c hc
  obtain ⟨d, -, rfl⟩ := List.mem_map.mp hc
  exact d.2

theorem toNat_digit (d : Digit) : d.1.toNat < 128 := by
  have h := toNat_of_isDigit d.2
  omega

theorem isDigit_digit (isdigit : IsDigit) (d : Digit) : isdigit.test d.1 = true := by
  rw [isdigit.ascii d.1 (toNat_digit d), d.2]

theorem comma_not_mem_fields (fields : Fields) : ',' ∉ fields.text := by
  have hletter : ∀ p : Parity, ',' ≠ p.letter := by
    intro p
    cases p <;> decide
  have hbit : ∀ b : Digit, ',' ≠ b.1 := by
    intro b hb
    have hdigit := b.2
    rw [← hb] at hdigit
    cases hdigit
  have hflow : ',' ≠ 'r' := by decide
  cases fields <;> simp [Fields.text, hletter, hbit, hflow]

theorem fields_head (isdigit : IsDigit) (fields : Fields) :
    ∀ c ∈ fields.text.head?, isdigit.test c = false := by
  have hletter : ∀ p : Parity, isdigit.test p.letter = false := by
    intro p
    cases p
    all_goals
      rw [isdigit.ascii _ (by decide)]
      rfl
  intro c hc
  cases fields with
  | none => cases hc
  | parity p => exact Option.some.inj hc ▸ hletter p
  | bits p b => exact Option.some.inj hc ▸ hletter p
  | flow p b => exact Option.some.inj hc ▸ hletter p

theorem takeWhile_baud (isdigit : IsDigit) (baud : List Digit) (fields : Fields) :
    (baud.map Subtype.val ++ fields.text).takeWhile isdigit.test = baud.map Subtype.val := by
  have hbaud : ∀ c ∈ baud.map Subtype.val, isdigit.test c = true := by
    intro c hc
    obtain ⟨d, -, rfl⟩ := List.mem_map.mp hc
    exact isDigit_digit isdigit d
  have hfields : fields.text.takeWhile isdigit.test = [] := by
    cases hf : fields.text with
    | nil => rfl
    | cons c rest =>
      have hc := fields_head isdigit fields c (by rw [hf]; rfl)
      exact List.takeWhile_cons_of_neg (by simp [hc])
  rw [List.takeWhile_append_of_pos hbaud, hfields, List.append_nil]

theorem startsWith_ttyS (rest : Text) : startsWith ttyS (ttyS ++ rest) = true := startsWith_iff.mpr ⟨rest, rfl⟩

theorem comma_not_mem_unit (unit : List Digit) : ',' ∉ ttyS ++ unit.map Subtype.val := by
  rw [List.mem_append, not_or]
  exact ⟨by decide, comma_not_mem_digits unit⟩

theorem drop_ttyS (rest : Text) : (ttyS ++ rest).drop 4 = rest := rfl

theorem getSerialParms_bare (isdigit : IsDigit) (unit : List Digit) :
    getSerialParms isdigit (ttyS ++ (unit.map Subtype.val ++ [])) =
      some ⟨unit.map Subtype.val, "9600".toList, "no".toList, ['8'], ['1']⟩ := by
  rw [getSerialParms, startsWith_ttyS, List.append_nil, List.splitOn_eq_singleton (comma_not_mem_unit unit)]
  rfl

theorem getSerialParms_options (isdigit : IsDigit) (unit baud : List Digit) (fields : Fields) :
    getSerialParms isdigit (ttyS ++ (unit.map Subtype.val ++ ',' :: (baud.map Subtype.val ++ fields.text))) =
      some ⟨unit.map Subtype.val, baud.map Subtype.val, fields.parityWord, fields.wordLength,
        if fields.hasFlow then ['r'] else ['1']⟩ := by
  have hcomma : ',' ∉ baud.map Subtype.val ++ fields.text := by
    rw [List.mem_append, not_or]
    exact ⟨comma_not_mem_digits baud, comma_not_mem_fields fields⟩
  have hsplit : (ttyS ++ (unit.map Subtype.val ++ ',' :: (baud.map Subtype.val ++ fields.text))).splitOn ',' =
      [ttyS ++ unit.map Subtype.val, baud.map Subtype.val ++ fields.text] := by
    rw [← List.append_assoc, List.splitOn_append_cons_self_of_not_mem (comma_not_mem_unit unit),
      List.splitOn_eq_singleton hcomma]
  have hfield : ∀ k, (baud.map Subtype.val ++ fields.text)[(baud.map Subtype.val).length + k]? = fields.text[k]? := by
    intro k
    rw [List.getElem?_append_right (Nat.le_add_right ..), Nat.add_sub_cancel_left]
  have hfirst := hfield 0
  rw [Nat.add_zero] at hfirst
  simp only [getSerialParms, startsWith_ttyS, hsplit, takeWhile_baud, drop_ttyS, hfield, hfirst,
    List.take_left]
  cases fields with
  | none => rfl
  | parity p => cases p <;> rfl
  | bits p b => cases p <;> rfl
  | flow p b => cases p <;> rfl

theorem getSerialParms_port (isdigit : IsDigit) (p : SerialPort) :
    getSerialParms isdigit p.text = some p.parms ↔ ∀ o ∈ p.options, o.1 ≠ [] ∧ o.2.hasFlow = false := by
  obtain ⟨unit, hunit, options⟩ := p
  cases options with
  | none => simp only [SerialPort.text, getSerialParms_bare, SerialPort.parms, Option.mem_def, reduceCtorEq,
      false_implies, implies_true]
  | some o =>
    obtain ⟨baud, fields⟩ := o
    have hdefault : ("9600".toList : Text) ≠ [] := by decide
    have hspeed : baud.map Subtype.val = (if baud = [] then "9600".toList else baud.map Subtype.val) ↔ baud ≠ [] := by
      split_ifs with hbaud
      · rw [hbaud]
        exact ⟨fun h => absurd h.symm hdefault, fun h => absurd rfl h⟩
      · exact ⟨fun _ => hbaud, fun _ => rfl⟩
    have hstop : (if fields.hasFlow then (['r'] : Text) else ['1']) = ['1'] ↔ fields.hasFlow = false := by
      cases fields.hasFlow <;> decide
    simp only [SerialPort.text, getSerialParms_options, SerialPort.parms, Option.some.injEq,
      SerialParms.mk.injEq, true_and, hspeed, hstop, Option.mem_some_iff, forall_eq']

theorem getSerialParms_eq_none (isdigit : IsDigit) (console : Text) :
    getSerialParms isdigit console = none ↔ startsWith ttyS console = false := by
  unfold getSerialParms
  cases hstart : startsWith ttyS console with
  | false => simp
  | true =>
    cases hsplit : console.splitOn ',' with
    | nil => exact absurd hsplit (List.splitOn_ne_nil _ _)
    | cons l ls => cases ls <;> simp

theorem grubSerial_digits {ds : List Digit} (hds : ds ≠ []) :
    ds.map Subtype.val ≠ [] ∧ ∀ c ∈ ds.map Subtype.val, c.isDigit = true := by
  refine ⟨fun h => hds (List.map_eq_nil_iff.mp h), fun c hc => ?_⟩
  obtain ⟨d, -, rfl⟩ := List.mem_map.mp hc
  exact d.2

theorem grubSerial_parms (p : SerialPort) (hword : p.parms.word ∈ [['5'], ['6'], ['7'], ['8']]) :
    GrubSerial p.parms := by
  obtain ⟨unit, hunit, options⟩ := p
  have hdefault : "9600".toList ≠ ([] : Text) ∧ ∀ c ∈ "9600".toList, c.isDigit = true := by decide
  cases options with
  | none => exact ⟨grubSerial_digits hunit, hdefault, List.mem_cons_self .., hword, List.mem_cons_self ..⟩
  | some o =>
    obtain ⟨baud, fields⟩ := o
    have hparity : fields.parityWord ∈ ["no".toList, "odd".toList, "even".toList] := by
      have hletter : ∀ p : Parity, p.word ∈ ["no".toList, "odd".toList, "even".toList] := by
        intro p
        cases p <;> decide
      cases fields with
      | none => decide
      | parity p => exact hletter p
      | bits p b => exact hletter p
      | flow p b => exact hletter p
    refine ⟨grubSerial_digits hunit, ?_, hparity, hword, List.mem_cons_self ..⟩
    simp only [SerialPort.parms]
    split_ifs with hbaud
    · exact hdefault
    · exact grubSerial_digits hbaud

theorem readsConsole_iff_plain (isdigit : IsDigit) (console : Text) :
    ReadsConsole isdigit console ↔ PlainConsole console := by
  constructor
  · intro h
    constructor
    · rintro p rfl
      exact (getSerialParms_port isdigit p).mp (h.parms p rfl)
    · intro hstart
      by_contra hport
      have hnone := h.others (fun unit rest hnames => hport ⟨unit, rest, hnames⟩)
      rw [getSerialParms_eq_none, hstart] at hnone
      cases hnone
  · intro h
    have hparms : ∀ p : SerialPort, console = p.text → getSerialParms isdigit console = some p.parms := by
      rintro p rfl
      exact (getSerialParms_port isdigit p).mpr (h.options p rfl)
    refine ⟨hparms, fun p hp => by rw [hparms p hp], fun p hp hword q hq => ?_, fun hothers => ?_⟩
    · rw [hparms p hp] at hq
      obtain rfl := Option.some.inj hq
      exact grubSerial_parms p hword
    rw [getSerialParms_eq_none]
    by_contra hstart
    obtain ⟨unit, rest, hnames⟩ := h.port (Bool.eq_true_of_not_eq_false hstart)
    exact hothers unit rest hnames

def asciiDigit : IsDigit := ⟨Char.isDigit, fun _ _ => rfl⟩

example : getSerialParms asciiDigit "ttyS1,19200e7".toList =
    some ⟨['1'], "19200".toList, "even".toList, ['7'], ['1']⟩ := by decide

theorem flow_read_as_stop : ¬ ReadsConsole asciiDigit "ttyS0,115200n8r".toList := by
  intro h
  let port : SerialPort := ⟨[⟨'0', rfl⟩], List.cons_ne_nil _ _,
    some ([⟨'1', rfl⟩, ⟨'1', rfl⟩, ⟨'5', rfl⟩, ⟨'2', rfl⟩, ⟨'0', rfl⟩, ⟨'0', rfl⟩],
      .flow .n ⟨'8', rfl⟩)⟩
  have hparms := h.parms port rfl
  revert hparms
  decide

end CgxLayer.Installer
