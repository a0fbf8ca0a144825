import CgxLayer.Acyclic
import CgxLayer.Text
import Mathlib.Data.Set.Finite.List

namespace CgxLayer.Installer

open Text Relation

inductive Bus where
  | sd
  | hd
deriving DecidableEq

def Bus.text : Bus → Text
  | .sd => "sd".toList
  | .hd => "hd".toList

structure Disk where
  bus : Bus
  letters : Text
  nonempty : letters ≠ []
  lower : ∀ c ∈ letters, c.isLower = true

def Disk.name (d : Disk) : Text := d.bus.text ++ d.letters

inductive Dev where
  | disk (d : Disk)
  | part (d : Disk) (k : ℕ)
  | md (n : ℕ)
  | mdPart (n k : ℕ)

def mdName (n : ℕ) : Text := "md".toList ++ decimal n

def Dev.name : Dev → Text
  | .disk d => d.name
  | .part d k => d.name ++ decimal k
  | .md n => mdName n
  | .mdPart n k => mdName n ++ 'p' :: decimal k

def devDir : Text := "/dev/".toList

def Dev.path (d : Dev) : Text := devDir ++ d.name

def Disk.path (d : Disk) : Text := devDir ++ d.name

def Dev.onDisk : Dev → Option Disk
  | .disk d => some d
  | .part d _ => some d
  | .md _ => none
  | .mdPart _ _ => none

inductive Flag where
  | writeMostly
  | journal
  | faulty
  | spare
  | replacement

def Flag.text : Flag → Text
  | .writeMostly => "(W)".toList
  | .journal => "(J)".toList
  | .faulty => "(F)".toList
  | .spare => "(S)".toList
  | .replacement => "(R)".toList

structure Member where
  dev : Dev
  slot : ℕ
  flags : List Flag

def Member.text (m : Member) : Text :=
  m.dev.name ++ '[' :: (decimal m.slot ++ ']' :: m.flags.flatMap Flag.text)

inductive ReadState where
  | readOnly
  | autoReadOnly
deriving DecidableEq

def ReadState.text : ReadState → Text
  | .readOnly => "(read-only)".toList
  | .autoReadOnly => "(auto-read-only)".toList

structure MdArray where
  number : ℕ
  state : Option ReadState
  level : ℕ
  members : List Member
  nonempty : members ≠ []

def MdArray.fields (a : MdArray) : List Text :=
  [mdName a.number, ":".toList, "active".toList] ++ (a.state.map ReadState.text).toList ++
    ("raid".toList ++ decimal a.level) :: a.members.map Member.text

def MdArray.line (a : MdArray) : Text := joinWith ' ' a.fields

def findArray (arrays : List MdArray) (n : ℕ) : Option MdArray :=
  arrays.find? (fun a => a.number = n)

def memberDevs (arrays : List MdArray) : Dev → List Dev
  | .md n => ((findArray arrays n).map (fun a => a.members.map Member.dev)).getD []
  | .disk _ => []
  | .part _ _ => []
  | .mdPart _ _ => []

def Beneath (arrays : List MdArray) (d e : Dev) : Prop :=
  e ∈ memberDevs arrays d ∨ ∃ n k, d = .mdPart n k ∧ e = .md n

structure Topology where
  arrays : List MdArray
  numbers : (arrays.map MdArray.number).Nodup
  acyclic : ∀ d, ¬ TransGen (Beneath arrays) d d

namespace Topology

variable (t : Topology)

def MemberOf (d e : Dev) : Prop := e ∈ memberDevs t.arrays d

def SitsOn (d : Dev) (disk : Disk) : Prop :=
  ∃ e, ReflTransGen (Beneath t.arrays) d e ∧ e.onDisk = some disk

def Visible (d : Dev) (disk : Disk) : Prop :=
  ∃ e, ReflTransGen t.MemberOf d e ∧ e.onDisk = some disk

def NoStateWord (d : Dev) : Prop :=
  ∀ n a, ReflTransGen t.MemberOf d (.md n) → findArray t.arrays n = some a → a.state = none

/-- The lines of /proc/mdstat that open with a name in `md` are the arrays' own. -/
def PrintedIn (mdstat : List Text) : Prop :=
  mdstat.filter (fun l => ((words pyBlank l).head?.map (startsWith "md".toList)).getD false) =
    t.arrays.map MdArray.line

variable {t}

theorem Visible.sitsOn {d : Dev} {disk : Disk} (h : t.Visible d disk) : t.SitsOn d disk := by
  obtain ⟨e, hde, he⟩ := h
  exact ⟨e, ReflTransGen.mono (fun _ _ hm => .inl hm) _ _ hde, he⟩

theorem acc_member (d : Dev) : Acc (fun e d => e ∈ memberDevs t.arrays d) d := by
  have htargets : (⋃ a ∈ {a | a ∈ t.arrays}, {e | e ∈ a.members.map Member.dev}).Finite :=
    (List.finite_toSet t.arrays).biUnion (fun a _ => List.finite_toSet (a.members.map Member.dev))
  apply Acyclic.acc_of_finite htargets
  · intro d e he
    match d with
    | .md n =>
      simp only [memberDevs] at he
      cases ha : findArray t.arrays n with
      | none => simp [ha] at he
      | some a =>
        rw [ha] at he
        simp only [Set.mem_iUnion, Set.mem_ofPred_eq]
        exact ⟨a, List.mem_of_find?_eq_some ha, he⟩
  · intro d h
    exact t.acyclic d (TransGen.mono (fun _ _ hm => .inl hm) _ _ h)

end Topology

theorem Bus.text_length (b : Bus) : b.text.length = 2 := by cases b <;> rfl

theorem Disk.name_injective {d e : Disk} (h : d.name = e.name) : d = e := by
  obtain ⟨hbus, hletters⟩ := List.append_inj h (by simp [Bus.text_length])
  have hb : d.bus = e.bus := by
    cases hd : d.bus <;> cases he : e.bus <;> simp [hd, he, Bus.text] at hbus ⊢
  cases d
  cases e
  simp_all

theorem Disk.path_injective {d e : Disk} (h : d.path = e.path) : d = e :=
  Disk.name_injective (List.append_cancel_left h)

theorem mdName_injective {m n : ℕ} (h : mdName m = mdName n) : m = n :=
  decimal_injective (List.append_cancel_left h)

theorem Disk.printable (d : Disk) : Printable d.name := by
  apply printable_append.mpr
  constructor
  · cases d.bus <;> decide
  · intro c hc
    have := toNat_of_isLower (d.lower c hc)
    omega

theorem printable_mdName (n : ℕ) : Printable (mdName n) :=
  printable_append.mpr ⟨by decide, printable_decimal n⟩

theorem Dev.printable (d : Dev) : Printable d.name := by
  cases d with
  | disk d => exact d.printable
  | part d k => exact printable_append.mpr ⟨d.printable, printable_decimal k⟩
  | md n => exact printable_mdName n
  | mdPart n k =>
    exact printable_append.mpr ⟨printable_mdName n, printable_cons.mpr ⟨by decide, printable_decimal k⟩⟩

theorem Flag.printable (f : Flag) : Printable f.text := by cases f <;> decide

theorem Member.printable (m : Member) : Printable m.text := by
  refine printable_append.mpr ⟨m.dev.printable, printable_cons.mpr ⟨by decide, ?_⟩⟩
  refine printable_append.mpr ⟨printable_decimal _, printable_cons.mpr ⟨by decide, ?_⟩⟩
  intro c hc
  obtain ⟨f, -, hf⟩ := List.mem_flatMap.mp hc
  exact f.printable c hf

theorem MdArray.fields_words (a : MdArray) : ∀ w ∈ a.fields, IsWord pyBlank w := by
  intro w hw
  simp only [MdArray.fields, List.cons_append, List.nil_append, List.mem_cons, List.mem_append,
    List.mem_map, Option.mem_toList, Option.map_eq_some_iff] at hw
  obtain rfl | rfl | rfl | ⟨s, -, rfl⟩ | rfl | ⟨m, -, rfl⟩ := hw
  · exact isWord_of_printable (by simp [mdName]) (printable_mdName _)
  · exact isWord_of_printable (by decide) (by decide)
  · exact isWord_of_printable (by decide) (by decide)
  · cases s <;> exact isWord_of_printable (by decide) (by decide)
  · exact isWord_of_printable (by simp)
      (printable_append.mpr ⟨by decide, printable_decimal _⟩)
  · exact isWord_of_printable (by simp [Member.text]) m.printable

theorem MdArray.words_line (a : MdArray) : words pyBlank a.line = a.fields :=
  words_joinWith (by decide) _ a.fields_words

theorem Dev.bracket_not_mem (d : Dev) : '[' ∉ d.name := by
  have hdecimal (n : ℕ) : '[' ∉ decimal n := fun h => by
    have := isDigit_of_mem_decimal h
    revert this
    decide
  have hdisk (d : Disk) : '[' ∉ d.name := fun h => by
    rcases List.mem_append.mp h with h | h
    · cases hb : d.bus <;> rw [hb] at h <;> revert h <;> decide
    · have := d.lower _ h
      revert this
      decide
  have hmd (n : ℕ) : '[' ∉ mdName n := fun h => by
    rcases List.mem_append.mp h with h | h
    · revert h
      decide
    · exact hdecimal n h
  cases d with
  | disk d => exact hdisk d
  | part d k => exact fun h => (List.mem_append.mp h).elim (hdisk d) (hdecimal k)
  | md n => exact hmd n
  | mdPart n k =>
    intro h
    rcases List.mem_append.mp h with h | h
    · exact hmd n h
    · rcases List.mem_cons.mp h with h | h
      · revert h
        decide
      · exact hdecimal k h

theorem Member.splitFirst_text (m : Member) :
    splitFirst '[' m.text = some (m.dev.name, decimal m.slot ++ ']' :: m.flags.flatMap Flag.text) :=
  splitFirst_append _ _ m.dev.bracket_not_mem

end CgxLayer.Installer
