import CgxLayer.Ramdisk.Shell
import Mathlib.Data.List.Infix

namespace CgxLayer.Ramdisk

open Text

/-- The lines of a file, and what comes after its last newline. -/
structure Table where
  lines : List Text
  rest : Text
deriving DecidableEq

namespace Table

def all (t : Table) : List Text := t.lines ++ if t.rest = [] then [] else [t.rest]

-- `sed -i "...d"`, which leaves a last line without a newline so
def delete (p : Text → Bool) (t : Table) : Table :=
  ⟨t.lines.filter (fun l => !p l), if p t.rest then [] else t.rest⟩

-- `echo "..." >>`
def append (line : Text) (t : Table) : Table := ⟨t.lines ++ [t.rest ++ line], []⟩

end Table

def devChar (c : Char) : Bool := c.isAlphanum || c ∈ ['#', '+', '-', '.', ':', '=', '@', '_', '/']

structure BlockNode where
  perm : ℕ
  major : ℕ
  minor : ℕ
  mode : Text
  links : Text
  owner : Text
  group : Text

structure InitEnv where
  blkid : Text → Text
  node : Text → BlockNode

-- `stat -c "%a"`
def BlockNode.statPerm (n : BlockNode) : Text := Nat.toDigits 8 n.perm

-- the fields of `ls -l` up to the minor number
def BlockNode.lsFields (n : BlockNode) : List Text :=
  [n.mode, n.links, n.owner, n.group, decimal n.major ++ [','], decimal n.minor]

-- `sed 's/,//'`
def dropComma (s : Text) : Text := s.takeWhile (· != ',') ++ (s.dropWhile (· != ',')).drop 1

def mapperPath : Text := "/dev/mapper".toList

def mapperLine : Text :=
  joinWith '\t' (mapperPath :: ["d", "755", "0", "0", "-", "-", "-", "-", "-"].map String.toList)

def devFields (dev perm major minor : Text) : List Text :=
  [dev, ['b'], perm, ['0'], ['0'], major, minor, ['-'], ['-'], ['-']]

def devLine (env : InitEnv) (dev : Text) : Text :=
  let n := env.node dev
  joinWith '\t' (devFields dev n.statPerm (dropComma (n.lsFields.getD 4 [])) (n.lsFields.getD 5 []))

-- `grep "${dev}"` of one line; the period is the only special character of a device name
def grepMatch (dev line : Text) : Bool := line.tails.any (dotPrefix dev)

def addDeviceTable (env : InitEnv) (root : Text) (t : Table) : Table :=
  let lvm := startsWith (mapperPath ++ ['/']) root
  if !lvm && !startsWith "UUID=".toList root then t
  else
    let dev := if lvm then root else env.blkid (root.drop 5)
    if !lvm && t.all.any (grepMatch dev) then t
    else
      let t := t.delete (startsWith mapperPath)
      let t := if lvm then (t.delete (dotPrefix dev)).append mapperLine else t
      t.append (devLine env dev)

/-- A root argument that names a logical volume, or a file system by its UUID, with the device. -/
structure RootDevice (env : InitEnv) where
  root : Text
  lvm : Bool
  dev : Text
  starts : ['/'] <+: dev
  plain : ∀ c ∈ dev, devChar c = true
  named : if lvm then root = dev ∧ mapperPath ++ ['/'] <+: dev
    else "UUID=".toList <+: root ∧ env.blkid (root.drop 5) = dev

def pathField (l : Text) : Text := (l.dropWhile shBlank).takeWhile (fun c => !shBlank c)

def mapperEntry (l : Text) : Bool := pathField l = mapperPath && (words shBlank l)[1]? = some ['d']

def otherEntry (dev l : Text) : Bool := pathField l ∉ [[], dev, mapperPath]

variable {env : InitEnv}

/-- The root device has one entry, of the device as it is when it had to be written, /dev/mapper has
at most one, the other entries are as they were, and a second run changes nothing. -/
structure Registers (r : RootDevice env) (t t' : Table) : Prop where
  one : t'.all.countP (fun l => pathField l = r.dev) = 1
  current : (r.lvm = true ∨ ∀ l ∈ t.all, pathField l ≠ r.dev) → ∀ l ∈ t'.all, pathField l = r.dev →
    words shBlank l = devFields r.dev (env.node r.dev).statPerm (decimal (env.node r.dev).major)
      (decimal (env.node r.dev).minor)
  mapper : t'.all.countP mapperEntry ≤ 1
  others : t'.all.filter (otherEntry r.dev) = t.all.filter (otherEntry r.dev)
  again : addDeviceTable env r.root t' = t'

/-- No other volume is in the table, neither entry is indented, and the last line ends. -/
structure ClearOfVolumes (dev : Text) (t : Table) : Prop where
  ended : t.rest = [] ∨ startsWith mapperPath t.rest = true
  volumes : ∀ l ∈ t.all, startsWith mapperPath l = true → pathField l = dev ∨ pathField l = mapperPath
  indented : ∀ l ∈ t.all, startsWith mapperPath l = false → pathField l ≠ dev ∧ mapperEntry l = false

structure HasEntry (dev : Text) (t : Table) : Prop where
  one : t.all.countP (fun l => pathField l = dev) = 1
  mapper : t.all.countP mapperEntry ≤ 1

structure ClearOfMapper (t : Table) : Prop where
  ended : t.rest = [] ∨ startsWith mapperPath t.rest = true ∨ pathField t.rest = []
  volumes : ∀ l ∈ t.all, startsWith mapperPath l = true → pathField l = mapperPath
  mapper : t.all.countP (fun l => mapperEntry l && !startsWith mapperPath l) ≤ 1

def Clear (r : RootDevice env) (t : Table) : Prop :=
  if r.lvm then ClearOfVolumes r.dev t
  else if t.all.any (grepMatch r.dev) then HasEntry r.dev t
  else ClearOfMapper t

theorem isWord_of_devChar {dev : Text} (hne : dev ≠ []) (h : ∀ c ∈ dev, devChar c = true) : IsWord shBlank dev := by
  refine ⟨hne, fun c hc => ?_⟩
  have hdev := h c hc
  by_contra hblank
  rw [Bool.not_eq_false, shBlank, Bool.or_eq_true, Bool.or_eq_true, beq_iff_eq, beq_iff_eq, beq_iff_eq] at hblank
  rcases hblank with (rfl | rfl) | rfl <;> revert hdev <;> decide

theorem isWord_of_digits {s : Text} (hne : s ≠ []) (h : ∀ c ∈ s, c.isDigit = true) : IsWord shBlank s := by
  refine ⟨hne, fun c hc => ?_⟩
  have hdigit := h c hc
  by_contra hblank
  rw [Bool.not_eq_false, shBlank, Bool.or_eq_true, Bool.or_eq_true, beq_iff_eq, beq_iff_eq, beq_iff_eq] at hblank
  rcases hblank with (rfl | rfl) | rfl <;> revert hdigit <;> decide

theorem isWord_statPerm (n : BlockNode) : IsWord shBlank n.statPerm :=
  isWord_of_digits Nat.toDigits_ne_nil (fun _ hc => Nat.isDigit_of_mem_toDigits (by decide) (by decide) hc)

theorem isWord_decimal (n : ℕ) : IsWord shBlank (decimal n) :=
  isWord_of_digits Nat.toDigits_ne_nil (fun _ hc => isDigit_of_mem_decimal hc)

theorem dropComma_decimal (n : ℕ) : dropComma (decimal n ++ [',']) = decimal n := by
  have hdigits : ∀ c ∈ decimal n, (c != ',') = true := by
    intro c hc
    have hdigit := isDigit_of_mem_decimal hc
    rw [bne_iff_ne]
    rintro rfl
    cases hdigit
  have hcomma : ([','] : Text).takeWhile (· != ',') = [] ∧ ([','] : Text).dropWhile (· != ',') = [','] := by decide
  rw [dropComma, List.takeWhile_append_of_pos hdigits, List.dropWhile_append_of_pos hdigits, hcomma.1, hcomma.2,
    List.append_nil]
  exact List.append_nil _

theorem devLine_eq (env : InitEnv) (dev : Text) : devLine env dev =
    joinWith '\t' (devFields dev (env.node dev).statPerm (decimal (env.node dev).major)
      (decimal (env.node dev).minor)) := by
  have hmajor : (env.node dev).lsFields.getD 4 [] = decimal (env.node dev).major ++ [','] := rfl
  have hminor : (env.node dev).lsFields.getD 5 [] = decimal (env.node dev).minor := rfl
  simp only [devLine, hmajor, hminor, dropComma_decimal]

variable {r : RootDevice env} {t : Table} {l dev : Text}

theorem RootDevice.ne_nil (r : RootDevice env) : r.dev ≠ [] := by
  obtain ⟨s, hs⟩ := r.starts
  rw [← hs]
  exact List.cons_ne_nil _ _

theorem RootDevice.isWord (r : RootDevice env) : IsWord shBlank r.dev := isWord_of_devChar r.ne_nil r.plain

theorem words_devLine (hdev : IsWord shBlank dev) : words shBlank (devLine env dev) =
    devFields dev (env.node dev).statPerm (decimal (env.node dev).major) (decimal (env.node dev).minor) := by
  rw [devLine_eq]
  apply words_joinWith (by decide)
  have hfixed : ∀ w ∈ ([['b'], ['0'], ['-']] : List Text), IsWord shBlank w := by decide
  simp only [List.forall_mem_cons] at hfixed
  simp only [devFields, List.forall_mem_cons, hfixed, hdev, isWord_statPerm, isWord_decimal, true_and]
  exact fun _ h => absurd h List.not_mem_nil

theorem takeWhile_word {w : Text} (hw : ∀ c ∈ w, shBlank c = false) (s : Text) :
    (w ++ s).takeWhile (fun c => !shBlank c) = w ++ s.takeWhile (fun c => !shBlank c) :=
  List.takeWhile_append_of_pos (by simpa using hw)

theorem dropWhile_nonblank {w : Text} (hw : IsWord shBlank w) (s : Text) : (w ++ s).dropWhile shBlank = w ++ s := by
  cases w with
  | nil => exact absurd rfl hw.1
  | cons c w =>
    have hc := hw.2 c (List.mem_cons_self ..)
    exact List.dropWhile_cons_of_neg (by simp [hc])

theorem head_dropWhile {p : Char → Bool} {s : Text} {c : Char} {u : Text} (h : s.dropWhile p = c :: u) :
    p c = false := by
  have hc := List.head?_dropWhile_not p s
  rw [h] at hc
  exact hc

theorem pathField_split (l : Text) : ∃ a b, l = a ++ (pathField l ++ b) ∧ (∀ c ∈ a, shBlank c = true) ∧
    b.takeWhile (fun c => !shBlank c) = [] ∧ (pathField l = [] → b = []) := by
  refine ⟨l.takeWhile shBlank, (l.dropWhile shBlank).dropWhile (fun c => !shBlank c), ?_,
    fun c hc => List.mem_takeWhile_imp hc, ?_, fun hnil => ?_⟩
  · rw [pathField, List.takeWhile_append_dropWhile, List.takeWhile_append_dropWhile]
  · cases hb : (l.dropWhile shBlank).dropWhile (fun c => !shBlank c) with
    | nil => rfl
    | cons c u =>
      have hc := head_dropWhile hb
      exact List.takeWhile_cons_of_neg (by simp [hc])
  · cases hs : l.dropWhile shBlank with
    | nil => rfl
    | cons c u =>
      have hc := head_dropWhile hs
      simp [pathField, hs, hc] at hnil

theorem nonblank_of_mem_pathField {c : Char} (h : c ∈ pathField l) : shBlank c = false := by
  simpa using List.mem_takeWhile_imp h

theorem pathField_word {a w : Text} (ha : ∀ c ∈ a, shBlank c = true) (hw : IsWord shBlank w) (s : Text) :
    pathField (a ++ (w ++ s)) = w ++ s.takeWhile (fun c => !shBlank c) := by
  rw [pathField, List.dropWhile_append_of_pos ha, dropWhile_nonblank hw, takeWhile_word hw.2]

theorem pathField_append_blank {a : Text} (ha : pathField a = []) (s : Text) : pathField (a ++ s) = pathField s ∧
    words shBlank (a ++ s) = words shBlank s := by
  obtain ⟨x, b, hsplit, hx, -, hb⟩ := pathField_split a
  rw [ha, hb ha, List.nil_append, List.append_nil] at hsplit
  rw [hsplit]
  constructor
  · rw [pathField, List.dropWhile_append_of_pos hx, pathField]
  · rw [← words_dropWhile, List.dropWhile_append_of_pos hx, words_dropWhile]

theorem pathField_append {a : Text} (ha : pathField a ≠ []) (s : Text) : pathField (a ++ s) = pathField a ∨
    pathField (a ++ s) = pathField a ++ s.takeWhile (fun c => !shBlank c) := by
  obtain ⟨x, b, hsplit, hx, hb, -⟩ := pathField_split a
  have hword : IsWord shBlank (pathField a) := ⟨ha, fun _ hc => nonblank_of_mem_pathField hc⟩
  have hfield : pathField (a ++ s) = pathField a ++ (b ++ s).takeWhile (fun c => !shBlank c) := by
    have hassoc : a ++ s = x ++ (pathField a ++ (b ++ s)) := by
      conv_lhs => rw [hsplit]
      simp only [List.append_assoc]
    rw [hassoc, pathField_word hx hword]
  cases b with
  | nil => exact .inr hfield
  | cons c u =>
    left
    have hc : (!shBlank c) = false := by
      by_contra hc
      rw [List.takeWhile_cons_of_pos (by simpa using hc)] at hb
      cases hb
    rw [hfield, List.cons_append, List.takeWhile_cons_of_neg (by simp [hc]), List.append_nil]

theorem startsWith_of_dotPrefix {q x : Text} (hq : '.' ∉ q) (h : dotPrefix (q ++ x) l = true) :
    startsWith q l = true := by
  rw [startsWith_iff]
  induction q generalizing l with
  | nil => exact List.nil_prefix
  | cons c q ih =>
    rw [List.mem_cons, not_or] at hq
    cases l with
    | nil => cases h
    | cons d l =>
      rw [List.cons_append] at h
      rw [dotPrefix_head (Ne.symm hq.1) h, List.cons_prefix_cons]
      simp only [dotPrefix, Bool.and_eq_true] at h
      exact ⟨rfl, ih hq.2 h.2⟩

theorem grepMatch_of_infix {a b : Text} (h : l = a ++ (dev ++ b)) : grepMatch dev l = true := by
  rw [grepMatch, List.any_eq_true]
  exact ⟨dev ++ b, (List.mem_tails _ _).mpr ⟨a, h.symm⟩, dotPrefix_append dev b⟩

theorem grepMatch_of_pathField (h : pathField l = dev) : grepMatch dev l = true := by
  obtain ⟨a, b, hsplit, -⟩ := pathField_split l
  rw [h] at hsplit
  exact grepMatch_of_infix hsplit

theorem devLine_cons (env : InitEnv) (dev : Text) : ∃ s, devLine env dev = dev ++ '\t' :: s := by
  rw [devLine_eq, devFields]
  exact ⟨_, joinWith_cons_cons _ _ _ _⟩

theorem pathField_devLine (hdev : IsWord shBlank dev) (env : InitEnv) : pathField (devLine env dev) = dev := by
  obtain ⟨s, hs⟩ := devLine_cons env dev
  have hfield := pathField_word (a := []) (fun _ h => absurd h List.not_mem_nil) hdev ('\t' :: s)
  have htab : ('\t' :: s).takeWhile (fun c => !shBlank c) = [] := List.takeWhile_cons_of_neg (by decide)
  rw [htab, List.append_nil, List.nil_append] at hfield
  rw [hs, hfield]

theorem mapperEntry_devLine (hdev : IsWord shBlank dev) (env : InitEnv) : mapperEntry (devLine env dev) = false := by
  rw [mapperEntry, words_devLine hdev]
  simp [devFields]

theorem mapperLine_fields : pathField mapperLine = mapperPath ∧ mapperEntry mapperLine = true ∧
    startsWith mapperPath mapperLine = true := by decide

namespace Table

theorem all_of_rest (h : t.rest = []) : t.all = t.lines := by
  rw [all, if_pos h, List.append_nil]

theorem all_delete (p : Text → Bool) (t : Table) : (t.delete p).all = t.all.filter (fun l => !p l) := by
  rw [all, all, List.filter_append]
  congr 1
  by_cases hrest : t.rest = []
  · simp [delete, hrest]
  · cases hp : p t.rest <;> simp [delete, hrest, hp]

theorem rest_delete (p : Text → Bool) (t : Table) : (t.delete p).rest = [] ↔ t.rest = [] ∨ p t.rest = true := by
  simp only [delete]
  split_ifs with hp
  · simp [hp]
  · simp [hp]

theorem delete_delete {p q : Text → Bool} (h : ∀ l, q l = true → p l = true) (t : Table) :
    (t.delete p).delete q = t.delete p := by
  have hq : ∀ l, p l = false → q l = false := by
    intro l hp
    by_contra hl
    rw [h l (Bool.eq_true_of_not_eq_false hl)] at hp
    cases hp
  simp only [delete, Table.mk.injEq]
  constructor
  · rw [List.filter_filter]
    apply List.filter_congr
    intro l _
    cases hp : p l with
    | true => simp
    | false => simp [hq l hp]
  · split_ifs with hp hnil hrest
    · rfl
    · rfl
    · rw [hq _ (Bool.eq_false_of_not_eq_true hp)] at hrest
      cases hrest
    · rfl

end Table

def keptTable (t : Table) : Table := t.delete (startsWith mapperPath)

theorem all_keptTable (t : Table) : (keptTable t).all = t.all.filter (fun l => !startsWith mapperPath l) :=
  Table.all_delete _ t

theorem mem_all_keptTable : l ∈ (keptTable t).all ↔ l ∈ t.all ∧ startsWith mapperPath l = false := by
  rw [all_keptTable, List.mem_filter, Bool.not_eq_true']

theorem mem_all_of_rest (h : t.rest ≠ []) : t.rest ∈ t.all := by
  rw [Table.all, if_neg h]
  exact List.mem_append_right _ (List.mem_singleton_self _)

theorem addDeviceTable_lvm (hl : r.lvm = true) (t : Table) : addDeviceTable env r.root t =
    ⟨(keptTable t).lines ++ [(keptTable t).rest ++ mapperLine, devLine env r.dev], []⟩ := by
  have hnamed := r.named
  rw [hl, if_pos rfl] at hnamed
  obtain ⟨hroot, x, hx⟩ := hnamed
  have hstart : startsWith (mapperPath ++ ['/']) r.dev = true := startsWith_iff.mpr ⟨x, hx⟩
  have hdelete : (keptTable t).delete (dotPrefix r.dev) = keptTable t := by
    apply Table.delete_delete
    intro l hl
    rw [← hx, List.append_assoc] at hl
    exact startsWith_of_dotPrefix (by decide) hl
  simp only [addDeviceTable, hroot, hstart, Bool.not_true, Bool.false_and, Bool.false_eq_true, if_false, if_true]
  rw [← keptTable, hdelete]
  simp [Table.append]

theorem startsWith_mapper_uuid {root : Text} (h : "UUID=".toList <+: root) :
    startsWith (mapperPath ++ ['/']) root = false := by
  obtain ⟨u, rfl⟩ := h
  rfl

theorem addDeviceTable_found (hl : r.lvm = false) (h : t.all.any (grepMatch r.dev) = true) :
    addDeviceTable env r.root t = t := by
  have hnamed := r.named
  rw [hl, if_neg Bool.false_ne_true] at hnamed
  simp only [addDeviceTable, startsWith_mapper_uuid hnamed.1, startsWith_iff.mpr hnamed.1, hnamed.2, h,
    Bool.not_true, Bool.not_false, Bool.true_and, Bool.false_eq_true, if_false, if_true]

theorem addDeviceTable_new (hl : r.lvm = false) (h : t.all.any (grepMatch r.dev) = false) :
    addDeviceTable env r.root t = ⟨(keptTable t).lines ++ [(keptTable t).rest ++ devLine env r.dev], []⟩ := by
  have hnamed := r.named
  rw [hl, if_neg Bool.false_ne_true] at hnamed
  simp only [addDeviceTable, startsWith_mapper_uuid hnamed.1, startsWith_iff.mpr hnamed.1, hnamed.2, h,
    Bool.not_true, Bool.not_false, Bool.true_and, Bool.false_eq_true, if_false]
  rfl

theorem filter_eq_filter_and_iff {α : Type} {p q : α → Bool} {xs : List α} :
    xs.filter (fun x => p x && q x) = xs.filter p ↔ ∀ x ∈ xs, p x = true → q x = true := by
  constructor
  · intro h x hx hp
    have hmem : x ∈ xs.filter p := List.mem_filter.mpr ⟨hx, hp⟩
    rw [← h, List.mem_filter, Bool.and_eq_true] at hmem
    exact hmem.2.2
  · intro h
    apply List.filter_congr
    intro x hx
    cases hp : p x with
    | false => rfl
    | true => rw [h x hx hp, Bool.and_true]

theorem mapperPath_le_pathField (h : startsWith mapperPath l = true) : pathField l ≠ [] := by
  obtain ⟨s, rfl⟩ := startsWith_iff.mp h
  have hfield := pathField_word (a := []) (fun _ h => absurd h List.not_mem_nil)
    (show IsWord shBlank mapperPath by decide) s
  rw [List.nil_append] at hfield
  rw [hfield]
  exact List.cons_ne_nil _ _

theorem others_kept_iff {dev : Text} : (keptTable t).all.filter (otherEntry dev) = t.all.filter (otherEntry dev) ↔
    ∀ l ∈ t.all, startsWith mapperPath l = true → pathField l = dev ∨ pathField l = mapperPath := by
  rw [all_keptTable, List.filter_filter, filter_eq_filter_and_iff]
  apply forall₂_congr
  intro l _
  cases hstart : startsWith mapperPath l with
  | false => simp
  | true =>
    have hne := mapperPath_le_pathField hstart
    simp only [otherEntry, List.mem_cons, List.not_mem_nil, or_false, decide_eq_true_eq, hne, false_or,
      Bool.not_true, Bool.false_eq_true, imp_false, not_not, forall_true_left]

theorem dev_ne_mapperPath (hl : r.lvm = true) : r.dev ≠ mapperPath := by
  have hnamed := r.named
  rw [hl, if_pos rfl] at hnamed
  obtain ⟨-, x, hx⟩ := hnamed
  intro h
  have hlen := congrArg List.length (hx.trans h)
  simp at hlen

theorem startsWith_glued {u : Text} (hu : u ≠ []) (h : startsWith mapperPath u = false) (s : Text) :
    startsWith mapperPath (u ++ (mapperPath ++ s)) = false := by
  have hshort : ∀ k ∈ List.range 11, k ≠ 0 → ¬ mapperPath <+: mapperPath.take k ++ mapperPath := by decide
  by_contra hstart
  rw [Bool.not_eq_false, startsWith_iff] at hstart
  rw [← Bool.not_eq_true, startsWith_iff] at h
  obtain hpre | hpre := List.prefix_or_prefix_of_prefix hstart (List.prefix_append u (mapperPath ++ s))
  · exact h hpre
  · -- `u` is a shorter part of the path, so the path would come back inside itself
    have htake : u = mapperPath.take u.length := List.prefix_iff_eq_take.mp hpre
    have hlen : u.length < 11 := by
      by_contra hlen
      have hfull : u = mapperPath := by
        have hwhole : mapperPath.length = 11 := rfl
        rw [htake]
        exact List.take_of_length_le (by omega)
      exact h (hfull ▸ List.prefix_refl _)
    have hpos : u.length ≠ 0 := fun h0 => hu (List.length_eq_zero_iff.mp h0)
    apply hshort u.length (List.mem_range.mpr hlen) hpos
    rw [← htake]
    rw [← List.append_assoc] at hstart
    exact List.prefix_of_prefix_length_le hstart (List.prefix_append _ _) (by simp)

theorem mapperLine_cons : ∃ s, mapperLine = mapperPath ++ s := ⟨_, joinWith_cons_cons _ _ _ _⟩

theorem startsWith_devLine (hl : r.lvm = true) : startsWith mapperPath (devLine env r.dev) = true := by
  have hnamed := r.named
  rw [hl, if_pos rfl] at hnamed
  obtain ⟨-, x, hx⟩ := hnamed
  obtain ⟨s, hs⟩ := devLine_cons env r.dev
  exact startsWith_iff.mpr ⟨'/' :: (x ++ '\t' :: s), by rw [hs, ← hx]; simp⟩

theorem keptTable_append (t : Table) (ls : List Text) : keptTable ⟨(keptTable t).lines ++ ls, []⟩ =
    ⟨(keptTable t).lines ++ ls.filter (fun l => !startsWith mapperPath l), []⟩ := by
  simp [keptTable, Table.delete, List.filter_filter]

theorem not_startsWith_rest (h : (keptTable t).rest ≠ []) : startsWith mapperPath (keptTable t).rest = false := by
  simp only [keptTable, Table.delete] at h ⊢
  split_ifs at h ⊢ with hstart
  · exact absurd rfl h
  · exact Bool.eq_false_of_not_eq_true hstart

theorem again_lvm_iff (hl : r.lvm = true) (t : Table) :
    addDeviceTable env r.root (addDeviceTable env r.root t) = addDeviceTable env r.root t ↔
      (keptTable t).rest = [] := by
  rw [addDeviceTable_lvm hl (addDeviceTable env r.root t), addDeviceTable_lvm hl t, keptTable_append]
  have hdev := startsWith_devLine hl
  by_cases hrest : (keptTable t).rest = []
  · simp [hrest, hdev, mapperLine_fields.2.2]
  · -- the line that the first run glued is not deleted, and another one is added
    obtain ⟨s, hs⟩ := mapperLine_cons
    have hglued : startsWith mapperPath ((keptTable t).rest ++ mapperLine) = false := by
      rw [hs]
      exact startsWith_glued hrest (not_startsWith_rest hrest) s
    simp only [hrest, iff_false]
    intro h
    have hlen := congrArg (fun t => t.lines.length) h
    simp [hdev, hglued] at hlen

theorem countP_eq_zero_kept {p : Text → Bool} : (keptTable t).all.countP p = 0 ↔
    ∀ l ∈ t.all, startsWith mapperPath l = false → p l = false := by
  rw [List.countP_eq_zero]
  constructor
  · intro h l hl hstart
    exact Bool.eq_false_of_not_eq_true (h l (mem_all_keptTable.mpr ⟨hl, hstart⟩))
  · intro h l hl
    obtain ⟨hmem, hstart⟩ := mem_all_keptTable.mp hl
    rw [h l hmem hstart]
    exact Bool.false_ne_true

theorem rest_keptTable : (keptTable t).rest = [] ↔ t.rest = [] ∨ startsWith mapperPath t.rest = true :=
  Table.rest_delete _ t

theorem otherEntry_dev (dev : Text) (h : pathField l = dev) : otherEntry dev l = false := by
  simp [otherEntry, h]

theorem all_lvm (hl : r.lvm = true) (hrest : (keptTable t).rest = []) :
    (addDeviceTable env r.root t).all = (keptTable t).all ++ [mapperLine, devLine env r.dev] := by
  rw [addDeviceTable_lvm hl, Table.all_of_rest rfl, Table.all_of_rest hrest, hrest, List.nil_append]

theorem countP_dev_lvm (hl : r.lvm = true) (hrest : (keptTable t).rest = []) :
    (addDeviceTable env r.root t).all.countP (fun l => pathField l = r.dev) =
      (keptTable t).all.countP (fun l => pathField l = r.dev) + 1 := by
  have hne : mapperPath ≠ r.dev := (dev_ne_mapperPath hl).symm
  rw [all_lvm hl hrest, List.countP_append]
  simp [pathField_devLine r.isWord env, mapperLine_fields.1, hne]

theorem countP_mapper_lvm (hl : r.lvm = true) (hrest : (keptTable t).rest = []) :
    (addDeviceTable env r.root t).all.countP mapperEntry = (keptTable t).all.countP mapperEntry + 1 := by
  rw [all_lvm hl hrest, List.countP_append]
  simp [mapperEntry_devLine r.isWord env, mapperLine_fields.2.1]

theorem others_lvm (hl : r.lvm = true) (hrest : (keptTable t).rest = []) :
    (addDeviceTable env r.root t).all.filter (otherEntry r.dev) = (keptTable t).all.filter (otherEntry r.dev) := by
  have hmapper : otherEntry r.dev mapperLine = false := by simp [otherEntry, mapperLine_fields.1]
  rw [all_lvm hl hrest, List.filter_append]
  simp [hmapper, otherEntry_dev r.dev (pathField_devLine r.isWord env)]

theorem current_lvm (hl : r.lvm = true) (hrest : (keptTable t).rest = [])
    (hzero : (keptTable t).all.countP (fun l => pathField l = r.dev) = 0) :
    ∀ l ∈ (addDeviceTable env r.root t).all, pathField l = r.dev → l = devLine env r.dev := by
  intro l hmem hpath
  rw [all_lvm hl hrest, List.mem_append] at hmem
  rcases hmem with hmem | hmem
  · exact absurd (by simpa using hpath) (List.countP_eq_zero.mp hzero l hmem)
  · simp only [List.mem_cons, List.not_mem_nil, or_false] at hmem
    rcases hmem with rfl | rfl
    · exact absurd (hpath.symm.trans mapperLine_fields.1) (dev_ne_mapperPath hl)
    · rfl

theorem indented_iff : (∀ l ∈ t.all, startsWith mapperPath l = false → pathField l ≠ dev ∧ mapperEntry l = false) ↔
    (keptTable t).all.countP (fun l => pathField l = dev) = 0 ∧ (keptTable t).all.countP mapperEntry = 0 := by
  rw [countP_eq_zero_kept, countP_eq_zero_kept, ← forall₂_and]
  simp only [decide_eq_false_iff_not, ← imp_and]

theorem registers_lvm_iff (hl : r.lvm = true) (t : Table) :
    Registers r t (addDeviceTable env r.root t) ↔ ClearOfVolumes r.dev t := by
  by_cases hrest : (keptTable t).rest = []
  · have hone := countP_dev_lvm hl hrest
    have hmapper := countP_mapper_lvm hl hrest
    have hothers := others_lvm hl hrest
    constructor
    · intro h
      have hzero := h.one
      have hzero' := h.mapper
      rw [hone] at hzero
      rw [hmapper] at hzero'
      refine ⟨rest_keptTable.mp hrest, others_kept_iff.mp (hothers.symm.trans h.others), indented_iff.mpr ?_⟩
      exact ⟨by omega, by omega⟩
    · intro h
      obtain ⟨hzero, hzero'⟩ := indented_iff.mp h.indented
      refine ⟨by rw [hone, hzero], fun _ l hmem hl' => ?_, by rw [hmapper, hzero'], ?_, (again_lvm_iff hl t).mpr hrest⟩
      · rw [current_lvm hl hrest hzero l hmem hl']
        exact words_devLine r.isWord
      · exact hothers.trans (others_kept_iff.mpr h.volumes)
  · constructor
    · exact fun h => absurd ((again_lvm_iff hl t).mp h.again) hrest
    · exact fun h => absurd (rest_keptTable.mpr h.ended) hrest

theorem registers_found_iff (hl : r.lvm = false) (h : t.all.any (grepMatch r.dev) = true) :
    Registers r t (addDeviceTable env r.root t) ↔ HasEntry r.dev t := by
  have hsame := addDeviceTable_found hl h
  rw [hsame]
  constructor
  · exact fun h => ⟨h.one, h.mapper⟩
  · intro h
    refine ⟨h.one, fun hnew l hmem hpath => ?_, h.mapper, rfl, hsame⟩
    rcases hnew with hlvm | hnew
    · rw [hl] at hlvm
      cases hlvm
    · exact absurd hpath (hnew l hmem)

theorem pathField_ne_of_new (h : t.all.any (grepMatch r.dev) = false) (hmem : l ∈ t.all) : pathField l ≠ r.dev := by
  intro hpath
  exact List.any_eq_false.mp h l hmem (grepMatch_of_pathField hpath)

theorem pathField_glued_ne (hne : pathField l ≠ []) (hdev : pathField l ≠ r.dev) :
    pathField (l ++ devLine env r.dev) ≠ r.dev := by
  intro hglued
  rcases pathField_append hne (devLine env r.dev) with hsame | hlonger
  · exact hdev (hsame.symm.trans hglued)
  · obtain ⟨s, hs⟩ := devLine_cons env r.dev
    have htab : ('\t' :: s).takeWhile (fun c => !shBlank c) = [] := List.takeWhile_cons_of_neg (by decide)
    rw [hs, takeWhile_word r.isWord.2, htab, List.append_nil, ← hs, hglued] at hlonger
    have hlen := congrArg List.length hlonger
    rw [List.length_append] at hlen
    exact hne (List.length_eq_zero_iff.mp (by omega))

theorem pathField_rest : pathField (keptTable t).rest = [] ↔
    t.rest = [] ∨ startsWith mapperPath t.rest = true ∨ pathField t.rest = [] := by
  simp only [keptTable, Table.delete]
  split_ifs with hstart
  · simp [hstart, pathField]
  · simp only [hstart, Bool.false_eq_true, false_or]
    constructor
    · exact .inr
    · rintro (hnil | hblank)
      · rw [hnil]
        rfl
      · exact hblank

theorem all_of_blank (hrest : pathField (keptTable t).rest = []) {p : Text → Bool}
    (hp : ∀ l, pathField l = [] → p l = false) : (keptTable t).all.filter p = (keptTable t).lines.filter p := by
  rw [Table.all, List.filter_append]
  split_ifs
  · simp
  · simp [hp _ hrest]

theorem mapperEntry_blank (h : pathField l = []) : mapperEntry l = false := by
  have hne : ([] : Text) ≠ mapperPath := by decide
  rw [mapperEntry, h, decide_eq_false hne, Bool.false_and]

theorem all_new (hl : r.lvm = false) (h : t.all.any (grepMatch r.dev) = false) : (addDeviceTable env r.root t).all =
    (keptTable t).lines ++ [(keptTable t).rest ++ devLine env r.dev] := by
  rw [addDeviceTable_new hl h, Table.all_of_rest rfl]

theorem not_dev_kept (h : t.all.any (grepMatch r.dev) = false) : ∀ l ∈ (keptTable t).all, pathField l ≠ r.dev :=
  fun _ hmem => pathField_ne_of_new h (mem_all_keptTable.mp hmem).1

theorem newEntry_fields (env : InitEnv) (r : RootDevice env) (hrest : pathField (keptTable t).rest = []) :
    pathField ((keptTable t).rest ++ devLine env r.dev) = r.dev ∧
      words shBlank ((keptTable t).rest ++ devLine env r.dev) =
        devFields r.dev (env.node r.dev).statPerm (decimal (env.node r.dev).major) (decimal (env.node r.dev).minor) := by
  obtain ⟨hpath, hwords⟩ := pathField_append_blank hrest (devLine env r.dev)
  exact ⟨hpath.trans (pathField_devLine r.isWord env), hwords.trans (words_devLine r.isWord)⟩

theorem countP_dev_new (hl : r.lvm = false) (h : t.all.any (grepMatch r.dev) = false)
    (hrest : pathField (keptTable t).rest = []) :
    (addDeviceTable env r.root t).all.countP (fun l => pathField l = r.dev) = 1 := by
  have hzero : (keptTable t).lines.countP (fun l => pathField l = r.dev) = 0 := by
    rw [List.countP_eq_zero]
    exact fun l hmem => by simpa using not_dev_kept h l (List.mem_append_left _ hmem)
  rw [all_new hl h, List.countP_append, hzero]
  simp [(newEntry_fields env r hrest).1]

theorem countP_mapper_new (hl : r.lvm = false) (h : t.all.any (grepMatch r.dev) = false)
    (hrest : pathField (keptTable t).rest = []) : (addDeviceTable env r.root t).all.countP mapperEntry =
      t.all.countP (fun l => mapperEntry l && !startsWith mapperPath l) := by
  have hentry : mapperEntry ((keptTable t).rest ++ devLine env r.dev) = false := by
    rw [mapperEntry, (newEntry_fields env r hrest).2]
    simp [devFields]
  rw [all_new hl h, List.countP_append, List.countP_singleton, hentry, ← List.countP_filter, ← all_keptTable,
    List.countP_eq_length_filter, List.countP_eq_length_filter, all_of_blank hrest (fun _ hl => mapperEntry_blank hl)]
  rfl

theorem others_new (hl : r.lvm = false) (h : t.all.any (grepMatch r.dev) = false)
    (hrest : pathField (keptTable t).rest = []) :
    (addDeviceTable env r.root t).all.filter (otherEntry r.dev) = (keptTable t).all.filter (otherEntry r.dev) := by
  have hlast := otherEntry_dev r.dev (newEntry_fields env r hrest).1
  rw [all_new hl h, List.filter_append, all_of_blank hrest (fun l hl => by simp [otherEntry, hl])]
  simp [hlast]

theorem current_new (hl : r.lvm = false) (h : t.all.any (grepMatch r.dev) = false)
    (hrest : pathField (keptTable t).rest = []) :
    ∀ l ∈ (addDeviceTable env r.root t).all, pathField l = r.dev → words shBlank l =
      devFields r.dev (env.node r.dev).statPerm (decimal (env.node r.dev).major) (decimal (env.node r.dev).minor) := by
  intro l hmem hpath
  rw [all_new hl h, List.mem_append, List.mem_singleton] at hmem
  rcases hmem with hmem | rfl
  · exact absurd hpath (not_dev_kept h l (List.mem_append_left _ hmem))
  · exact (newEntry_fields env r hrest).2

theorem not_registers_glued (hl : r.lvm = false) (h : t.all.any (grepMatch r.dev) = false)
    (hrest : pathField (keptTable t).rest ≠ []) : ¬ Registers r t (addDeviceTable env r.root t) := by
  intro hreg
  have hpos : 0 < (addDeviceTable env r.root t).all.countP (fun l => pathField l = r.dev) := by
    rw [hreg.one]
    exact Nat.one_pos
  obtain ⟨l, hmem, hpath⟩ := List.countP_pos_iff.mp hpos
  rw [decide_eq_true_eq] at hpath
  have hne : (keptTable t).rest ≠ [] := fun hnil => hrest (by rw [hnil]; rfl)
  rw [all_new hl h, List.mem_append, List.mem_singleton] at hmem
  rcases hmem with hmem | rfl
  · exact absurd hpath (not_dev_kept h l (List.mem_append_left _ hmem))
  · exact absurd hpath (pathField_glued_ne hrest (not_dev_kept h _ (mem_all_of_rest hne)))

theorem registers_new_iff (hl : r.lvm = false) (h : t.all.any (grepMatch r.dev) = false) :
    Registers r t (addDeviceTable env r.root t) ↔ ClearOfMapper t := by
  by_cases hrest : pathField (keptTable t).rest = []
  · have hmapper := countP_mapper_new hl h hrest
    have hothers := others_new hl h hrest
    have hvolumes : (∀ l ∈ t.all, startsWith mapperPath l = true → pathField l = r.dev ∨ pathField l = mapperPath) ↔
        ∀ l ∈ t.all, startsWith mapperPath l = true → pathField l = mapperPath := by
      apply forall₂_congr
      intro l hmem
      rw [or_iff_right (pathField_ne_of_new h hmem)]
    have hagain : (addDeviceTable env r.root t).all.any (grepMatch r.dev) = true := by
      rw [all_new hl h, List.any_eq_true]
      exact ⟨_, List.mem_append_right _ (List.mem_singleton_self _),
        grepMatch_of_pathField (newEntry_fields env r hrest).1⟩
    constructor
    · intro hreg
      refine ⟨pathField_rest.mp hrest, hvolumes.mp (others_kept_iff.mp (hothers.symm.trans hreg.others)), ?_⟩
      rw [← hmapper]
      exact hreg.mapper
    · intro hclear
      refine ⟨countP_dev_new hl h hrest, fun _ => current_new hl h hrest, ?_, ?_, addDeviceTable_found hl hagain⟩
      · rw [hmapper]
        exact hclear.mapper
      · exact hothers.trans (others_kept_iff.mpr (hvolumes.mpr hclear.volumes))
  · constructor
    · exact fun hreg => absurd hreg (not_registers_glued hl h hrest)
    · exact fun hclear => absurd (pathField_rest.mpr hclear.ended) hrest

theorem registers_iff_clear (env : InitEnv) (r : RootDevice env) (t : Table) :
    Registers r t (addDeviceTable env r.root t) ↔ Clear r t := by
  unfold Clear
  split_ifs with hlvm hfound
  · exact registers_lvm_iff hlvm t
  · exact registers_found_iff (Bool.eq_false_of_not_eq_true hlvm) hfound
  · exact registers_new_iff (Bool.eq_false_of_not_eq_true hlvm) (Bool.eq_false_of_not_eq_true hfound)

def sda1 : Text := "/dev/sda1".toList

def oneDisk : InitEnv where
  blkid := fun _ => sda1
  node := fun _ => ⟨432, 8, 1, "brw-rw----".toList, ['1'], "root".toList, "disk".toList⟩

def sda1Root : RootDevice oneDisk where
  root := "UUID=5eaf00d".toList
  lvm := false
  dev := sda1
  starts := by decide
  plain := by decide
  named := by decide

def sda10Table : Table := ⟨["/dev/sda10\tb\t640\t0\t0\t8\t10\t-\t-\t-".toList], []⟩

theorem sda1_not_registered : ¬ Registers sda1Root sda10Table (addDeviceTable oneDisk sda1Root.root sda10Table) := by
  intro h
  have hone := h.one
  revert hone
  decide

end CgxLayer.Ramdisk
