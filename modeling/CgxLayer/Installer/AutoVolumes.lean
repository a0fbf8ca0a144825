import CgxLayer.Installer.FreeSpace

namespace CgxLayer.Installer

open Text

inductive PyError where
  | failure (e : Failure)
  | unboundLocalError
deriving DecidableEq

structure LvCall where
  size : ℚ
  name : Text
  dest : Text
  fstype : Option Text
  mountpoint : Option Text
deriving DecidableEq

inductive Outcome where
  | returned
  | raised (e : PyError)
  | created (calls : List LvCall)
deriving DecidableEq

def memLine (memcount : ℚ) (l : Text) : Except Failure ℚ :=
  match words pyBlank l with
  | [] => .ok memcount
  | w :: ws =>
    if w = "Mem:".toList then
      match ws with
      | [] => .error .indexError
      | m :: _ => if digits m then .ok (((Nat.ofDigitChars 10 m 0 : ℕ) + 999) / 1000) else .error .valueError
    else .ok memcount

structure FreeRun where
  returncode : ℤ
  lines : List Text

def memCount (free : FreeRun) : Except Failure ℚ :=
  if free.returncode ≠ 0 then .ok 0 else free.lines.foldlM memLine 0

-- `re.sub(' +', ' ', s)`, after a blank or not
def squeeze : Bool → Text → Text
  | _, [] => []
  | after, c :: s =>
    if c = ' ' then if after then squeeze true s else ' ' :: squeeze true s else c :: squeeze false s

def pvFields (sz : Text) : List Text :=
  (strip (· == '\n') (strip (· == ' ') (squeeze false sz))).splitOn ' '

def pvSize (sz : Text) : Except Failure ℚ :=
  match (pvFields sz)[4]? with
  | none => .error .indexError
  | some s =>
    match exactFloat s with
    | none => .error .valueError
    | some q => .ok q

def usable (size : ℚ) : ℤ := truncate (size - truncate (size * 10 / 100))

-- what is left of `lv_rt_sz` and `memcount`, no call being made where the space is too small
def split (fullDisk : Bool) (sz : ℤ) (memcount : ℚ) : Option (Option ℤ × ℚ) :=
  if memcount ≠ 0 then
    let (rootSize, memcount) :=
      if sz > truncate (memcount * 2) then (sz - truncate (memcount * 2), memcount) else (sz, 0)
    if fullDisk then if rootSize < 10000 then none else some (some rootSize, memcount)
    else if rootSize ≥ 10000 then some (some 10000, memcount) else none
  else some (none, memcount)

def rootCall (size : ℚ) : LvCall := ⟨size, "root".toList, "fs".toList, some "ext4".toList, some rootPoint⟩

def swapCall (size : ℚ) : LvCall := ⟨size, "swap".toList, "swap".toList, none, none⟩

def allocate (fullDisk : Bool) (sz : ℤ) (memcount : ℚ) : Outcome :=
  match split fullDisk sz memcount with
  | none => .returned
  | some (none, _) => .raised .unboundLocalError
  | some (some rootSize, memcount) =>
    let root := rootCall (if fullDisk then rootSize else 10000)
    .created (if memcount = 0 then [root] else [root, swapCall (memcount * 2)])

def createVolumes (fullDisk : Bool) (free : FreeRun) (pvdisplay : Text) : Outcome :=
  match memCount free with
  | .error e => .raised (.failure e)
  | .ok memcount =>
    if pvdisplay = [] then .returned
    else
      match pvSize pvdisplay with
      | .error e => .raised (.failure e)
      | .ok size => allocate fullDisk (usable size) memcount

/-- What `free` may come to: it fails, or any line of it that begins with `Mem:` has a size. -/
structure MemReport where
  run : FreeRun
  sized : ∀ l ∈ run.lines, ∀ ws, words pyBlank l = "Mem:".toList :: ws → ∃ n rest, ws = decimal n :: rest

def MemReport.Known (f : MemReport) : Prop :=
  f.run.returncode = 0 ∧ ∃ l ∈ f.run.lines, (words pyBlank l).head? = some "Mem:".toList

/-- The line of `pvdisplay -C` for the volume group's only physical volume. -/
structure PvReport where
  pv : Text
  vg : Text
  fmt : Text
  attr : Text
  size : Decimal
  free : Text
  pads : ℕ → ℕ
  isWords : ∀ w ∈ [pv, vg, fmt, attr, free], w ≠ [] ∧ ∀ c ∈ w, c ≠ ' ' ∧ c ≠ '\n'

def PvReport.columns (r : PvReport) : List Text := [r.pv, r.vg, r.fmt, r.attr, r.size.text, r.free]

def spaced (pads : ℕ → ℕ) : List Text → Text
  | [] => []
  | w :: ws => List.replicate (pads 0 + 1) ' ' ++ (w ++ spaced (fun i => pads (i + 1)) ws)

def PvReport.text (r : PvReport) : Text := spaced r.pads r.columns ++ ['\n']

-- an lvcreate size is in MiB and is rounded up to whole extents of 4 MiB
def LvCall.bytes (c : LvCall) : ℚ := ⌈c.size / 4⌉ * 4 * 2 ^ 20

structure FitsIn (size : ℚ) (calls : List LvCall) : Prop where
  root : ∃ c rest, calls = c :: rest ∧ c.name = "root".toList ∧ 10000 ≤ c.size ∧
    ∀ s ∈ rest, s.name = "swap".toList
  fits : (calls.map LvCall.bytes).sum ≤ size * 10 ^ 6

variable {f : MemReport} {r : PvReport} {fullDisk : Bool}

theorem squeeze_blanks (n : ℕ) (s : Text) : squeeze true (List.replicate n ' ' ++ s) = squeeze true s := by
  induction n with
  | zero => rfl
  | succ n ih => rw [List.replicate_succ, List.cons_append, squeeze, if_pos rfl, if_pos rfl, ih]

theorem squeeze_word {w : Text} (hw : ∀ c ∈ w, c ≠ ' ') (hne : w ≠ []) (after : Bool) (s : Text) :
    squeeze after (w ++ s) = w ++ squeeze false s := by
  induction w generalizing after with
  | nil => exact absurd rfl hne
  | cons c w ih =>
    obtain ⟨hc, hw⟩ := List.forall_mem_cons.mp hw
    rw [List.cons_append, squeeze, if_neg hc]
    cases w with
    | nil => rfl
    | cons d w =>
      rw [ih hw (List.cons_ne_nil d w)]
      rfl

theorem squeeze_spaced {ws : List Text} (hws : ∀ w ∈ ws, w ≠ [] ∧ ∀ c ∈ w, c ≠ ' ') (pads : ℕ → ℕ)
    (s : Text) :
    squeeze false (spaced pads ws ++ s) = ws.flatMap (' ' :: ·) ++ squeeze false s := by
  induction ws generalizing pads with
  | nil => rfl
  | cons w ws ih =>
    obtain ⟨⟨hne, hw⟩, hws⟩ := List.forall_mem_cons.mp hws
    rw [spaced, List.replicate_succ, List.cons_append, List.cons_append, squeeze, if_pos rfl,
      if_neg Bool.false_ne_true, List.append_assoc, List.append_assoc, squeeze_blanks, squeeze_word hw hne, ih hws,
      List.flatMap_cons, List.cons_append, List.cons_append, List.append_assoc]

theorem isDigit_ne {c d : Char} (hc : c.isDigit = true) (hd : d.isDigit = false) : c ≠ d := by
  rintro rfl
  rw [hc] at hd
  cases hd

theorem Decimal.text_word (d : Decimal) : d.text ≠ [] ∧ ∀ c ∈ d.text, c ≠ ' ' ∧ c ≠ '\n' := by
  have hdigit : ∀ c : Char, c.isDigit = true → c ≠ ' ' ∧ c ≠ '\n' :=
    fun c hc => ⟨isDigit_ne hc (by decide), isDigit_ne hc (by decide)⟩
  refine ⟨fun h => Nat.toDigits_ne_nil (List.append_eq_nil_iff.mp h).1, fun c hc => ?_⟩
  rcases List.mem_append.mp hc with hc | hc
  · exact hdigit c (isDigit_of_mem_decimal hc)
  · split_ifs at hc with hfrac
    · simp at hc
    · rcases List.mem_cons.mp hc with rfl | hc
      · decide
      · exact hdigit c (d.digits c hc)

theorem PvReport.columns_words (r : PvReport) : ∀ w ∈ r.columns, w ≠ [] ∧ ∀ c ∈ w, c ≠ ' ' ∧ c ≠ '\n' := by
  intro w hw
  have hword := r.isWords w
  simp only [PvReport.columns, List.mem_cons, List.not_mem_nil, or_false] at hw hword
  rcases hw with rfl | rfl | rfl | rfl | rfl | rfl
  · exact hword (.inl rfl)
  · exact hword (.inr (.inl rfl))
  · exact hword (.inr (.inr (.inl rfl)))
  · exact hword (.inr (.inr (.inr (.inl rfl))))
  · exact r.size.text_word
  · exact hword (.inr (.inr (.inr (.inr rfl))))

theorem joinWith_columns (r : PvReport) : ∃ c rest, joinWith ' ' r.columns = c :: rest ∧ c ≠ ' ' := by
  obtain ⟨hne, hchars⟩ := r.columns_words r.pv (List.mem_cons_self ..)
  obtain ⟨c, s, hs⟩ := List.exists_cons_of_ne_nil hne
  have hhead : joinWith ' ' r.columns = c :: (s ++ ' ' :: joinWith ' ' r.columns.tail) := by
    rw [PvReport.columns, joinWith_cons_cons, hs, List.cons_append]
    rfl
  exact ⟨c, _, hhead, (hchars c (hs ▸ List.mem_cons_self ..)).1⟩

theorem pvFields_text (r : PvReport) : pvFields r.text = r.columns := by
  have hwords := r.columns_words
  obtain ⟨c, rest, hhead, hc⟩ := joinWith_columns r
  have hnewline : ∀ c ∈ joinWith ' ' r.columns, (c == '\n') = false := by
    intro c hc
    rw [beq_eq_false_iff_ne]
    rcases mem_joinWith hc with rfl | ⟨w, hw, hc⟩
    · decide
    · exact ((hwords w hw).2 c hc).2
  have hsqueezed : squeeze false r.text = [' '] ++ ((joinWith ' ' r.columns ++ ['\n']) ++ []) := by
    rw [PvReport.text, squeeze_spaced (fun w hw => ⟨(hwords w hw).1, fun c hc => ((hwords w hw).2 c hc).1⟩),
      List.append_nil, PvReport.columns, flatMap_joinWith]
    rfl
  have hblanks : strip (· == ' ') (squeeze false r.text) = [] ++ (joinWith ' ' r.columns ++ ['\n']) := by
    rw [hsqueezed]
    apply strip_between (by decide) (by decide) (by simp)
    · rw [hhead]
      rintro d ⟨⟩
      exact beq_eq_false_iff_ne.mpr hc
    · rw [List.getLast?_concat]
      rintro d ⟨⟩
      decide
  have hline : strip (· == '\n') ([] ++ (joinWith ' ' r.columns ++ ['\n'])) = joinWith ' ' r.columns := by
    apply strip_between (by decide) (by decide)
    · rw [hhead]
      exact List.cons_ne_nil c rest
    · exact fun d hd => hnewline d (List.mem_of_mem_head? hd)
    · exact fun d hd => hnewline d (List.mem_of_mem_getLast? hd)
  rw [pvFields, hblanks, hline, joinWith, List.splitOn_intercalate]
  · exact fun w hw hmem => ((hwords w hw).2 _ hmem).1 rfl
  · exact List.cons_ne_nil _ _

theorem pvSize_text (r : PvReport) : pvSize r.text = .ok r.size.value := by
  rw [pvSize, pvFields_text]
  simp only [PvReport.columns, List.getElem?_cons_succ, List.getElem?_cons_zero, exactFloat_text]

theorem text_ne_nil (r : PvReport) : r.text ≠ [] := by simp [PvReport.text]

theorem usable_bounds {p : ℚ} (hp : 0 ≤ p) : (usable p : ℚ) ≤ 9 / 10 * p + 1 := by
  have htenth : (⌊p * 10 / 100⌋ : ℚ) ≤ p * 10 / 100 := Int.floor_le _
  have htenth' : p * 10 / 100 < ⌊p * 10 / 100⌋ + 1 := Int.lt_floor_add_one _
  have hpart : 0 ≤ p * 10 / 100 := by linarith
  have hrest : 0 ≤ p - (⌊p * 10 / 100⌋ : ℤ) := by linarith
  have husable : usable p = ⌊p - (⌊p * 10 / 100⌋ : ℤ)⌋ := by
    rw [usable, truncate_of_nonneg hpart, truncate_of_nonneg hrest]
  have hfloor : (⌊p - (⌊p * 10 / 100⌋ : ℤ)⌋ : ℚ) ≤ p - (⌊p * 10 / 100⌋ : ℤ) := Int.floor_le _
  rw [husable]
  linarith

theorem split_known (fullDisk : Bool) (sz : ℤ) {m : ℚ} (hm : m ≠ 0) : split fullDisk sz m = none ∨
    ∃ (k : ℤ) (m' : ℚ), split fullDisk sz m = some (some k, m') ∧ 10000 ≤ k ∧ (fullDisk = false → k = 10000) ∧
      ((m' = m ∧ k + truncate (m * 2) ≤ sz) ∨ (m' = 0 ∧ k ≤ sz)) := by
  rw [split, if_pos hm]
  obtain ⟨rootSize, m', hpair, hroom⟩ : ∃ (rootSize : ℤ) (m' : ℚ),
      (if sz > truncate (m * 2) then (sz - truncate (m * 2), m) else (sz, 0)) = (rootSize, m') ∧
        ((m' = m ∧ rootSize + truncate (m * 2) ≤ sz) ∨ (m' = 0 ∧ rootSize ≤ sz)) := by
    split_ifs with hswap
    · exact ⟨_, _, rfl, .inl ⟨rfl, by omega⟩⟩
    · exact ⟨_, _, rfl, .inr ⟨rfl, le_rfl⟩⟩
  rw [hpair]
  dsimp only
  cases fullDisk with
  | true =>
    rw [if_pos rfl]
    split_ifs with hsmall
    · exact .inl rfl
    · exact .inr ⟨rootSize, m', rfl, by omega, by simp, hroom⟩
  | false =>
    rw [if_neg Bool.false_ne_true]
    split_ifs with hlarge
    · refine .inr ⟨10000, m', rfl, le_rfl, fun _ => rfl, ?_⟩
      rcases hroom with ⟨hm', hroom⟩ | ⟨hm', hroom⟩
      · exact .inl ⟨hm', by omega⟩
      · exact .inr ⟨hm', by omega⟩
    · exact .inl rfl

theorem bytes_lt (c : LvCall) : c.bytes < (c.size + 4) * 2 ^ 20 := by
  have hceil : (⌈c.size / 4⌉ : ℚ) < c.size / 4 + 1 := Int.ceil_lt_add_one _
  rw [LvCall.bytes]
  linarith

-- the reserve of a tenth takes up the change of units and the rounding
theorem fitsIn_of_room {p : ℚ} (hp : 0 ≤ p) {k : ℤ} (hk : 10000 ≤ k) {m m' : ℚ} (hm : 0 < m)
    (hroom : (m' = m ∧ k + truncate (m * 2) ≤ usable p) ∨ (m' = 0 ∧ k ≤ usable p)) :
    FitsIn p (if m' = 0 then [rootCall k] else [rootCall k, swapCall (m' * 2)]) := by
  have hk' : (10000 : ℚ) ≤ k := by exact_mod_cast hk
  have husable := usable_bounds hp
  have hroot : (rootCall k).bytes < ((k : ℚ) + 4) * 2 ^ 20 := bytes_lt _
  constructor
  · refine ⟨rootCall k, if m' = 0 then [] else [swapCall (m' * 2)], ?_, rfl, hk', ?_⟩
    · split_ifs <;> rfl
    · split_ifs
      · simp
      · rintro s hs
        rw [List.mem_singleton.mp hs]
        rfl
  · rcases hroom with ⟨rfl, hroom⟩ | ⟨rfl, hroom⟩
    · have hroom' : (k : ℚ) + ⌊m' * 2⌋ ≤ usable p := by
        rw [truncate_of_nonneg (by linarith)] at hroom
        exact_mod_cast hroom
      have hfloor : m' * 2 < ⌊m' * 2⌋ + 1 := Int.lt_floor_add_one _
      have hfloor' : (0 : ℚ) ≤ ⌊m' * 2⌋ := by exact_mod_cast Int.floor_nonneg.mpr (by linarith : 0 ≤ m' * 2)
      have hswap : (swapCall (m' * 2)).bytes < (m' * 2 + 4) * 2 ^ 20 := bytes_lt _
      rw [if_neg hm.ne', List.map_cons, List.map_singleton, List.sum_cons, List.sum_singleton]
      linarith
    · have hroom' : (k : ℚ) ≤ usable p := by exact_mod_cast hroom
      rw [if_pos rfl, List.map_singleton, List.sum_singleton]
      linarith

theorem allocate_known (fullDisk : Bool) {p : ℚ} (hp : 0 ≤ p) {m : ℚ} (hm : 0 < m) :
    allocate fullDisk (usable p) m = .returned ∨
      ∃ calls, allocate fullDisk (usable p) m = .created calls ∧ FitsIn p calls := by
  rcases split_known fullDisk (usable p) hm.ne' with h | ⟨k, m', h, hk, hten, hroom⟩
  · left
    rw [allocate, h]
  · right
    have hsize : (if fullDisk = true then (k : ℚ) else 10000) = k := by
      cases fullDisk with
      | true => rfl
      | false => rw [hten rfl]; rfl
    refine ⟨_, ?_, fitsIn_of_room hp hk hm hroom⟩
    rw [allocate, h]
    dsimp only
    rw [hsize]

theorem allocate_unknown (fullDisk : Bool) (sz : ℤ) : allocate fullDisk sz 0 = .raised .unboundLocalError := by
  rw [allocate, split, if_neg (by simp)]

def IsMemLine (l : Text) : Prop := (words pyBlank l).head? = some "Mem:".toList

theorem memLine_other {l : Text} (h : ¬ IsMemLine l) (m : ℚ) : memLine m l = .ok m := by
  rw [memLine]
  rw [IsMemLine] at h
  cases hwords : words pyBlank l with
  | nil => rfl
  | cons w ws =>
    rw [hwords, List.head?_cons, Option.some_inj] at h
    exact if_neg h

theorem memLine_sized {l : Text} (hf : l ∈ f.run.lines) (h : IsMemLine l) (m : ℚ) :
    ∃ m', memLine m l = .ok m' ∧ 0 < m' := by
  obtain ⟨w, ws, hwords⟩ : ∃ w ws, words pyBlank l = w :: ws := by
    cases hwords : words pyBlank l with
    | nil => simp [IsMemLine, hwords] at h
    | cons w ws => exact ⟨w, ws, rfl⟩
  rw [IsMemLine, hwords, List.head?_cons, Option.some_inj] at h
  subst h
  obtain ⟨n, rest, rfl⟩ := f.sized l hf ws hwords
  refine ⟨((Nat.ofDigitChars 10 (decimal n) 0 : ℕ) + 999) / 1000, ?_, by positivity⟩
  rw [memLine, hwords]
  dsimp only
  rw [if_pos rfl, if_pos (digits_decimal n)]

theorem foldlM_memLine {lines : List Text} (hsub : ∀ l ∈ lines, l ∈ f.run.lines) (m : ℚ) :
    ∃ m', lines.foldlM memLine m = .ok m' ∧ ((∃ l ∈ lines, IsMemLine l) → 0 < m') ∧ (0 < m → 0 < m') ∧
      ((¬ ∃ l ∈ lines, IsMemLine l) → m' = m) := by
  induction lines generalizing m with
  | nil => exact ⟨m, rfl, by simp, id, fun _ => rfl⟩
  | cons l lines ih =>
    obtain ⟨hl, hsub⟩ := List.forall_mem_cons.mp hsub
    rw [List.foldlM_cons]
    by_cases hmem : IsMemLine l
    · obtain ⟨m₁, hm₁, hpos⟩ := memLine_sized hl hmem m
      obtain ⟨m', hm', -, hkept, -⟩ := ih hsub m₁
      refine ⟨m', by rw [hm₁]; exact hm', fun _ => hkept hpos, fun _ => hkept hpos, fun hno => ?_⟩
      exact absurd ⟨l, List.mem_cons_self .., hmem⟩ hno
    · obtain ⟨m', hm', hsome, hkept, hnone⟩ := ih hsub m
      refine ⟨m', by rw [memLine_other hmem]; exact hm', ?_, hkept, ?_⟩
      · rintro ⟨l', hl', hmem'⟩
        rcases List.mem_cons.mp hl' with rfl | hl'
        · exact absurd hmem' hmem
        · exact hsome ⟨l', hl', hmem'⟩
      · exact fun hno => hnone (fun ⟨l', hl', hmem'⟩ => hno ⟨l', List.mem_cons_of_mem _ hl', hmem'⟩)

theorem memCount_known (h : f.Known) : ∃ m, memCount f.run = .ok m ∧ 0 < m := by
  obtain ⟨hcode, hline⟩ := h
  obtain ⟨m, hm, hpos, -⟩ := foldlM_memLine (f := f) (fun _ h => h) 0
  exact ⟨m, by rw [memCount, if_neg (not_not.mpr hcode), hm], hpos hline⟩

theorem memCount_unknown (h : ¬ f.Known) : memCount f.run = .ok 0 := by
  rw [memCount]
  split_ifs with hcode
  · rfl
  · obtain ⟨m, hm, -, -, hzero⟩ := foldlM_memLine (f := f) (fun _ h => h) 0
    rw [hm, hzero (fun hline => h ⟨not_not.mp hcode, hline⟩)]

theorem createVolumes_known (fullDisk : Bool) (h : f.Known) (r : PvReport) :
    createVolumes fullDisk f.run r.text = .returned ∨
      ∃ calls, createVolumes fullDisk f.run r.text = .created calls ∧ FitsIn r.size.value calls := by
  obtain ⟨m, hm, hpos⟩ := memCount_known h
  rw [createVolumes, hm]
  dsimp only
  rw [if_neg (text_ne_nil r), pvSize_text]
  exact allocate_known fullDisk (value_nonneg r.size) hpos

theorem createVolumes_unknown (fullDisk : Bool) (h : ¬ f.Known) (r : PvReport) :
    createVolumes fullDisk f.run r.text = .raised .unboundLocalError := by
  rw [createVolumes, memCount_unknown h]
  dsimp only
  rw [if_neg (text_ne_nil r), pvSize_text]
  exact allocate_unknown fullDisk _

theorem createVolumes_empty (fullDisk : Bool) (f : MemReport) : createVolumes fullDisk f.run [] = .returned := by
  by_cases h : f.Known
  · obtain ⟨m, hm, -⟩ := memCount_known h
    rw [createVolumes, hm]
    rfl
  · rw [createVolumes, memCount_unknown h]
    rfl

theorem created_fit (fullDisk : Bool) (f : MemReport) (r : PvReport) (calls : List LvCall)
    (h : createVolumes fullDisk f.run r.text = .created calls) : FitsIn r.size.value calls := by
  by_cases hknown : f.Known
  · rcases createVolumes_known fullDisk hknown r with hreturned | ⟨calls', hcreated, hfits⟩
    · rw [hreturned] at h
      cases h
    · rw [hcreated] at h
      cases h
      exact hfits
  · rw [createVolumes_unknown fullDisk hknown r] at h
    cases h

/-- What `pvdisplay` prints, which is nothing where it fails. -/
def pvText (pv : Option PvReport) : Text := (pv.map PvReport.text).getD []

structure Allocation (f : MemReport) (pv : Option PvReport) (outcome : Outcome) : Prop where
  noError : ∀ e, outcome ≠ .raised e
  created : ∀ calls, outcome = .created calls → (∃ r, pv = some r ∧ FitsIn r.size.value calls) ∧
    ((∃ s ∈ calls, s.name = "swap".toList) → f.Known)

theorem allocation_iff_known (fullDisk : Bool) (f : MemReport) (pv : Option PvReport) :
    Allocation f pv (createVolumes fullDisk f.run (pvText pv)) ↔ pv = none ∨ f.Known := by
  cases pv with
  | none =>
    have hreturned : createVolumes fullDisk f.run (pvText none) = .returned := createVolumes_empty fullDisk f
    rw [hreturned]
    exact ⟨fun _ => .inl rfl, fun _ => ⟨by simp, by simp⟩⟩
  | some r =>
    have htext : pvText (some r) = r.text := rfl
    rw [htext]
    constructor
    · intro h
      right
      by_contra hunknown
      exact h.noError _ (createVolumes_unknown fullDisk hunknown r)
    · rintro (hnone | hknown)
      · cases hnone
      · rcases createVolumes_known fullDisk hknown r with hreturned | ⟨calls, hcreated, hfits⟩
        · rw [hreturned]
          exact ⟨by simp, by simp⟩
        · rw [hcreated]
          refine ⟨by simp, ?_⟩
          rintro calls' ⟨⟩
          exact ⟨⟨r, rfl, hfits⟩, fun _ => hknown⟩

def smallMem : MemReport where
  run := ⟨0, ["       total".toList, "Mem: 2000000".toList, []]⟩
  sized := by
    intro l hl ws hws
    have hfirst : words pyBlank "       total".toList = ["total".toList] := by decide
    have hsecond : words pyBlank "Mem: 2000000".toList = ["Mem:".toList, decimal 2000000] := by decide
    simp only [List.mem_cons, List.not_mem_nil, or_false] at hl
    rcases hl with rfl | rfl | rfl
    · rw [hfirst] at hws
      cases List.head_eq_of_cons_eq hws
    · rw [hsecond] at hws
      exact ⟨2000000, [], (List.tail_eq_of_cons_eq hws).symm⟩
    · rw [words_nil] at hws
      cases hws

def noFree : MemReport := ⟨⟨1, []⟩, by simp⟩

def twentyGb : PvReport where
  pv := "/dev/md1".toList
  vg := "vg01".toList
  fmt := "lvm2".toList
  attr := "a--".toList
  size := ⟨20000, "00".toList, by decide⟩
  free := "20000.00".toList
  pads := fun _ => 1
  isWords := by decide

theorem twentyGb_fits : FitsIn twentyGb.size.value [rootCall 13999, swapCall (2000999 / 500)] :=
  created_fit true smallMem twentyGb _ (by decide +kernel)

theorem free_failed_raises :
    ¬ Allocation noFree (some twentyGb) (createVolumes true noFree.run (pvText (some twentyGb))) := by
  intro h
  exact h.noError _ (createVolumes_unknown true (fun hknown => absurd hknown.1 (by decide)) twentyGb)

end CgxLayer.Installer
