import Mathlib.Data.List.Nodup
import Mathlib.Data.List.Dedup

namespace CgxLayer

/-- A finite map that remembers the order in which its keys were first assigned. -/
structure Dict (κ α : Type) where
  entries : List (κ × α)
  nodup : (entries.map Prod.fst).Nodup

namespace Dict

variable {κ α : Type}

def keys (d : Dict κ α) : List κ := d.entries.map Prod.fst

def empty : Dict κ α := ⟨[], List.nodup_nil⟩

def isEmpty (d : Dict κ α) : Bool := d.entries.isEmpty

theorem isEmpty_iff (d : Dict κ α) : d.isEmpty = true ↔ d.entries = [] := List.isEmpty_iff

theorem mem_keys_of_mem {d : Dict κ α} {k : κ} {a : α} (h : (k, a) ∈ d.entries) : k ∈ d.keys :=
  List.mem_map.mpr ⟨(k, a), h, rfl⟩

theorem mem_keys_iff {d : Dict κ α} {k : κ} : k ∈ d.keys ↔ ∃ a, (k, a) ∈ d.entries := by
  simp [keys]

theorem isEmpty_of_mem_keys {d : Dict κ α} {k : κ} (h : k ∈ d.keys) : d.isEmpty = false := by
  obtain ⟨a, ha⟩ := mem_keys_iff.mp h
  exact List.isEmpty_eq_false_iff_exists_mem.mpr ⟨(k, a), ha⟩

theorem eq_of_mem {d : Dict κ α} {k : κ} {a b : α} (ha : (k, a) ∈ d.entries)
    (hb : (k, b) ∈ d.entries) : a = b := by
  have h := List.inj_on_of_nodup_map d.nodup ha hb rfl
  exact congrArg Prod.snd h

variable [DecidableEq κ]

def get? (d : Dict κ α) (k : κ) : Option α :=
  (d.entries.find? (fun e => e.1 = k)).map Prod.snd

theorem get?_eq_some {d : Dict κ α} {k : κ} {a : α} :
    d.get? k = some a ↔ (k, a) ∈ d.entries := by
  constructor
  · intro h
    obtain ⟨e, he, rfl⟩ := Option.map_eq_some_iff.mp h
    have hk : e.1 = k := by simpa using List.find?_some he
    exact hk ▸ List.mem_of_find?_eq_some he
  · intro h
    obtain ⟨e, he⟩ : ∃ e, d.entries.find? (fun e => e.1 = k) = some e := by
      apply Option.isSome_iff_exists.mp
      rw [List.find?_isSome]
      exact ⟨(k, a), h, by simp⟩
    have hk : e.1 = k := by simpa using List.find?_some he
    have hmem : (k, e.2) ∈ d.entries := hk ▸ List.mem_of_find?_eq_some he
    rw [get?, he, eq_of_mem h hmem]
    rfl

theorem get?_eq_none {d : Dict κ α} {k : κ} : d.get? k = none ↔ k ∉ d.keys := by
  rw [mem_keys_iff, ← not_iff_not, ← ne_eq, Option.ne_none_iff_exists']
  simp only [get?_eq_some, not_not]

def setEntries (k : κ) (a : α) : List (κ × α) → List (κ × α)
  | [] => [(k, a)]
  | e :: es => if e.1 = k then (k, a) :: es else e :: setEntries k a es

theorem keys_setEntries (k : κ) (a : α) (es : List (κ × α)) :
    (setEntries k a es).map Prod.fst =
      if k ∈ es.map Prod.fst then es.map Prod.fst else es.map Prod.fst ++ [k] := by
  induction es with
  | nil => simp [setEntries]
  | cons e es ih =>
    rcases eq_or_ne e.1 k with he | he
    · simp [setEntries, he]
    · simp only [setEntries, he, if_false, List.map_cons, ih, List.mem_cons, he.symm, false_or]
      split_ifs <;> simp

def set (d : Dict κ α) (k : κ) (a : α) : Dict κ α :=
  ⟨setEntries k a d.entries, by
    rw [keys_setEntries]
    split_ifs with h
    · exact d.nodup
    · exact List.nodup_append.mpr ⟨d.nodup, List.nodup_singleton k, by
        intro x hx y hy
        rw [List.mem_singleton.mp hy]
        exact fun hxk => h (hxk ▸ hx)⟩⟩

theorem mem_setEntries {k : κ} {a : α} {es : List (κ × α)} (hes : (es.map Prod.fst).Nodup)
    (e : κ × α) : e ∈ setEntries k a es ↔ e = (k, a) ∨ e ∈ es ∧ e.1 ≠ k := by
  induction es with
  | nil => simp [setEntries]
  | cons x es ih =>
    rw [List.map_cons, List.nodup_cons] at hes
    rcases eq_or_ne x.1 k with hx | hx
    · have hfresh : ∀ y ∈ es, y.1 ≠ k := fun y hy hyk =>
        hes.1 (List.mem_map.mpr ⟨y, hy, hyk.trans hx.symm⟩)
      simp only [setEntries, hx, if_true, List.mem_cons]
      constructor
      · rintro (rfl | he)
        · exact .inl rfl
        · exact .inr ⟨.inr he, hfresh e he⟩
      · rintro (rfl | ⟨rfl | he, hne⟩)
        · exact .inl rfl
        · exact absurd hx hne
        · exact .inr he
    · simp only [setEntries, hx, if_false, List.mem_cons, ih hes.2]
      constructor
      · rintro (rfl | rfl | ⟨he, hne⟩)
        · exact .inr ⟨.inl rfl, hx⟩
        · exact .inl rfl
        · exact .inr ⟨.inr he, hne⟩
      · rintro (rfl | ⟨rfl | he, hne⟩)
        · exact .inr (.inl rfl)
        · exact .inl rfl
        · exact .inr (.inr ⟨he, hne⟩)

theorem mem_set {d : Dict κ α} {k : κ} {a : α} {e : κ × α} :
    e ∈ (d.set k a).entries ↔ e = (k, a) ∨ e ∈ d.entries ∧ e.1 ≠ k :=
  mem_setEntries d.nodup e

theorem get?_set (d : Dict κ α) (k k' : κ) (a : α) :
    (d.set k a).get? k' = if k = k' then some a else d.get? k' := by
  apply Option.ext
  intro b
  rw [get?_eq_some, mem_set]
  split_ifs with hk
  · constructor
    · rintro (h | ⟨-, hne⟩)
      · cases h
        rfl
      · exact absurd hk.symm hne
    · intro h
      cases h
      exact .inl (by rw [hk])
  · rw [get?_eq_some]
    constructor
    · rintro (h | ⟨h, -⟩)
      · exact absurd (congrArg Prod.fst h).symm hk
      · exact h
    · exact fun h => .inr ⟨h, fun heq => hk heq.symm⟩

theorem mem_keys_set {d : Dict κ α} {k k' : κ} {a : α} :
    k' ∈ (d.set k a).keys ↔ k' = k ∨ k' ∈ d.keys := by
  simp only [mem_keys_iff, mem_set, Prod.ext_iff, ne_eq]
  constructor
  · rintro ⟨b, ⟨rfl, -⟩ | ⟨hb, -⟩⟩
    · exact .inl rfl
    · exact .inr ⟨b, hb⟩
  · rintro (rfl | ⟨b, hb⟩)
    · exact ⟨a, .inl ⟨rfl, rfl⟩⟩
    · rcases eq_or_ne k' k with rfl | hne
      · exact ⟨a, .inl ⟨rfl, rfl⟩⟩
      · exact ⟨b, .inr ⟨hb, hne⟩⟩

def del (d : Dict κ α) (k : κ) : Dict κ α :=
  ⟨d.entries.filter (fun e => e.1 ≠ k), d.nodup.sublist (List.filter_sublist.map Prod.fst)⟩

theorem mem_del {d : Dict κ α} {k : κ} {e : κ × α} :
    e ∈ (d.del k).entries ↔ e ∈ d.entries ∧ e.1 ≠ k := by
  simp [del]

theorem mem_keys_del {d : Dict κ α} {k k' : κ} : k' ∈ (d.del k).keys ↔ k' ∈ d.keys ∧ k' ≠ k := by
  simp only [mem_keys_iff, mem_del]
  constructor
  · rintro ⟨a, ha, hne⟩
    exact ⟨⟨a, ha⟩, hne⟩
  · rintro ⟨⟨a, ha⟩, hne⟩
    exact ⟨a, ha, hne⟩

def ofEntries (es : List (κ × α)) : Dict κ α := es.foldl (fun d e => d.set e.1 e.2) empty

theorem mem_foldl_set {es : List (κ × α)} (hes : (es.map Prod.fst).Nodup) (d : Dict κ α)
    (e : κ × α) : e ∈ (es.foldl (fun d e => d.set e.1 e.2) d).entries ↔
      e ∈ es ∨ e ∈ d.entries ∧ e.1 ∉ es.map Prod.fst := by
  induction es generalizing d with
  | nil => simp
  | cons x es ih =>
    rw [List.map_cons, List.nodup_cons] at hes
    rw [List.foldl_cons, ih hes.2, mem_set, List.mem_cons, List.map_cons, List.mem_cons, not_or]
    constructor
    · rintro (he | ⟨rfl | ⟨he, hne⟩, hnot⟩)
      · exact .inl (.inr he)
      · exact .inl (.inl rfl)
      · exact .inr ⟨he, hne, hnot⟩
    · rintro ((rfl | he) | ⟨he, hne, hnot⟩)
      · exact .inr ⟨.inl rfl, hes.1⟩
      · exact .inl he
      · exact .inr ⟨.inr ⟨he, hne⟩, hnot⟩

theorem mem_ofEntries {es : List (κ × α)} (hes : (es.map Prod.fst).Nodup) (e : κ × α) :
    e ∈ (ofEntries es).entries ↔ e ∈ es := by
  rw [ofEntries, mem_foldl_set hes]
  simp [empty]

end Dict

end CgxLayer
