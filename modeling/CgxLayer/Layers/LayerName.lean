import CgxLayer.Text

namespace CgxLayer.Layers

open Text

-- The `re` module: `none` where the pattern is not one.
structure Re where
  search : Text → Text → Option Bool
  literal : ∀ s file, (∀ c ∈ s, c ∉ ".^$*+?{}[]\\|()".toList) →
    search ('^' :: s) file = some (startsWith s file)

inductive Outcome where
  | name (s : Text)
  | none
  | reError
  deriving DecidableEq

def absolute (comps : List Text) : Text := comps.flatMap (fun c => '/' :: c)

structure Layer where
  name : Text
  dir : List Text
  nameWord : IsWord pyBlank name
  dirNe : dir ≠ []
  dirNames : ∀ c ∈ dir, IsWord pyBlank c ∧ '/' ∉ c

structure FilePath where
  comps : List Text
  ne : comps ≠ []
  names : ∀ c ∈ comps, c ≠ [] ∧ '/' ∉ c

structure Config where
  named : List Layer
  collections : List Layer
  pattern : Text → Option Text
  noColon : ∀ l ∈ named, ':' ∉ l.name
  patterns : ∀ l ∈ collections, pattern l.name = some ('^' :: absolute l.dir ++ "/".toList)

def Encloses (l : Layer) (file : FilePath) : Prop := l.dir <+: file.comps ∧ l.dir ≠ file.comps

def Config.layers (cfg : Config) : List Layer := cfg.named ++ cfg.collections

def Deepest (cfg : Config) (file : FilePath) (l : Layer) : Prop :=
  l ∈ cfg.layers ∧ Encloses l file ∧ ∀ l' ∈ cfg.layers, Encloses l' file → l'.dir.length ≤ l.dir.length

def Right (cfg : Config) (file : FilePath) : Outcome → Prop
  | .name n => (∃ l, Deepest cfg file l ∧ l.name = n) ∨
      ((∀ l ∈ cfg.layers, ¬ Encloses l file) ∧ n = [])
  | _ => False

structure Relisted (cfg cfg' : Config) : Prop where
  named : cfg.named.Perm cfg'.named
  collections : cfg.collections.Perm cfg'.collections
  pattern : cfg'.pattern = cfg.pattern

def Layer.Literal (l : Layer) : Prop := ∀ c ∈ absolute l.dir, c ∉ ".^$*+?{}[]\\|()".toList

instance (l : Layer) : Decidable l.Literal := inferInstanceAs (Decidable (∀ c ∈ absolute l.dir, _))

/-- Whether the path begins with a plain directory's text; a directory with metacharacters is `re`'s to judge. -/
def Layer.begins (re : Re) (tail : Text) (file : FilePath) (l : Layer) : Option Bool :=
  if l.Literal then some (startsWith (absolute l.dir ++ tail) (absolute file.comps))
  else re.search ('^' :: absolute l.dir ++ tail) (absolute file.comps)

-- A name and a directory with a colon are not two parts.
def Config.prefixes (re : Re) (cfg : Config) (file : FilePath) : List Layer :=
  (cfg.named.filter (fun l => ':' ∉ absolute l.dir)).filter (fun l => l.begins re [] file != some false)

def Config.above (re : Re) (cfg : Config) (file : FilePath) : List Layer :=
  cfg.collections.filter (fun l => l.begins re "/".toList file != some false)

def Agree (re : Re) (tail : Text) (cfg : Config) (file : FilePath) (ls : List Layer) : Prop :=
  (∀ l ∈ ls, l.begins re tail file = some true) ∧ ∃ d, Deepest cfg file d ∧ ∀ l ∈ ls, l.name = d.name

/-- The named layers with whose directories the path begins agree; where there are none, the
collections above the file do; and where there are none of these either, no layer is above it. -/
structure Unshadowed (re : Re) (cfg : Config) (file : FilePath) : Prop where
  named : cfg.prefixes re file ≠ [] → Agree re [] cfg file (cfg.prefixes re file)
  collected : cfg.prefixes re file = [] → cfg.above re file ≠ [] →
    Agree re "/".toList cfg file (cfg.above re file)
  none : cfg.prefixes re file = [] → cfg.above re file = [] → ∀ l ∈ cfg.layers, ¬ Encloses l file

structure Entry where
  name : Text
  pattern : Text

def Layer.entry (tail : Text) (l : Layer) : Entry := ⟨l.name, '^' :: absolute l.dir ++ tail⟩

def Config.entries (cfg : Config) : List Entry :=
  (cfg.named.filter (fun l => ':' ∉ absolute l.dir)).map (Layer.entry []) ++
    cfg.collections.map (Layer.entry "/".toList)

variable {re : Re}

theorem component_inj {c c' x y : Text} (hc : '/' ∉ c) (hc' : '/' ∉ c') (hx : x.head? = some '/')
    (hy : y = [] ∨ y.head? = some '/') (h : c ++ x <+: c' ++ y) : c = c' ∧ x <+: y := by
  obtain ⟨x, rfl⟩ : ∃ x', x = '/' :: x' := by
    cases x with
    | nil => cases hx
    | cons d x => exact ⟨x, by rw [Option.some.inj hx]⟩
  obtain ⟨z, hz⟩ := h
  have hleft : splitFirst '/' (c' ++ y) = some (c, x ++ z) := by
    rw [← hz, List.append_assoc]
    exact splitFirst_append c (x ++ z) hc
  rcases hy with rfl | hy
  · rw [List.append_nil, splitFirst_none.mpr hc'] at hleft
    cases hleft
  · obtain ⟨y, rfl⟩ : ∃ y', y = '/' :: y' := by
      cases y with
      | nil => cases hy
      | cons d y => exact ⟨y, by rw [Option.some.inj hy]⟩
    rw [splitFirst_append c' y hc'] at hleft
    cases hleft
    exact ⟨rfl, z, rfl⟩

theorem absolute_head (comps : List Text) : absolute comps = [] ∨ (absolute comps).head? = some '/' := by
  cases comps with
  | nil => exact .inl rfl
  | cons c comps => exact .inr rfl

theorem slash_absolute_iff {dir file : List Text} (hdir : ∀ c ∈ dir, '/' ∉ c) (hfile : ∀ c ∈ file, '/' ∉ c) :
    absolute dir ++ "/".toList <+: absolute file ↔ dir <+: file ∧ dir ≠ file := by
  induction dir generalizing file with
  | nil =>
    cases file with
    | nil => simp [absolute]
    | cons d file => simp [absolute]
  | cons c dir ih =>
    cases file with
    | nil => simp [absolute]
    | cons d file =>
      have htail := ih (fun k hk => hdir k (List.mem_cons_of_mem _ hk))
        (fun k hk => hfile k (List.mem_cons_of_mem _ hk))
      have hhead : (absolute dir ++ "/".toList).head? = some '/' := by
        cases dir <;> rfl
      have hcons (c : Text) (cs : List Text) : absolute (c :: cs) = '/' :: (c ++ absolute cs) := rfl
      rw [hcons, hcons, List.cons_append, List.append_assoc, List.cons_prefix_cons, List.cons_prefix_cons]
      constructor
      · rintro ⟨-, h⟩
        obtain ⟨rfl, hrest⟩ := component_inj (hdir c (List.mem_cons_self ..)) (hfile d (List.mem_cons_self ..))
          hhead (absolute_head file) h
        have hpair := htail.mp hrest
        exact ⟨⟨rfl, hpair.1⟩, fun heq => hpair.2 (List.cons.inj heq).2⟩
      · rintro ⟨⟨rfl, hpre⟩, hne⟩
        refine ⟨rfl, ?_⟩
        rw [List.prefix_append_right_inj]
        exact htail.mpr ⟨hpre, fun heq => hne (by rw [heq])⟩

theorem plain_begins {l : Layer} (hl : l.Literal) {tail : Text} {file : FilePath} :
    l.begins re tail file ≠ some false ↔ l.begins re tail file = some true := by
  rw [Layer.begins, if_pos hl]
  cases startsWith (absolute l.dir ++ tail) (absolute file.comps) <;> simp

theorem collection_begins {l : Layer} (hl : l.Literal) (file : FilePath) :
    l.begins re "/".toList file = some true ↔ Encloses l file := by
  rw [Layer.begins, if_pos hl, Option.some.injEq, startsWith_iff]
  exact slash_absolute_iff (fun c hc => (l.dirNames c hc).2) (fun c hc => (file.names c hc).2)

theorem named_begins {l : Layer} (hl : l.Literal) (file : FilePath) :
    l.begins re [] file = some true ↔ absolute l.dir <+: absolute file.comps := by
  rw [Layer.begins, if_pos hl, Option.some.injEq, startsWith_iff, List.append_nil]

theorem Encloses.begins_text {l : Layer} {file : FilePath} (h : Encloses l file) :
    absolute l.dir <+: absolute file.comps := by
  have hslash := (slash_absolute_iff (fun c hc => (l.dirNames c hc).2) (fun c hc => (file.names c hc).2)).mpr h
  exact (List.prefix_append _ _).trans hslash

section

variable {cfg cfg' : Config} {file : FilePath} {n : Text}

theorem mem_prefixes {l : Layer} :
    l ∈ cfg.prefixes re file ↔ (l ∈ cfg.named ∧ ':' ∉ absolute l.dir) ∧ l.begins re [] file ≠ some false := by
  rw [Config.prefixes, List.mem_filter, List.mem_filter, decide_eq_true_iff, bne_iff_ne]

theorem mem_above {l : Layer} :
    l ∈ cfg.above re file ↔ l ∈ cfg.collections ∧ l.begins re "/".toList file ≠ some false := by
  rw [Config.above, List.mem_filter, bne_iff_ne]

namespace Relisted

variable (h : Relisted cfg cfg')

include h

end Relisted

theorem Relisted.refl : Relisted cfg cfg := ⟨.refl _, .refl _, rfl⟩

end

section

variable {cfg : Config} {file : FilePath}

theorem mem_prefixes_plain (hplain : ∀ l ∈ cfg.layers, l.Literal) (hcolon : ∀ l ∈ cfg.named, ':' ∉ absolute l.dir)
    {l : Layer} : l ∈ cfg.prefixes re file ↔ l ∈ cfg.named ∧ absolute l.dir <+: absolute file.comps := by
  rw [mem_prefixes, and_assoc]
  refine and_congr_right (fun hl => ?_)
  have hlit := hplain l (List.mem_append_left _ hl)
  rw [plain_begins hlit, named_begins hlit file, and_iff_right (hcolon l hl)]

theorem mem_above_plain (hplain : ∀ l ∈ cfg.layers, l.Literal) {l : Layer} :
    l ∈ cfg.above re file ↔ l ∈ cfg.collections ∧ Encloses l file := by
  rw [mem_above]
  refine and_congr_right (fun hl => ?_)
  have hlit := hplain l (List.mem_append_right _ hl)
  rw [plain_begins hlit, collection_begins hlit file]

theorem prefixes_plain_eq_nil (hplain : ∀ l ∈ cfg.layers, l.Literal)
    (hcolon : ∀ l ∈ cfg.named, ':' ∉ absolute l.dir) :
    cfg.prefixes re file = [] ↔ ∀ l ∈ cfg.named, ¬ absolute l.dir <+: absolute file.comps := by
  rw [List.eq_nil_iff_forall_not_mem]
  simp only [mem_prefixes_plain hplain hcolon, not_and]

theorem above_plain_eq_nil (hplain : ∀ l ∈ cfg.layers, l.Literal) :
    cfg.above re file = [] ↔ ∀ l ∈ cfg.collections, ¬ Encloses l file := by
  rw [List.eq_nil_iff_forall_not_mem]
  simp only [mem_above_plain hplain, not_and]

theorem agree_prefixes_plain (hplain : ∀ l ∈ cfg.layers, l.Literal) (hcolon : ∀ l ∈ cfg.named, ':' ∉ absolute l.dir) :
    Agree re [] cfg file (cfg.prefixes re file) ↔
      ∃ d, Deepest cfg file d ∧ ∀ l ∈ cfg.named, absolute l.dir <+: absolute file.comps → l.name = d.name := by
  simp only [Agree, mem_prefixes_plain hplain hcolon, and_imp]
  refine and_iff_right (fun l hl hpre => ?_)
  exact (named_begins (hplain l (List.mem_append_left _ hl)) file).mpr hpre

theorem agree_above_plain (hplain : ∀ l ∈ cfg.layers, l.Literal) :
    Agree re "/".toList cfg file (cfg.above re file) ↔
      ∃ d, Deepest cfg file d ∧ ∀ l ∈ cfg.collections, Encloses l file → l.name = d.name := by
  simp only [Agree, mem_above_plain hplain, and_imp]
  refine and_iff_right (fun l hl hencl => ?_)
  exact (collection_begins (hplain l (List.mem_append_right _ hl)) file).mpr hencl

theorem unshadowed_plain (hplain : ∀ l ∈ cfg.layers, l.Literal) (hcolon : ∀ l ∈ cfg.named, ':' ∉ absolute l.dir) :
    Unshadowed re cfg file ↔
      (∃ d, Deepest cfg file d ∧ (∀ l ∈ cfg.named, absolute l.dir <+: absolute file.comps → l.name = d.name) ∧
        ((∃ l ∈ cfg.named, absolute l.dir <+: absolute file.comps) ∨
          ∀ l ∈ cfg.collections, Encloses l file → l.name = d.name)) ∨
      (∀ l ∈ cfg.layers, ¬ Encloses l file) ∧ ∀ l ∈ cfg.named, ¬ absolute l.dir <+: absolute file.comps := by
  have hnil : cfg.prefixes re file = [] ↔ ∀ l ∈ cfg.named, ¬ absolute l.dir <+: absolute file.comps :=
    prefixes_plain_eq_nil hplain hcolon
  constructor
  · intro h
    by_cases hnone : cfg.prefixes re file = []
    · by_cases hlast : cfg.above re file = []
      · exact .inr ⟨h.none hnone hlast, hnil.mp hnone⟩
      · obtain ⟨d, hd, hname⟩ := (agree_above_plain hplain).mp (h.collected hnone hlast)
        exact .inl ⟨d, hd, fun l hl hpre => absurd hpre (hnil.mp hnone l hl), .inr hname⟩
    · obtain ⟨d, hd, hname⟩ := (agree_prefixes_plain hplain hcolon).mp (h.named hnone)
      obtain ⟨l, hl⟩ := List.exists_mem_of_ne_nil _ hnone
      exact .inl ⟨d, hd, hname, .inl ⟨l, (mem_prefixes_plain hplain hcolon).mp hl⟩⟩
  · rintro (⟨d, hd, hnamed, hrest⟩ | ⟨hno, hnopre⟩)
    · refine ⟨fun _ => (agree_prefixes_plain hplain hcolon).mpr ⟨d, hd, hnamed⟩, fun hnone _ => ?_,
        fun hnone hlast => ?_⟩
      · refine (agree_above_plain hplain).mpr ⟨d, hd, hrest.resolve_left ?_⟩
        rintro ⟨l, hl, hpre⟩
        exact hnil.mp hnone l hl hpre
      · obtain hmem | hmem := List.mem_append.mp hd.1
        · exact absurd hd.2.1.begins_text (hnil.mp hnone d hmem)
        · exact absurd hd.2.1 ((above_plain_eq_nil hplain).mp hlast d hmem)
    · have hlast : cfg.above re file = [] :=
        (above_plain_eq_nil hplain).mpr (fun l hl => hno l (List.mem_append_right _ hl))
      exact ⟨fun h => absurd (hnil.mpr hnopre) h, fun _ h => absurd hlast h, fun _ _ => hno⟩

end

end CgxLayer.Layers
