import CgxLayer.Text

namespace CgxLayer.Shell

open Text

def apostrophe : Char := Char.ofNat 39

def nameStart (c : Char) : Bool := c.isAlpha || c = '_'

def nameChar (c : Char) : Bool := c.isAlphanum || c = '_'

def isName : Text → Bool
  | [] => false
  | c :: s => nameStart c && s.all nameChar

def grave : Char := Char.ofNat 96

def nul : Char := Char.ofNat 0

/-- The characters besides `$` that do not stand for themselves within a bare word. -/
def bareSpecial (c : Char) : Bool :=
  c ∈ [apostrophe, '"', '\\', ' ', '\t', '\n', ';', '>', '&', '|', '<', '(', ')', grave]

/-- The characters that make a `$` before them expand, besides names and braces; `$[` is bash's. -/
def expands (c : Char) : Bool := c.isDigit || c ∈ ['@', '*', '#', '?', '-', '$', '!', '(', '[']

/-- A piece of a word: a character, a parameter to expand, or the place where quotes open. -/
inductive Part where
  | char (c : Char) (quoted : Bool)
  | param (name : Text) (quoted : Bool)
  | quotes
deriving DecidableEq

abbrev Word := List Part

/-- A simple command, with the file that `>>` appends its output to. -/
structure Command where
  words : List Word
  target : Option Word
deriving DecidableEq

inductive Mode where
  | bare
  | single
  | double
deriving DecidableEq

inductive Pending where
  | nothing
  | backslash
  | dollar
  | brace (name : Text)
  | name (name : Text)
  | greater
  | comment
deriving DecidableEq

structure Scan where
  done : List Command
  words : List Word
  target : Option Word
  redirecting : Bool
  word : Option Word
  mode : Mode
  pending : Pending
deriving DecidableEq

namespace Scan

def start (done : List Command) : Scan := ⟨done, [], none, false, none, .bare, .nothing⟩

def push (s : Scan) (p : Part) : Scan := { s with word := some (s.word.getD [] ++ [p]) }

def endWord (s : Scan) : Scan :=
  match s.word with
  | none => s
  | some w =>
    if s.redirecting then { s with target := some w, redirecting := false, word := none }
    else { s with words := s.words ++ [w], word := none }

def endCommand (s : Scan) : Option Scan :=
  let s := s.endWord
  if s.redirecting then none
  else if s.words = [] ∧ s.target = none then some s
  else some { s with done := s.done ++ [⟨s.words, s.target⟩], words := [], target := none }

/-- One character in bare text, quotes closed. Operators other than `;` and `>>`, tilde expansion and
command substitution are outside the language of this module. -/
def readBare (s : Scan) (c : Char) : Option Scan :=
  if bareSpecial c = false ∧ c ≠ '$' then
    if s.word = none ∧ c = '#' then some { s with pending := .comment }
    else if s.word = none ∧ c = '~' then none
    else some (s.push (.char c false))
  else if c = '$' then some { s with pending := .dollar }
  else if c = '\\' then some { s with pending := .backslash }
  else if c = apostrophe then some { s.push .quotes with mode := .single }
  else if c = '"' then some { s.push .quotes with mode := .double }
  else if c = ' ' ∨ c = '\t' then some s.endWord
  else if c = '\n' then s.endCommand
  else if c = ';' then
    if s.word = none ∧ s.words = [] then none else s.endCommand
  else if c = '>' ∧ s.word = none ∧ s.target = none ∧ s.redirecting = false then
    some { s with pending := .greater }
  else none

def readDouble (s : Scan) (c : Char) : Option Scan :=
  if c = '$' then some { s with pending := .dollar }
  else if c = '\\' then some { s with pending := .backslash }
  else if c = '"' then some { s with mode := .bare }
  else if c = grave ∨ c = nul then none
  else some (s.push (.char c true))

def read (s : Scan) (c : Char) : Option Scan :=
  match s.mode with
  | .bare => s.readBare c
  | .double => s.readDouble c
  | .single =>
    if c = apostrophe then some { s with mode := .bare }
    else if c = nul then none
    else some (s.push (.char c true))

def quoted (s : Scan) : Bool := s.mode ≠ .bare

def settle (s : Scan) : Scan := { s with pending := .nothing }

def step (s : Scan) (c : Char) : Option Scan :=
  match s.pending with
  | .nothing => s.read c
  | .comment => if c = '\n' then s.settle.endCommand else some s
  | .backslash =>
    if c = '\n' then some s.settle
    else if c = nul then none
    else if s.mode = .double ∧ c ∉ ['$', grave, '"', '\\'] then
      some ((s.settle.push (.char '\\' true)).push (.char c true))
    else some (s.settle.push (.char c true))
  | .dollar =>
    if c = '{' then some { s with pending := .brace [] }
    else if nameStart c then some { s with pending := .name [c] }
    else if expands c ∨ s.mode = .bare ∧ (c = '"' ∨ c = apostrophe) then none
    else (s.settle.push (.char '$' s.quoted)).read c
  | .brace n =>
    if c = '}' then
      if isName n then some (s.settle.push (.param n s.quoted)) else none
    else if nameChar c then some { s with pending := .brace (n ++ [c]) }
    else none
  | .name n =>
    if nameChar c then some { s with pending := .name (n ++ [c]) }
    else (s.settle.push (.param n s.quoted)).read c
  | .greater =>
    if c = '>' then some { s.settle with redirecting := true } else none

def scan (s : Scan) (text : Text) : Option Scan := text.foldlM step s

def finish (s : Scan) : Option (List Command) :=
  if s.mode ≠ .bare then none
  else
    match s.pending with
    | .nothing | .comment => s.settle.endCommand.map Scan.done
    | .dollar => (s.settle.push (.char '$' false)).endCommand.map Scan.done
    | .name n => (s.settle.push (.param n false)).endCommand.map Scan.done
    | _ => none

end Scan

def parse (text : Text) : Option (List Command) := ((Scan.start []).scan text).bind Scan.finish

def bare (t : Text) : Word := t.map (fun c => .char c false)

def ends (c : Char) : Bool := !(c == '{' || nameStart c || expands c || c == '"' || c == apostrophe)

def inert : Text → Bool
  | [] => true
  | c :: s => (if c = '$' then (s.head?.map ends).getD true else !bareSpecial c) && inert s

theorem ne_of_class {p : Char → Bool} {c x : Char} (hc : p c = true) (hx : p x = false) : c ≠ x := by
  rintro rfl
  rw [hc] at hx
  cases hx

theorem plain_of_class {p : Char → Bool} (hdollar : p '$' = false)
    (hbad : ∀ x ∈ [apostrophe, '"', '\\', ' ', '\t', '\n', ';', '>', '&', '|', '<', '(', ')', grave],
      p x = false) {c : Char} (hc : p c = true) : bareSpecial c = false ∧ c ≠ '$' := by
  refine ⟨?_, ne_of_class hc hdollar⟩
  apply decide_eq_false
  exact fun hmem => ne_of_class hc (hbad c hmem) rfl

theorem inert_of_forall {t : Text} (ht : ∀ c ∈ t, bareSpecial c = false ∧ c ≠ '$') : inert t = true := by
  induction t with
  | nil => rfl
  | cons c t ih =>
    obtain ⟨hspecial, hdollar⟩ := ht c (List.mem_cons_self ..)
    rw [inert, if_neg hdollar, hspecial, ih (fun d hd => ht d (List.mem_cons_of_mem _ hd))]
    rfl

theorem not_special_of_inert {t : Text} (ht : inert t = true) {c : Char} (hc : c ∈ t) :
    c = '$' ∨ bareSpecial c = false := by
  induction t with
  | nil => cases hc
  | cons d t ih =>
    rw [inert, Bool.and_eq_true] at ht
    cases List.mem_cons.mp hc with
    | inl heq =>
      rw [heq]
      by_cases hd : d = '$'
      · exact .inl hd
      · right
        simpa [hd] using ht.1
    | inr hmem => exact ih ht.2 hmem

def startable (t : Text) : Bool := t.head? ≠ some '#' ∧ t.head? ≠ some '~' ∧ t ≠ []

namespace Scan

theorem scan_cons (s : Scan) (c : Char) (t : Text) : s.scan (c :: t) = (s.step c).bind (fun s => s.scan t) := by
  rw [scan, List.foldlM_cons]
  rfl

theorem scan_append (s : Scan) (a b : Text) : s.scan (a ++ b) = (s.scan a).bind (fun s => s.scan b) := by
  rw [scan, List.foldlM_append]
  rfl

theorem step_dollar {s : Scan} (hs : s.pending = .nothing) {c : Char} (hbrace : c ≠ '{')
    (hname : nameStart c = false) (hexpands : expands c = false)
    (hquotes : ¬ (s.mode = .bare ∧ (c = '"' ∨ c = apostrophe))) :
    step { s with pending := .dollar } c = (s.push (.char '$' s.quoted)).step c := by
  have hsettle : settle { s with pending := .dollar } = s := by
    rw [settle, ← hs]
  have hpush : (s.push (.char '$' s.quoted)).pending = .nothing := hs
  have hstays : ¬ (expands c = true ∨ s.mode = .bare ∧ (c = '"' ∨ c = apostrophe)) := by
    rw [hexpands]
    simpa using hquotes
  simp only [step, hpush, hsettle]
  rw [if_neg hbrace, if_neg (by simp [hname]), if_neg hstays]
  rfl

theorem step_dollar_ends {s : Scan} (hs : s.pending = .nothing) {c : Char} (hc : ends c = true) :
    step { s with pending := .dollar } c = (s.push (.char '$' s.quoted)).step c := by
  have hends : c ≠ '{' ∧ nameStart c = false ∧ expands c = false ∧ c ≠ '"' ∧ c ≠ apostrophe := by
    simpa [ends, and_assoc] using hc
  obtain ⟨hbrace, hname, hexpands, hquote, hapostrophe⟩ := hends
  exact step_dollar hs hbrace hname hexpands (fun h => h.2.elim hquote hapostrophe)

theorem read_plain {s : Scan} (hmode : s.mode = .bare) {c : Char} (hc : bareSpecial c = false)
    (hdollar : c ≠ '$') (hfirst : s.word = none → c ≠ '#' ∧ c ≠ '~') :
    s.read c = some (s.push (.char c false)) := by
  have hhash : ¬ (s.word = none ∧ c = '#') := fun h => (hfirst h.1).1 h.2
  have htilde : ¬ (s.word = none ∧ c = '~') := fun h => (hfirst h.1).2 h.2
  rw [read, hmode]
  simp only [readBare, if_pos (And.intro hc hdollar), if_neg hhash, if_neg htilde]

def inBare (done : List Command) (words : List Word) (word : Option Word) : Scan :=
  ⟨done, words, none, false, word, .bare, .nothing⟩

theorem scan_inert_cons (done : List Command) (words : List Word) (word : Option Word) (c d : Char)
    (rest : Text) (hc : if c = '$' then ends d = true else bareSpecial c = false)
    (hfirst : word = none → c ≠ '#' ∧ c ≠ '~') :
    (inBare done words word).scan (c :: d :: rest) =
      (inBare done words (some (word.getD [] ++ [.char c false]))).scan (d :: rest) := by
  rw [scan_cons]
  split_ifs at hc with hdollar
  · have hstep : (inBare done words word).step c = some { inBare done words word with pending := .dollar } := by
      rw [hdollar]
      rfl
    rw [hstep, Option.bind_some, scan_cons, step_dollar_ends rfl hc, scan_cons, hdollar]
    rfl
  · have hstep : (inBare done words word).step c = (inBare done words word).read c := rfl
    rw [hstep, read_plain rfl hc hdollar hfirst]
    rfl

theorem ends_blank {b : Char} (hb : b = ' ' ∨ b = '\t') : ends b = true := by
  obtain rfl | rfl := hb <;> decide

theorem scan_inert_step (done : List Command) (words : List Word) (word : Option Word) {c : Char}
    {t : Text} (ht : inert (c :: t) = true) (hfirst : word = none → c ≠ '#' ∧ c ≠ '~') {b : Char}
    (hb : b = ' ' ∨ b = '\t') (rest : Text) :
    (inBare done words word).scan (c :: (t ++ b :: rest)) =
      (inBare done words (some (word.getD [] ++ [.char c false]))).scan (t ++ b :: rest) := by
  have hhead : (if c = '$' then (t.head?.map ends).getD true else !bareSpecial c) = true := by
    rw [inert, Bool.and_eq_true] at ht
    exact ht.1
  cases t with
  | nil =>
    apply scan_inert_cons _ _ _ _ _ _ _ hfirst
    split_ifs at hhead ⊢ with hdollar
    · exact ends_blank hb
    · simpa using hhead
  | cons d t =>
    apply scan_inert_cons _ _ _ _ _ _ _ hfirst
    split_ifs at hhead ⊢ with hdollar
    · exact hhead
    · simpa using hhead

theorem scan_inert (done : List Command) (words : List Word) (w : Word) (t : Text) (ht : inert t = true)
    {b : Char} (hb : b = ' ' ∨ b = '\t') (rest : Text) :
    (inBare done words (some w)).scan (t ++ b :: rest) =
      (inBare done words (some (w ++ bare t))).scan (b :: rest) := by
  induction t generalizing w with
  | nil => simp [bare]
  | cons c t ih =>
    have htail : inert t = true := by
      rw [inert, Bool.and_eq_true] at ht
      exact ht.2
    have hw : w ++ bare (c :: t) = w ++ [.char c false] ++ bare t := by simp [bare]
    rw [List.cons_append, scan_inert_step done words _ ht (fun h => by cases h) hb, hw]
    exact ih (w ++ [.char c false]) htail

theorem scan_word (done : List Command) (words : List Word) {t : Text} (ht : inert t = true)
    (hstart : startable t = true) {b : Char} (hb : b = ' ' ∨ b = '\t') (rest : Text) :
    (inBare done words none).scan (t ++ b :: rest) = (inBare done (words ++ [bare t]) none).scan rest := by
  cases t with
  | nil => simp [startable] at hstart
  | cons c t =>
    have hfirst : c ≠ '#' ∧ c ≠ '~' := by simpa [startable] using hstart
    have htail : inert t = true := by
      rw [inert, Bool.and_eq_true] at ht
      exact ht.2
    have hblank : (inBare done words (some (bare (c :: t)))).step b =
        some (inBare done (words ++ [bare (c :: t)]) none) := by
      obtain rfl | rfl := hb <;> rfl
    rw [List.cons_append, scan_inert_step done words _ ht (fun _ => hfirst) hb, scan_inert _ _ _ _ htail hb]
    change (inBare done words (some (bare (c :: t)))).scan (b :: rest) = _
    rw [scan_cons, hblank]
    rfl

theorem scan_words (done : List Command) (words : List Word) (ts : List (Text × Char))
    (hts : ∀ t ∈ ts, inert t.1 = true ∧ startable t.1 = true ∧ (t.2 = ' ' ∨ t.2 = '\t')) (rest : Text) :
    (inBare done words none).scan (ts.flatMap (fun t => t.1 ++ [t.2]) ++ rest) =
      (inBare done (words ++ ts.map (fun t => bare t.1)) none).scan rest := by
  induction ts generalizing words with
  | nil => simp
  | cons t ts ih =>
    obtain ⟨hinert, hstart, hblank⟩ := hts t (List.mem_cons_self ..)
    have htail := ih (words ++ [bare t.1]) (fun u hu => hts u (List.mem_cons_of_mem _ hu))
    have htext : (t :: ts).flatMap (fun t => t.1 ++ [t.2]) ++ rest =
        t.1 ++ t.2 :: (ts.flatMap (fun t => t.1 ++ [t.2]) ++ rest) := by simp
    have hwords : words ++ (t :: ts).map (fun t => bare t.1) =
        words ++ [bare t.1] ++ ts.map (fun t => bare t.1) := by simp
    rw [htext, scan_word done words hinert hstart hblank, htail, hwords]

end Scan

structure World where
  isDir : Text → Bool
  glob : List (Char × Bool) → List Text

abbrev Vars := Text → Option Text

def Part.value (vars : Vars) : Part → List (Char × Bool)
  | .char c q => [(c, q)]
  | .param n q => ((vars n).getD []).map (fun c => (c, q))
  | .quotes => []

def Part.isOpenParam : Part → Bool
  | .param _ false => true
  | _ => false

/-- Parameter expansion and field splitting; words that mix quotes with an unquoted parameter are
left out. -/
def splitWord (vars : Vars) (w : Word) : Option (List (List (Char × Bool))) :=
  let cs := w.flatMap (Part.value vars)
  if w.any Part.isOpenParam then
    if .quotes ∈ w then none
    else some ((cs.splitOnP (fun c => !c.2 && shBlank c.1)).filter (fun f => !f.isEmpty))
  else some [cs]

/-- A field that is a pattern; a bracket that is not closed stands for itself. -/
def isGlob : List (Char × Bool) → Bool
  | [] => false
  | c :: f => !c.2 && (c.1 ∈ ['*', '?'] || c.1 = '[' && f.any (fun d => d.1 = ']')) || isGlob f

theorem isGlob_eq_false {f : List (Char × Bool)} (hf : ∀ c ∈ f, c.2 = true ∨ c.1 ∉ ['*', '?', '[']) :
    isGlob f = false := by
  induction f with
  | nil => rfl
  | cons c f ih =>
    have hc := hf c (List.mem_cons_self ..)
    rw [isGlob, ih (fun d hd => hf d (List.mem_cons_of_mem _ hd)), Bool.or_false]
    obtain hc | hc := hc
    · rw [hc]
      rfl
    · have hne : c.1 ≠ '*' ∧ c.1 ≠ '?' ∧ c.1 ≠ '[' := by simpa using hc
      simp [hne]

def pathnames (W : World) (f : List (Char × Bool)) : List Text :=
  if isGlob f then
    match W.glob f with
    | [] => [f.map Prod.fst]
    | ps => ps
  else [f.map Prod.fst]

def expand (W : World) (vars : Vars) (w : Word) : Option (List Text) :=
  (splitWord vars w).map (fun fs => fs.flatMap (pathnames W))

def expandAll (W : World) (vars : Vars) : List Word → Option (List Text)
  | [] => some []
  | w :: ws =>
    match expand W vars w, expandAll W vars ws with
    | some fs, some gs => some (fs ++ gs)
    | _, _ => none

structure Literal (W : World) (t : Text) : Prop where
  inert : inert t = true
  startable : startable t = true
  unmatched : isGlob (t.map (fun c => (c, false))) = true → W.glob (t.map (fun c => (c, false))) = []

theorem value_bare (vars : Vars) (t : Text) :
    (bare t).flatMap (Part.value vars) = t.map (fun c => (c, false)) := by
  induction t with
  | nil => rfl
  | cons c t ih =>
    change (c, false) :: (bare t).flatMap (Part.value vars) = _
    rw [ih]
    rfl

theorem expand_closed (W : World) (vars : Vars) {w : Word} {f : List (Char × Bool)}
    (hopen : w.any Part.isOpenParam = false) (hvalue : w.flatMap (Part.value vars) = f) :
    expand W vars w = some (pathnames W f) := by
  simp only [expand, splitWord, hopen, Bool.false_eq_true, if_false, hvalue, Option.map_some,
    List.flatMap_singleton]

theorem expand_bare {W : World} (vars : Vars) {t : Text} (ht : Literal W t) :
    expand W vars (bare t) = some [t] := by
  have hopen : (bare t).any Part.isOpenParam = false := by
    simp [bare, Part.isOpenParam]
  have hpaths : pathnames W (t.map (fun c => (c, false))) = [t] := by
    unfold pathnames
    split_ifs with hglob
    · rw [ht.unmatched hglob]
      simp [Function.comp_def]
    · simp [Function.comp_def]
  rw [expand_closed W vars hopen (value_bare vars t), hpaths]

theorem expandAll_bare {W : World} (vars : Vars) {ts : List Text} (hts : ∀ t ∈ ts, Literal W t) :
    expandAll W vars (ts.map bare) = some ts := by
  induction ts with
  | nil => rfl
  | cons t ts ih =>
    have hhead := expand_bare vars (hts t (List.mem_cons_self ..))
    have htail := ih (fun u hu => hts u (List.mem_cons_of_mem _ hu))
    simp only [List.map_cons, expandAll, hhead, htail, List.singleton_append]

end CgxLayer.Shell
