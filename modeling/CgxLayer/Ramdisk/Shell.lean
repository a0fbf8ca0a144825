import CgxLayer.Text

namespace CgxLayer.Ramdisk

open Text

inductive Glob where
  | char (c : Char)
  | any
  | many
  | set (negated : Bool) (ranges : List (Char × Char))

def bracket : Text → List (Char × Char) → Option (List (Char × Char) × Text)
  | [], _ => none
  | ']' :: s, ranges => if ranges.isEmpty then bracket s [(']', ']')] else some (ranges, s)
  | a :: '-' :: c :: s, ranges =>
    if c = ']' then some (ranges ++ [(a, a), ('-', '-')], s) else bracket s (ranges ++ [(a, c)])
  | a :: s, ranges => bracket s (ranges ++ [(a, a)])

def parseGlob : ℕ → Text → List Glob
  | 0, _ => []
  | _ + 1, [] => []
  | n + 1, '*' :: s => .many :: parseGlob n s
  | n + 1, '?' :: s => .any :: parseGlob n s
  | n + 1, '[' :: '!' :: s =>
    match bracket s [] with
    | some (ranges, rest) => .set true ranges :: parseGlob n rest
    | none => .char '[' :: .char '!' :: parseGlob n s
  | n + 1, '[' :: s =>
    match bracket s [] with
    | some (ranges, rest) => .set false ranges :: parseGlob n rest
    | none => .char '[' :: parseGlob n s
  | n + 1, c :: s => .char c :: parseGlob n s

def manyMatch (k : Text → Bool) : Text → Bool
  | [] => k []
  | c :: s => k (c :: s) || (c != '/' && manyMatch k s)

/-- Matching of a pathname; at the start of a component a period is matched by a period only. -/
def globMatch : List Glob → Bool → Text → Bool
  | [], _, s => s.isEmpty
  | .many :: g, start, s => !(start && s.head? == some '.') && manyMatch (globMatch g false) s
  | .char a :: g, _, c :: s => a == c && globMatch g (c == '/') s
  | .any :: g, start, c :: s => c != '/' && !(start && c == '.') && globMatch g false s
  | .set negated ranges :: g, start, c :: s =>
    c != '/' && !(start && c == '.') &&
      (ranges.any (fun r => r.1 ≤ c && c ≤ r.2)) != negated && globMatch g false s
  | _ :: _, _, [] => false

def pathMatch (pattern path : Text) : Bool :=
  globMatch (parseGlob pattern.length pattern) true path

def dotPrefix : Text → Text → Bool
  | [], _ => true
  | _ :: _, [] => false
  | p :: ps, c :: cs => (p == '.' || p == c) && dotPrefix ps cs

-- `grep "^${p}\$"` of one line.
def dotMatch (p line : Text) : Bool := p.length == line.length && dotPrefix p line

def afterSlashes : ℕ → Text → Text
  | 0, s => s
  | k + 1, s =>
    match splitFirst '/' s with
    | some (_, rest) => afterSlashes k rest
    | none => []

-- `cut -d "/" -f 5-`
def cutFrom5 (s : Text) : Text := if '/' ∈ s then afterSlashes 4 s else s

def basename (s : Text) : Text :=
  let rest := s.reverse.dropWhile (· == '/')
  if rest.isEmpty then s.take 1 else (rest.takeWhile (· != '/')).reverse

-- `sed 's/\.ko$//'`
def dropKo (s : Text) : Text :=
  if ".ko".toList <:+ s then s.take (s.length - 3) else s

theorem dotPrefix_append (p s : Text) : dotPrefix p (p ++ s) = true := by
  induction p with
  | nil => rfl
  | cons c p ih => rw [List.cons_append, dotPrefix, ih, beq_self_eq_true, Bool.or_true, Bool.and_true]

theorem dotPrefix_self (s : Text) : dotPrefix s s = true := by
  have happend := dotPrefix_append s []
  rwa [List.append_nil] at happend

theorem dotMatch_self (s : Text) : dotMatch s s = true := by
  simp [dotMatch, dotPrefix_self]

theorem dotPrefix_head {p c : Char} (hp : p ≠ '.') {ps cs : Text}
    (h : dotPrefix (p :: ps) (c :: cs) = true) : p = c := by
  simp only [dotPrefix, Bool.and_eq_true, Bool.or_eq_true, beq_iff_eq] at h
  exact h.1.resolve_left hp

theorem dotPrefix_snoc {c : Char} (hc : c ≠ '.') (p s : Text)
    (h : dotPrefix (p ++ [c]) s = true) : s[p.length]? = some c := by
  induction p generalizing s with
  | nil =>
    cases s with
    | nil => simp [dotPrefix] at h
    | cons d s =>
      rw [dotPrefix_head hc h]
      rfl
  | cons q p ih =>
    cases s with
    | nil => simp [dotPrefix] at h
    | cons d s =>
      simp only [List.cons_append, dotPrefix, Bool.and_eq_true] at h
      simpa using ih s h.2

end CgxLayer.Ramdisk
