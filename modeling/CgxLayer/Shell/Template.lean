import CgxLayer.Text

namespace CgxLayer.Shell

/-- Python's `replace` once a match has been found, `k` characters of it still to be dropped. -/
def replaceFrom (old new : Text) : ℕ → Text → Text
  | _, [] => []
  | k + 1, _ :: s => replaceFrom old new k s
  | 0, c :: s =>
    if old <+: c :: s then new ++ replaceFrom old new (old.length - 1) s
    else c :: replaceFrom old new 0 s

/-- `s.replace(old, new)`; an empty `old` matches before every character and at the end. -/
def replace (old new s : Text) : Text :=
  if old = [] then new ++ s.flatMap (fun c => c :: new) else replaceFrom old new 0 s

/-- Text with references `${name}` in it. -/
inductive Piece where
  | lit (c : Char)
  | ref (name : Text)
deriving DecidableEq

namespace Piece

def text : Piece → Text
  | lit c => [c]
  | ref n => '$' :: '{' :: (n ++ ['}'])

end Piece

abbrev Template := List Piece

namespace Template

open Piece

def render (ps : Template) : Text := ps.flatMap Piece.text

def literal (s : Text) : Template := s.map lit

def names (ps : Template) : List Text :=
  ps.flatMap (fun p =>
    match p with
    | lit _ => []
    | ref n => [n])

def begins : Text → Template → Bool
  | [], _ => true
  | c :: s, lit d :: ps => c = d && begins s ps
  | _ :: _, _ => false

def substFrom (old name : Text) : ℕ → Template → Template
  | _, [] => []
  | k + 1, _ :: ps => substFrom old name k ps
  | 0, p :: ps =>
    if begins old (p :: ps) then ref name :: substFrom old name (old.length - 1) ps
    else p :: substFrom old name 0 ps

def subst (old name : Text) (ps : Template) : Template :=
  if old = [] then ref name :: ps.flatMap (fun p => [p, ref name]) else substFrom old name 0 ps

-- No `old` begins in `text`, which stands before `rest`.
def avoids (old text rest : Text) : Bool := text.tails.all (fun t => t.isEmpty || !old.isPrefixOf (t ++ rest))

def apartFrom (old tail : Text) : ℕ → Template → Bool
  | _, [] => avoids old tail []
  | k + 1, _ :: ps => apartFrom old tail k ps
  | 0, p :: ps =>
    if begins old (p :: ps) then apartFrom old tail (old.length - 1) ps
    else avoids old p.text (render ps ++ tail) && apartFrom old tail 0 ps

/-- In the text, with `tail` at its end, `old` is found among the template's characters only: nowhere does
a match begin or end within a reference or in `tail`. -/
def apart (old tail : Text) (ps : Template) : Bool :=
  if old = [] then tail.isEmpty && (names ps).isEmpty else apartFrom old tail 0 ps

theorem render_cons (p : Piece) (ps : Template) : render (p :: ps) = p.text ++ render ps := List.flatMap_cons

section

variable (value : Text → Text) {ws : List Text} {s tail : Text}

end

end Template

end CgxLayer.Shell
