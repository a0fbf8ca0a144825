import CgxLayer.Shell.Script
import CgxLayer.Shell.Template

namespace CgxLayer.Shell

open Text

/-- Between double quotes a `$` before this character stands for itself. -/
def quotedEnds (c : Char) : Bool := !(c == '{' || nameStart c || expands c)

/-- Between double quotes a backslash before this character stands for itself. -/
def stays (c : Char) : Bool := c ∉ ['$', grave, '"', '\\', '\n', nul]

def keeps (c next : Char) : Bool :=
  c ≠ '"' && c ≠ grave && c ≠ nul && (c ≠ '$' || quotedEnds next) && (c ≠ '\\' || stays next)

namespace Template

open Piece

def first (next : Char) (ps : Template) : Char := (render ps).head?.getD next

/-- Between double quotes, and with `next` after it, the template's characters stand for themselves and
its references are read as such. -/
def clean (next : Char) : Template → Bool
  | [] => true
  | lit c :: ps => keeps c (first next ps) && clean next ps
  | ref n :: ps => isName n && clean next ps

def part : Piece → Part
  | lit c => .char c true
  | ref n => .param n true

def parts (ps : Template) : Word := ps.map part

end Template

namespace Scan

end Scan

namespace Scan

end Scan

/-- From between two commands the scanner reads `text` as the commands `cs`. -/
def Reads (text : Text) (cs : List Command) : Prop :=
  ∀ done, (Scan.start done).scan text = some (Scan.start (done ++ cs))

theorem Reads.append {a b : Text} {cs ds : List Command} (ha : Reads a cs) (hb : Reads b ds) :
    Reads (a ++ b) (cs ++ ds) := by
  intro done
  rw [Scan.scan_append, ha, Option.bind_some, hb, List.append_assoc]

end CgxLayer.Shell
