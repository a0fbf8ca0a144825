import CgxLayer.Shell.Quoting

namespace CgxLayer.Shell

open Text

def valueIn (vars : Vars) (n : Text) : Text := (vars n).getD []

def tailValue (vars : Vars) : Option Text → Text
  | none => []
  | some n => valueIn vars n

structure Running (s : State) : Prop where
  goes : s.returned = false
  active : s.active = true
  entered : s.branches.all Branch.entered = true

end CgxLayer.Shell
