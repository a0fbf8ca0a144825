import CgxLayer.Sdk.EmitShellscript

namespace CgxLayer.Sdk

open Text Shell

structure Between (s : State) : Prop where
  goes : s.returned = false
  closed : s.branches = []

theorem Between.running {s : State} (h : Between s) : Running s where
  goes := h.goes
  active := by simp [State.active, h.closed]
  entered := by simp [h.closed]

theorem run_append (W : World) (s : State) (cs ds : List Command) :
    run W s (cs ++ ds) = (run W s cs).bind (fun s => run W s ds) := by
  rw [run, List.foldlM_append]
  rfl

def restored (s : State) (var val : Text) : Text :=
  (parted var val).1 ++ tailValue s.vars (parted var val).2

structure Lists (d : Datastore) (W : World) (s : State) (body : Text) (cs : List Command) (s' : State) : Prop where
  texts : listedTexts d (weakvars d) (listed d) = some body
  reads : Reads body cs
  runs : run W s cs = some s'
  ends : s'.returned ∨ s'.branches = []
  set : ∀ var ∈ listed d, var ∉ weakvars d → isName var = true → ∀ val, held d var = some val → val ≠ [] →
    s'.vars var = some (restored s var val)

end CgxLayer.Sdk
