import CgxLayer.Ramdisk.BuildDir
import CgxLayer.Ramdisk.Scanned

namespace CgxLayer.Ramdisk

open Text ModuleTree

/-- A turn of the kernel loop: what modules the kernel has, and which of the commands that are called
besides the scan succeed. At one that fails, `sh -e` exits with its status. -/
structure Turn where
  kernel : Text
  modules : Option ModuleTree
  installModules : Bool
  copyFirmware : Bool
  genInit : Bool
  archive : Bool
  openImage : Bool
  gzip : Bool

structure Ended where
  ver : Text
  -- the modules for which `get_deps` printed ERROR
  missing : List Text
  -- whether /boot/initrd.img-<ver> was opened for writing
  replaced : Bool

structure Exit where
  turns : List Ended
  error : Bool
  zero : Bool

namespace Turn

variable (t : Turn)

def scan (requiredModules : List Text) : Scan :=
  match t.modules with
  | none => noScan
  | some tree => scanned tree requiredModules

def missing (requiredModules : List Text) : List Text :=
  match t.modules with
  | none => []
  | some tree => (scanned tree requiredModules).tmp.filter (fun j => (tree.getDeps j).isNone)

-- `copy_kernel_modules` returns at once where there are none.
def loads : Bool := t.modules.isNone || t.installModules

def prepares : Bool := t.loads && t.copyFirmware && t.genInit

def opens : Bool := t.prepares && t.archive && t.openImage

end Turn

def kernelLoop (requiredModules : List Text) (removeBuildDir : Bool) : Bool → List Turn → Exit
  | error, [] => ⟨[], error, removeBuildDir⟩ -- `exit 0`
  | error, t :: ts =>
    let error := error || (t.scan requiredModules).error
    let missing := t.missing requiredModules
    if t.opens then
      if t.gzip then
        let rest := kernelLoop requiredModules removeBuildDir error ts
        { rest with turns := ⟨kernelVer t.kernel, missing, true⟩ :: rest.turns }
      else ⟨[⟨kernelVer t.kernel, missing, true⟩], error, false⟩
    else ⟨[⟨kernelVer t.kernel, missing, false⟩], error, false⟩

variable {tree : ModuleTree} {requiredModules : List Text}

namespace Turn

variable {t : Turn}

theorem scan_error : (t.scan requiredModules).error = true ↔ t.missing requiredModules ≠ [] := by
  unfold scan missing
  cases t.modules with
  | none => simp [noScan]
  | some tree =>
    dsimp only
    rw [scanned_error, List.any_eq_true, ne_eq, List.filter_eq_nil_iff]
    simp

end Turn

variable {removeBuildDir : Bool}

theorem kernelLoop_error (error : Bool) (ts : List Turn) :
    (kernelLoop requiredModules removeBuildDir error ts).error = true ↔
      error = true ∨ ∃ t ∈ (kernelLoop requiredModules removeBuildDir error ts).turns, t.missing ≠ [] := by
  induction ts generalizing error with
  | nil => simp [kernelLoop]
  | cons t ts ih =>
    have hflag : (error || (t.scan requiredModules).error) = true ↔
        error = true ∨ t.missing requiredModules ≠ [] := by
      rw [Bool.or_eq_true, Turn.scan_error]
    rw [kernelLoop]
    cases t.opens with
    | false => simpa using hflag
    | true =>
      cases t.gzip with
      | false => simpa using hflag
      | true =>
        simp only [if_true]
        rw [ih, hflag, or_assoc]
        simp

def hostTurn (host : Host) (first : Bool) (k : Text) (t : BuildTree) : Turn :=
  let here := if first then host.here else fun w => (t.put olistPath [] (pathOf w)).isSome
  let modules := (host.modules (kernelVer k)).map (fun tree => { tree with here := here })
  let loaded := match modules with
    | none => t
    | some tree =>
      let scan := scanned tree host.requiredModules
      installModules host first (kernelVer k) (sortUniq scan.tmp) scan.olist (t.put olistPath [])
  { kernel := k
    modules := modules
    installModules := true
    copyFirmware := (copyFirmware host first (kernelVer k) loaded).isSome
    genInit := true
    archive := true
    openImage := true
    gzip := true }

theorem prepares_hostTurn (host : Host) (first : Bool) (k : Text) (t : BuildTree) :
    ∃ n, ∀ rounds ≥ n, (kernelPass host rounds first k t).isSome = (hostTurn host first k t).prepares := by
  cases htree : host.modules (kernelVer k) with
  | none =>
    refine ⟨0, fun rounds _ => ?_⟩
    simp only [kernelPass, copyModules, htree, hostTurn, Option.map_none, Option.bind_some, Option.isSome_map,
      Turn.prepares, Turn.loads, Option.isNone_none, Bool.true_or, Bool.true_and, Bool.and_true]
  | some tree =>
    let here := if first then host.here else fun w => (t.put olistPath [] (pathOf w)).isSome
    let scan := scanned { tree with here := here } host.requiredModules
    refine ⟨(scanNames { tree with here := here } host.requiredModules).length + 1, fun rounds hr => ?_⟩
    have hscan : copyKernelModules { tree with here := here } rounds host.requiredModules =
        some (sortUniq scan.tmp, scan.olist) := by
      rw [copyKernelModules]
      change (scanLoop _ rounds true host.requiredModules noScan).map _ = _
      rw [scanLoop_eq_scanned (by omega), Option.map_some]
    have hcopy : copyModules host rounds first (kernelVer k) t =
        some (installModules host first (kernelVer k) (sortUniq scan.tmp) scan.olist (t.put olistPath [])) := by
      simp only [copyModules, htree]
      exact congrArg (Option.map _) hscan
    rw [kernelPass, hcopy]
    simp only [hostTurn, htree, Option.map_some, Option.bind_some, Option.isSome_map, Turn.prepares, Turn.loads,
      Bool.or_true, Bool.true_and, Bool.and_true]
    rfl

end CgxLayer.Ramdisk
