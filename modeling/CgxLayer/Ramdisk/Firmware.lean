import CgxLayer.Ramdisk.BuildDir
import CgxLayer.Ramdisk.Scanned
import CgxLayer.Shell.Read

namespace CgxLayer.Ramdisk

open Text ModuleTree Shell

/-- Where the script is: in the directory it was started in, or, after the first kernel, in the
build directory. -/
inductive Cwd where
  | start (here : Text → Bool)
  | buildDir

def Cwd.testR (t : BuildTree) : Cwd → Text → Bool
  | .start here, w => here w
  | .buildDir, w => (t (pathOf w)).isSome

-- the name that `find` compares, /lib/firmware itself being `[]`
def nameOf (p : List Text) : Text := p.getLastD "firmware".toList

-- what `while read` makes of the lines of `modinfo`
def readNames (ls : List Text) : List Text := (logicalLines ls).map (fun q => (readVars 1 q).headD [])

/-- One kernel with a readable modules.dep. `built` is the build directory before it, `install` is
what cpio and depmod do there, `files` and `dirs` are what lies under /lib/firmware. -/
structure KernelRun where
  tree : ModuleTree
  requiredModules : List Text
  cwd : Cwd
  built : BuildTree
  install : List Text → BuildTree → BuildTree
  files : List (List Text)
  dirs : List (List Text)
  content : List Text → List Text
  nameMatch : Text → Text → Bool
  modinfo : Text → List Text
  install_olist : ∀ names t, install names t olistPath = t olistPath
  -- a firmware name is not the name of a directory there
  dirs_unmatched : ∀ d ∈ dirs, ∀ modname, ∀ name ∈ readNames (modinfo modname), nameMatch name (nameOf d) = false

namespace KernelRun

variable (r : KernelRun)

def seen : ModuleTree := { r.tree with here := r.cwd.testR (r.built.put olistPath []) }

def placed : List Text := (scanned r.seen r.requiredModules).tmp

def loaded : BuildTree :=
  r.install (sortUniq r.placed)
    ((r.built.put olistPath (scanned r.seen r.requiredModules).olist).remove modulesPath)

def find (name : Text) : List (List Text) := (r.dirs ++ r.files).filter (fun p => r.nameMatch name (nameOf p))

def found (olist : List Text) : List (List Text) :=
  olist.flatMap (fun modname => (readNames (r.modinfo modname)).flatMap r.find)

def copyKernelFirmware : Option BuildTree :=
  if !r.cwd.testR r.loaded modulesDep then some r.loaded
  else
    match r.loaded olistPath with
    | some (.file olist) =>
      some ((r.loaded.remove firmwarePath).copyAll r.content ((r.found olist).map (firmwarePath ++ ·)))
    | _ => none

def Required (f : List Text) : Prop :=
  f ∈ r.files ∧ ∃ j ∈ r.placed, ∃ name ∈ r.modinfo (moduleName j), pathOf name = f

def Holds (t : BuildTree) (f : List Text) : Prop :=
  t (firmwarePath ++ f) = some (.file (r.content (firmwarePath ++ f)))

def PlacesFirmware : Prop := ∃ t, r.copyKernelFirmware = some t ∧ ∀ f, r.Required f → r.Holds t f

/-- With a modules.dep in the current directory, some module that the patterns match is reported
with a name that matches the name of the file; without one, the file is there already. -/
def Covered : Prop := ∀ f, r.Required f →
  if r.cwd.testR r.loaded modulesDep then
    ∃ i ∈ firstTmp r.tree r.requiredModules, ∃ name ∈ readNames (r.modinfo (moduleName i)),
      r.nameMatch name (nameOf f) = true
  else r.Holds r.loaded f

variable {r}

theorem loaded_olist : r.loaded olistPath =
    some (.file ((firstTmp r.tree r.requiredModules).map moduleName)) := by
  have houtside : ¬ modulesPath <+: olistPath := by decide
  have htmp : firstTmp r.seen r.requiredModules = firstTmp r.tree r.requiredModules := firstTmp_here _
  rw [loaded, r.install_olist, FileTree.remove, if_neg houtside, FileTree.put, if_pos rfl, scanned_olist, htmp]

theorem mem_found {olist : List Text} {f : List Text} (hf : f ∈ r.files) : f ∈ r.found olist ↔
    ∃ modname ∈ olist, ∃ name ∈ readNames (r.modinfo modname), r.nameMatch name (nameOf f) = true := by
  simp only [found, find, List.mem_flatMap, List.mem_filter, List.mem_append, hf, or_true, true_and]

theorem holds_copied_iff {olist : List Text} {f : List Text} :
    r.Holds ((r.loaded.remove firmwarePath).copyAll r.content ((r.found olist).map (firmwarePath ++ ·))) f ↔
      f ∈ r.found olist := by
  constructor
  · intro h
    have hgone : r.loaded.remove firmwarePath (firmwarePath ++ f) = none := if_pos (List.prefix_append _ _)
    obtain ⟨g, hg, heq⟩ := List.mem_map.mp (FileTree.mem_of_copyAll hgone h)
    exact List.append_cancel_left heq ▸ hg
  · intro h
    exact FileTree.copyAll_of_mem _ _ (List.mem_map.mpr ⟨f, h, rfl⟩)

theorem placesFirmware_iff_covered (r : KernelRun) : r.PlacesFirmware ↔ r.Covered := by
  unfold PlacesFirmware Covered copyKernelFirmware
  cases hdep : r.cwd.testR r.loaded modulesDep with
  | false => simp
  | true =>
    simp only [Bool.not_true, Bool.false_eq_true, if_false, if_true, loaded_olist, Option.some.injEq,
      exists_eq_left', holds_copied_iff]
    apply forall₂_congr
    intro f hf
    rw [mem_found hf.1]
    simp only [List.mem_map, exists_exists_and_eq_and]

end KernelRun

def ext4Firmware : Text := "ext4.fw".toList

def emptyBuildDir : BuildTree := fun q => if q = [] then some .dir else none

def startedElsewhere : KernelRun where
  tree := ext4Tree
  requiredModules := [ext4]
  cwd := .start (fun _ => false)
  built := emptyBuildDir
  install := fun _ t => t
  files := [[ext4Firmware]]
  dirs := []
  content := fun _ => []
  nameMatch := fun name base => name == base
  modinfo := fun modname => if modname = "ext4".toList then [ext4Firmware] else []
  install_olist := fun _ _ => rfl
  dirs_unmatched := fun _ hd => absurd hd List.not_mem_nil

theorem firmware_left_out : ¬ startedElsewhere.PlacesFirmware := by
  rintro ⟨t, ht, h⟩
  have hrun : startedElsewhere.copyKernelFirmware = some startedElsewhere.loaded := rfl
  rw [hrun] at ht
  obtain rfl := Option.some.inj ht
  have hrequired : startedElsewhere.Required [ext4Firmware] :=
    ⟨List.mem_singleton_self _, ext4Tree.pfx ++ ext4, by decide, ext4Firmware, by decide, by decide⟩
  have hholds := h _ hrequired
  have hnone : startedElsewhere.loaded (firmwarePath ++ [ext4Firmware]) = none := by decide
  rw [KernelRun.Holds, hnone] at hholds
  cases hholds

end CgxLayer.Ramdisk
