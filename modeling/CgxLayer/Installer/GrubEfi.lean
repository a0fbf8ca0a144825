import CgxLayer.FileTree
import CgxLayer.Runs
import CgxLayer.Text

namespace CgxLayer.Installer

open Text

variable {F : Type}

-- A VFAT file system finds a name whatever its case; names stand here in small letters.
abbrev EfiTree (F : Type) := FileTree Text F

def efiName : Text := "efi".toList

def efiBoot : List Text := [efiName, "boot".toList]

/-- `efi-grub-install`, which writes under EFI only. -/
structure EfiGrubInstall (F : Type) where
  run : EfiTree F → EfiTree F
  under : ∀ t q, q.head? ≠ some efiName → run t q = t q

/-- What is at /boot/efi and, if anything, at /boot/efi2 of the new system. -/
structure EfiParts (F : Type) where
  first : EfiTree F
  second : Option (EfiTree F)

def grubImage (image : Text) : List Text := [efiName, "grub".toList, image]

def fallback (loader : Text) : List Text := efiBoot ++ [loader]

def copyLoader (image loader : Text) (t : EfiTree F) : EfiTree F :=
  t.copyInto (t.subtree (grubImage image)) image (fallback loader)

def grubx64 : Text := "grubx64.efi".toList

def bootx64 : Text := "bootx64.efi".toList

def grubia32 : Text := "grubia32.efi".toList

def bootia32 : Text := "bootia32.efi".toList

-- `rm -rf` is given the name `*` itself, as no shell expands it.
def copySecond (first second : EfiTree F) : EfiTree F := (second.remove [['*']]).copyInto first efiName []

def doGrubEfi (p : EfiParts F) (g : EfiGrubInstall F) : EfiParts F :=
  let t := copyLoader grubia32 bootia32 (copyLoader grubx64 bootx64 ((g.run p.first).mkdirP efiBoot))
  ⟨t, p.second.map (copySecond t)⟩

structure Installs (t : EfiTree F) (f : F) : Prop where
  image : t (grubImage grubx64) = some (.file f)
  root : t [] = some .dir
  efi : t [efiName] = some .dir
  boot : ∀ g, t efiBoot ≠ some (.file g)
  loader : t (fallback bootx64) ≠ some .dir

def loaderAt (t : Option (EfiTree F)) (loader : Text) : Option (Node F) := t.bind (fun t => t (fallback loader))

theorem boot_ne_efi : some "boot".toList ≠ some efiName := by decide

theorem efiBoot_ne : efiBoot ≠ [] := by decide

theorem copyLoader_outside (image loader : Text) (t : EfiTree F) {q : List Text} (h : ¬ fallback loader <+: q) :
    copyLoader image loader t q = t q := FileTree.copyInto_of_not_prefix t _ image h

theorem doGrubEfi_first (p : EfiParts F) (g : EfiGrubInstall F) {q : List Text} (hq : q ≠ [])
    (h : q.head? ≠ some efiName) : (doGrubEfi p g).first q = p.first q := by
  have hfallback : ∀ loader, ¬ fallback loader <+: q := by
    rintro loader ⟨r, rfl⟩
    exact h rfl
  have hmkdir : ¬ q <+: efiBoot := by
    cases q with
    | nil => exact absurd rfl hq
    | cons n q =>
      intro hpre
      exact h (congrArg some (List.cons_prefix_cons.mp hpre).1)
  change copyLoader grubia32 bootia32 (copyLoader grubx64 bootx64 ((g.run p.first).mkdirP efiBoot)) q = p.first q
  rw [copyLoader_outside _ _ _ (hfallback _), copyLoader_outside _ _ _ (hfallback _),
    FileTree.mkdirP_of_not_prefix _ hmkdir, g.under _ _ h]

theorem copySecond_fallback {first second : EfiTree F} {loader : Text}
    (h : first ["boot".toList, loader] = none) :
    copySecond first second (fallback loader) = second (fallback loader) := by
  have hstar : ¬ [['*']] <+: fallback loader := by
    intro hpre
    have hne : ['*'] ≠ efiName := by decide
    exact hne (List.cons_prefix_cons.mp hpre).1
  have hremove : second.remove [['*']] (fallback loader) = second (fallback loader) := if_neg hstar
  rw [copySecond, ← hremove, FileTree.copyInto]
  split_ifs
  · exact FileTree.overlay_of_none _ h
  · rfl
  · rename_i hroot hparent
    rw [Bool.and_eq_true] at hparent
    exact absurd hparent.2 hroot
  · rfl

theorem loaderAt_doGrubEfi {p : EfiParts F} (g : EfiGrubInstall F) {loader : Text}
    (h : p.first ["boot".toList, loader] = none) :
    loaderAt (doGrubEfi p g).second loader = loaderAt p.second loader := by
  have hnone : (doGrubEfi p g).first ["boot".toList, loader] = none :=
    (doGrubEfi_first p g (List.cons_ne_nil _ _) boot_ne_efi).trans h
  cases hsecond : p.second with
  | none => simp only [doGrubEfi, hsecond, Option.map_none]
  | some t =>
    have hcopy : (doGrubEfi p g).second = some (copySecond (doGrubEfi p g).first t) := by
      simp only [doGrubEfi, hsecond, Option.map_some]
    rw [hcopy]
    exact copySecond_fallback hnone

theorem Installs.first_boots {p : EfiParts F} {g : EfiGrubInstall F} {f : F} (h : Installs (g.run p.first) f) :
    (doGrubEfi p g).first (fallback bootx64) = some (.file f) := by
  let t := (g.run p.first).mkdirP efiBoot
  have hfree : efiBoot.inits.any (g.run p.first).isFile = false := by
    have hroot : (g.run p.first).isFile [] = false := by rw [FileTree.isFile, h.root]
    have hefi : (g.run p.first).isFile [efiName] = false := by rw [FileTree.isFile, h.efi]
    have hboot : (g.run p.first).isFile efiBoot = false := by
      rw [FileTree.isFile]
      cases hnode : g.run p.first efiBoot with
      | none => rfl
      | some n =>
        cases n with
        | dir => rfl
        | file f => exact absurd hnode (h.boot f)
    have hinits : efiBoot.inits = [[], [efiName], efiBoot] := rfl
    rw [hinits, List.any_cons, List.any_cons, List.any_cons, List.any_nil, hroot, hefi, hboot]
    rfl
  have hmkdirs : t = (g.run p.first).mkdirs efiBoot := if_neg (by rw [hfree]; exact Bool.false_ne_true)
  have hboot : t efiBoot = some .dir := by
    rw [hmkdirs, FileTree.mkdirs_of_prefix _ efiBoot_ne (List.prefix_refl _)]
    cases hnode : g.run p.first efiBoot with
    | none => rfl
    | some n =>
      cases n with
      | dir => rfl
      | file f => exact absurd hnode (h.boot f)
  have houtside : ∀ q, ¬ q <+: efiBoot → t q = g.run p.first q :=
    fun q hq => FileTree.mkdirP_of_not_prefix _ hq
  have himage : t.subtree (grubImage grubx64) [] = some (.file f) := by
    rw [FileTree.subtree, List.append_nil, houtside _ (by decide), h.image]
  have hloader : t (fallback bootx64) ≠ some .dir := by
    rw [houtside _ (by decide)]
    exact h.loader
  have hcopied : copyLoader grubx64 bootx64 t (fallback bootx64) = some (.file f) :=
    FileTree.copyInto_file grubx64 himage hloader hboot
  change copyLoader grubia32 bootia32 (copyLoader grubx64 bootx64 t) (fallback bootx64) = some (.file f)
  rw [copyLoader_outside _ _ _ (by decide), hcopied]

/-- However often grub is put on an EFI system, the loader that the firmware falls back to is set on the
first EFI partition only: the copy goes one directory too deep on the second. -/
theorem only_first_boots (p : EfiParts F) (gs : List (EfiGrubInstall F))
    (h : ∀ loader, p.first ["boot".toList, loader] = none) :
    ∀ q ∈ Runs.states doGrubEfi p gs, (∀ loader, loaderAt q.second loader = loaderAt p.second loader) ∧
      ∀ g f, Installs (g.run q.first) f → (doGrubEfi q g).first (fallback bootx64) = some (.file f) := by
  have hstep : ∀ q g, ((∀ loader, q.first ["boot".toList, loader] = none) ∧
      ∀ loader, loaderAt q.second loader = loaderAt p.second loader) → True →
      (∀ loader, (doGrubEfi q g).first ["boot".toList, loader] = none) ∧
        ∀ loader, loaderAt (doGrubEfi q g).second loader = loaderAt p.second loader := by
    rintro q g ⟨hfirst, hsecond⟩ -
    refine ⟨fun loader => ?_, fun loader => ?_⟩
    · exact (doGrubEfi_first q g (List.cons_ne_nil _ _) boot_ne_efi).trans (hfirst loader)
    · rw [loaderAt_doGrubEfi g (hfirst loader), hsecond]
  have hsteps : Runs.AllSteps doGrubEfi (fun _ _ => True) p gs := by
    clear h hstep
    induction gs generalizing p with
    | nil => trivial
    | cons g gs ih => exact ⟨trivial, ih _⟩
  intro q hq
  have hinv := Runs.forall_states hstep ⟨h, fun _ => rfl⟩ hsteps q hq
  exact ⟨hinv.2, fun g f hinstalls => hinstalls.first_boots⟩

def emptyPart : EfiTree Text := fun q => if q = [] then some .dir else none

def grubPart : EfiTree Text := fun q =>
  if q = grubImage grubx64 then some (.file "grub".toList)
  else if q = [efiName] ∨ q = [efiName, "grub".toList] then some .dir
  else emptyPart q

def grubInstall : EfiGrubInstall Text where
  run t := fun q => if q.head? = some efiName then grubPart q else t q
  under _ _ h := if_neg h

def twoParts : EfiParts Text := ⟨emptyPart, some emptyPart⟩

theorem grubInstall_installs : Installs (grubInstall.run twoParts.first) "grub".toList where
  image := rfl
  root := rfl
  efi := rfl
  boot g hg := by cases hg
  loader hloader := by cases hloader

theorem second_stays_unbootable : loaderAt (doGrubEfi twoParts grubInstall).second bootx64 = none ∧
    (doGrubEfi twoParts grubInstall).first (fallback bootx64) = some (.file "grub".toList) := by
  have hrun := only_first_boots twoParts [grubInstall] (fun _ => rfl)
  have hlast := hrun _ (Runs.foldl_mem_states twoParts [grubInstall])
  have hstart := hrun _ (Runs.start_mem_states twoParts [grubInstall])
  exact ⟨hlast.1 bootx64, hstart.2 grubInstall _ grubInstall_installs⟩

end CgxLayer.Installer
