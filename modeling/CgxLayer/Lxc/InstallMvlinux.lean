import CgxLayer.Lxc.GetFs

namespace CgxLayer.Lxc

variable {F : Type}

def Host.tree (h : Host F) : Place → Tree F
  | .temp n =>
    match h.temps[n]? with
    | some (some (.mounted m)) => m.tree
    | some (some (.untarred t)) => t
    | _ => emptyTree
  | _ => emptyTree

def hidden (name : Text) : Bool := name.head? == some '.'

-- `cp -a src/* dst`, the pattern passing over hidden names
def copyVisible (src dst : Tree F) : Tree F
  | [] => dst []
  | name :: p => if hidden name then dst (name :: p) else (src (name :: p)).or (dst (name :: p))

def installMvlinux (e : Ends F) (image : Text) (h : Host F) : Host F :=
  match getFs e false image .rootfs h with
  | (some (mntloc, 0), h) =>
    (({ h with rootfs := h.rootfs.map (copyVisible (h.tree mntloc)) }).umount mntloc).rmdir mntloc
  | (_, h) => h

structure Installed (i : Image F) (h : Host F) : Prop where
  rootfs : h.rootfs = some i.tree
  clean : ∀ entry ∈ h.temps, entry = none

def Installs (e : Ends F) (i : Image F) (others : Text → Option (Content F)) : Prop :=
  Installed i (installMvlinux e i.filename (i.host others))

def NoFailure (e : Ends F) (i : Image F) (others : Text → Option (Content F)) : Prop :=
  (getFs e false i.filename .rootfs (i.host others)).1.isSome = true

def Opens (e : Ends F) (i : Image F) : Prop :=
  if i.mounted then (i.comp.isSome = true → e.decompresses = true) ∧ e.mounts = true else e.untars = true

def Copied (i : Image F) : Prop :=
  i.mounted = true ∧ ∀ name p, hidden name = true → i.tree (name :: p) = none

theorem copyVisible_empty_iff (i : Image F) : copyVisible i.tree emptyTree = i.tree ↔
    ∀ name p, hidden name = true → i.tree (name :: p) = none := by
  constructor
  · intro h name p hname
    rw [← h, copyVisible, if_pos hname]
    rfl
  · intro h
    funext p
    cases p with
    | nil => exact i.root.symm
    | cons name p =>
      rw [copyVisible]
      split_ifs with hname
      · exact (h name p hname).symm
      · exact Option.or_none

variable {e : Ends F} {i : Image F} {others : Text → Option (Content F)}

theorem decompress_fails {k : Comp} (hcomp : i.comp = some k) (hfails : e.decompresses = false) :
    decompress e false i.filename i.comp (i.host others) = (none, (i.host others).mktemp none) := by
  rw [hcomp, decompress, Image.unpacked_eq hcomp, hfails]
  rfl

theorem decompress_ends (others : Text → Option (Content F)) (hmounted : i.mounted = true)
    (hdec : i.comp.isSome = true → e.decompresses = true) :
    ∃ fname h, decompress e false i.filename i.comp (i.host others) = (some fname, h) ∧
      (h.mktemp (some .dir)).content fname = some (.ext i.tree) ∧ h.rootfs = some emptyTree ∧
      (i.comp = none ∧ h.temps = [] ∨ i.comp.isSome = true ∧ fname = .temp 0 ∧ ∃ entry, h.temps = [entry]) := by
  cases hcomp : i.comp with
  | none =>
    refine ⟨.named i.filename, i.host others, rfl, ?_, rfl, .inl ⟨rfl, rfl⟩⟩
    calc (i.host others).files i.filename
        = some (i.contentOf i.tree) := Image.host_filename
      _ = some (.ext i.tree) := by rw [Image.contentOf_plain hmounted hcomp]
  | some k =>
    refine ⟨.temp 0, (i.host others).mktemp (some (.file (.ext i.tree))), ?_, rfl, rfl, .inr ⟨rfl, rfl, _, rfl⟩⟩
    rw [decompress, Image.unpacked_eq hcomp, hdec (by rw [hcomp]; rfl), Image.plainContent_mounted hmounted]
    rfl

theorem mount_empty {fname : Source} {h : Host F} {t : Tree F}
    (hcontent : (h.mktemp (some .dir)).content fname = some (.ext t)) (hmounts : e.mounts = true) (ro : Bool) :
    (h.mktemp (some .dir)).mount e fname ro h.temps.length = some (h.mktemp (some (.mounted ⟨t, fname, ro⟩))) := by
  rw [mount_eq hcontent, if_pos hmounts, mktemp_setTemp]

theorem mountFs_mounts (others : Text → Option (Content F)) (hmounted : i.mounted = true)
    (hdec : i.comp.isSome = true → e.decompresses = true) (hmounts : e.mounts = true) :
    ∃ n h m, mountFs e false i.filename i.comp (i.host others) = (some (.temp n, 0), h) ∧
      h.rootfs = some emptyTree ∧ h.temps = List.replicate n none ++ [some (.mounted m)] ∧ m.tree = i.tree := by
  obtain ⟨fname, h, hfile, hcontent, hrootfs, hshape⟩ := decompress_ends others hmounted hdec
  have hmount := mountFs_of_mount hfile (mount_empty hcontent hmounts true)
  rcases hshape with ⟨hcomp, htemps⟩ | ⟨hcomp, rfl, entry, htemps⟩
  · have hkeep : (i.comp.isSome && !false) = false := by rw [hcomp]; rfl
    rw [hkeep, htemps] at hmount
    refine ⟨0, _, ⟨i.tree, fname, true⟩, hmount, hrootfs, ?_, rfl⟩
    exact congrArg (· ++ _) htemps
  · have hremove : (i.comp.isSome && !false) = true := by rw [hcomp]; rfl
    rw [hremove, if_pos rfl, htemps] at hmount
    refine ⟨1, _, ⟨i.tree, .temp 0, true⟩, hmount, hrootfs, ?_, rfl⟩
    simp only [Host.rm, Host.setTemp, Host.mktemp, htemps]
    rfl

theorem mountFs_fails (hmounted : i.mounted = true)
    (hfails : ¬((i.comp.isSome = true → e.decompresses = true) ∧ e.mounts = true)) :
    (mountFs e false i.filename i.comp (i.host others)).1 = none ∧
      (mountFs e false i.filename i.comp (i.host others)).2.rootfs = none := by
  by_cases hdec : i.comp.isSome = true → e.decompresses = true
  · obtain ⟨fname, h, hfile, -, -, -⟩ := decompress_ends others hmounted hdec
    have hmount : (h.mktemp (some .dir)).mount e fname true h.temps.length = none := by
      have hmounts : e.mounts = false := Bool.eq_false_iff.mpr (fun hmounts => hfails ⟨hdec, hmounts⟩)
      rw [Host.mount, hmounts]
    rw [mountFs_of_refused hfile hmount]
    exact ⟨rfl, rfl⟩
  · obtain ⟨hcomp, hends⟩ := Classical.not_imp.mp hdec
    obtain ⟨k, hk⟩ := Option.isSome_iff_exists.mp hcomp
    rw [mountFs_of_decompress (decompress_fails hk (Bool.eq_false_iff.mpr hends))]
    exact ⟨rfl, rfl⟩

theorem installMvlinux_mounted {n : ℕ} {h : Host F} {m : Mount F} {image : Text} {start : Host F}
    (hget : getFs e false image .rootfs start = (some (.temp n, 0), h))
    (htemps : h.temps = List.replicate n none ++ [some (.mounted m)]) :
    installMvlinux e image start = { h with
      rootfs := h.rootfs.map (copyVisible m.tree), temps := List.replicate (n + 1) none } := by
  have hset : ∀ x y : Option (Entry F), (List.replicate n none ++ [x]).set n y = List.replicate n none ++ [y] := by
    intro x y
    rw [List.set_append_right _ _ (by rw [List.length_replicate]), List.length_replicate, Nat.sub_self]
    rfl
  have hat : ∀ x : Option (Entry F), (List.replicate n none ++ [x])[n]? = some x := by
    intro x
    rw [List.getElem?_append_right (by rw [List.length_replicate]), List.length_replicate, Nat.sub_self]
    rfl
  have hview : h.tree (.temp n) = m.tree := by simp only [Host.tree, htemps, hat]
  simp only [installMvlinux, hget, hview, Host.umount, htemps, hat, Host.setTemp, hset, Host.rmdir,
    List.replicate_succ']

theorem untarFs_temps (others : Text → Option (Content F)) (hmounted : i.mounted = false) : ∃ t,
    (untarFs e (i.contentOf i.tree) .rootfs i.comp (i.host others)).2.temps = [some (.untarred t)] := by
  rw [untarFs, untar, Image.archived_eq hmounted]
  cases e.untars
  · exact ⟨e.extracted, rfl⟩
  · exact ⟨_, rfl⟩

theorem untarFs_status (others : Text → Option (Content F)) (hmounted : i.mounted = false) :
    (untarFs e (i.contentOf i.tree) .rootfs i.comp (i.host others)).1 =
      if e.untars then some (.temp 0, 2) else none := by
  rw [untarFs, untar, Image.archived_eq hmounted]
  cases e.untars <;> rfl

theorem installs_of_mounted (hmounted : i.mounted = true)
    (hopens : (i.comp.isSome = true → e.decompresses = true) ∧ e.mounts = true) :
    Installs e i others ↔ ∀ name p, hidden name = true → i.tree (name :: p) = none := by
  obtain ⟨n, h, m, hmount, hrootfs, htemps, htree⟩ := mountFs_mounts others hmounted hopens.1 hopens.2
  have hget : getFs e false i.filename .rootfs (i.host others) = (some (.temp n, 0), h) := by
    rw [Image.getFs_eq, hmounted, if_pos rfl, hmount]
  have hrun := installMvlinux_mounted hget htemps
  rw [htree, hrootfs, Option.map_some] at hrun
  rw [← copyVisible_empty_iff, Installs, hrun]
  constructor
  · intro hinstalled
    exact Option.some.inj hinstalled.rootfs
  · intro hcopied
    exact ⟨congrArg some hcopied, fun entry hentry => List.eq_of_mem_replicate hentry⟩

theorem not_installs_of_failure (h : ¬NoFailure e i others) : ¬Installs e i others := by
  have hget : (getFs e false i.filename .rootfs (i.host others)).1 = none := by
    simpa [NoFailure] using h
  intro hinstalled
  have hrootfs := hinstalled.rootfs
  rw [installMvlinux] at hrootfs
  split at hrootfs
  · rename_i hsome
    rw [hsome] at hget
    cases hget
  · rename_i hrun
    have hnone := getFs_failure hget
    rw [hrun, hrootfs] at hnone
    cases hnone

theorem noFailure_iff : NoFailure e i others ↔ Opens e i := by
  rw [NoFailure, Opens, Image.getFs_eq]
  cases hmounted : i.mounted with
  | false =>
    rw [if_neg Bool.false_ne_true, untarFs_status others hmounted]
    cases e.untars <;> simp
  | true =>
    rw [if_pos rfl, if_pos rfl]
    constructor
    · intro hsome
      by_contra hopens
      rw [(mountFs_fails hmounted hopens).1] at hsome
      cases hsome
    · intro hopens
      obtain ⟨n, h, m, hmount, -⟩ := mountFs_mounts others hmounted hopens.1 hopens.2
      rw [hmount]
      rfl

theorem not_installs_untarred (hmounted : i.mounted = false) : ¬Installs e i others := by
  obtain ⟨t, htemps⟩ := untarFs_temps (e := e) others hmounted
  have hstatus := untarFs_status (e := e) others hmounted
  have hget : getFs e false i.filename .rootfs (i.host others) =
      untarFs e (i.contentOf i.tree) .rootfs i.comp (i.host others) := by
    rw [Image.getFs_eq, hmounted, if_neg Bool.false_ne_true]
  have hrun : installMvlinux e i.filename (i.host others) =
      (untarFs e (i.contentOf i.tree) .rootfs i.comp (i.host others)).2 := by
    rw [installMvlinux, hget]
    split
    · rename_i hsome
      rw [hsome] at hstatus
      cases huntars : e.untars <;> simp [huntars] at hstatus
    · rename_i heq
      rw [heq]
  intro hinstalled
  have hentry := hinstalled.clean (some (.untarred t)) (by rw [hrun, htemps]; exact List.mem_singleton_self _)
  cases hentry

theorem installs_iff (e : Ends F) (i : Image F) (others : Text → Option (Content F)) :
    (Installs e i others ↔ Opens e i ∧ Copied i) ∧
      ((NoFailure e i others → Installs e i others) ↔ (Opens e i → Copied i)) := by
  have hinstalls : Installs e i others ↔ Opens e i ∧ Copied i := by
    constructor
    · intro hinstalled
      have hopens : Opens e i := by
        apply noFailure_iff.mp
        by_contra hfailure
        exact not_installs_of_failure hfailure hinstalled
      cases hmounted : i.mounted with
      | false => exact (not_installs_untarred hmounted hinstalled).elim
      | true =>
        have hends := hopens
        rw [Opens, hmounted, if_pos rfl] at hends
        exact ⟨hopens, hmounted, (installs_of_mounted hmounted hends).mp hinstalled⟩
    · rintro ⟨hopens, hmounted, hvisible⟩
      rw [Opens, hmounted, if_pos rfl] at hopens
      exact (installs_of_mounted hmounted hopens).mpr hvisible
  refine ⟨hinstalls, ?_⟩
  rw [noFailure_iff, hinstalls]
  exact ⟨fun h hopens => (h hopens).2, fun h hopens => ⟨hopens, h hopens⟩⟩

def rootTarGz : Image Unit where
  stem := "root".toList
  form := .tar
  comp := some .gzip
  tree := etcTree
  root := etcTree_root

theorem tar_not_installed : NoFailure succeeding rootTarGz (fun _ => none) ∧
    ¬Installs succeeding rootTarGz (fun _ => none) := by
  constructor
  · exact noFailure_iff.mpr (rfl : succeeding.untars = true)
  · exact not_installs_untarred rfl

end CgxLayer.Lxc
