import CgxLayer.FileTree
import CgxLayer.Ramdisk.ModuleClosure

namespace CgxLayer.Ramdisk

open Text ModuleTree

abbrev BuildTree := FileTree Text (List Text)

def isSlash (c : Char) : Bool := c == '/'

def pathOf (name : Text) : List Text := words isSlash name

def libPath : List Text := ["lib".toList]

def modulesPath : List Text := ["lib".toList, "modules".toList]

def firmwarePath : List Text := ["lib".toList, "firmware".toList]

def olistPath : List Text := ["modules".toList]

def initPath : List Text := ["init".toList]

def modulesDep : Text := "modules.dep".toList

def firmwareDir : Text := "/lib/firmware/".toList

def loopNames : List (Option Text) := [some "lib".toList, some "modules".toList, some "init".toList]

/-- The system that mvmkramdisk runs on: what it reads and the tools it calls. `base` is BUILDDIR as
`make_base` leaves it, `here` is `test -r` in the directory the script is started in. -/
structure Host where
  modules : Text → Option ModuleTree
  requiredModules : List Text
  firmware : List Text
  isDir : List Text → Bool
  content : List Text → List Text
  here : Text → Bool
  contentHere : List Text → List Text
  depmod : Text → BuildTree → List (Text × List Text)
  modinfo : Text → Text → List Text
  initTemplate : List Text
  base : BuildTree
  modules_ver : ∀ v t, modules v = some t → t.ver = v
  base_olist : base olistPath = none
  base_modulesDep : base (pathOf modulesDep) = none
  not_here : ∀ v t, modules v = some t → ∀ e ∈ t.entries, ∀ w ∈ words shBlank e.line,
    here w = false ∧ base (pathOf w) = none ∧ (pathOf w).head? ∉ loopNames

-- `sed 's/^[^0-9]*-//'`
def kernelVer (k : Text) : Text :=
  let letters := k.takeWhile (fun c => !c.isDigit)
  if '-' ∈ letters then (letters.reverse.takeWhile (· != '-')).reverse ++ k.drop letters.length else k

variable (host : Host)

-- `find /lib/firmware -name`
def findFirmware (pattern : Text) : List Text :=
  (host.firmware.filter (fun f => globMatch (parseGlob pattern.length pattern) false (basename f))).map
    (firmwareDir ++ ·)

-- Of a directory that is listed itself, cpio takes along nothing that lies in it.
def archived (t : BuildTree) (ps : List (List Text)) : BuildTree :=
  (t.copyAll host.content (ps.filter (fun p => !host.isDir p))).mkdirsAll (ps.filter host.isDir)

-- from BUILDDIR itself a relative name is copied onto itself
def cpio (first : Bool) (t : BuildTree) (names : List Text) : BuildTree :=
  let t := archived host t ((names.filter (startsWith ['/'])).map pathOf)
  if first then t.copyAll host.contentHere ((names.filter (fun n => !startsWith ['/'] n)).map pathOf) else t

def runDepmod (ver : Text) (t : BuildTree) : BuildTree :=
  let dir := pathOf (modulesDir ++ ver)
  t.putAll dir (host.depmod ver (fun q => t (dir ++ q)))

def installModules (first : Bool) (ver : Text) (names olist : List Text) (t : BuildTree) : BuildTree :=
  let t := (t.put olistPath olist).remove modulesPath
  runDepmod host ver ((cpio host first t names).mkdirs (pathOf (modulesDir ++ ver)))

def copyModules (rounds : ℕ) (first : Bool) (ver : Text) (t : BuildTree) : Option BuildTree :=
  match host.modules ver with
  | none => some t
  | some tree =>
    let t := t.put olistPath []
    let here := if first then host.here else fun w => (t (pathOf w)).isSome
    (copyKernelModules { tree with here := here } rounds host.requiredModules).map (fun lists =>
      installModules host first ver lists.1 lists.2 t)

def firmwareNames (ver : Text) (olist : List Text) : List Text :=
  olist.flatMap (fun modname => (host.modinfo ver modname).flatMap (findFirmware host))

/-- `copy_kernel_firmware`; `pfx` is not set here, and a missing list makes the script exit. -/
def copyFirmware (first : Bool) (ver : Text) (t : BuildTree) : Option BuildTree :=
  let readable := if first then host.here modulesDep else (t (pathOf modulesDep)).isSome
  if !readable then some t
  else
    match t olistPath with
    | some (.file olist) =>
      some ((t.remove firmwarePath).copyAll host.content ((firmwareNames host ver olist).map pathOf))
    | _ => none

def genInit (t : BuildTree) : BuildTree := t.put initPath host.initTemplate

def kernelPass (rounds : ℕ) (first : Bool) (k : Text) (t : BuildTree) : Option BuildTree :=
  let ver := kernelVer k
  ((copyModules host rounds first ver t).bind (copyFirmware host first ver)).map (genInit host)

/-- What each initrd is made from; `none` from the kernel on at which the script gave up. The first
pass runs where the script was started, the later ones in BUILDDIR. -/
def initrds (rounds : ℕ) : Bool → BuildTree → List Text → List (Option BuildTree)
  | _, _, [] => []
  | first, t, k :: ks =>
    match kernelPass host rounds first k t with
    | none => none :: ks.map (fun _ => none)
    | some t => some t :: initrds rounds false t ks

def mvmkramdisk (rounds : ℕ) (kernels : List Text) : List (Option BuildTree) :=
  initrds host rounds true host.base kernels

/-- With enough rounds, each kernel's initrd is made from what a run for it alone makes it from. -/
def Isolated (kernels : List Text) : Prop :=
  ∃ n, ∀ rounds ≥ n, mvmkramdisk host rounds kernels = kernels.flatMap (fun k => mvmkramdisk host rounds [k])

theorem pathOf_dir {a b : Text} (ha : IsWord isSlash a) (hb : IsWord isSlash b) (s : Text) :
    pathOf (('/' :: (a ++ '/' :: (b ++ ['/']))) ++ s) = [a, b] ++ pathOf s := by
  have hslash : isSlash '/' = true := rfl
  simp only [List.cons_append, List.append_assoc, List.nil_append]
  rw [pathOf, words_cons_blank _ hslash, words_word_blank ha _ hslash, words_word_blank hb _ hslash]
  rfl

theorem pathOf_modulesDir (s : Text) : pathOf (modulesDir ++ s) = modulesPath ++ pathOf s := by
  have hdir : modulesDir = '/' :: ("lib".toList ++ '/' :: ("modules".toList ++ ['/'])) := by decide
  rw [hdir]
  exact pathOf_dir ⟨by decide, by decide⟩ ⟨by decide, by decide⟩ s

theorem pathOf_firmwareDir (s : Text) : pathOf (firmwareDir ++ s) = firmwarePath ++ pathOf s := by
  have hdir : firmwareDir = '/' :: ("lib".toList ++ '/' :: ("firmware".toList ++ ['/'])) := by decide
  rw [hdir]
  exact pathOf_dir ⟨by decide, by decide⟩ ⟨by decide, by decide⟩ s

variable {host}

theorem archived_of_not_prefix (t : BuildTree) {ps : List (List Text)} {q : List Text} (h : ∀ p ∈ ps, ¬ q <+: p) :
    archived host t ps q = t q := by
  rw [archived, FileTree.mkdirsAll_of_not_prefix _ (fun p hp => h p (List.mem_of_mem_filter hp)),
    FileTree.copyAll_of_not_prefix _ _ (fun p hp => h p (List.mem_of_mem_filter hp))]

theorem archived_nil (t : BuildTree) {ps : List (List Text)} (h : [] ∉ ps) : archived host t ps [] = t [] := by
  rw [archived, FileTree.mkdirsAll_nil, FileTree.copyAll_nil _ _ (fun hmem => h (List.mem_of_mem_filter hmem))]

theorem archived_getD (t : BuildTree) {ps : List (List Text)} {q : List Text} (h : q ∉ ps) :
    (archived host t ps q).getD .dir = (t q).getD .dir := by
  rw [archived, FileTree.mkdirsAll_getD, FileTree.copyAll_getD _ _ (fun hmem => h (List.mem_of_mem_filter hmem))]

theorem archived_congr {t t' : BuildTree} (ps : List (List Text)) {q : List Text} (h : t q = t' q) :
    archived host t ps q = archived host t' ps q := by
  have hcopied := FileTree.copyAll_congr host.content
    (fun p => Iff.rfl (a := p ∈ ps.filter (fun p => !host.isDir p))) h
  rw [archived, archived, FileTree.mkdirsAll_apply, FileTree.mkdirsAll_apply, hcopied]

theorem cpio_absolute (first : Bool) (t : BuildTree) {names : List Text}
    (h : ∀ n ∈ names, startsWith ['/'] n = true) :
    cpio host first t names = archived host t (names.map pathOf) := by
  have habs : names.filter (startsWith ['/']) = names := List.filter_eq_self.mpr h
  have hrel : names.filter (fun n => !startsWith ['/'] n) = [] := by
    rw [List.filter_eq_nil_iff]
    intro n hn
    simp [h n hn]
  cases first
  · simp only [cpio, habs, Bool.false_eq_true, if_false]
  · simp only [cpio, habs, hrel, if_true, List.map_nil]
    rfl

def UnderModules (names : List Text) : Prop := ∀ n ∈ names, ∃ m, n = modulesDir ++ m

theorem UnderModules.startsWith {names : List Text} (h : UnderModules names) :
    ∀ n ∈ names, startsWith ['/'] n = true := by
  intro n hn
  obtain ⟨m, rfl⟩ := h n hn
  rfl

theorem UnderModules.path {names : List Text} (h : UnderModules names) :
    ∀ p ∈ names.map pathOf, modulesPath <+: p := by
  intro p hp
  obtain ⟨n, hn, rfl⟩ := List.mem_map.mp hp
  obtain ⟨m, rfl⟩ := h n hn
  rw [pathOf_modulesDir]
  exact List.prefix_append _ _

theorem prefix_modulesPath {q p : List Text} (hq : ¬ modulesPath <+: q) (hp : modulesPath <+: p) :
    q <+: p ↔ q = [] ∨ q = libPath := by
  obtain ⟨s, rfl⟩ := hp
  constructor
  · intro h
    rcases List.prefix_or_prefix_of_prefix h (List.prefix_append modulesPath s) with hpre | hpre
    · rcases List.prefix_cons_iff.mp hpre with rfl | ⟨r, rfl, hr⟩
      · exact .inl rfl
      · rcases List.prefix_cons_iff.mp hr with rfl | ⟨r', rfl, hr'⟩
        · exact .inr rfl
        · rw [List.prefix_nil.mp hr'] at hq
          exact absurd (List.prefix_refl _) hq
    · exact absurd hpre hq
  · rintro (rfl | rfl)
    · exact List.nil_prefix
    · exact ⟨"modules".toList :: s, rfl⟩

theorem runDepmod_outside (ver : Text) (t : BuildTree) {q : List Text} (hq : ¬ modulesPath <+: q) :
    runDepmod host ver t q = t q := by
  apply FileTree.putAll_of_not_prefix
  intro hdir
  rw [pathOf_modulesDir] at hdir
  exact hq ((List.prefix_append _ _).trans hdir)

theorem runDepmod_congr (ver : Text) {t t' : BuildTree} (h : ∀ q, modulesPath <+: q → t q = t' q)
    {q : List Text} (hq : modulesPath <+: q) : runDepmod host ver t q = runDepmod host ver t' q := by
  have hdir : (fun q => t (pathOf (modulesDir ++ ver) ++ q)) =
      fun q => t' (pathOf (modulesDir ++ ver) ++ q) := by
    funext r
    rw [pathOf_modulesDir, List.append_assoc]
    exact h _ (List.prefix_append _ _)
  rw [runDepmod, runDepmod, hdir]
  exact FileTree.putAll_congr _ _ (h q hq)

variable {first first' : Bool} {ver : Text} {names olist : List Text} {t t' : BuildTree} {q : List Text}

theorem installModules_outside (hnames : UnderModules names) (hq : ¬ modulesPath <+: q) :
    installModules host first ver names olist t q = if q = olistPath then some (.file olist)
      else if q = libPath then some ((t q).getD .dir) else t q := by
  rw [installModules, runDepmod_outside ver _ hq, cpio_absolute first _ hnames.startsWith]
  have hdir : modulesPath <+: pathOf (modulesDir ++ ver) := by
    rw [pathOf_modulesDir]
    exact List.prefix_append _ _
  have hmem : q ∉ names.map pathOf := fun h => hq (hnames.path q h)
  have hput : ((t.put olistPath olist).remove modulesPath) q =
      if q = olistPath then some (.file olist) else t q := by
    rw [FileTree.remove, if_neg hq]
    rfl
  by_cases hnil : q = []
  · subst hnil
    rw [FileTree.mkdirs_nil, archived_nil _ hmem, hput]
    rfl
  · by_cases hlib : q = libPath
    · have hne : q ≠ olistPath := by
        rw [hlib]
        decide
      rw [FileTree.mkdirs_of_prefix _ hnil ((prefix_modulesPath hq hdir).mpr (.inr hlib)),
        archived_getD _ hmem, hput, if_neg hne, if_neg hne, if_pos hlib]
    · have hout : ∀ p, modulesPath <+: p → ¬ q <+: p :=
        fun p hp hpre => ((prefix_modulesPath hq hp).mp hpre).elim hnil hlib
      rw [FileTree.mkdirs_of_not_prefix _ (hout _ hdir),
        archived_of_not_prefix _ (fun p hp => hout p (hnames.path p hp)), hput, if_neg hlib]

theorem installModules_region (hnames : UnderModules names) (hq : modulesPath <+: q) :
    installModules host first ver names olist t q = installModules host first' ver names olist t' q := by
  rw [installModules, installModules, cpio_absolute first _ hnames.startsWith,
    cpio_absolute first' _ hnames.startsWith]
  apply runDepmod_congr ver _ hq
  intro r hr
  have hgone : ∀ u : BuildTree, (u.put olistPath olist).remove modulesPath r = none :=
    fun u => if_pos hr
  have hcopied : archived host ((t.put olistPath olist).remove modulesPath) (names.map pathOf) r =
      archived host ((t'.put olistPath olist).remove modulesPath) (names.map pathOf) r :=
    archived_congr _ ((hgone t).trans (hgone t').symm)
  rw [FileTree.mkdirs, FileTree.mkdirs, hcopied]

end CgxLayer.Ramdisk
