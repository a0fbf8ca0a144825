import CgxLayer.LastOf
import CgxLayer.Ramdisk.Isolation

namespace CgxLayer.Ramdisk

open Text

def bootPath (name : Text) : Text := "/boot/".toList ++ name

/-- /boot: its names as the shell lists them, and what `test` says of a path. No name holds a blank or
a character of a pattern. -/
structure BootDir where
  names : List Text
  isFile : Text → Bool
  readable : Text → Bool
  plain : ∀ n ∈ names, ∀ c ∈ n, c ∉ [' ', '\t', '\n', '*', '?', '[', '\\']
  listed : ∀ p, isFile p = true → ∃ n ∈ names, p = bootPath n

-- A pattern that matches nothing stands for itself.
def expandBoot (b : BootDir) (pattern : Text) : List Text :=
  match (b.names.map bootPath).filter (pathMatch pattern) with
  | [] => [pattern]
  | p :: ps => p :: ps

def kernelIsValid (b : BootDir) (i : Text) : Bool :=
  b.isFile i && !startsWith "grub".toList i && !startsWith "README".toList i

def vmlinuPattern : Text := "/boot/vmlinu[xz]-*".toList

def bzImagePattern : Text := "/boot/bzImage-*".toList

def allKernels (b : BootDir) : List Text :=
  (expandBoot b vmlinuPattern ++ expandBoot b bzImagePattern).filter (kernelIsValid b)

def vmlinux : Text := "vmlinux-".toList

def vmlinuz : Text := "vmlinuz-".toList

def bzImage : Text := "bzImage-".toList

def findKernel (b : BootDir) (k : Text) : Option Text :=
  if b.readable (bootPath k) then some k
  else if b.readable (bootPath (vmlinux ++ k)) then some (vmlinux ++ k)
  else if b.readable (bootPath (vmlinuz ++ k)) then some (vmlinuz ++ k)
  else if b.readable (bootPath (bzImage ++ k)) then some (bzImage ++ k)
  else none

/-- The loop over the versions asked for; one that is missing sets `error`. -/
def findKernels (b : BootDir) : List Text → Option (List Text)
  | [] => some []
  | k :: ks => (findKernel b k).bind (fun i => (findKernels b ks).map (i :: ·))

def allFlag : Text := "--all".toList

def kernelList (b : BootDir) (args : List Text) : Option (List Text) :=
  if args.headD [] = [] then none
  else
    (if args.headD [] = allFlag then some (allKernels b) else findKernels b args).bind
      (fun ks => if ks = [] then none else some ks)

variable (host : Host)

def imageName (ver : Text) : Text := "/boot/initrd.img-".toList ++ ver

def images (rounds : ℕ) (kernels : List Text) : List (Text × BuildTree) :=
  ((kernels.map (fun k => imageName (kernelVer k))).zip (mvmkramdisk host rounds kernels)).filterMap
    (fun e => e.2.map (fun t => (e.1, t)))

def runMvmkramdisk (rounds : ℕ) (b : BootDir) (args : List Text) : Option (List (Text × BuildTree)) :=
  (kernelList b args).map (images host rounds)

def asked (i : Text) : Text := i.drop 14

def lastImage (written : List (Text × BuildTree)) (name : Text) : Option BuildTree :=
  lastOf (fun e => if e.1 = name then some e.2 else none) written

variable {host}

theorem takeWhile_letters {a : Text} (ha : ∀ c ∈ a, c.isDigit = false) (v : Text) :
    (a ++ '-' :: v).takeWhile (fun c => !c.isDigit) = a ++ '-' :: v.takeWhile (fun c => !c.isDigit) := by
  rw [List.takeWhile_append_of_pos (fun c hc => by rw [ha c hc]; rfl), List.takeWhile_cons_of_pos (by decide)]

theorem kernelVer_append {a : Text} (ha : ∀ c ∈ a, c.isDigit = false) (v : Text) :
    kernelVer (a ++ '-' :: v) = kernelVer v := by
  let letters := v.takeWhile (fun c => !c.isDigit)
  have hdrop : (a ++ '-' :: v).drop (a ++ '-' :: letters).length = v.drop letters.length := by
    rw [List.length_append, List.length_cons, List.drop_append, List.drop_eq_nil_of_le (by omega), List.nil_append]
    have hlength : a.length + (letters.length + 1) - a.length = letters.length + 1 := by omega
    rw [hlength, List.drop_succ_cons]
  have hmem : '-' ∈ a ++ '-' :: letters := List.mem_append_right a (List.mem_cons_self ..)
  have hreverse : (a ++ '-' :: letters).reverse = letters.reverse ++ '-' :: a.reverse := by
    rw [List.reverse_append, List.reverse_cons, List.append_assoc, List.singleton_append]
  have hkernel : kernelVer (a ++ '-' :: v) =
      ((letters.reverse ++ '-' :: a.reverse).takeWhile (· != '-')).reverse ++ v.drop letters.length := by
    rw [kernelVer, takeWhile_letters ha, if_pos hmem, hdrop, hreverse]
  rw [hkernel, takeWhile_append_cons (by decide), kernelVer]
  split_ifs with hhyphen
  · rfl
  · have hno : ∀ c ∈ letters.reverse, (c != '-') = true := by
      intro c hc
      rw [bne_iff_ne]
      rintro rfl
      exact hhyphen (List.mem_reverse.mp hc)
    obtain ⟨s, hs⟩ : letters <+: v := List.takeWhile_prefix _
    rw [List.takeWhile_eq_self_iff.mpr hno, List.reverse_reverse]
    conv_rhs => rw [← hs]
    rw [← hs, List.drop_left]

theorem findKernel_ver {b : BootDir} {k i : Text} (h : findKernel b k = some i) : kernelVer i = kernelVer k := by
  have hvmlinux : kernelVer (vmlinux ++ k) = kernelVer k := @kernelVer_append "vmlinux".toList (by decide) k
  have hvmlinuz : kernelVer (vmlinuz ++ k) = kernelVer k := @kernelVer_append "vmlinuz".toList (by decide) k
  have hbzImage : kernelVer (bzImage ++ k) = kernelVer k := @kernelVer_append "bzImage".toList (by decide) k
  rw [findKernel] at h
  split_ifs at h
  · rw [← Option.some.inj h]
  · rw [← Option.some.inj h, hvmlinux]
  · rw [← Option.some.inj h, hvmlinuz]
  · rw [← Option.some.inj h, hbzImage]

theorem findKernels_vers {b : BootDir} {ks is : List Text} (h : findKernels b ks = some is) :
    is.map kernelVer = ks.map kernelVer := by
  induction ks generalizing is with
  | nil =>
    cases h
    rfl
  | cons k ks ih =>
    obtain ⟨i, hi, h⟩ := Option.bind_eq_some_iff.mp h
    obtain ⟨js, hjs, rfl⟩ := Option.map_eq_some_iff.mp h
    rw [List.map_cons, List.map_cons, findKernel_ver hi, ih hjs]

theorem findKernels_some {b : BootDir} {ks : List Text} (h : ∀ k ∈ ks, findKernel b k ≠ none) :
    ∃ is, findKernels b ks = some is := by
  induction ks with
  | nil => exact ⟨[], rfl⟩
  | cons k ks ih =>
    obtain ⟨i, hi⟩ := Option.ne_none_iff_exists'.mp (h k (List.mem_cons_self ..))
    obtain ⟨is, his⟩ := ih (fun k hk => h k (List.mem_cons_of_mem _ hk))
    exact ⟨i :: is, by rw [findKernels, hi, Option.bind_some, his, Option.map_some]⟩

theorem kernelPass_congr {rounds : ℕ} {first : Bool} {j k : Text} (h : kernelVer j = kernelVer k) (t : BuildTree) :
    kernelPass host rounds first j t = kernelPass host rounds first k t := by rw [kernelPass, kernelPass, h]

theorem initrds_congr {rounds : ℕ} {first : Bool} {js ks : List Text} (h : js.map kernelVer = ks.map kernelVer)
    (t : BuildTree) : initrds host rounds first t js = initrds host rounds first t ks := by
  induction js generalizing ks first t with
  | nil =>
    obtain rfl := List.map_eq_nil_iff.mp h.symm
    rfl
  | cons j js ih =>
    cases ks with
    | nil => cases h
    | cons k ks =>
      rw [List.map_cons, List.map_cons, List.cons.injEq] at h
      have hlength : js.length = ks.length := by
        rw [← List.length_map kernelVer, h.2, List.length_map]
      rw [initrds, initrds, kernelPass_congr h.1]
      cases kernelPass host rounds first k t with
      | none => simp only [List.map_const', hlength]
      | some u => simp only [ih h.2]

theorem images_congr {rounds : ℕ} {js ks : List Text} (h : js.map kernelVer = ks.map kernelVer) :
    images host rounds js = images host rounds ks := by
  have hnames : js.map (fun k => imageName (kernelVer k)) = ks.map (fun k => imageName (kernelVer k)) := by
    have hmap := congrArg (List.map imageName) h
    rwa [List.map_map, List.map_map] at hmap
  rw [images, images, hnames, mvmkramdisk, mvmkramdisk, initrds_congr h]

theorem globMatch_literal {w : Text} {g : List Glob} {start : Bool} {s : Text}
    (h : globMatch (w.map Glob.char ++ g) start s = true) :
    ∃ start' s', s = w ++ s' ∧ globMatch g start' s' = true := by
  induction w generalizing start s with
  | nil => exact ⟨start, s, rfl, h⟩
  | cons a w ih =>
    cases s with
    | nil => cases h
    | cons c s =>
      rw [List.map_cons, List.cons_append, globMatch, Bool.and_eq_true, beq_iff_eq] at h
      obtain ⟨start', s', rfl, hs'⟩ := ih h.2
      exact ⟨start', s', by rw [h.1, List.cons_append], hs'⟩

theorem bzImage_of_match {i : Text} (h : pathMatch bzImagePattern i = true) : ∃ v, i = bootPath (bzImage ++ v) := by
  obtain ⟨-, v, hv, -⟩ := @globMatch_literal "/boot/bzImage-".toList [.many] true i h
  exact ⟨v, hv⟩

theorem vmlinu_of_match {i : Text} (h : pathMatch vmlinuPattern i = true) :
    ∃ v, i = bootPath (vmlinux ++ v) ∨ i = bootPath (vmlinuz ++ v) := by
  have hset : ∃ start s, i = "/boot/vmlinu".toList ++ s ∧
      globMatch ([.set false [('x', 'x'), ('z', 'z')]] ++ ("-".toList.map Glob.char ++ [.many])) start s = true :=
    @globMatch_literal "/boot/vmlinu".toList _ true i h
  obtain ⟨start, s, rfl, hs⟩ := hset
  cases s with
  | nil => cases hs
  | cons c s =>
    rw [List.singleton_append, globMatch, Bool.and_eq_true, Bool.and_eq_true] at hs
    obtain ⟨-, v, hv, -⟩ := globMatch_literal hs.2
    have hc : c = 'x' ∨ c = 'z' := by
      have hrange := hs.1.2
      simp only [List.any_cons, List.any_nil, Bool.or_false, bne_iff_ne, ne_eq, Bool.not_eq_false,
        Bool.or_eq_true_iff, Bool.and_eq_true, decide_eq_true_iff] at hrange
      exact hrange.imp (fun h => le_antisymm h.2 h.1) (fun h => le_antisymm h.2 h.1)
    refine ⟨v, ?_⟩
    rw [hv]
    obtain rfl | rfl := hc
    · exact .inl rfl
    · exact .inr rfl

theorem match_of_mem_expandBoot {b : BootDir} {pattern i : Text} (hstar : '*' ∈ pattern)
    (h : i ∈ expandBoot b pattern) (hfile : b.isFile i = true) : pathMatch pattern i = true := by
  rw [expandBoot] at h
  split at h
  · obtain rfl := List.mem_singleton.mp h
    obtain ⟨n, hn, rfl⟩ := b.listed i hfile
    obtain hboot | hname := List.mem_append.mp hstar
    · exact absurd hboot (by decide)
    · exact absurd (by decide) (b.plain n hn '*' hname)
  · rename_i p ps heq
    rw [← heq] at h
    exact (List.mem_filter.mp h).2

theorem allKernels_cases {b : BootDir} {i : Text} (h : i ∈ allKernels b) :
    ∃ kind ∈ [vmlinux, vmlinuz, bzImage], i = bootPath (kind ++ asked i) ∧ kernelVer i = kernelVer (asked i) := by
  obtain ⟨hmem, hvalid⟩ := List.mem_filter.mp h
  rw [kernelIsValid, Bool.and_eq_true, Bool.and_eq_true] at hvalid
  have hfile := hvalid.1.1
  obtain hmem | hmem := List.mem_append.mp hmem
  · obtain ⟨v, rfl | rfl⟩ := vmlinu_of_match (match_of_mem_expandBoot (by decide) hmem hfile)
    · exact ⟨vmlinux, List.mem_cons_self .., rfl, @kernelVer_append "/boot/vmlinux".toList (by decide) v⟩
    · exact ⟨vmlinuz, List.mem_cons_of_mem _ (List.mem_cons_self ..), rfl,
        @kernelVer_append "/boot/vmlinuz".toList (by decide) v⟩
  · obtain ⟨v, rfl⟩ := bzImage_of_match (match_of_mem_expandBoot (by decide) hmem hfile)
    exact ⟨bzImage, List.mem_cons_of_mem _ (List.mem_cons_of_mem _ (List.mem_cons_self ..)), rfl,
      @kernelVer_append "/boot/bzImage".toList (by decide) v⟩

theorem findKernel_ne_none {b : BootDir} {k kind : Text} (hkind : kind ∈ [vmlinux, vmlinuz, bzImage])
    (h : b.readable (bootPath (kind ++ k)) = true) : findKernel b k ≠ none := by
  rw [findKernel]
  split_ifs with h₁ h₂ h₃ h₄
  · exact Option.some_ne_none _
  · exact Option.some_ne_none _
  · exact Option.some_ne_none _
  · exact Option.some_ne_none _
  · rw [List.mem_cons, List.mem_cons, List.mem_singleton] at hkind
    obtain rfl | rfl | rfl := hkind
    · exact absurd h h₂
    · exact absurd h h₃
    · exact absurd h h₄

theorem all_agrees (host : Host) (rounds : ℕ) (b : BootDir) (hreadable : ∀ i ∈ allKernels b, b.readable i = true)
    (hasked : ∀ i ∈ allKernels b, asked i ≠ [] ∧ asked i ≠ allFlag) :
    runMvmkramdisk host rounds b [allFlag] = runMvmkramdisk host rounds b ((allKernels b).map asked) := by
  have hfind : ∀ k ∈ (allKernels b).map asked, findKernel b k ≠ none := by
    intro k hk
    obtain ⟨i, hi, rfl⟩ := List.mem_map.mp hk
    obtain ⟨kind, hkind, hpath, -⟩ := allKernels_cases hi
    exact findKernel_ne_none hkind (hpath ▸ hreadable i hi)
  obtain ⟨is, his⟩ := findKernels_some hfind
  have hvers : (allKernels b).map kernelVer = is.map kernelVer := by
    rw [findKernels_vers his, List.map_map]
    apply List.map_congr_left
    intro i hi
    obtain ⟨kind, -, -, hver⟩ := allKernels_cases hi
    exact hver
  have hflag : allFlag ≠ [] := List.cons_ne_nil _ _
  cases hall : allKernels b with
  | nil =>
    rw [runMvmkramdisk, runMvmkramdisk, kernelList, kernelList, hall]
    rfl
  | cons i ks =>
    have hfirst := hasked i (hall ▸ List.mem_cons_self ..)
    rw [hall] at hvers his
    have hne : is ≠ [] := by
      rintro rfl
      cases hvers
    have hone : kernelList b [allFlag] = some (i :: ks) := by
      rw [kernelList, List.headD_cons, if_neg hflag, if_pos rfl, hall, Option.bind_some,
        if_neg (List.cons_ne_nil i ks)]
    have hversions : kernelList b ((i :: ks).map asked) = some is := by
      rw [kernelList, List.map_cons, List.headD_cons, if_neg hfirst.1, if_neg hfirst.2, ← List.map_cons, his,
        Option.bind_some, if_neg hne]
    rw [runMvmkramdisk, runMvmkramdisk, hone, hversions, Option.map_some, Option.map_some, images_congr hvers]

def kernelFiles : List Text := ["vmlinuz-5.10".toList, "bzImage-6.1-rt".toList]

def twoKernels : BootDir where
  names := "grub".toList :: kernelFiles
  isFile p := decide (p ∈ kernelFiles.map bootPath)
  readable p := decide (p ∈ kernelFiles.map bootPath)
  plain := by decide
  listed p h := by
    obtain ⟨n, hn, rfl⟩ := List.mem_map.mp (of_decide_eq_true h)
    exact ⟨n, List.mem_cons_of_mem _ hn, rfl⟩

theorem allKernels_twoKernels : allKernels twoKernels = kernelFiles.map bootPath := by decide

theorem two_agree : runMvmkramdisk oneTreeHost 2 twoKernels [allFlag] =
    runMvmkramdisk oneTreeHost 2 twoKernels ["5.10".toList, "6.1-rt".toList] := by
  have hall := allKernels_twoKernels
  have hasked : (allKernels twoKernels).map asked = ["5.10".toList, "6.1-rt".toList] := by
    rw [hall]
    decide
  rw [← hasked]
  apply all_agrees
  · rw [hall]
    decide
  · rw [hall]
    decide

theorem mvmkramdisk_alone {rounds : ℕ} (k : Text) :
    images host rounds [k] =
      ((kernelPass host rounds true k host.base).map (fun t => (imageName (kernelVer k), t))).toList := by
  rw [images, mvmkramdisk_single]
  cases kernelPass host rounds true k host.base <;> rfl

theorem imageName_injective {v w : Text} (h : imageName v = imageName w) : v = w := List.append_cancel_left h

theorem images_alone (host : Host) (kernels : List Text) (h : Separate host kernels) :
    ∃ n, ∀ rounds ≥ n,
      (∀ k ∈ kernels, lastImage (images host rounds kernels) (imageName (kernelVer k)) =
        lastImage (images host rounds [k]) (imageName (kernelVer k))) ∧
      ∀ name, (∀ k ∈ kernels, imageName (kernelVer k) ≠ name) →
        lastImage (images host rounds kernels) name = none := by
  obtain ⟨n, hn⟩ := h.isolated
  refine ⟨n, fun rounds hr => ?_⟩
  let pass := fun k => kernelPass host rounds true k host.base
  have himages : images host rounds kernels =
      kernels.filterMap (fun k => (pass k).map (fun t => (imageName (kernelVer k), t))) := by
    have hmap : mvmkramdisk host rounds kernels = kernels.map pass := by
      rw [hn rounds hr]
      simp only [mvmkramdisk_single]
      exact List.flatMap_pure_eq_map _ _
    rw [images, hmap, List.zip_map', List.filterMap_map]
    rfl
  have hlast : ∀ ks : List Text, ∀ name,
      lastImage (ks.filterMap (fun k => (pass k).map (fun t => (imageName (kernelVer k), t)))) name =
        lastOf (fun k => if imageName (kernelVer k) = name then pass k else none) ks := by
    intro ks name
    rw [lastImage, lastOf_filterMap]
    congr 1
    funext k
    cases hpass : pass k with
    | none => exact (ite_self _).symm
    | some t => rfl
  have hsame : ∀ ks : List Text, ∀ k ∈ ks,
      lastOf (fun j => if imageName (kernelVer j) = imageName (kernelVer k) then pass j else none) ks = pass k := by
    intro ks k hk
    apply lastOf_same _ hk (if_pos rfl)
    intro j _
    by_cases hname : imageName (kernelVer j) = imageName (kernelVer k)
    · exact .inr ((if_pos hname).trans (kernelPass_congr (imageName_injective hname) _))
    · exact .inl (if_neg hname)
  constructor
  · intro k hk
    have halone : images host rounds [k] =
        [k].filterMap (fun k => (pass k).map (fun t => (imageName (kernelVer k), t))) := by
      rw [mvmkramdisk_alone]
      cases hpass : kernelPass host rounds true k host.base <;> simp [pass, hpass]
    rw [himages, halone, hlast, hlast, hsame kernels k hk, hsame [k] k (List.mem_singleton_self k)]
  · intro name hname
    rw [himages, hlast, lastOf_eq_none]
    exact fun k hk => if_neg (hname k hk)

def bothKinds : List Text := ["vmlinux-5.10".toList, "vmlinuz-5.10".toList]

theorem bothKinds_separate : Separate oneTreeHost bothKinds := by
  have hsame : kernelVer "vmlinux-5.10".toList = kernelVer "vmlinuz-5.10".toList := by decide
  refine ⟨fun _ => ?_, fun hdep => absurd hdep Bool.false_ne_true⟩
  rw [bothKinds, List.pairwise_pair, HasModules, HasModules, hsame]
  exact fun h => h

theorem both_write_one : ∃ n, ∀ rounds ≥ n,
    lastImage (images oneTreeHost rounds bothKinds) (imageName "5.10".toList) =
    lastImage (images oneTreeHost rounds ["vmlinux-5.10".toList]) (imageName "5.10".toList) := by
  obtain ⟨n, hn⟩ := images_alone oneTreeHost bothKinds bothKinds_separate
  have hver : kernelVer "vmlinux-5.10".toList = "5.10".toList := by decide
  refine ⟨n, fun rounds hr => ?_⟩
  rw [← hver]
  exact (hn rounds hr).1 _ (List.mem_cons_self ..)

end CgxLayer.Ramdisk
