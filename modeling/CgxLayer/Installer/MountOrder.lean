import CgxLayer.Installer.Menu

namespace CgxLayer.Installer

open Text

/-- The mounts when `mount_all` has just made the call for the key `k` of `mounts`. -/
def keyMounted (I : Installer) (k : Text) : MountTable FsInfo :=
  (I.mountKeys ((sorted I.mounts.keys).takeWhile (· ≠ k) ++ [k])).table

def specialMounted (I : Installer) (k : Text) : MountTable FsInfo :=
  ((smounts.takeWhile (·.1 ≠ k) ++ smounts.filter (·.1 = k)).foldl (fun I e => I.mount e.1 e.2)
    (I.mountKeys (sorted I.mounts.keys))).table

def IsSpecial (k : Text) : Prop := k ∈ smounts.map Prod.fst

instance (k : Text) : Decidable (IsSpecial k) := inferInstanceAs (Decidable (k ∈ _))

def AllVisible (I : Installer) : Prop :=
  (∀ k ∈ I.mounts.keys, ¬ IsSpecial k → I.mountAll.table.resolve (point k) = I.keyMounted k) ∧
    ∀ k, IsSpecial k → I.mountAll.table.resolve (point k) = I.specialMounted k

/-- No special mount and no mount of a later key is made at or above the point of a key. -/
def Uncovered (m : Mounts) : Prop :=
  ∀ k ∈ m.keys, ¬ IsSpecial k →
    (∀ s, IsSpecial s → ¬ point s <+: point k) ∧ ∀ k' ∈ m.keys, k < k' → ¬ point k' <+: point k

theorem mountList_append (m : Mounts) (ks ls : List Text) :
    mountList m (ks ++ ls) = mountList m ks ++ mountList m ls := List.filterMap_append

theorem mountList_cons {m : Mounts} {k : Text} {info : FsInfo} (h : (k, info) ∈ m.entries)
    (ks : List Text) : mountList m (k :: ks) = ⟨point k, info⟩ :: mountList m ks := by
  simp [mountList, Dict.get?_eq_some.mpr h]

theorem sorted_split {m : Mounts} {k : Text} (hk : k ∈ m.keys) :
    ∃ before after, sorted m.keys = before ++ k :: after ∧
      (sorted m.keys).takeWhile (· ≠ k) = before ∧ ∀ x, x ∈ after ↔ x ∈ m.keys ∧ k < x := by
  obtain ⟨before, after, hsplit⟩ := List.append_of_mem (Text.mem_sorted.mpr hk)
  have hnodup : (before ++ k :: after).Nodup := by
    rw [← hsplit]
    exact (sorted_perm m.keys).nodup_iff.mpr m.nodup
  have hord : (before ++ k :: after).Pairwise (· ≤ ·) := hsplit ▸ sorted_pairwise m.keys
  obtain ⟨-, htail, hbefore⟩ := List.pairwise_append.mp hord
  have hnot : k ∉ before := fun h =>
    (List.nodup_append.mp hnodup).2.2 k h k (List.mem_cons_self ..) rfl
  refine ⟨before, after, hsplit, ?_, ?_⟩
  · rw [hsplit, List.takeWhile_append_of_pos]
    · simp
    · intro x hx
      have hne : x ≠ k := fun h => hnot (h ▸ hx)
      simpa using hne
  · intro x
    have hmem : x ∈ m.keys ↔ x ∈ before ∨ x = k ∨ x ∈ after := by
      rw [← Text.mem_sorted, hsplit, List.mem_append, List.mem_cons]
    rw [hmem]
    constructor
    · intro hx
      have hne : k ≠ x := fun h =>
        (List.nodup_cons.mp (List.nodup_append.mp hnodup).2.1).1 (h ▸ hx)
      exact ⟨.inr (.inr hx), lt_of_le_of_ne (List.rel_of_pairwise_cons htail hx) hne⟩
    · rintro ⟨hx | rfl | hx, hlt⟩
      · exact absurd (hbefore x hx k (List.mem_cons_self ..)) (not_le_of_gt hlt)
      · exact absurd hlt (lt_irrefl x)
      · exact hx

theorem key_visible_iff (I : Installer) {k : Text} (hk : k ∈ I.mounts.keys) :
    I.mountAll.table.resolve (point k) = I.keyMounted k ↔
      (∀ s, IsSpecial s → ¬ point s <+: point k) ∧
        ∀ k' ∈ I.mounts.keys, k < k' → ¬ point k' <+: point k := by
  obtain ⟨info, hinfo⟩ := Dict.mem_keys_iff.mp hk
  obtain ⟨before, after, hsplit, htake, hafter⟩ := sorted_split hk
  have hdone : I.mountAll.table = I.table.mountAll (mountList I.mounts before ++
      ⟨point k, info⟩ :: (mountList I.mounts after ++ specials)) := by
    rw [mountAll_eq, hsplit, mountList_append, mountList_cons hinfo, ← MountTable.mountAll_append]
    rw [List.append_assoc, List.cons_append]
  have hthen : I.keyMounted k =
      I.table.mountAll (mountList I.mounts before ++ [⟨point k, info⟩]) := by
    rw [keyMounted, htake, mountKeys_eq, mountList_append, mountList_cons hinfo]
    rfl
  rw [hdone, hthen]
  rw [MountTable.resolve_mountAll_iff I.table _ ⟨point k, info⟩, List.forall_mem_append, and_comm]
  apply and_congr
  · simp only [specials, List.forall_mem_map, IsSpecial]
  · constructor
    · intro h k' hk' hlt
      obtain ⟨info', hinfo'⟩ := Dict.mem_keys_iff.mp hk'
      exact h _ (mem_mountList.mpr ⟨k', (hafter k').mpr ⟨hk', hlt⟩, info', hinfo', rfl⟩)
    · intro h n hn
      obtain ⟨k', hk', info', -, rfl⟩ := mem_mountList.mp hn
      exact h k' ((hafter k').mp hk').1 ((hafter k').mp hk').2

theorem special_visible (I : Installer) {k : Text} (hk : IsSpecial k) :
    I.mountAll.table.resolve (point k) = I.specialMounted k := by
  obtain ⟨t, ht⟩ : ∃ t, (I.mountKeys (sorted I.mounts.keys)).table = t := ⟨_, rfl⟩
  have hdone : I.mountAll.table = t.mountAll specials := by
    rw [mountAll_eq, ← ht, mountKeys_eq]
  have hthen : I.specialMounted k = t.mountAll
      ((smounts.takeWhile (·.1 ≠ k) ++ smounts.filter (·.1 = k)).map (fun e => ⟨point e.1, e.2⟩)) := by
    rw [specialMounted, foldl_mount, ht]
  rw [hdone, hthen]
  have hcases : k = devPoint ∨ k = "/proc".toList ∨ k = "/sys".toList := by
    simpa [IsSpecial, smounts] using hk
  obtain rfl | rfl | rfl := hcases
  · exact (MountTable.resolve_mountAll_iff t [] ⟨point devPoint, devFs⟩ _).mpr (by decide)
  · exact (MountTable.resolve_mountAll_iff t [_] ⟨point "/proc".toList, _⟩ [_]).mpr (by decide)
  · exact (MountTable.resolve_mountAll_iff t [_, _] ⟨point "/sys".toList, _⟩ []).mpr (by decide)

theorem allVisible_iff_uncovered (I : Installer) : I.AllVisible ↔ Uncovered I.mounts := by
  constructor
  · intro h k hk hplain
    exact (key_visible_iff I hk).mp (h.1 k hk hplain)
  · intro h
    refine ⟨?_, fun k hk => special_visible I hk⟩
    intro k hk hplain
    exact (key_visible_iff I hk).mpr (h k hk hplain)

def debugFstab : List Text :=
  ["/dev/sda1 / ext3 defaults 0 1".toList, "none /sys/kernel/debug debugfs defaults 0 0".toList]

theorem debugfs_hidden :
    ∃ m, rereadFstab false (some debugFstab) = .ok m ∧ ¬ AllVisible { initial with mounts := m } := by
  refine ⟨_, rfl, fun h => ?_⟩
  have hkey := h.1 "/sys/kernel/debug".toList (by decide) (by decide)
  exact absurd hkey (by decide)

/-- A mount point as fstabs have it: absolute, with no trailing or double slash, no `.` or `..`. -/
def canonical (p : Path) : Text := if p = [] then rootPoint else Path.toText p

theorem point_canonical {p : Path} (hp : ∀ n ∈ p, Path.IsName n) :
    point (canonical p) = ['t'] :: p := by
  by_cases hnil : p = []
  · rw [hnil]
    decide
  · have htext : mpref ++ Path.toText p = Path.toText (['t'] :: p) := rfl
    have ht : Path.IsName ['t'] := ⟨by decide, by decide, by decide, by decide⟩
    rw [canonical, if_neg hnil, point, htext]
    exact Path.ofText_toText (List.forall_mem_cons.mpr ⟨ht, hp⟩)

theorem canonical_le {p q : Path} (h : p <+: q) : canonical p ≤ canonical q := by
  obtain ⟨r, rfl⟩ := h
  cases p with
  | nil =>
    cases r with
    | nil => exact le_rfl
    | cons n r => exact le_append rootPoint (n ++ Path.toText r)
  | cons n p =>
    change Path.toText (n :: p) ≤ Path.toText (n :: p ++ r)
    rw [Path.toText_append]
    exact le_append _ _

theorem special_cases {s : Text} (hs : IsSpecial s) :
    ∃ d, s = '/' :: d ∧ '/' ∉ d ∧ point s = [['t'], d] := by
  have hcases : s = devPoint ∨ s = "/proc".toList ∨ s = "/sys".toList := by
    simpa [IsSpecial, smounts] using hs
  obtain rfl | rfl | rfl := hcases
  · exact ⟨"dev".toList, by decide⟩
  · exact ⟨"proc".toList, by decide⟩
  · exact ⟨"sys".toList, by decide⟩

theorem below_special_iff {p : Path} (hp : ∀ n ∈ p, Path.IsName n) (hplain : ¬ IsSpecial (canonical p))
    {s : Text} (hs : IsSpecial s) : point s <+: point (canonical p) ↔ s ++ ['/'] <+: canonical p := by
  obtain ⟨d, hsd, hslash, hpoint⟩ := special_cases hs
  rw [point_canonical hp, hpoint, List.cons_prefix_cons]
  constructor
  · rintro ⟨-, q, rfl⟩
    cases q with
    | nil =>
      have hself : canonical ([d] ++ []) = s := by simp [canonical, Path.toText, hsd]
      exact absurd (hself ▸ hs) hplain
    | cons n q =>
      refine ⟨n ++ Path.toText q, ?_⟩
      rw [hsd]
      simp [canonical, Path.toText]
  · rintro ⟨r, hr⟩
    have hne : p ≠ [] := by
      rintro rfl
      have hlen := congrArg List.length hr
      simp [canonical, hsd, rootPoint] at hlen
    have hsplit := Path.splitOn_toText p (fun n hn => (hp n hn).slash)
    rw [canonical, if_neg hne] at hr
    have htext : s ++ ['/'] ++ r = '/' :: (d ++ '/' :: r) := by simp [hsd]
    have hroot : ('/' :: (d ++ '/' :: r)).splitOn '/' = [] :: d :: r.splitOn '/' := by
      rw [← List.nil_append ('/' :: _), List.splitOn_append_cons_self]
      rw [List.splitOn_append_cons_self, List.splitOn_eq_singleton hslash]
      rfl
    rw [← hr, htext, hroot] at hsplit
    have hp' : p = d :: r.splitOn '/' := (List.cons.inj hsplit).2.symm
    exact ⟨rfl, _, by rw [hp']; rfl⟩

theorem uncovered_canonical_iff (m : Mounts)
    (hm : ∀ k ∈ m.keys, ∃ p, (∀ n ∈ p, Path.IsName n) ∧ k = canonical p) :
    Uncovered m ↔ ∀ k ∈ m.keys, ∀ s, IsSpecial s → ¬ s ++ ['/'] <+: k := by
  have hspecial : ∀ k ∈ smounts.map Prod.fst, ∀ s ∈ smounts.map Prod.fst, ¬ s ++ ['/'] <+: k := by decide
  constructor
  · intro h k hk s hs
    by_cases hplain : IsSpecial k
    · exact hspecial k hplain s hs
    · obtain ⟨p, hp, rfl⟩ := hm k hk
      rw [← below_special_iff hp hplain hs]
      exact (h _ hk hplain).1 s hs
  · intro h k hk hplain
    obtain ⟨p, hp, rfl⟩ := hm k hk
    refine ⟨?_, ?_⟩
    · intro s hs
      rw [below_special_iff hp hplain hs]
      exact h _ hk s hs
    · intro k' hk' hlt hpre
      obtain ⟨p', hp', rfl⟩ := hm k' hk'
      rw [point_canonical hp, point_canonical hp', List.cons_prefix_cons] at hpre
      exact absurd (canonical_le hpre.2) (not_le_of_gt hlt)

end CgxLayer.Installer
