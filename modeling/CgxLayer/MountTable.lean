import CgxLayer.Text
import Mathlib.Data.List.Count
import Mathlib.Data.List.TakeWhile

namespace CgxLayer

abbrev Path := List Text

namespace Path

def descend (p : Path) (name : Text) : Path :=
  if name = [] ∨ name = ['.'] then p else if name = ['.', '.'] then p.dropLast else p ++ [name]

def ofText (s : Text) : Path := (s.splitOn '/').foldl descend []

structure IsName (n : Text) : Prop where
  nonempty : n ≠ []
  slash : '/' ∉ n
  dot : n ≠ ['.']
  dotdot : n ≠ ['.', '.']

def toText (p : Path) : Text := p.flatMap (fun n => '/' :: n)

theorem splitOn_toText (p : Path) (hp : ∀ n ∈ p, '/' ∉ n) : (toText p).splitOn '/' = [] :: p := by
  induction p using List.reverseRecOn with
  | nil => rfl
  | append_singleton p n ih =>
    have hinit := ih (fun m hm => hp m (List.mem_append_left _ hm))
    have hn : '/' ∉ n := hp n (by simp)
    have htext : toText (p ++ [n]) = toText p ++ '/' :: n := by simp [toText]
    rw [htext, List.splitOn_append_cons_self, hinit, List.splitOn_eq_singleton hn, List.cons_append]

theorem foldl_descend (q p : Path) (hp : ∀ n ∈ p, IsName n) : p.foldl descend q = q ++ p := by
  induction p generalizing q with
  | nil => exact (List.append_nil q).symm
  | cons n p ih =>
    have hn := hp n (List.mem_cons_self ..)
    have hstep : descend q n = q ++ [n] := by
      simp [descend, hn.nonempty, hn.dot, hn.dotdot]
    rw [List.foldl_cons, hstep, ih _ (fun m hm => hp m (List.mem_cons_of_mem _ hm))]
    exact List.append_cons q n p |>.symm

theorem ofText_toText {p : Path} (hp : ∀ n ∈ p, IsName n) : ofText (toText p) = p := by
  rw [ofText, splitOn_toText p (fun n hn => (hp n hn).slash), List.foldl_cons]
  exact foldl_descend [] p hp

theorem toText_append (p q : Path) : toText (p ++ q) = toText p ++ toText q := List.flatMap_append

end Path

structure Mount (α : Type) where
  point : Path
  fs : α
deriving DecidableEq

abbrev MountTable (α : Type) := List (Mount α)

namespace MountTable

variable {α : Type}

def mount (t : MountTable α) (p : Path) (fs : α) : MountTable α := ⟨p, fs⟩ :: t

def umount (t : MountTable α) (p : Path) : MountTable α := t.eraseP (fun m => m.point = p)

/-- The mount that `p` resolves to, on top of the mounts made before it. -/
def resolve (t : MountTable α) (p : Path) : MountTable α := t.dropWhile (fun m => ¬ m.point <+: p)

def IsMountPoint (t : MountTable α) (p : Path) : Prop := (resolve t p).head?.map Mount.point = some p

instance (t : MountTable α) (p : Path) : Decidable (IsMountPoint t p) := inferInstanceAs (Decidable (_ = _))

def Busy (t : MountTable α) (p : Path) : Prop :=
  ∃ m ∈ t, p <+: m.point ∧ m.point ≠ p ∧ IsMountPoint t m.point

instance (t : MountTable α) (p : Path) : Decidable (Busy t p) := List.decidableBEx _ t

/-- The mount that `umount` takes off at `p`, when it succeeds. -/
def detach (t : MountTable α) (p : Path) : Option (Mount α) :=
  if IsMountPoint t p ∧ ¬ Busy t p then (resolve t p).head? else none

def countAt (t : MountTable α) (p : Path) : ℕ := t.countP (fun m => m.point = p)

def umountAll (t : MountTable α) (ps : List Path) : MountTable α := ps.foldl umount t

def mountAll (t : MountTable α) (ms : List (Mount α)) : MountTable α :=
  ms.foldl (fun t m => t.mount m.point m.fs) t

@[simp] theorem umount_mount (t : MountTable α) (p : Path) (fs : α) :
    umount (mount t p fs) p = t := by
  simp [umount, mount]

theorem mem_umount_of_ne {t : MountTable α} {p : Path} {m : Mount α} (hm : m.point ≠ p) :
    m ∈ umount t p ↔ m ∈ t :=
  List.mem_eraseP_of_neg (by simpa using hm)

theorem mem_mount {t : MountTable α} {p : Path} {fs : α} {m : Mount α} :
    m ∈ mount t p fs ↔ m = ⟨p, fs⟩ ∨ m ∈ t := List.mem_cons

theorem countAt_mount (t : MountTable α) (p q : Path) (fs : α) :
    countAt (mount t p fs) q = countAt t q + if p = q then 1 else 0 := by
  simp [countAt, mount, List.countP_cons]

theorem countAt_umount (t : MountTable α) (p q : Path) :
    countAt (umount t p) q = countAt t q - if p = q then 1 else 0 := by
  induction t with
  | nil => simp [countAt, umount]
  | cons m t ih =>
    simp only [countAt, umount] at ih ⊢
    by_cases hp : m.point = p
    · by_cases hq : p = q <;> simp [hp, hq]
    · rw [List.eraseP_cons_of_neg (by simpa using hp)]
      rw [List.countP_cons, List.countP_cons, ih]
      by_cases hq : p = q
      · have hmq : m.point ≠ q := fun h => hp (h.trans hq.symm)
        simp [hmq]
      · simp [hq]

theorem countAt_umountAll (t : MountTable α) (ps : List Path) (q : Path) :
    countAt (umountAll t ps) q = countAt t q - ps.count q := by
  induction ps generalizing t with
  | nil => simp [umountAll]
  | cons p ps ih =>
    change countAt (umountAll (umount t p) ps) q = _
    rw [ih, countAt_umount, List.count_cons]
    by_cases hp : p = q <;> simp [hp]; omega

theorem countAt_mountAll (t : MountTable α) (ms : List (Mount α)) (q : Path) :
    countAt (mountAll t ms) q = countAt t q + (ms.map Mount.point).count q := by
  induction ms generalizing t with
  | nil => simp [mountAll]
  | cons m ms ih =>
    change countAt (mountAll (mount t m.point m.fs) ms) q = _
    rw [ih, countAt_mount, List.map_cons, List.count_cons]
    by_cases hm : m.point = q <;> simp [hm]; omega

theorem mem_mountAll {t : MountTable α} {ms : List (Mount α)} {m : Mount α} :
    m ∈ mountAll t ms ↔ m ∈ t ∨ m ∈ ms := by
  induction ms generalizing t with
  | nil => simp [mountAll]
  | cons x ms ih =>
    change m ∈ mountAll (mount t x.point x.fs) ms ↔ _
    rw [ih, mem_mount, List.mem_cons]
    tauto

theorem mountAll_append (t : MountTable α) (ms ns : List (Mount α)) :
    mountAll t (ms ++ ns) = mountAll (mountAll t ms) ns := List.foldl_append

theorem mountAll_eq_append (t : MountTable α) (ms : List (Mount α)) :
    mountAll t ms = ms.reverse ++ t := by
  induction ms generalizing t with
  | nil => rfl
  | cons m ms ih =>
    change mountAll (mount t m.point m.fs) ms = _
    rw [ih, List.reverse_cons, List.append_assoc]
    rfl

theorem resolve_append_cons_iff (l : List (Mount α)) (m : Mount α) (t : MountTable α) :
    resolve (l ++ m :: t) m.point = m :: t ↔ ∀ n ∈ l, ¬ n.point <+: m.point := by
  induction l with
  | nil => simp [resolve]
  | cons n l ih =>
    rw [List.forall_mem_cons, ← ih]
    by_cases hn : n.point <+: m.point
    · have htop : resolve (n :: l ++ m :: t) m.point = n :: l ++ m :: t := by simp [resolve, hn]
      rw [htop]
      constructor
      · intro h
        have hlen := congrArg List.length h
        simp at hlen
        omega
      · exact fun h => absurd hn h.1
    · have hskip : resolve (n :: l ++ m :: t) m.point = resolve (l ++ m :: t) m.point := by
        simp [resolve, hn]
      rw [hskip]
      exact ⟨fun h => ⟨hn, h⟩, fun h => h.2⟩

theorem resolve_mountAll_iff (t : MountTable α) (ms : List (Mount α)) (m : Mount α)
    (ns : List (Mount α)) : resolve (mountAll t (ms ++ m :: ns)) m.point = mountAll t (ms ++ [m]) ↔
      ∀ n ∈ ns, ¬ n.point <+: m.point := by
  have hat : mountAll t (ms ++ [m]) = m :: mountAll t ms := by
    rw [mountAll_append]
    rfl
  have hafter : mountAll t (ms ++ m :: ns) = ns.reverse ++ m :: mountAll t ms := by
    rw [List.append_cons, mountAll_append, hat, mountAll_eq_append]
  rw [hafter, hat, resolve_append_cons_iff]
  simp only [List.mem_reverse]

theorem resolve_append {l : List (Mount α)} {p : Path} (hl : ∀ n ∈ l, ¬ n.point <+: p)
    (t : MountTable α) : resolve (l ++ t) p = resolve t p := by
  apply List.dropWhile_append_of_pos
  intro n hn
  simpa using hl n hn

theorem umount_append_cons {l : List (Mount α)} {m : Mount α} (t : MountTable α)
    (hl : ∀ n ∈ l, ¬ n.point <+: m.point) : umount (l ++ m :: t) m.point = l ++ t := by
  rw [umount, List.eraseP_append_right]
  · rw [List.eraseP_cons_of_pos (by simp)]
  · intro n hn
    have hne : n.point ≠ m.point := fun heq => hl n hn (heq ▸ List.prefix_refl _)
    simpa using hne

theorem detach_of_incomparable {l : List (Mount α)} {m : Mount α} (t : MountTable α)
    (hl : ∀ n ∈ l, ¬ n.point <+: m.point ∧ ¬ m.point <+: n.point) :
    detach (l ++ m :: t) m.point = some m := by
  have hres := (resolve_append_cons_iff l m t).mpr (fun n hn => (hl n hn).1)
  have hmount : IsMountPoint (l ++ m :: t) m.point := by
    rw [IsMountPoint, hres]
    rfl
  have hfree : ¬ Busy (l ++ m :: t) m.point := by
    rintro ⟨n, hn, hbelow, hne, hvisible⟩
    have habove : ∀ x ∈ l, ¬ x.point <+: n.point := by
      intro x hx hpre
      cases List.prefix_or_prefix_of_prefix hpre hbelow with
      | inl h => exact (hl x hx).1 h
      | inr h => exact (hl x hx).2 h
    have hcovered : resolve (l ++ m :: t) n.point = m :: t := by
      rw [resolve_append habove]
      simp [resolve, hbelow]
    rw [IsMountPoint, hcovered] at hvisible
    exact hne (Option.some.inj hvisible).symm
  rw [detach, if_pos ⟨hmount, hfree⟩, hres]
  rfl

def umountCall (t : MountTable α) (p : Path) : MountTable α × Option (Mount α) :=
  match detach t p with
  | none => (t, none)
  | some m => (umount t p, some m)

def umountCalls : MountTable α → List Path → MountTable α × List (Option (Mount α))
  | t, [] => (t, [])
  | t, p :: ps =>
    let called := umountCall t p
    let rest := umountCalls called.1 ps
    (rest.1, called.2 :: rest.2)

theorem umountCalls_eq_umountAll {t : MountTable α} {ps : List Path}
    (h : ∀ r ∈ (umountCalls t ps).2, r ≠ none) : (umountCalls t ps).1 = umountAll t ps := by
  induction ps generalizing t with
  | nil => rfl
  | cons p ps ih =>
    have hfirst : (umountCall t p).2 ≠ none := h _ (List.mem_cons_self ..)
    have hcall : (umountCall t p).1 = umount t p := by
      unfold umountCall at hfirst ⊢
      cases hd : detach t p with
      | none =>
        rw [hd] at hfirst
        exact absurd rfl hfirst
      | some m => rfl
    have hrest := ih (t := (umountCall t p).1) (fun r hr => h r (List.mem_cons_of_mem _ hr))
    change (umountCalls (umountCall t p).1 ps).1 = umountAll (umount t p) ps
    rw [hrest, hcall]

theorem umountCalls_append (t : MountTable α) (ps qs : List Path) :
    umountCalls t (ps ++ qs) =
      ((umountCalls (umountCalls t ps).1 qs).1, (umountCalls t ps).2 ++ (umountCalls (umountCalls t ps).1 qs).2) := by
  induction ps generalizing t with
  | nil => rfl
  | cons p ps ih => simp only [List.cons_append, umountCalls, ih]

theorem umountCall_incomparable {l : List (Mount α)} {m : Mount α} (t : MountTable α)
    (hl : ∀ n ∈ l, ¬ n.point <+: m.point ∧ ¬ m.point <+: n.point) :
    umountCall (l ++ m :: t) m.point = (l ++ t, some m) := by
  rw [umountCall, detach_of_incomparable t hl]
  dsimp only
  rw [umount_append_cons t (fun n hn => (hl n hn).1)]

theorem umountCall_top (t : MountTable α) (m : Mount α) : umountCall (m :: t) m.point = (t, some m) :=
  umountCall_incomparable (l := []) t (fun _ hn => absurd hn List.not_mem_nil)

theorem umountCalls_stack (t : MountTable α) (ms : List (Mount α)) :
    umountCalls (ms ++ t) (ms.map Mount.point) = (t, ms.map some) := by
  induction ms with
  | nil => rfl
  | cons m ms ih =>
    rw [List.map_cons, List.cons_append, umountCalls, umountCall_top]
    dsimp only
    rw [ih, List.map_cons]

theorem eq_nil_of_countAt {t : MountTable α} (h : ∀ p, countAt t p = 0) : t = [] := by
  cases t with
  | nil => rfl
  | cons m t =>
    have hm := h m.point
    simp [countAt] at hm

theorem umountAll_eq_nil {t : MountTable α} {ps : List Path}
    (h : ∀ p, countAt t p ≤ ps.count p) : umountAll t ps = [] := by
  apply eq_nil_of_countAt
  intro p
  rw [countAt_umountAll]
  have := h p
  omega

end MountTable

end CgxLayer
