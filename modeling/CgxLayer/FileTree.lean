import Mathlib.Data.List.Infix

namespace CgxLayer

inductive Node (F : Type) where
  | dir
  | file (f : F)

abbrev FileTree (N F : Type) := List N → Option (Node F)

namespace FileTree

variable {N F : Type}

def isDir (t : FileTree N F) (p : List N) : Bool :=
  match t p with
  | some .dir => true
  | _ => false

theorem isDir_iff {t : FileTree N F} {p : List N} : t.isDir p = true ↔ t p = some .dir := by
  unfold isDir
  split
  · simp [*]
  · rename_i hne
    exact ⟨fun h => (Bool.false_ne_true h).elim, fun h => absurd h hne⟩

variable [DecidableEq N]

def remove (t : FileTree N F) (p : List N) : FileTree N F := fun q => if p <+: q then none else t q

-- `mkdir -p`, the top directory being there
def mkdirs (t : FileTree N F) (p : List N) : FileTree N F :=
  fun q => if t q = none ∧ q ≠ [] ∧ q <+: p then some .dir else t q

def mkdirsAll (t : FileTree N F) (ps : List (List N)) : FileTree N F := ps.foldl mkdirs t

def put (t : FileTree N F) (p : List N) (f : F) : FileTree N F :=
  fun q => if q = p then some (.file f) else t q

def copyTo (t : FileTree N F) (p : List N) (f : F) : FileTree N F := (t.mkdirs p.dropLast).put p f

def copyAll (t : FileTree N F) (content : List N → F) (ps : List (List N)) : FileTree N F :=
  ps.foldl (fun t p => t.copyTo p (content p)) t

def putAll (t : FileTree N F) (dir : List N) (files : List (N × F)) : FileTree N F :=
  files.foldl (fun t e => t.put (dir ++ [e.1]) e.2) t

def move (t : FileTree N F) (src dst : List N) : FileTree N F :=
  fun q => if dst <+: q then t (src ++ q.drop dst.length) else if src <+: q then none else t q

-- `mv` to a name that is free
def rename (t : FileTree N F) (src dst : List N) : Option (FileTree N F) :=
  if (t src).isSome && (t dst).isNone && t.isDir dst.dropLast && !decide (src <+: dst) then some (t.move src dst)
  else none

def mkdir (t : FileTree N F) (p : List N) : Option (FileTree N F) :=
  if (t p).isNone && t.isDir p.dropLast then some (fun q => if q = p then some .dir else t q) else none

def subtree (t : FileTree N F) (p : List N) : FileTree N F := fun q => t (p ++ q)

def isFile (t : FileTree N F) (p : List N) : Bool :=
  match t p with
  | some (.file _) => true
  | _ => false

-- `mkdir -p`, with files that may be in its way
def mkdirP (t : FileTree N F) (p : List N) : FileTree N F := if p.inits.any t.isFile then t else t.mkdirs p

/-- What `cp -r` leaves of a new node where an old one is: it does not put a file for a directory. -/
def pasted : Option (Node F) → Option (Node F) → Option (Node F)
  | none, old => old
  | some .dir, some (.file f) => some (.file f)
  | some .dir, _ => some .dir
  | some (.file _), some .dir => some .dir
  | some (.file f), _ => some (.file f)

def blocked (t : FileTree N F) (dir p : List N) : Bool := p.inits.dropLast.any (fun r => t.isFile (dir ++ r))

def overlay (t sub : FileTree N F) (dir : List N) : FileTree N F := fun q =>
  let p := q.drop dir.length
  if dir <+: q ∧ t.blocked dir p = false then pasted (sub p) (t q) else t q

-- `cp -r` of a tree called `base`
def copyInto (t sub : FileTree N F) (base : N) (dst : List N) : FileTree N F :=
  let dst := if t.isDir dst then dst ++ [base] else dst
  if (sub []).isSome && t.isDir dst.dropLast then t.overlay sub dst else t

theorem rename_of_none {t : FileTree N F} {src : List N} (h : t src = none) (dst : List N) :
    t.rename src dst = none := by simp [rename, h]

theorem rename_eq {t : FileTree N F} {src dst : List N} (hsrc : t src = some .dir) (hdst : t dst = none)
    (hparent : t dst.dropLast = some .dir) (hout : ¬ src <+: dst) :
    t.rename src dst = some (t.move src dst) := by
  simp [rename, hsrc, hdst, isDir_iff.mpr hparent, hout]

theorem mkdir_eq {t : FileTree N F} {p : List N} (hp : t p = none) (hparent : t p.dropLast = some .dir) :
    t.mkdir p = some (fun q => if q = p then some .dir else t q) := by
  simp [mkdir, hp, isDir_iff.mpr hparent]

theorem copyTo_apply (t : FileTree N F) (p : List N) (f : F) (q : List N) : t.copyTo p f q =
    if q = p then some (.file f) else if t q = none ∧ q ≠ [] ∧ q <+: p.dropLast then some .dir else t q := rfl

theorem copyAll_apply (t : FileTree N F) (content : List N → F) (ps : List (List N)) (q : List N) :
    t.copyAll content ps q = if q ∈ ps then some (.file (content q))
      else if t q = none ∧ q ≠ [] ∧ ∃ p ∈ ps, q <+: p.dropLast then some .dir else t q := by
  induction ps using List.reverseRecOn with
  | nil => simp [copyAll]
  | append_singleton ps p ih =>
    have hlast : t.copyAll content (ps ++ [p]) q = (t.copyAll content ps).copyTo p (content p) q := by
      rw [copyAll, List.foldl_append]
      rfl
    rw [hlast, copyTo_apply, ih]
    simp only [List.mem_append, List.mem_singleton, or_and_right, exists_or, exists_eq_left]
    by_cases hp : q = p
    · simp [hp]
    · by_cases hmem : q ∈ ps
      · simp [hp, hmem]
      · by_cases hdir : t q = none ∧ q ≠ [] ∧ ∃ p ∈ ps, q <+: p.dropLast
        · simp [hp, hmem, hdir]
        · simp only [hp, hmem, hdir, if_false, or_self]
          congr 1
          have hno : t q = none → q ≠ [] → ¬ ∃ p ∈ ps, q <+: p.dropLast :=
            fun hnone hne hex => hdir ⟨hnone, hne, hex⟩
          simp only [eq_iff_iff]
          constructor
          · rintro ⟨hnone, hne, hpre⟩
            exact ⟨hnone, hne, .inr hpre⟩
          · rintro ⟨hnone, hne, hpre | hpre⟩
            · exact absurd hpre (hno hnone hne)
            · exact ⟨hnone, hne, hpre⟩

theorem copyAll_of_mem (t : FileTree N F) (content : List N → F) {ps : List (List N)} {q : List N}
    (h : q ∈ ps) : t.copyAll content ps q = some (.file (content q)) := by
  rw [copyAll_apply, if_pos h]

theorem copyAll_congr {t t' : FileTree N F} (content : List N → F) {ps ps' : List (List N)}
    (hps : ∀ p, p ∈ ps ↔ p ∈ ps') {q : List N} (h : t q = t' q) :
    t.copyAll content ps q = t'.copyAll content ps' q := by
  simp only [copyAll_apply, hps, h]

theorem copyAll_of_not_prefix (t : FileTree N F) (content : List N → F) {ps : List (List N)}
    {q : List N} (h : ∀ p ∈ ps, ¬ q <+: p) : t.copyAll content ps q = t q := by
  have hmem : q ∉ ps := fun hq => h q hq (List.prefix_refl q)
  have hdir : ¬ ∃ p ∈ ps, q <+: p.dropLast :=
    fun ⟨p, hp, hpre⟩ => h p hp (hpre.trans (List.dropLast_prefix p))
  rw [copyAll_apply, if_neg hmem, if_neg (fun hd => hdir hd.2.2)]

theorem copyAll_nil (t : FileTree N F) (content : List N → F) {ps : List (List N)} (h : [] ∉ ps) :
    t.copyAll content ps [] = t [] := by
  rw [copyAll_apply, if_neg h, if_neg (fun hd => hd.2.1 rfl)]

theorem copyAll_getD (t : FileTree N F) (content : List N → F) {ps : List (List N)} {q : List N}
    (h : q ∉ ps) : (t.copyAll content ps q).getD .dir = (t q).getD .dir := by
  rw [copyAll_apply, if_neg h]
  split_ifs with hd
  · rw [hd.1]
    rfl
  · rfl

theorem mem_of_copyAll {t : FileTree N F} {content : List N → F} {ps : List (List N)} {q : List N}
    {f : F} (hnone : t q = none) (h : t.copyAll content ps q = some (.file f)) : q ∈ ps := by
  by_contra hmem
  rw [copyAll_apply, if_neg hmem, hnone] at h
  split_ifs at h
  cases h

theorem mkdirs_of_prefix (t : FileTree N F) {p q : List N} (hq : q ≠ []) (h : q <+: p) :
    t.mkdirs p q = some ((t q).getD .dir) := by
  cases ht : t q with
  | none => exact if_pos ⟨ht, hq, h⟩
  | some n => exact (if_neg (fun hd => by rw [ht] at hd; cases hd.1)).trans ht

theorem mkdirs_of_not_prefix (t : FileTree N F) {p q : List N} (h : ¬ q <+: p) : t.mkdirs p q = t q :=
  if_neg (fun hd => h hd.2.2)

theorem mkdirs_nil (t : FileTree N F) (p : List N) : t.mkdirs p [] = t [] := if_neg (fun hd => hd.2.1 rfl)

theorem mkdirsAll_apply (t : FileTree N F) (ps : List (List N)) (q : List N) : t.mkdirsAll ps q =
    if t q = none ∧ q ≠ [] ∧ ∃ p ∈ ps, q <+: p then some .dir else t q := by
  induction ps using List.reverseRecOn with
  | nil => simp [mkdirsAll]
  | append_singleton ps p ih =>
    have hlast : t.mkdirsAll (ps ++ [p]) q = (t.mkdirsAll ps).mkdirs p q := by
      rw [mkdirsAll, List.foldl_append]
      rfl
    rw [hlast, mkdirs, ih]
    simp only [List.mem_append, List.mem_singleton, or_and_right, exists_or, exists_eq_left]
    by_cases hdir : t q = none ∧ q ≠ [] ∧ ∃ p ∈ ps, q <+: p
    · simp [hdir]
    · rw [if_neg hdir]
      congr 1
      rw [eq_iff_iff]
      exact and_congr_right fun hnone => and_congr_right fun hne =>
        ⟨.inr, fun h => h.resolve_left (fun hex => hdir ⟨hnone, hne, hex⟩)⟩

theorem mkdirsAll_of_not_prefix (t : FileTree N F) {ps : List (List N)} {q : List N} (h : ∀ p ∈ ps, ¬ q <+: p) :
    t.mkdirsAll ps q = t q := by
  rw [mkdirsAll_apply, if_neg]
  rintro ⟨-, -, p, hp, hpre⟩
  exact h p hp hpre

theorem mkdirsAll_nil (t : FileTree N F) (ps : List (List N)) : t.mkdirsAll ps [] = t [] := by
  rw [mkdirsAll_apply, if_neg (fun h => h.2.1 rfl)]

theorem mkdirsAll_getD (t : FileTree N F) (ps : List (List N)) (q : List N) :
    (t.mkdirsAll ps q).getD .dir = (t q).getD .dir := by
  rw [mkdirsAll_apply]
  split_ifs with hd
  · rw [hd.1]
    rfl
  · rfl

theorem putAll_congr {t t' : FileTree N F} (dir : List N) (files : List (N × F)) {q : List N}
    (h : t q = t' q) : t.putAll dir files q = t'.putAll dir files q := by
  induction files generalizing t t' with
  | nil => exact h
  | cons e files ih =>
    apply ih
    simp only [put, h]

theorem putAll_of_not_prefix (t : FileTree N F) {dir : List N} (files : List (N × F)) {q : List N}
    (h : ¬ dir <+: q) : t.putAll dir files q = t q := by
  induction files generalizing t with
  | nil => rfl
  | cons e files ih =>
    have hne : q ≠ dir ++ [e.1] := fun hq => h (hq ▸ List.prefix_append _ _)
    exact (ih (t.put (dir ++ [e.1]) e.2)).trans (if_neg hne)

theorem mkdirP_of_not_prefix (t : FileTree N F) {p q : List N} (h : ¬ q <+: p) : t.mkdirP p q = t q := by
  rw [mkdirP]
  split_ifs
  · rfl
  · exact mkdirs_of_not_prefix t h

theorem overlay_of_not_prefix (t sub : FileTree N F) {dir q : List N} (h : ¬ dir <+: q) :
    t.overlay sub dir q = t q := if_neg (fun hd => h hd.1)

theorem overlay_of_none (t : FileTree N F) {sub : FileTree N F} {dir q : List N}
    (h : sub (q.drop dir.length) = none) : t.overlay sub dir q = t q := by
  rw [overlay, h]
  exact ite_self _

theorem copyInto_of_not_prefix (t sub : FileTree N F) (base : N) {dst q : List N} (h : ¬ dst <+: q) :
    t.copyInto sub base dst q = t q := by
  rw [copyInto]
  split_ifs
  · exact overlay_of_not_prefix t sub (fun hpre => h ((List.prefix_append dst [base]).trans hpre))
  · rfl
  · exact overlay_of_not_prefix t sub h
  · rfl

theorem copyInto_file {t sub : FileTree N F} {f : F} (base : N) {dst : List N} (hsub : sub [] = some (.file f))
    (hdst : t dst ≠ some .dir) (hparent : t dst.dropLast = some .dir) :
    t.copyInto sub base dst dst = some (.file f) := by
  have hfree : t.isDir dst = false := (Bool.not_eq_true _).mp (fun h => hdst (isDir_iff.mp h))
  rw [copyInto, hfree]
  simp only [Bool.false_eq_true, if_false, hsub, Option.isSome_some, isDir_iff.mpr hparent, Bool.and_self, if_true]
  rw [overlay]
  simp only [List.drop_length, List.prefix_refl, true_and, hsub]
  have hopen : t.blocked dst [] = false := rfl
  rw [if_pos hopen]
  cases hold : t dst with
  | none => rfl
  | some n =>
    cases n with
    | dir => exact absurd hold hdst
    | file g => rfl

end FileTree

end CgxLayer
