import Mathlib.Data.List.Count

namespace CgxLayer.Locking

inductive Kind where
  | acquire
  | release
  | critical
  | free
  deriving DecidableEq

structure Proc (C : Type) where
  running : Option C
  todo : List C

variable {C : Type} (kind : C → Kind)

def Proc.start (todo : List C) : Proc C := ⟨none, todo⟩

-- `acquire` is one attempt at the test-and-set, tried again when the lock is taken.
def Proc.step (lock : Bool) (p : Proc C) : Bool × Proc C :=
  match p.running, p.todo with
  | some _, todo => (lock, ⟨none, todo⟩)
  | none, [] => (lock, p)
  | none, c :: todo =>
    match kind c with
    | .acquire => if lock then (true, p) else (true, ⟨none, todo⟩)
    | .release => (false, ⟨none, todo⟩)
    | _ => (lock, ⟨some c, todo⟩)

def holds : List C → Bool
  | [] => false
  | c :: todo =>
    match kind c with
    | .release => true
    | .acquire => false
    | _ => holds todo

def Bracketed : List C → Prop
  | [] => True
  | c :: todo =>
    (match kind c with
      | .acquire => holds kind todo = true
      | .release => holds kind todo = false
      | .critical => holds kind todo = true
      | .free => True) ∧ Bracketed todo

def Proc.inCritical (p : Proc C) : Bool :=
  match p.running with
  | some c => kind c == .critical
  | none => false

def Proc.starts (p : Proc C) : Bool :=
  match p.running, p.todo with
  | none, c :: _ => kind c == .critical
  | _, _ => false

structure Proc.Sound (p : Proc C) : Prop where
  bracketed : Bracketed kind p.todo
  critical : p.inCritical kind = true → holds kind p.todo = true

structure Pool (C : Type) where
  lock : Bool
  procs : List (Proc C)

def Pool.step (s : Pool C) (i : ℕ) : Pool C :=
  match s.procs[i]? with
  | none => s
  | some p => ⟨(p.step kind s.lock).1, s.procs.set i (p.step kind s.lock).2⟩

def Pool.spawn (s : Pool C) (todo : List C) : Pool C := { s with procs := s.procs ++ [.start todo] }

structure Pool.Ordered (s : Pool C) : Prop where
  sound : ∀ p ∈ s.procs, p.Sound kind
  holders : s.procs.countP (fun p => holds kind p.todo) = s.lock.toNat

variable {kind}

theorem Proc.step_cases {p : Proc C} (hp : p.Sound kind) (lock : Bool) :
    (p.step kind lock).2.Sound kind ∧
      ((lock = false ∧ (p.step kind lock).1 = true ∧ holds kind p.todo = false ∧
          holds kind (p.step kind lock).2.todo = true) ∨
        ((p.step kind lock).1 = false ∧ holds kind p.todo = true ∧
          holds kind (p.step kind lock).2.todo = false) ∨
        ((p.step kind lock).1 = lock ∧
          holds kind (p.step kind lock).2.todo = holds kind p.todo)) := by
  obtain ⟨running, todo⟩ := p
  obtain ⟨hb, hc⟩ := hp
  cases running with
  | some c => exact ⟨⟨hb, fun h => by cases h⟩, .inr (.inr ⟨rfl, rfl⟩)⟩
  | none =>
    cases todo with
    | nil => exact ⟨⟨hb, fun h => by cases h⟩, .inr (.inr ⟨rfl, rfl⟩)⟩
    | cons c todo =>
      cases hk : kind c with
      | acquire =>
        simp only [Bracketed, hk] at hb
        cases lock with
        | true => exact ⟨⟨by simp [Proc.step, hk, Bracketed, hb], by simp [Proc.step, hk, Proc.inCritical]⟩,
            by simp [Proc.step, hk]⟩
        | false => exact ⟨⟨by simp [Proc.step, hk, hb], by simp [Proc.step, hk, Proc.inCritical]⟩,
            .inl (by simp [Proc.step, hk, hb, holds])⟩
      | release =>
        simp only [Bracketed, hk] at hb
        exact ⟨⟨by simp [Proc.step, hk, hb], by simp [Proc.step, hk, Proc.inCritical]⟩,
          .inr (.inl (by simp [Proc.step, hk, hb, holds]))⟩
      | critical =>
        simp only [Bracketed, hk] at hb
        exact ⟨⟨by simp [Proc.step, hk, hb], by simp [Proc.step, hk, hb]⟩,
          .inr (.inr (by simp [Proc.step, hk, holds]))⟩
      | free =>
        simp only [Bracketed, hk] at hb
        exact ⟨⟨by simp [Proc.step, hk, hb], by simp [Proc.step, hk, Proc.inCritical]⟩,
          .inr (.inr (by simp [Proc.step, hk, holds]))⟩

theorem Proc.inCritical_step (p : Proc C) (lock : Bool) :
    (p.step kind lock).2.inCritical kind = p.starts kind := by
  obtain ⟨running, todo⟩ := p
  cases running with
  | some c => rfl
  | none =>
    cases todo with
    | nil => rfl
    | cons c todo =>
      cases hk : kind c <;> cases lock <;> simp [Proc.step, Proc.inCritical, Proc.starts, hk]

def Unlocked (kind : C → Kind) (todo : List C) : Prop :=
  ∀ c ∈ todo, kind c ≠ .acquire ∧ kind c ≠ .release

theorem Unlocked.append {a b : List C} (ha : Unlocked kind a) (hb : Unlocked kind b) :
    Unlocked kind (a ++ b) := List.forall_mem_append.mpr ⟨ha, hb⟩

theorem Proc.step_unlocked {p : Proc C} (hp : Unlocked kind p.todo) (lock : Bool) :
    (p.step kind lock).1 = lock ∧ Unlocked kind (p.step kind lock).2.todo := by
  obtain ⟨running, todo⟩ := p
  cases running with
  | some c => exact ⟨rfl, hp⟩
  | none =>
    cases todo with
    | nil => exact ⟨rfl, hp⟩
    | cons c todo =>
      have hc := hp c (List.mem_cons_self ..)
      have htodo : Unlocked kind todo := fun d hd => hp d (List.mem_cons_of_mem _ hd)
      cases hk : kind c with
      | acquire => exact absurd hk hc.1
      | release => exact absurd hk hc.2
      | critical => simpa [Proc.step, hk] using htodo
      | free => simpa [Proc.step, hk] using htodo

theorem Pool.Ordered.step {s : Pool C} (hs : s.Ordered kind) (i : ℕ) : (s.step kind i).Ordered kind := by
  cases hi : s.procs[i]? with
  | none => simpa only [Pool.step, hi] using hs
  | some p =>
    obtain ⟨hlt, hget⟩ := List.getElem?_eq_some_iff.mp hi
    have hmem : p ∈ s.procs := hget ▸ List.getElem_mem hlt
    obtain ⟨hsound, hlock⟩ := Proc.step_cases (hs.sound p hmem) s.lock
    have hset := List.countP_set (p := fun p => holds kind p.todo) (a := (p.step kind s.lock).2) hlt
    have hpos : holds kind p.todo = true → 0 < s.procs.countP (fun p => holds kind p.todo) :=
      fun h => List.countP_pos_iff.mpr ⟨p, hmem, h⟩
    have hholders := hs.holders
    simp only [Pool.step, hi]
    refine ⟨?_, ?_⟩
    · intro q hq
      rcases List.mem_or_eq_of_mem_set hq with hq | rfl
      · exact hs.sound q hq
      · exact hsound
    · change _ = (p.step kind s.lock).1.toNat
      rw [hset, hget]
      rcases hlock with ⟨hfree, htaken, hno, hyes⟩ | ⟨hgiven, hyes, hno⟩ | ⟨hsame, hsame'⟩
      · rw [if_neg (by rw [hno]; exact Bool.false_ne_true), if_pos hyes, htaken, hholders, hfree]
        rfl
      · have hone := hpos hyes
        have hle := Bool.toNat_le s.lock
        rw [if_pos hyes, if_neg (by rw [hno]; exact Bool.false_ne_true), hgiven, Bool.toNat_false]
        omega
      · rw [hsame, hsame', hholders]
        split_ifs with h
        · have hone := hpos h
          omega
        · omega

theorem Pool.Ordered.spawn {s : Pool C} (hs : s.Ordered kind) {todo : List C} (hb : Bracketed kind todo)
    (hno : holds kind todo = false) : (s.spawn todo).Ordered kind := by
  refine ⟨?_, ?_⟩
  · intro p hp
    rcases List.mem_append.mp hp with hp | hp
    · exact hs.sound p hp
    · rw [List.mem_singleton.mp hp]
      exact ⟨hb, fun h => by cases h⟩
  · simp [Pool.spawn, Proc.start, hno, hs.holders]

theorem Pool.Ordered.critical_le {s : Pool C} (hs : s.Ordered kind) :
    s.procs.countP (fun p => p.inCritical kind) ≤ 1 := by
  have hle : s.procs.countP (fun p => p.inCritical kind) ≤ s.procs.countP (fun p => holds kind p.todo) :=
    List.countP_mono_left (fun p hp h => (hs.sound p hp).critical h)
  rw [hs.holders] at hle
  have hlock := Bool.toNat_le s.lock
  omega

def Complete (kind : C → Kind) (todo : List C) : Prop :=
  ∀ rest, Bracketed kind rest → holds kind rest = false →
    Bracketed kind (todo ++ rest) ∧ holds kind (todo ++ rest) = false

theorem complete_nil : Complete kind [] := fun _ hb hno => ⟨hb, hno⟩

theorem Complete.append {a b : List C} (ha : Complete kind a) (hb : Complete kind b) :
    Complete kind (a ++ b) := by
  intro rest hrest hno
  have hmid := hb rest hrest hno
  rw [List.append_assoc]
  exact ha _ hmid.1 hmid.2

theorem complete_of_free {todo : List C} (h : ∀ c ∈ todo, kind c = .free) : Complete kind todo := by
  induction todo with
  | nil => exact complete_nil
  | cons c todo ih =>
    intro rest hrest hno
    have hc := h c (List.mem_cons_self ..)
    have htail := ih (fun d hd => h d (List.mem_cons_of_mem _ hd)) rest hrest hno
    simpa [Bracketed, holds, hc] using htail

theorem bracketed_held {body : List C} (hbody : ∀ c ∈ body, kind c = .critical ∨ kind c = .free)
    {rest : List C} (hrest : Bracketed kind rest) (hheld : holds kind rest = true) :
    Bracketed kind (body ++ rest) ∧ holds kind (body ++ rest) = true := by
  induction body with
  | nil => exact ⟨hrest, hheld⟩
  | cons c body ih =>
    have htail := ih (fun d hd => hbody d (List.mem_cons_of_mem _ hd))
    rcases hbody c (List.mem_cons_self ..) with hc | hc <;> simp [Bracketed, holds, hc, htail.1, htail.2]

theorem complete_section {acq rel : C} {body : List C} (hacq : kind acq = .acquire)
    (hrel : kind rel = .release) (hbody : ∀ c ∈ body, kind c = .critical ∨ kind c = .free) :
    Complete kind (acq :: body ++ [rel]) := by
  intro rest hrest hno
  have hend : Bracketed kind (rel :: rest) ∧ holds kind (rel :: rest) = true := by
    simp [Bracketed, holds, hrel, hrest, hno]
  have hmid := bracketed_held hbody hend.1 hend.2
  simpa [Bracketed, holds, hacq] using hmid.symm

theorem Complete.bracketed {todo : List C} (h : Complete kind todo) :
    Bracketed kind todo ∧ holds kind todo = false := by
  simpa using h [] trivial rfl

def Proc.pending (p : Proc C) : List C := p.running.toList ++ p.todo

theorem Proc.mem_pending_of_step {p : Proc C} {lock : Bool} {c : C} (hc : c ∈ (p.step kind lock).2.pending) :
    c ∈ p.pending := by
  obtain ⟨running, todo⟩ := p
  cases running with
  | some d => exact List.mem_cons_of_mem _ hc
  | none =>
    cases todo with
    | nil => exact hc
    | cons d todo =>
      cases hk : kind d <;> cases lock <;> simp only [Proc.step, hk] at hc <;>
        first | exact hc | exact List.mem_cons_of_mem _ hc

theorem Proc.mem_pending_step {p : Proc C} {c : C} (hc : c ∈ p.pending) (hacq : kind c ≠ .acquire)
    (hrel : kind c ≠ .release) (hrun : p.running ≠ some c) (lock : Bool) : c ∈ (p.step kind lock).2.pending := by
  obtain ⟨running, todo⟩ := p
  cases running with
  | some d =>
    obtain rfl | hc := List.mem_cons.mp hc
    · exact absurd rfl hrun
    · exact hc
  | none =>
    cases todo with
    | nil => exact hc
    | cons d todo =>
      obtain rfl | htodo := List.mem_cons.mp hc
      · cases hk : kind c with
        | acquire => exact absurd hk hacq
        | release => exact absurd hk hrel
        | critical => simp [Proc.step, hk, Proc.pending]
        | free => simp [Proc.step, hk, Proc.pending]
      · cases hk : kind d <;> cases lock <;> simp [Proc.step, hk, Proc.pending, htodo]

def Pool.pending (s : Pool C) : List C := s.procs.flatMap Proc.pending

def Pool.running (s : Pool C) (i : ℕ) : Option C := s.procs[i]?.bind Proc.running

theorem Pool.mem_pending_of_step {s : Pool C} {i : ℕ} {c : C} (hc : c ∈ (s.step kind i).pending) :
    c ∈ s.pending := by
  cases hi : s.procs[i]? with
  | none => simpa only [Pool.step, hi] using hc
  | some p =>
    simp only [Pool.step, hi] at hc
    obtain ⟨q, hq, hc⟩ := List.mem_flatMap.mp hc
    obtain hq | rfl := List.mem_or_eq_of_mem_set hq
    · exact List.mem_flatMap.mpr ⟨q, hq, hc⟩
    · exact List.mem_flatMap.mpr ⟨p, List.mem_of_getElem? hi, Proc.mem_pending_of_step hc⟩

theorem Pool.mem_pending_step {s : Pool C} {i : ℕ} {c : C} (hc : c ∈ s.pending) (hacq : kind c ≠ .acquire)
    (hrel : kind c ≠ .release) (hrun : s.running i ≠ some c) : c ∈ (s.step kind i).pending := by
  cases hi : s.procs[i]? with
  | none => simpa only [Pool.step, hi] using hc
  | some p =>
    obtain ⟨hlt, hget⟩ := List.getElem?_eq_some_iff.mp hi
    simp only [Pool.step, hi]
    obtain ⟨q, hq, hc⟩ := List.mem_flatMap.mp hc
    obtain ⟨j, hj, hqj⟩ := List.getElem_of_mem hq
    apply List.mem_flatMap.mpr
    rcases eq_or_ne i j with rfl | hne
    · obtain rfl : p = q := hget.symm.trans hqj
      refine ⟨_, List.mem_set hlt _, Proc.mem_pending_step hc hacq hrel ?_ s.lock⟩
      simpa only [Pool.running, hi, Option.bind_some] using hrun
    · refine ⟨q, ?_, hc⟩
      apply List.mem_iff_getElem.mpr
      exact ⟨j, by simpa using hj, by rw [List.getElem_set_ne hne, hqj]⟩

theorem Pool.running_mem_pending {s : Pool C} {i : ℕ} {c : C} (h : s.running i = some c) : c ∈ s.pending := by
  obtain ⟨p, hp, hc⟩ := Option.bind_eq_some_iff.mp h
  refine List.mem_flatMap.mpr ⟨p, List.mem_of_getElem? hp, ?_⟩
  rw [Proc.pending, hc]
  exact List.mem_cons_self ..

theorem Pool.pending_spawn (s : Pool C) (todo : List C) : (s.spawn todo).pending = s.pending ++ todo := by
  simp [Pool.pending, Pool.spawn, Proc.start, Proc.pending]

end CgxLayer.Locking
