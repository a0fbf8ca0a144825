import CgxLayer.Acyclic
import CgxLayer.Bytes

namespace CgxLayer.Kdump

open Relation

/-- A crash dump with the register of a task's `thread` that holds its stack pointer, `sp`, `reg29`
on mips and `ksp` on powerpc. -/
structure Dump where
  wordSize : ℕ
  little : Bool
  byte : ℕ → Option UInt8
  stackp : ℕ
  word : wordSize = 4 ∨ wordSize = 8
  inWord : stackp < 2 ^ (8 * wordSize)

/-- What the debugger reads and prints: the addresses of the words it asks for, the frames, and the
addresses that it looks up symbols for. -/
structure Trace where
  reads : List ℕ
  frames : List ℕ
  symbols : List ℕ

def Trace.append (t u : Trace) : Trace := ⟨t.reads ++ u.reads, t.frames ++ u.frames, t.symbols ++ u.symbols⟩

namespace Dump

variable (d : Dump)

def modulus : ℕ := 2 ^ (8 * d.wordSize)

-- `*(ulong *)`
def ulong (a : ℕ) : Option ℕ :=
  ((List.range d.wordSize).mapM (fun i => d.byte (a + i))).map (Bytes.decode d.little)

-- `~4095` in a word
def stackBot : ℕ := d.stackp &&& (d.modulus - 4096)

def stackTop : ℕ := (d.stackBot + 4096) % d.modulus

abbrev Within (f : ℕ) : Prop := f < d.stackTop ∧ f > d.stackBot

def frameAt (stackp : ℕ) : Trace × Option ℕ :=
  let ret := (stackp + d.wordSize) % d.modulus
  match d.ulong ret with
  | none => (⟨[ret], [stackp], []⟩, none)
  | some addr => (⟨[ret, stackp], [stackp], [addr]⟩, d.ulong stackp)

def walkLoop : ℕ → ℕ → Option Trace
  | 0, _ => none
  | fuel + 1, stackp =>
    if d.Within stackp then
      match d.frameAt stackp with
      | (t, none) => some t
      | (t, some next) => (walkLoop fuel next).map t.append
    else some ⟨[], [], []⟩

/-- The walk of `btpid` once the task is found, to at most `fuel` rounds. -/
def btpid (fuel : ℕ) : Option Trace :=
  match d.ulong d.stackp with
  | none => some ⟨[d.stackp], [], []⟩
  | some stackp => (d.walkLoop fuel stackp).map (Trace.append ⟨[d.stackp], [], []⟩)

def InPage (a : ℕ) : Prop := d.stackBot ≤ a ∧ a + d.wordSize ≤ d.stackBot + 4096

structure WalksPage (t : Trace) : Prop where
  reads : ∀ a ∈ t.reads, d.InPage a
  frames : t.frames.Nodup

def Backtraces : Prop := ∃ fuel t, d.btpid fuel = some t ∧ d.WalksPage t

/-- A frame of the page, and the one its first word points to, the word after it being readable. -/
def Link (f g : ℕ) : Prop :=
  (d.ulong (f + d.wordSize)).isSome = true ∧ d.ulong f = some g ∧ d.Within g

def Frame (f : ℕ) : Prop :=
  ∃ first, d.ulong d.stackp = some first ∧ d.Within first ∧ ReflTransGen d.Link first f

structure Uncorrupted : Prop where
  stackp : d.InPage d.stackp
  room : ∀ f, d.Frame f → d.InPage (f + d.wordSize)
  links : ∀ f, d.Frame f → ¬ TransGen d.Link f f

variable {d : Dump} {f g : ℕ} {t : Trace}

theorem and_high_bits {x k n : ℕ} (hx : x < 2 ^ (k + n)) : x &&& (2 ^ (k + n) - 2 ^ k) = x / 2 ^ k * 2 ^ k := by
  have hmask : 2 ^ (k + n) - 2 ^ k = 2 ^ k * (2 ^ n - 1) := by rw [Nat.pow_add, Nat.mul_sub, Nat.mul_one]
  apply Nat.eq_of_testBit_eq
  intro i
  rw [hmask, Nat.mul_comm _ (2 ^ k), Nat.testBit_and, Nat.testBit_two_pow_mul, Nat.testBit_two_pow_mul,
    Nat.testBit_two_pow_sub_one, Nat.testBit_div_two_pow]
  by_cases hlow : k ≤ i
  · by_cases hhigh : i - k < n
    · simp [hlow, hhigh]
    · have hbit : x.testBit i = false :=
        Nat.testBit_lt_two_pow (hx.trans_le (Nat.pow_le_pow_right (by omega) (by omega)))
      simp [hlow, hbit]
  · simp [hlow]

theorem stackBot_eq (d : Dump) : d.stackBot = d.stackp / 4096 * 4096 := by
  have hlt := d.inWord
  rw [stackBot, modulus]
  rcases d.word with h | h
  · rw [h] at hlt ⊢
    exact and_high_bits (k := 12) (n := 20) hlt
  · rw [h] at hlt ⊢
    exact and_high_bits (k := 12) (n := 52) hlt

theorem bot_add_le (d : Dump) : d.stackBot + 4096 ≤ d.modulus := by
  have hlt := d.inWord
  rw [stackBot_eq, modulus]
  rcases d.word with h | h <;> rw [h] at hlt ⊢ <;> omega

theorem stackTop_eq (h : d.Within f) : d.stackTop = d.stackBot + 4096 := by
  have hbound := d.bot_add_le
  have htop := h.1
  rw [stackTop] at htop ⊢
  rcases hbound.lt_or_eq with hlt | heq
  · rw [Nat.mod_eq_of_lt hlt]
  · rw [heq, Nat.mod_self] at htop
    omega

theorem ret_eq (h : d.Within f) : (f + d.wordSize) % d.modulus = f + d.wordSize := by
  have htop := stackTop_eq h
  have hbelow : d.stackTop < d.modulus := Nat.mod_lt _ (Nat.two_pow_pos _)
  have hf := h.1
  apply Nat.mod_eq_of_lt
  rw [htop] at hf hbelow
  rw [stackBot_eq, modulus] at *
  rcases d.word with h | h <;> rw [h] at hbelow ⊢ <;> omega

theorem frameAt_frames : (d.frameAt f).1.frames = [f] := by
  unfold frameAt
  dsimp only
  split <;> rfl

theorem frameAt_reads (h : d.Within f) :
    f + d.wordSize ∈ (d.frameAt f).1.reads ∧ ∀ a ∈ (d.frameAt f).1.reads, a = f + d.wordSize ∨ a = f := by
  rw [frameAt, ret_eq h]
  split
  · simp
  · simp

theorem frameAt_next (h : d.Within f) :
    (d.frameAt f).2 = some g ↔ (d.ulong (f + d.wordSize)).isSome = true ∧ d.ulong f = some g := by
  rw [frameAt, ret_eq h]
  split
  · simp [*]
  · simp [*]

theorem link_iff (h : d.Within f) : d.Link f g ↔ (d.frameAt f).2 = some g ∧ d.Within g := by
  rw [Link, frameAt_next h, and_assoc]

theorem walkLoop_without (h : ¬ d.Within f) (fuel : ℕ) : d.walkLoop (fuel + 1) f = some ⟨[], [], []⟩ := by
  rw [walkLoop, if_neg h]

theorem walkLoop_last (h : d.Within f) (hnext : (d.frameAt f).2 = none) (fuel : ℕ) :
    d.walkLoop (fuel + 1) f = some (d.frameAt f).1 := by
  rw [walkLoop, if_pos h]
  split
  · rename_i hround
    rw [hround]
  · rename_i hround
    rw [hround] at hnext
    cases hnext

theorem walkLoop_next (h : d.Within f) (hnext : (d.frameAt f).2 = some g) (fuel : ℕ) :
    d.walkLoop (fuel + 1) f = (d.walkLoop fuel g).map (d.frameAt f).1.append := by
  rw [walkLoop, if_pos h]
  split
  · rename_i hround
    rw [hround] at hnext
    cases hnext
  · rename_i hround
    rw [hround] at hnext ⊢
    cases hnext
    rfl

theorem walkLoop_cases {fuel : ℕ} (h : d.Within f) (hrun : d.walkLoop (fuel + 1) f = some t) :
    ((d.frameAt f).2 = none ∧ t = (d.frameAt f).1) ∨
      ∃ next u, (d.frameAt f).2 = some next ∧ d.walkLoop fuel next = some u ∧ t = (d.frameAt f).1.append u := by
  cases hnext : (d.frameAt f).2 with
  | none =>
    rw [walkLoop_last h hnext] at hrun
    exact .inl ⟨rfl, (Option.some.inj hrun).symm⟩
  | some next =>
    rw [walkLoop_next h hnext] at hrun
    obtain ⟨u, hu, rfl⟩ := Option.map_eq_some_iff.mp hrun
    exact .inr ⟨next, u, rfl, hu, rfl⟩

theorem trace_without {fuel : ℕ} (h : ¬ d.Within f) (hrun : d.walkLoop (fuel + 1) f = some t) :
    t = ⟨[], [], []⟩ := by
  rw [walkLoop_without h] at hrun
  exact (Option.some.inj hrun).symm

theorem walkLoop_acc {fuel : ℕ} (h : d.Within f) (hrun : d.walkLoop fuel f = some t) :
    Acc (fun c b => d.Link b c) f := by
  induction fuel generalizing f t with
  | zero => cases hrun
  | succ fuel ih =>
    refine ⟨f, fun g hg => ?_⟩
    obtain ⟨hnext, hwithin⟩ := (link_iff h).mp hg
    rw [walkLoop_next h hnext] at hrun
    obtain ⟨u, hu, -⟩ := Option.map_eq_some_iff.mp hrun
    exact ih hwithin hu

theorem mem_frames {fuel : ℕ} (hrun : d.walkLoop fuel f = some t) :
    g ∈ t.frames ↔ d.Within f ∧ ReflTransGen d.Link f g := by
  induction fuel generalizing f t with
  | zero => cases hrun
  | succ fuel ih =>
    by_cases h : d.Within f
    · rw [and_iff_right h, ReflTransGen.cases_head_iff]
      rcases walkLoop_cases h hrun with ⟨hnone, rfl⟩ | ⟨next, u, hnext, hu, rfl⟩
      · have hlast : ∀ c, ¬ d.Link f c := by
          intro c hc
          have hsome := ((link_iff h).mp hc).1
          rw [hnone] at hsome
          cases hsome
        simp [frameAt_frames, hlast, eq_comm]
      · have hlink : ∀ c, d.Link f c ↔ c = next ∧ d.Within next := by
          intro c
          rw [link_iff h, hnext, Option.some.injEq]
          constructor
          · rintro ⟨rfl, hc⟩
            exact ⟨rfl, hc⟩
          · rintro ⟨rfl, hc⟩
            exact ⟨rfl, hc⟩
        simp only [Trace.append, frameAt_frames, List.singleton_append, List.mem_cons, ih hu, hlink, and_assoc,
          exists_eq_left]
        exact or_congr_left eq_comm
    · rw [trace_without h hrun]
      simp [h]

theorem walkLoop_nodup {fuel : ℕ} (hrun : d.walkLoop fuel f = some t) : t.frames.Nodup := by
  induction fuel generalizing f t with
  | zero => cases hrun
  | succ fuel ih =>
    by_cases h : d.Within f
    · rcases walkLoop_cases h hrun with ⟨-, rfl⟩ | ⟨next, u, hnext, hu, rfl⟩
      · rw [frameAt_frames]
        exact List.nodup_singleton f
      · have hfresh : f ∉ u.frames := by
          intro hmem
          obtain ⟨hwithin, hback⟩ := (mem_frames hu).mp hmem
          have hlink : d.Link f next := (link_iff h).mpr ⟨hnext, hwithin⟩
          exact Acyclic.not_transGen_of_acc (walkLoop_acc h hrun) .refl (TransGen.head' hlink hback)
        rw [Trace.append, frameAt_frames]
        exact List.nodup_cons.mpr ⟨hfresh, ih hu⟩
    · rw [trace_without h hrun]
      exact List.nodup_nil

theorem walkLoop_reads {fuel : ℕ} (hrun : d.walkLoop fuel f = some t) :
    (∀ g ∈ t.frames, g + d.wordSize ∈ t.reads) ∧
      ∀ a ∈ t.reads, ∃ g ∈ t.frames, a = g + d.wordSize ∨ a = g := by
  induction fuel generalizing f t with
  | zero => cases hrun
  | succ fuel ih =>
    by_cases h : d.Within f
    · obtain ⟨hret, hreads⟩ := frameAt_reads h
      rcases walkLoop_cases h hrun with ⟨-, rfl⟩ | ⟨next, u, hnext, hu, rfl⟩
      · simp only [frameAt_frames, List.mem_singleton, forall_eq, exists_eq_left]
        exact ⟨hret, hreads⟩
      · obtain ⟨hrets, hrest⟩ := ih hu
        simp only [Trace.append, frameAt_frames, List.singleton_append, List.mem_cons, List.mem_append]
        constructor
        · rintro g (rfl | hg)
          · exact .inl hret
          · exact .inr (hrets g hg)
        · rintro a (ha | ha)
          · exact ⟨f, .inl rfl, hreads a ha⟩
          · obtain ⟨g, hg, hga⟩ := hrest a ha
            exact ⟨g, .inr hg, hga⟩
    · rw [trace_without h hrun]
      simp

theorem walkLoop_ends (h : Acc (fun c b => d.Link b c) f) : ∃ fuel t, d.walkLoop fuel f = some t := by
  induction h with
  | intro f _ ih =>
    by_cases h : d.Within f
    · cases hnext : (d.frameAt f).2 with
      | none => exact ⟨1, _, walkLoop_last h hnext 0⟩
      | some next =>
        obtain ⟨fuel, t, ht⟩ : ∃ fuel t, d.walkLoop fuel next = some t := by
          by_cases hwithin : d.Within next
          · exact ih next ((link_iff h).mpr ⟨hnext, hwithin⟩)
          · exact ⟨1, _, walkLoop_without hwithin 0⟩
        exact ⟨fuel + 1, _, (walkLoop_next h hnext fuel).trans (by rw [ht]; rfl)⟩
    · exact ⟨1, _, walkLoop_without h 0⟩

theorem frame_iff {first : ℕ} (hfirst : d.ulong d.stackp = some first) :
    d.Frame f ↔ d.Within first ∧ ReflTransGen d.Link first f := by
  constructor
  · rintro ⟨first', hfirst', h⟩
    obtain rfl : first = first' := Option.some.inj (hfirst.symm.trans hfirst')
    exact h
  · intro h
    exact ⟨first, hfirst, h⟩

theorem btpid_eq {first : ℕ} (hfirst : d.ulong d.stackp = some first) (fuel : ℕ) :
    d.btpid fuel = (d.walkLoop fuel first).map (Trace.append ⟨[d.stackp], [], []⟩) := by
  rw [btpid, hfirst]

theorem within_of_frame (h : d.Frame f) : d.Within f := by
  obtain ⟨first, -, hwithin, hreach⟩ := h
  cases hreach with
  | refl => exact hwithin
  | tail _ hlink => exact hlink.2.2

theorem inPage_of_room (h : d.Within f) (hroom : d.InPage (f + d.wordSize)) : d.InPage f :=
  ⟨h.2.le, (Nat.le_add_right _ _).trans hroom.2⟩

theorem walkLoop_ends_of_links {first : ℕ} (hfirst : d.ulong d.stackp = some first)
    (hlinks : ∀ f, d.Frame f → ¬ TransGen d.Link f f) : ∃ fuel t, d.walkLoop fuel first = some t := by
  by_cases h : d.Within first
  · apply walkLoop_ends
    apply Acyclic.acc_of_reachable (Set.finite_lt_nat d.stackTop)
    · intro a b hlink
      exact hlink.2.2.1
    · intro b hb
      exact hlinks b ((frame_iff hfirst).mpr ⟨h, hb⟩)
  · exact ⟨1, _, walkLoop_without h 0⟩

theorem backtraces_of_uncorrupted (h : d.Uncorrupted) : d.Backtraces := by
  cases hfirst : d.ulong d.stackp with
  | none =>
    refine ⟨0, ⟨[d.stackp], [], []⟩, by rw [btpid, hfirst], ?_, List.nodup_nil⟩
    intro a ha
    rw [List.mem_singleton.mp ha]
    exact h.stackp
  | some first =>
    obtain ⟨fuel, t, ht⟩ := walkLoop_ends_of_links hfirst h.links
    refine ⟨fuel, Trace.append ⟨[d.stackp], [], []⟩ t, by rw [btpid_eq hfirst, ht, Option.map_some], ?_,
      (walkLoop_nodup ht : t.frames.Nodup)⟩
    intro a ha
    rcases List.mem_cons.mp ha with rfl | ha
    · exact h.stackp
    · obtain ⟨g, hg, hga⟩ := (walkLoop_reads ht).2 a ha
      have hframe : d.Frame g := (frame_iff hfirst).mpr ((mem_frames ht).mp hg)
      have hroom := h.room g hframe
      rcases hga with rfl | rfl
      · exact hroom
      · exact inPage_of_room (within_of_frame hframe) hroom

theorem uncorrupted_of_backtraces (h : d.Backtraces) : d.Uncorrupted := by
  obtain ⟨fuel, t, hrun, hwalk⟩ := h
  cases hfirst : d.ulong d.stackp with
  | none =>
    have hframe : ∀ f, ¬ d.Frame f := by
      rintro f ⟨first, hsome, -⟩
      rw [hfirst] at hsome
      cases hsome
    rw [btpid, hfirst] at hrun
    cases hrun
    exact ⟨hwalk.reads _ (List.mem_singleton_self _), fun f hf => (hframe f hf).elim, fun f hf => (hframe f hf).elim⟩
  | some first =>
    rw [btpid_eq hfirst] at hrun
    obtain ⟨u, hu, rfl⟩ := Option.map_eq_some_iff.mp hrun
    refine ⟨hwalk.reads _ List.mem_cons_self, fun f hf => ?_, fun f hf => ?_⟩
    · have hmem : f ∈ u.frames := (mem_frames hu).mpr ((frame_iff hfirst).mp hf)
      exact hwalk.reads _ (List.mem_cons_of_mem _ ((walkLoop_reads hu).1 f hmem))
    · obtain ⟨hwithin, hreach⟩ := (frame_iff hfirst).mp hf
      exact Acyclic.not_transGen_of_acc (walkLoop_acc hwithin hu) hreach

theorem backtraces_iff (d : Dump) : d.Backtraces ↔ d.Uncorrupted :=
  ⟨uncorrupted_of_backtraces, backtraces_of_uncorrupted⟩

theorem frame_of_link (hf : d.Frame f) (hlink : d.Link f g) : d.Frame g := by
  obtain ⟨first, hfirst, hwithin, hreach⟩ := hf
  exact ⟨first, hfirst, hwithin, hreach.tail hlink⟩

theorem backtraces_of_ascending (hstackp : d.InPage d.stackp) (hroom : ∀ f, d.Frame f → d.InPage (f + d.wordSize))
    (hup : ∀ f g, d.Frame f → d.Link f g → f < g) : d.Backtraces := by
  have hrun : ∀ f g, d.Frame f → TransGen d.Link f g → d.Frame g ∧ f < g := by
    intro f g hf hfg
    induction hfg with
    | single hlink => exact ⟨frame_of_link hf hlink, hup _ _ hf hlink⟩
    | tail _ hlink ih => exact ⟨frame_of_link ih.1 hlink, ih.2.trans (hup _ _ ih.1 hlink)⟩
  apply backtraces_of_uncorrupted
  exact ⟨hstackp, hroom, fun f hf hcycle => lt_irrefl f (hrun f f hf hcycle).2⟩

def selfLinked : Dump where
  wordSize := 8
  little := true
  byte := fun a => if 0xffff888000002e00 ≤ a ∧ a < 0xffff888000002e08 then
      (Bytes.encode true 8 0xffff888000002e00)[a - 0xffff888000002e00]?
    else if 0xffff888000002000 ≤ a ∧ a < 0xffff888000003000 then some 0 else none
  stackp := 0xffff888000002e00
  word := .inr rfl
  inWord := by decide

theorem selfLinked_never_ends : ¬ selfLinked.Backtraces := by
  intro h
  have hself : selfLinked.ulong 0xffff888000002e00 = some 0xffff888000002e00 := by decide
  have hret : (selfLinked.ulong (0xffff888000002e00 + 8)).isSome = true := by decide
  have hwithin : selfLinked.Within 0xffff888000002e00 := by decide
  have hlink : selfLinked.Link 0xffff888000002e00 0xffff888000002e00 := ⟨hret, hself, hwithin⟩
  exact (uncorrupted_of_backtraces h).links _ ⟨_, hself, hwithin, .refl⟩ (.single hlink)

end Dump

end CgxLayer.Kdump
