import CgxLayer.LastOf
import CgxLayer.ListWalk
import CgxLayer.Text

namespace CgxLayer.Kdump

open Relation Text ListWalk

inductive DumpError where
  | unreadable
  | noTask
deriving DecidableEq

structure TaskDump where
  wordSize : ℕ
  tasksOff : ℕ
  initT : ℕ
  tasksNext : ℕ → Option ℕ
  pid : ℕ → Option ℤ
  comm : ℕ → Option Text
  signal : ℕ → Option ℕ
  tty : ℕ → Option ℕ
  ttyName : ℕ → Option Text

structure PsLine where
  pid : ℤ
  tty : Option Text
  comm : Text
deriving DecidableEq

def fetch {α : Type} : Option α → Except DumpError α
  | none => .error .unreadable
  | some a => .ok a

def signed (n : ℤ) : Text := if n < 0 then '-' :: decimal n.natAbs else decimal n.natAbs

def PsLine.text (l : PsLine) : Text :=
  match l.tty with
  | some tty => signed l.pid ++ "\t ".toList ++ tty ++ "\t ".toList ++ l.comm ++ ['\n']
  | none => signed l.pid ++ "\t ?\t  ".toList ++ l.comm ++ ['\n']

def psHeader : Text := "PID\t tty\t CMD\n".toList

namespace TaskDump

variable (d : TaskDump)

def modulus : ℕ := 2 ^ (8 * d.wordSize)

-- `(struct task_struct *)(((char *)(t->tasks).next) - $tasks_off)`
def nextT (t : ℕ) : Except DumpError ℕ :=
  (fetch (d.tasksNext t)).map (fun node => (((node : ℤ) - d.tasksOff) % (d.modulus : ℤ)).toNat)

def ttyOf (t : ℕ) : Except DumpError (Option Text) :=
  match d.signal t with
  | none => .error .unreadable
  | some signal =>
    match d.tty signal with
    | none => .error .unreadable
    | some 0 => .ok none
    | some tty => (fetch (d.ttyName tty)).map some

def psLine (t : ℕ) : Except DumpError PsLine :=
  match d.ttyOf t with
  | .error e => .error e
  | .ok tty =>
    match d.pid t, d.comm t with
    | some pid, some comm => .ok ⟨pid, tty, comm⟩
    | _, _ => .error .unreadable

/-- `ps`: the tasks with the lines printed for them, and the error that it stops at. -/
def ps (fuel : ℕ) : Option (List (ℕ × PsLine) × Option DumpError) :=
  match d.nextT d.initT with
  | .error e => some ([], some e)
  | .ok t => walk d.initT d.nextT d.psLine fuel t

def psText (r : List (ℕ × PsLine) × Option DumpError) : Text := psHeader ++ r.1.flatMap (fun l => l.2.text)

def pidLoop (pid : ℤ) : ℕ → Option ℕ → ℕ → Option (Except DumpError (Option ℕ))
  | 0, _, _ => none
  | fuel + 1, pidTask, t =>
    if t = d.initT then some (.ok pidTask)
    else
      match d.pid t with
      | none => some (.error .unreadable)
      | some p =>
        let pidTask := if p = pid then some t else pidTask
        match d.nextT t with
        | .error e => some (.error e)
        | .ok t => pidLoop pid fuel pidTask t

def pidTask (pid : ℤ) (fuel : ℕ) : Option (Except DumpError (Option ℕ)) :=
  match d.nextT d.initT with
  | .error e => some (.error e)
  | .ok t => d.pidLoop pid fuel none t

-- A task of 0 is no pointer, and has no fields.
def btpidHead (pid : ℤ) (fuel : ℕ) : Option (Except DumpError (ℤ × Text)) :=
  (d.pidTask pid fuel).map (fun r => r.bind (fun found =>
    match found with
    | none => .error .noTask
    | some t =>
      match d.pid t, d.comm t with
      | some pid, some comm => .ok (pid, comm)
      | _, _ => .error .unreadable))

def ofPid (pid : ℤ) (l : ℕ × PsLine) : Option (ℕ × PsLine) := if l.2.pid = pid then some l else none

def lastListed (pid : ℤ) (lines : List (ℕ × PsLine)) : Option PsLine := (lastOf (ofPid pid) lines).map Prod.snd

variable {d}

theorem nextT_lt {t u : ℕ} (h : d.nextT t = .ok u) : u ∈ {a : ℕ | a < d.modulus} := by
  rw [nextT] at h
  cases hnode : d.tasksNext t with
  | none =>
    rw [hnode] at h
    cases h
  | some node =>
    rw [hnode] at h
    cases h
    have hpos : (0 : ℤ) < d.modulus := by
      rw [modulus]
      exact_mod_cast Nat.two_pow_pos _
    have hlt := Int.emod_lt_of_pos ((node : ℤ) - d.tasksOff) hpos
    have hnonneg := Int.emod_nonneg ((node : ℤ) - d.tasksOff) hpos.ne'
    change (((node : ℤ) - d.tasksOff) % (d.modulus : ℤ)).toNat < d.modulus
    omega

theorem psLine_pid {t : ℕ} {l : PsLine} (h : d.psLine t = .ok l) : d.pid t = some l.pid := by
  rw [psLine] at h
  cases htty : d.ttyOf t with
  | error e =>
    rw [htty] at h
    cases h
  | ok tty =>
    rw [htty] at h
    dsimp only at h
    split at h
    · rename_i hpid _
      cases h
      exact hpid
    · cases h

theorem psLine_comm {t : ℕ} {l : PsLine} (h : d.psLine t = .ok l) : d.comm t = some l.comm := by
  rw [psLine] at h
  cases htty : d.ttyOf t with
  | error e =>
    rw [htty] at h
    cases h
  | ok tty =>
    rw [htty] at h
    dsimp only at h
    split at h
    · rename_i hcomm
      cases h
      exact hcomm
    · cases h

theorem pidLoop_of_walk {pid : ℤ} {fuel t : ℕ} {found : Option ℕ} {lines : List (ℕ × PsLine)}
    (h : walk d.initT d.nextT d.psLine fuel t = some (lines, none)) :
    d.pidLoop pid fuel found t = some (.ok (((lastOf (ofPid pid) lines).map Prod.fst).or found)) := by
  induction fuel generalizing t found lines with
  | zero => cases h
  | succ fuel ih =>
    rw [walk] at h
    rw [pidLoop]
    split_ifs at h ⊢ with hinit
    · cases h
      rfl
    · cases hline : d.psLine t with
      | error e =>
        rw [hline] at h
        cases h
      | ok l =>
        rw [hline] at h
        dsimp only at h
        rw [psLine_pid hline]
        cases hnext : d.nextT t with
        | error e =>
          rw [hnext] at h
          cases h
        | ok u =>
          rw [hnext] at h
          obtain ⟨⟨rest, e⟩, hrest, hcons⟩ := Option.map_eq_some_iff.mp h
          cases hcons
          have hfirst : (if l.pid = pid then some t else found) = ((ofPid pid (t, l)).map Prod.fst).or found := by
            rw [ofPid]
            split_ifs <;> rfl
          have hlast : lastOf (ofPid pid) ((t, l) :: rest) = (lastOf (ofPid pid) rest).or (ofPid pid (t, l)) := by
            have hone : lastOf (ofPid pid) [(t, l)] = ofPid pid (t, l) :=
              (lastOf_concat (ofPid pid) [] (t, l)).trans Option.or_none
            rw [← List.singleton_append, lastOf_append, hone]
          dsimp only
          rw [ih hrest, hfirst, hlast, Option.map_or, Option.or_assoc]

structure HasTasks (d : TaskDump) (tasks : List (ℕ × PsLine)) : Prop where
  ring : ∃ t, d.nextT d.initT = .ok t ∧ (walkSearch d.initT d.nextT d.psLine).Ring t (tasks.map Prod.fst)
  lines : ∀ l ∈ tasks, d.psLine l.1 = .ok l.2

theorem ps_ends_iff (d : TaskDump) : (∃ r fuel, d.ps fuel = some r) ↔ ∀ t, d.nextT d.initT = .ok t →
    ∀ q, ReflTransGen (walkSearch d.initT d.nextT d.psLine).Passes t q →
      ¬ TransGen (walkSearch d.initT d.nextT d.psLine).Passes q q := by
  cases hnext : d.nextT d.initT with
  | error e =>
    refine ⟨fun _ t ht => (by cases ht), fun _ => ⟨([], some e), 0, ?_⟩⟩
    rw [ps, hnext]
  | ok t =>
    have hps : ∀ fuel, d.ps fuel = walk d.initT d.nextT d.psLine fuel t := by
      intro fuel
      rw [ps, hnext]
    simp only [hps]
    rw [walk_ends_iff (Set.finite_lt_nat d.modulus) (fun p q h => nextT_lt h)]
    constructor
    · rintro h u ⟨⟩
      exact h
    · exact fun h => h t rfl

theorem ps_intact {tasks : List (ℕ × PsLine)} (h : d.HasTasks tasks) : ∃ fuel, d.ps fuel = some (tasks, none) := by
  obtain ⟨t, hnext, hring⟩ := h.ring
  obtain ⟨n, hn⟩ := walk_ring hring h.lines
  refine ⟨n, ?_⟩
  rw [ps, hnext]
  exact hn.trans (by rw [List.map_id'])

theorem pidTask_of_ps {lines : List (ℕ × PsLine)} {fuel : ℕ} (h : d.ps fuel = some (lines, none)) (pid : ℤ) :
    d.pidTask pid fuel = some (.ok ((lastOf (ofPid pid) lines).map Prod.fst)) ∧
      ∀ l ∈ lines, d.psLine l.1 = .ok l.2 := by
  rw [ps] at h
  rw [pidTask]
  cases hnext : d.nextT d.initT with
  | error e =>
    rw [hnext] at h
    cases h
  | ok t =>
    rw [hnext] at h
    dsimp only at h ⊢
    exact ⟨by rw [pidLoop_of_walk h, Option.or_none], walk_visits h⟩

theorem btpid_finds_listed (d : TaskDump) (fuel : ℕ) (lines : List (ℕ × PsLine))
    (h : d.ps fuel = some (lines, none)) (pid : ℤ) : d.btpidHead pid fuel = some
      (match lastListed pid lines with
        | none => .error .noTask
        | some l => .ok (pid, l.comm)) := by
  obtain ⟨htask, hlines⟩ := pidTask_of_ps h pid
  rw [btpidHead, htask, lastListed]
  cases hlast : lastOf (ofPid pid) lines with
  | none => rfl
  | some e =>
    obtain ⟨t, l⟩ := e
    obtain ⟨xs, w, ys, rfl, hw, -⟩ := lastOf_eq_some hlast
    obtain ⟨hpid, rfl⟩ : l.pid = pid ∧ w = (t, l) := by
      rw [ofPid] at hw
      split_ifs at hw with hpid
      cases hw
      exact ⟨hpid, rfl⟩
    have hline := hlines (t, l) (List.mem_append_right xs (List.mem_cons_self ..))
    simp only [Option.map_some, Except.bind, psLine_pid hline, psLine_comm hline, hpid]

def twoTasks : TaskDump where
  wordSize := 8
  tasksOff := 16
  initT := 1000
  tasksNext t := if t = 1000 then some 2016 else if t = 2000 then some 3016 else some 1016
  pid t := if t = 2000 then some 1 else some 7
  comm t := if t = 2000 then some "init".toList else some "sh".toList
  signal t := some (t + 500)
  tty signal := if signal = 2500 then some 0 else some 4000
  ttyName _ := some "ttyS0".toList

def twoLines : List (ℕ × PsLine) := [(2000, ⟨1, none, "init".toList⟩), (3000, ⟨7, some "ttyS0".toList, "sh".toList⟩)]

theorem twoTasks_hasTasks : twoTasks.HasTasks twoLines where
  ring := ⟨2000, rfl, rfl, by decide, 3000, rfl, rfl, by decide, 1000, rfl, rfl⟩
  lines l hl := by
    obtain rfl | rfl : l = (2000, ⟨1, none, "init".toList⟩) ∨ l = (3000, ⟨7, some "ttyS0".toList, "sh".toList⟩) := by
      simpa [twoLines] using hl
    · rfl
    · rfl

theorem shell_found : ∃ fuel, twoTasks.btpidHead 7 fuel = some (.ok (7, "sh".toList)) := by
  obtain ⟨fuel, hps⟩ := ps_intact twoTasks_hasTasks
  exact ⟨fuel, btpid_finds_listed twoTasks fuel twoLines hps 7⟩

end TaskDump

end CgxLayer.Kdump
