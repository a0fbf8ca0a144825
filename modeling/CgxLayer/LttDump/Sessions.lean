import CgxLayer.ListWalk
import CgxLayer.Text

namespace CgxLayer.LttDump

open Relation Text ListWalk

inductive GdbError where
  | unreadable
deriving DecidableEq

structure Lists where
  wordSize : ℕ
  link : ℕ → Option ℕ
  link_lt : ∀ p q, link p = some q → q < 2 ^ (8 * wordSize)
  moduleList : ℕ
  moduleName : ℕ → Option Text
  sessionList : ℕ
  active : ℕ → Option ℤ
  chan : ℕ
  channelList : ℕ
  enabled : ℕ → Option ℤ
  channelType : ℕ → Option ℤ
  perCpuChannel : ℤ
  backend : ℕ → Option ℕ
  backendName : ℕ → Option Text
  sessions : ℕ
  modules : ℕ

def read {α : Type} : Option α → Except GdbError α
  | none => .error .unreadable
  | some a => .ok a

namespace Lists

variable (l : Lists)

def modulus : ℕ := 2 ^ (8 * l.wordSize)

def fetchContainer (p offset : ℕ) : ℕ := (((p : ℤ) - offset) % (l.modulus : ℤ)).toNat

def memberPtr (p offset : ℕ) : ℕ := (p + offset) % l.modulus

def next (p : ℕ) : Except GdbError ℕ := read (l.link p)

def lookModule (modname : Text) (p : ℕ) : Except GdbError (Option ℕ) :=
  let modp := l.fetchContainer p l.moduleList
  match l.moduleName modp with
  | none => .error .unreadable
  | some cname => .ok (if cname = modname then some modp else none)

def moduleSearch (modname : Text) : Search ℕ ℕ GdbError where
  head := l.modules
  next := l.next
  look _ p := some (l.lookModule modname p)
  steady _ _ _ _ _ h := h

def findModule (modname : Text) (fuel : ℕ) : Option (Except GdbError (Option ℕ)) :=
  match l.link l.modules with
  | none => some (.error .unreadable)
  | some current => (l.moduleSearch modname).run fuel current

def snapshotName : Text := "relay-overwrite-mmap".toList

def lookChannel (p : ℕ) : Except GdbError (Option ℕ) :=
  let chan := l.fetchContainer p l.channelList
  match l.enabled chan with
  | none => .error .unreadable
  | some enabled =>
    if enabled = 0 then .ok none
    else
      match l.channelType chan with
      | none => .error .unreadable
      | some chantype =>
        if chantype ≠ l.perCpuChannel then .ok none
        else
          match l.backend chan with
          | none => .error .unreadable
          | some backend =>
            match l.backendName backend with
            | none => .error .unreadable
            | some tpname => .ok (if tpname = snapshotName then some backend else none)

def channelSearch (head : ℕ) : Search ℕ ℕ GdbError where
  head := head
  next := l.next
  look _ p := some (l.lookChannel p)
  steady _ _ _ _ _ h := h

def findChannel (fuel head : ℕ) : Option (Except GdbError (Option ℕ)) :=
  match l.link head with
  | none => some (.error .unreadable)
  | some p => (l.channelSearch head).run fuel p

def chanlist (session : ℕ) : ℕ := l.memberPtr session l.chan

def lookSession (fuel p : ℕ) : Option (Except GdbError (Option (ℕ × ℕ))) :=
  let session := l.fetchContainer p l.sessionList
  match l.active session with
  | none => some (.error .unreadable)
  | some active =>
    if active = 0 then some (.ok none)
    else (l.findChannel fuel (l.chanlist session)).map (fun r => r.map (fun chan => chan.map (fun c => (session, c))))

variable {l}

theorem findChannel_mono {n m head : ℕ} {r : Except GdbError (Option ℕ)} (hnm : n ≤ m)
    (h : l.findChannel n head = some r) : l.findChannel m head = some r := by
  rw [findChannel] at h ⊢
  cases hlink : l.link head with
  | none =>
    rw [hlink] at h
    exact h
  | some p =>
    rw [hlink] at h
    exact Search.run_mono hnm h

theorem lookSession_mono (n m p : ℕ) (r : Except GdbError (Option (ℕ × ℕ))) (hnm : n ≤ m)
    (h : l.lookSession n p = some r) : l.lookSession m p = some r := by
  rw [lookSession] at h ⊢
  cases hactive : l.active (l.fetchContainer p l.sessionList) with
  | none =>
    simp only [hactive] at h ⊢
    exact h
  | some active =>
    simp only [hactive] at h ⊢
    split_ifs at h ⊢ with hzero
    · exact h
    · obtain ⟨found, hfound, rfl⟩ := Option.map_eq_some_iff.mp h
      rw [findChannel_mono hnm hfound, Option.map_some]

variable (l)

def sessionSearch : Search ℕ (ℕ × ℕ) GdbError where
  head := l.sessions
  next := l.next
  look := l.lookSession
  steady := lookSession_mono

/-- `find_session_channel`, giving the session with the channel's backend. -/
def findSessionChannel (fuel : ℕ) : Option (Except GdbError (Option (ℕ × ℕ))) :=
  match l.link l.sessions with
  | none => some (.error .unreadable)
  | some p => l.sessionSearch.run fuel p

/-- From this node on the search never comes back to a node that it passed. -/
def Unlooped {B : Type} (s : Search ℕ B GdbError) (p : ℕ) : Prop :=
  ∀ q, ReflTransGen s.Passes p q → ¬ TransGen s.Passes q q

def ChannelsUnlooped (p : ℕ) : Prop :=
  let session := l.fetchContainer p l.sessionList
  ∀ active, l.active session = some active → active ≠ 0 →
    ∀ c, l.link (l.chanlist session) = some c → Unlooped (l.channelSearch (l.chanlist session)) c

variable {l}

theorem next_mem {p q : ℕ} (h : l.next p = .ok q) : q ∈ {a : ℕ | a < 2 ^ (8 * l.wordSize)} := by
  rw [next] at h
  cases hlink : l.link p with
  | none =>
    rw [hlink] at h
    cases h
  | some t =>
    rw [hlink] at h
    cases h
    exact l.link_lt p q hlink

theorem finite_addresses (l : Lists) : {a : ℕ | a < 2 ^ (8 * l.wordSize)}.Finite := Set.finite_lt_nat _

theorem findChannel_ends_iff {head : ℕ} : (∃ r n, l.findChannel n head = some r) ↔
    ∀ c, l.link head = some c → Unlooped (l.channelSearch head) c := by
  cases hlink : l.link head with
  | none =>
    refine ⟨fun _ c hc => (by cases hc), fun _ => ⟨.error .unreadable, 0, ?_⟩⟩
    rw [findChannel, hlink]
  | some p =>
    have hrun : (∃ r n, l.findChannel n head = some r) ↔ ∃ r n, (l.channelSearch head).run n p = some r := by
      simp only [findChannel, hlink]
    rw [hrun, Search.run_ends_iff (finite_addresses l) (fun p q h => next_mem h)]
    constructor
    · rintro h c ⟨⟩ q hq
      exact (h q hq).1
    · exact fun h q hq => ⟨h p rfl q hq, fun _ => ⟨_, 0, rfl⟩⟩

theorem lookSession_ends_iff {p : ℕ} : (∃ r, l.sessionSearch.LooksAs p r) ↔ l.ChannelsUnlooped p := by
  have hlooks : (∃ r, l.sessionSearch.LooksAs p r) ↔ ∃ r n, l.lookSession n p = some r := Iff.rfl
  rw [hlooks, ChannelsUnlooped]
  cases hactive : l.active (l.fetchContainer p l.sessionList) with
  | none =>
    refine ⟨fun _ active hsome => (by cases hsome), fun _ => ⟨.error .unreadable, 0, ?_⟩⟩
    simp only [lookSession, hactive]
  | some active =>
    by_cases hzero : active = 0
    · refine ⟨fun _ active' hsome hne => absurd ((Option.some.inj hsome).symm.trans hzero) hne,
        fun _ => ⟨.ok none, 0, ?_⟩⟩
      simp only [lookSession, hactive, if_pos hzero]
    · have hfind : (∃ r n, l.lookSession n p = some r) ↔
          ∃ r n, l.findChannel n (l.chanlist (l.fetchContainer p l.sessionList)) = some r := by
        simp only [lookSession, hactive, if_neg hzero, Option.map_eq_some_iff]
        constructor
        · rintro ⟨r, n, found, hfound, -⟩
          exact ⟨found, n, hfound⟩
        · rintro ⟨found, n, hfound⟩
          exact ⟨_, n, found, hfound, rfl⟩
      rw [hfind, findChannel_ends_iff]
      constructor
      · rintro h active' - -
        exact h
      · exact fun h => h active rfl hzero

theorem findSessionChannel_ends_iff (l : Lists) : (∃ r fuel, l.findSessionChannel fuel = some r) ↔
    ∀ p, l.link l.sessions = some p → ∀ q, ReflTransGen l.sessionSearch.Passes p q →
      ¬ TransGen l.sessionSearch.Passes q q ∧ (q ≠ l.sessions → l.ChannelsUnlooped q) := by
  cases hlink : l.link l.sessions with
  | none =>
    refine ⟨fun _ p hp => (by cases hp), fun _ => ⟨.error .unreadable, 0, ?_⟩⟩
    rw [findSessionChannel, hlink]
  | some p =>
    have hrun : (∃ r n, l.findSessionChannel n = some r) ↔ ∃ r n, l.sessionSearch.run n p = some r := by
      simp only [findSessionChannel, hlink]
    rw [hrun, Search.run_ends_iff (finite_addresses l) (fun p q h => next_mem h)]
    simp only [lookSession_ends_iff]
    constructor
    · rintro h t ⟨⟩
      exact h
    · exact fun h => h p rfl

theorem findModule_ends_iff {modname : Text} : (∃ r n, l.findModule modname n = some r) ↔
    ∀ p, l.link l.modules = some p → Unlooped (l.moduleSearch modname) p := by
  cases hlink : l.link l.modules with
  | none =>
    refine ⟨fun _ p hp => (by cases hp), fun _ => ⟨.error .unreadable, 0, ?_⟩⟩
    rw [findModule, hlink]
  | some p =>
    have hrun : (∃ r n, l.findModule modname n = some r) ↔ ∃ r n, (l.moduleSearch modname).run n p = some r := by
      simp only [findModule, hlink]
    rw [hrun, Search.run_ends_iff (finite_addresses l) (fun p q h => next_mem h)]
    constructor
    · rintro h t ⟨⟩ q hq
      exact (h q hq).1
    · exact fun h q hq => ⟨h p rfl q hq, fun _ => ⟨_, 0, rfl⟩⟩

end Lists

structure Channel where
  node : ℕ
  enabled : ℤ
  type : ℤ
  backend : ℕ
  name : Text

structure Session where
  node : ℕ
  active : ℤ
  channels : List Channel

def Channel.isSnapshot (perCpu : ℤ) (c : Channel) : Bool :=
  c.enabled ≠ 0 ∧ c.type = perCpu ∧ c.name = Lists.snapshotName

namespace Lists

structure HoldsChannel (l : Lists) (c : Channel) : Prop where
  enabled : l.enabled (l.fetchContainer c.node l.channelList) = some c.enabled
  type : l.channelType (l.fetchContainer c.node l.channelList) = some c.type
  backend : l.backend (l.fetchContainer c.node l.channelList) = some c.backend
  name : l.backendName c.backend = some c.name

def sessionAt (l : Lists) (x : Session) : ℕ := l.fetchContainer x.node l.sessionList

structure HoldsSession (l : Lists) (x : Session) : Prop where
  active : l.active (l.sessionAt x) = some x.active
  ring : ∃ c, l.link (l.chanlist (l.sessionAt x)) = some c ∧
    (l.channelSearch (l.chanlist (l.sessionAt x))).Ring c (x.channels.map Channel.node)
  channels : ∀ c ∈ x.channels, l.HoldsChannel c

structure Holds (l : Lists) (xs : List Session) : Prop where
  ring : ∃ p, l.link l.sessions = some p ∧ l.sessionSearch.Ring p (xs.map Session.node)
  sessions : ∀ x ∈ xs, l.HoldsSession x

def snapshotOf (l : Lists) (x : Session) : Option (ℕ × ℕ) :=
  if x.active = 0 then none
  else (x.channels.find? (Channel.isSnapshot l.perCpuChannel)).map (fun c => (l.sessionAt x, c.backend))

variable {l : Lists}

theorem lookChannel_holds {c : Channel} (h : l.HoldsChannel c) :
    l.lookChannel c.node = .ok (if c.isSnapshot l.perCpuChannel then some c.backend else none) := by
  simp only [lookChannel, h.enabled, h.type, h.backend, h.name, Channel.isSnapshot]
  by_cases henabled : c.enabled = 0
  · simp [henabled]
  · by_cases htype : c.type = l.perCpuChannel
    · simp [henabled, htype]
    · simp [henabled, htype]

theorem findSome?_guard {X B : Type} (p : X → Bool) (f : X → B) (xs : List X) :
    xs.findSome? (fun x => if p x then some (f x) else none) = (xs.find? p).map f := by
  induction xs with
  | nil => rfl
  | cons x xs ih =>
    rw [List.findSome?_cons, List.find?_cons]
    cases p x with
    | true => rfl
    | false => exact ih

theorem findChannel_holds {x : Session} (h : l.HoldsSession x) :
    ∃ n, l.findChannel n (l.chanlist (l.sessionAt x)) =
      some (.ok ((x.channels.find? (Channel.isSnapshot l.perCpuChannel)).map Channel.backend)) := by
  obtain ⟨c, hlink, hring⟩ := h.ring
  have hlook : ∀ c ∈ x.channels, (l.channelSearch (l.chanlist (l.sessionAt x))).LooksAs c.node
      (.ok (if c.isSnapshot l.perCpuChannel then some c.backend else none)) :=
    fun c hc => ⟨0, congrArg some (lookChannel_holds (h.channels c hc))⟩
  obtain ⟨n, hn⟩ := Search.run_ring hring hlook
  refine ⟨n, ?_⟩
  rw [findChannel, hlink, ← findSome?_guard]
  exact hn

theorem lookSession_holds {x : Session} (h : l.HoldsSession x) :
    l.sessionSearch.LooksAs x.node (.ok (l.snapshotOf x)) := by
  have hactive : l.active (l.fetchContainer x.node l.sessionList) = some x.active := h.active
  obtain ⟨n, hn⟩ := findChannel_holds h
  refine ⟨n, ?_⟩
  change l.lookSession n x.node = _
  simp only [lookSession, hactive, snapshotOf]
  by_cases hzero : x.active = 0
  · rw [if_pos hzero, if_pos hzero]
  · rw [if_neg hzero, if_neg hzero]
    change (l.findChannel n (l.chanlist (l.sessionAt x))).map _ = _
    rw [hn]
    cases x.channels.find? (Channel.isSnapshot l.perCpuChannel) <;> rfl

theorem findSessionChannel_first (l : Lists) (xs : List Session) (h : l.Holds xs) :
    ∃ fuel, l.findSessionChannel fuel = some (.ok (xs.findSome? l.snapshotOf)) := by
  obtain ⟨p, hlink, hring⟩ := h.ring
  obtain ⟨n, hn⟩ := Search.run_ring hring (fun x hx => lookSession_holds (h.sessions x hx))
  refine ⟨n, ?_⟩
  rw [findSessionChannel, hlink]
  exact hn

def linkTable : List (ℕ × ℕ) :=
  [(1000, 1100), (1100, 1200), (1200, 1000), (1124, 1124), (1224, 1300), (1300, 1400), (1400, 1224)]

theorem linkTable_lt : ∀ e ∈ linkTable, e.2 < 2 ^ (8 * 8) := by decide

def twoSessions : Lists where
  wordSize := 8
  link p := (linkTable.find? (fun e => e.1 = p)).map Prod.snd
  link_lt p q h := by
    obtain ⟨e, he, rfl⟩ := Option.map_eq_some_iff.mp h
    exact linkTable_lt e (List.mem_of_find?_eq_some he)
  moduleList := 8
  moduleName _ := none
  sessionList := 16
  active session := if session = 1184 then some 1 else some 0
  chan := 40
  channelList := 24
  enabled _ := some 1
  channelType chan := if chan = 1376 then some 0 else some 1
  perCpuChannel := 0
  backend chan := some (chan + 8)
  backendName backend := if backend = 1384 then some snapshotName else some "relay-metadata-mmap".toList
  sessions := 1000
  modules := 2000

def metadata : Channel := ⟨1300, 1, 1, 1284, "relay-metadata-mmap".toList⟩

def snapshot : Channel := ⟨1400, 1, 0, 1384, snapshotName⟩

theorem twoSessions_holds : twoSessions.Holds [⟨1100, 0, []⟩, ⟨1200, 1, [metadata, snapshot]⟩] := by
  refine ⟨⟨1100, rfl, rfl, by decide, 1200, rfl, rfl, by decide, 1000, rfl, rfl⟩, ?_⟩
  intro x hx
  obtain rfl | rfl : x = ⟨1100, 0, []⟩ ∨ x = ⟨1200, 1, [metadata, snapshot]⟩ := by simpa using hx
  · exact ⟨rfl, ⟨1124, rfl, rfl⟩, fun c hc => absurd hc List.not_mem_nil⟩
  · refine ⟨rfl, ⟨1300, rfl, rfl, by decide, 1400, rfl, rfl, by decide, 1224, rfl, rfl⟩, fun c hc => ?_⟩
    obtain rfl | rfl : c = metadata ∨ c = snapshot := by simpa using hc
    · exact ⟨rfl, rfl, rfl, rfl⟩
    · exact ⟨rfl, rfl, rfl, rfl⟩

theorem snapshot_found : ∃ fuel, twoSessions.findSessionChannel fuel = some (.ok (some (1184, 1384))) :=
  findSessionChannel_first twoSessions _ twoSessions_holds

end Lists

end CgxLayer.LttDump
