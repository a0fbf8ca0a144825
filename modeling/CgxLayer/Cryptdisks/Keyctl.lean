import CgxLayer.Cryptdisks.Start

namespace CgxLayer.Cryptdisks

open Text

abbrev Ring := Text → Option Text

def keyctlScript : Text := scriptsDir ++ "decrypt_keyctl".toList

def keyName (id : Text) : Text := "cryptkey-".toList ++ id

/-- What comes of a prompt: the answer, none where it cannot be read, and whether the keyring takes it
with its timeout. -/
structure Reply where
  answer : Option Text
  kept : Bool

/-- What `decrypt_keyctl` leaves in the keyring, what it prints, and whether it asks. -/
structure KeyRun where
  ring : Ring
  key : Text
  asked : Bool

-- An empty passphrase is no key, and a key that was cached is unlinked first.
def askKey (r : Reply) (name : Text) (ring : Ring) : KeyRun :=
  match r.answer with
  | none => ⟨ring, [], true⟩
  | some key =>
    if key ≠ [] ∧ r.kept = true then ⟨Function.update ring name (some key), key, true⟩
    else ⟨Function.update ring name none, [], true⟩

def decryptKeyctl (r : Reply) (tried : ℕ) (id : Text) (ring : Ring) : KeyRun :=
  match ring (keyName id) with
  | none => askKey r (keyName id) ring
  | some key => if 0 < tried then askKey r (keyName id) ring else ⟨ring, key, false⟩

/-- The answers to the prompts, by the number of scripts run before and the source that the prompt
names, and the keys that expire before a run. -/
structure Outside where
  reply : ℕ → Text → Reply
  expired : ℕ → Text → Bool

structure Session where
  ring : Ring
  runs : ℕ
  prompts : List Text

variable (o : Outside)

def Session.ringNow (ss : Session) : Ring := fun name => if o.expired ss.runs name then none else ss.ring name

def runScript (src id : Text) (tried : ℕ) (ss : Session) : Session × Text :=
  let r := decryptKeyctl (o.reply ss.runs src) tried id (ss.ringNow o)
  (⟨r.ring, ss.runs + 1, if r.asked then ss.prompts ++ [src] else ss.prompts⟩, r.key)

def afterTries (src id : Text) (ss : Session) : ℕ → Session
  | 0 => ss
  | n + 1 => (runScript o src id n (afterTries src id ss n)).1

def keyAt (src id : Text) (ss : Session) (n : ℕ) : Text := (runScript o src id n (afterTries o src id ss n)).2

variable (opens : Text → Text → Bool)

def withRing (w : Disks) (ss : Session) : Disks :=
  { w with unlocks := fun a =>
      if a.keyscript = keyctlScript then opens a.src (keyAt o a.src a.scriptArg ss a.tried) else w.unlocks a }

def headerOf (j : Job) : Text := if j.options.cryptHeader = [] then j.src else j.options.cryptHeader

def triesMade (opened : ℕ → Bool) (tries : ℕ) : ℕ → ℕ → ℕ
  | 0, tried => tried
  | fuel + 1, tried =>
    if opened tried ∨ (tries ≤ tried + 1 ∧ tries ≠ 0) then tried + 1 else triesMade opened tries fuel (tried + 1)

def sessionAfter (w : Disks) (fuel : ℕ) (j : Job) (ss : Session) : Session :=
  if j.options.useLuks ∧ j.options.keyscript = keyctlScript ∧ w.isLuks (headerOf j) then
    afterTries o j.src j.key ss
      (triesMade (fun n => opens j.src (keyAt o j.src j.key ss n)) j.options.tries fuel 0)
  else ss

/-- `handle_crypttab_line_start` with the keyring. -/
def lineKeyctl (s : Setting) (w : Disks) (fuel : ℕ) (st : Kernel × Session) (e : TabEntry) :
    Option (Kernel × Session) :=
  match lineJob s w st.1 e with
  | .error _ => some st
  | .ok j =>
    (startJob (withRing o opens w st.2) fuel st.1 j).map (fun r => (r.1, sessionAfter o opens w fuel j st.2))

def startKeyctl (s : Setting) (w : Disks) (fuel : ℕ) (st : Kernel × Session) (es : List TabEntry) :
    Option (Kernel × Session) :=
  es.foldlM (lineKeyctl o opens s w fuel) st

structure Volume (s : Setting) (w : Disks) where
  entry : TabEntry
  options : Options
  parsed : parseOpts s entry.opts = some options
  luks : options.useLuks = true
  script : options.keyscript = keyctlScript
  unchecked : options.check = []
  bounded : options.tries ≠ 0
  wanted : options.ignore = false ∨ s.forceStart = true
  dst_ne : entry.dst ≠ []
  src_ne : entry.src ≠ []
  key_ne : entry.key ≠ []
  present : w.present (w.links (sourcePath entry.src)) = true
  isLuks : w.isLuks (if options.cryptHeader = [] then sourcePath entry.src else options.cryptHeader) = true

variable {o opens} {s : Setting} {w : Disks} {fuel : ℕ} {k : Kernel} {ss : Session}

theorem openVolume_first {attempt : ℕ → Attempt} {name under : Text} {tries tried n : ℕ} (hle : tried ≤ n)
    (hbefore : ∀ i, tried ≤ i → i < n → w.unlocks (attempt i) = false) (hopen : w.unlocks (attempt n) = true)
    (hn : n < tries) (hfuel : n < tried + fuel) :
    openVolume w attempt name under tries fuel tried k = some (k.add name under, some n) ∧
      triesMade (fun i => w.unlocks (attempt i)) tries fuel tried = n + 1 := by
  induction fuel generalizing tried with
  | zero => omega
  | succ fuel ih =>
    rw [openVolume, if_pos (.inl (by omega)), triesMade]
    obtain rfl | hlt := Nat.eq_or_lt_of_le hle
    · rw [if_pos hopen, if_pos (.inl hopen)]
      exact ⟨rfl, rfl⟩
    · have hno := hbefore tried le_rfl hlt
      have hmore : ¬ (tries ≤ tried + 1 ∧ tries ≠ 0) := by omega
      rw [hno, if_neg Bool.false_ne_true, if_neg hmore, if_neg (not_or.mpr ⟨Bool.false_ne_true, hmore⟩)]
      apply ih (by omega) (fun i hi => hbefore i (by omega))
      omega

theorem openVolume_never {attempt : ℕ → Attempt} {name under : Text} {tries tried : ℕ}
    (hno : ∀ i, tried ≤ i → i < tries → w.unlocks (attempt i) = false) (htried : tried < tries)
    (hfuel : tries ≤ tried + fuel) :
    openVolume w attempt name under tries fuel tried k = some (k, none) ∧
      triesMade (fun i => w.unlocks (attempt i)) tries fuel tried = tries := by
  induction fuel generalizing tried with
  | zero => omega
  | succ fuel ih =>
    rw [openVolume, if_pos (.inl htried), triesMade, hno tried le_rfl htried, if_neg Bool.false_ne_true]
    by_cases hlast : tries ≤ tried + 1
    · have hstop : tries ≤ tried + 1 ∧ tries ≠ 0 := by omega
      rw [if_pos hstop, if_pos (.inr hstop)]
      refine ⟨rfl, ?_⟩
      omega
    · have hmore : ¬ (tries ≤ tried + 1 ∧ tries ≠ 0) := fun h => hlast h.1
      rw [if_neg hmore, if_neg (not_or.mpr ⟨Bool.false_ne_true, hmore⟩)]
      apply ih (fun i hi => hno i (by omega))
      · omega
      · omega

theorem runScript_cached {id key : Text} (h : ss.ringNow o (keyName id) = some key) (src : Text) :
    runScript o src id 0 ss = (⟨ss.ringNow o, ss.runs + 1, ss.prompts⟩, key) := by
  simp only [runScript, decryptKeyctl, h, lt_irrefl, if_false, Bool.false_eq_true]

theorem runScript_asked {src id key : Text} {tried : ℕ} (h : ss.ringNow o (keyName id) = none ∨ 0 < tried)
    (hreply : o.reply ss.runs src = ⟨some key, true⟩) (hkey : key ≠ []) :
    runScript o src id tried ss =
      (⟨Function.update (ss.ringNow o) (keyName id) (some key), ss.runs + 1, ss.prompts ++ [src]⟩, key) := by
  have hasked : decryptKeyctl (o.reply ss.runs src) tried id (ss.ringNow o) =
      ⟨Function.update (ss.ringNow o) (keyName id) (some key), key, true⟩ := by
    have hask : askKey (o.reply ss.runs src) (keyName id) (ss.ringNow o) =
        ⟨Function.update (ss.ringNow o) (keyName id) (some key), key, true⟩ := by
      rw [hreply]
      exact if_pos ⟨hkey, rfl⟩
    rw [decryptKeyctl]
    cases hring : ss.ringNow o (keyName id) with
    | none => exact hask
    | some old =>
      have htried : 0 < tried := h.resolve_left (fun hnone => Option.some_ne_none old (hring.symm.trans hnone))
      exact (if_pos htried).trans hask
  simp only [runScript, hasked, if_true]

namespace Volume

def src (v : Volume s w) : Text := sourcePath v.entry.src

def name (v : Volume s w) : Text := v.entry.dst

def id (v : Volume s w) : Text := v.entry.key

def job (v : Volume s w) : Job := ⟨v.name, v.src, v.id, promptFor v.name v.src, v.options⟩

def mapping (v : Volume s w) : Mapping := ⟨v.name, w.links v.src⟩

def cached (o : Outside) (v : Volume s w) (ss : Session) : Option Text := ss.ringNow o (keyName v.id)

def Answered (o : Outside) (opens : Text → Text → Bool) (v : Volume s w) : Prop :=
  ∀ n, ∃ key, o.reply n v.src = ⟨some key, true⟩ ∧ key ≠ [] ∧ opens v.src key = true

/-- Whether the volume opens that comes next, its prompts being answered rightly: not where its only
try goes to a wrong key that is cached. -/
def opensNow (o : Outside) (opens : Text → Text → Bool) (v : Volume s w) (ss : Session) : Bool :=
  match v.cached o ss with
  | none => true
  | some key => opens v.src key || v.options.tries != 1

def asksNow (o : Outside) (opens : Text → Text → Bool) (v : Volume s w) (ss : Session) : Bool :=
  match v.cached o ss with
  | none => true
  | some key => !opens v.src key && v.options.tries != 1

def Apart (v v' : Volume s w) : Prop :=
  v.name ≠ v'.name ∧ v.name ≠ unformatted v'.name ∧ v'.name ≠ unformatted v.name

def Free (v : Volume s w) (k : Kernel) : Prop := k.has (unformatted v.name) = false ∧ k.has v.name = false

variable {v : Volume s w}

theorem lineJob_eq (hfree : v.Free k) : lineJob s w k v.entry = .ok v.job := by
  have hopts : v.entry.opts ≠ [] := by
    intro hnil
    have hparsed := v.parsed
    rw [hnil] at hparsed
    have hinitial : Options.initial s = v.options := Option.some.inj hparsed
    have hluks := v.luks
    rw [← hinitial] at hluks
    cases hluks
  have hkey : checkKey w v.options v.id = some v.id := by
    apply if_pos
    rw [v.script]
    exact List.cons_ne_nil _ _
  have hread : readable w k v.src = true := by
    rw [readable, src, v.present, Bool.true_or]
  have hignore : ¬ (v.options.ignore = true ∧ s.forceStart = false) := by
    rintro ⟨hignore, hforce⟩
    obtain h | h := v.wanted
    · rw [h] at hignore
      cases hignore
    · rw [h] at hforce
      cases hforce
  have hthere : (k.has (unformatted v.entry.dst) || k.has v.entry.dst) = false := by
    rw [Bool.or_eq_false_iff]
    exact hfree
  rw [lineJob, if_neg v.dst_ne, if_neg (by simp [v.src_ne, v.key_ne, hopts]), v.parsed]
  dsimp only
  rw [if_neg hignore]
  have hkey' : checkKey w v.options v.entry.key = some v.id := hkey
  rw [hkey']
  dsimp only
  have hread' : readable w k (sourcePath v.entry.src) = true := hread
  rw [hread', if_neg Bool.true_eq_false.mp, hthere, if_neg Bool.false_ne_true]
  rfl

def attempt (v : Volume s w) (tried : ℕ) : Attempt :=
  ⟨"luks".toList, v.options.params ++ keyFileArg (volumeKey v.job) ++ ' ' :: v.options.luksParams,
    (volumeKey v.job).keyscript, (volumeKey v.job).scriptArg, v.src, unformatted v.name, tried⟩

def fits (o : Outside) (opens : Text → Text → Bool) (v : Volume s w) (ss : Session) (n : ℕ) : Bool :=
  opens v.src (keyAt o v.src v.id ss n)

theorem volumeKey_eq : volumeKey v.job = ⟨"-".toList, keyctlScript, v.id⟩ := by
  have hscript : v.job.options.keyscript = keyctlScript := v.script
  rw [volumeKey, if_pos (by rw [hscript]; exact List.cons_ne_nil _ _), hscript]
  rfl

theorem unlocks_eq (n : ℕ) : (withRing o opens w ss).unlocks (v.attempt n) = v.fits o opens ss n := by
  have hscript : ∀ a : Attempt, a.keyscript = keyctlScript →
      (withRing o opens w ss).unlocks a = opens a.src (keyAt o a.src a.scriptArg ss a.tried) := fun a ha => if_pos ha
  rw [attempt, volumeKey_eq]
  exact hscript _ rfl

theorem setUp_eq {r : Kernel × Option ℕ}
    (h : openVolume (withRing o opens w ss) v.attempt (unformatted v.name) (w.links v.src) v.options.tries fuel 0 k =
      some r) : setUp (withRing o opens w ss) v.job fuel k = some r := by
  have hluks : v.job.options.useLuks = true := v.luks
  have hheader : (withRing o opens w ss).isLuks
      (if v.job.options.cryptHeader = [] then v.job.src else v.job.options.cryptHeader) = true := v.isLuks
  have hopen : openAndCheck (withRing o opens w ss) v.job v.attempt fuel k = some r := by
    have hcall : openVolume (withRing o opens w ss) v.attempt (unformatted v.job.dst)
        ((withRing o opens w ss).links v.job.src) v.job.options.tries fuel 0 k = some r := h
    rw [openAndCheck, hcall]
    obtain ⟨k', _ | tried⟩ := r
    · rfl
    · have hcheck : ¬ (v.job.options.check ≠ [] ∧ runCheck (withRing o opens w ss) v.job.options.check
          (mapperDir ++ unformatted v.job.dst) v.job.options.checkArgs
          ((withRing o opens w ss).type (mapperDir ++ unformatted v.job.dst) tried) = false) :=
        fun hcheck => hcheck.1 v.unchecked
      exact congrArg some (if_neg hcheck)
  rw [setUp, if_pos hluks, doLuks]
  dsimp only
  rw [hheader, if_neg Bool.true_eq_false.mp]
  exact hopen

theorem sessionAfter_eq : sessionAfter o opens w fuel v.job ss =
    afterTries o v.src v.id ss (triesMade (v.fits o opens ss) v.options.tries fuel 0) :=
  if_pos ⟨v.luks, v.script, v.isLuks⟩

theorem lineKeyctl_first {n : ℕ} (hfree : v.Free k) (hbefore : ∀ i < n, v.fits o opens ss i = false)
    (hopen : v.fits o opens ss n = true) (hn : n < v.options.tries) (hfuel : v.options.tries ≤ fuel) :
    lineKeyctl o opens s w fuel (k, ss) v.entry =
      some (k.add v.name (w.links v.src), afterTries o v.src v.id ss (n + 1)) := by
  obtain ⟨hvolume, htries⟩ := @openVolume_first (withRing o opens w ss) fuel k v.attempt (unformatted v.name)
    (w.links v.src) v.options.tries 0 n (Nat.zero_le n) (fun i _ hi => (unlocks_eq i).trans (hbefore i hi))
    ((unlocks_eq n).trans hopen) hn (by omega)
  have hfits : (fun i => (withRing o opens w ss).unlocks (v.attempt i)) = v.fits o opens ss := funext unlocks_eq
  rw [hfits] at htries
  have hstart : startJob (withRing o opens w ss) fuel k v.job = some (k.add v.name (w.links v.src), 0) := by
    have hswap : doSwap (withRing o opens w ss) v.job n (k.add (unformatted v.name) (w.links v.src)) =
        k.add (unformatted v.name) (w.links v.src) := doSwap_eq (has_add hfree.2)
    have hfinal : finalizeDevice (k.add (unformatted v.name) (w.links v.src)) v.job.dst =
        k.add v.name (w.links v.src) := finalize_add hfree.1 hfree.2
    rw [startJob, setUp_eq hvolume]
    dsimp only
    rw [hswap, hfinal]
  rw [lineKeyctl, lineJob_eq hfree]
  dsimp only
  rw [hstart, Option.map_some, sessionAfter_eq, htries]

theorem lineKeyctl_never (hfree : v.Free k) (hno : ∀ i < v.options.tries, v.fits o opens ss i = false)
    (hfuel : v.options.tries ≤ fuel) : lineKeyctl o opens s w fuel (k, ss) v.entry =
      some (k, afterTries o v.src v.id ss v.options.tries) := by
  obtain ⟨hvolume, htries⟩ := @openVolume_never (withRing o opens w ss) fuel k v.attempt (unformatted v.name)
    (w.links v.src) v.options.tries 0 (fun i _ hi => (unlocks_eq i).trans (hno i hi))
    (Nat.pos_of_ne_zero v.bounded) (by omega)
  have hfits : (fun i => (withRing o opens w ss).unlocks (v.attempt i)) = v.fits o opens ss := funext unlocks_eq
  rw [hfits] at htries
  have hstart : startJob (withRing o opens w ss) fuel k v.job = some (k, 1) := by
    rw [startJob, setUp_eq hvolume]
  rw [lineKeyctl, lineJob_eq hfree]
  dsimp only
  rw [hstart, Option.map_some, sessionAfter_eq, htries]

theorem visit_cached {key : Text} (hfree : v.Free k) (hfuel : v.options.tries ≤ fuel)
    (hcached : v.cached o ss = some key) (hfits : opens v.src key = true) :
    lineKeyctl o opens s w fuel (k, ss) v.entry =
      some (k.add v.name (w.links v.src), ⟨ss.ringNow o, ss.runs + 1, ss.prompts⟩) := by
  have hrun := runScript_cached hcached v.src
  have hfirst : v.fits o opens ss 0 = true := by
    rw [fits, keyAt, afterTries, hrun]
    exact hfits
  rw [lineKeyctl_first hfree (fun i hi => absurd hi (Nat.not_lt_zero i)) hfirst (Nat.pos_of_ne_zero v.bounded) hfuel,
    afterTries, afterTries, hrun]

theorem visit_asked {key : Text} (hfree : v.Free k) (hfuel : v.options.tries ≤ fuel) (hcached : v.cached o ss = none)
    (hreply : o.reply ss.runs v.src = ⟨some key, true⟩) (hkey : key ≠ []) (hfits : opens v.src key = true) :
    lineKeyctl o opens s w fuel (k, ss) v.entry = some (k.add v.name (w.links v.src),
      ⟨Function.update (ss.ringNow o) (keyName v.id) (some key), ss.runs + 1, ss.prompts ++ [v.src]⟩) := by
  have hrun := @runScript_asked o ss v.src v.id key 0 (.inl hcached) hreply hkey
  have hfirst : v.fits o opens ss 0 = true := by
    rw [fits, keyAt, afterTries, hrun]
    exact hfits
  rw [lineKeyctl_first hfree (fun i hi => absurd hi (Nat.not_lt_zero i)) hfirst (Nat.pos_of_ne_zero v.bounded) hfuel,
    afterTries, afterTries, hrun]

theorem visit_second {key : Text} (hfree : v.Free k) (hfuel : v.options.tries ≤ fuel) (hanswered : v.Answered o opens)
    (hcached : v.cached o ss = some key) (hfits : opens v.src key = false) (htries : v.options.tries ≠ 1) :
    ∃ ss', lineKeyctl o opens s w fuel (k, ss) v.entry = some (k.add v.name (w.links v.src), ss') ∧
      ss'.prompts = ss.prompts ++ [v.src] := by
  have hrun := runScript_cached hcached v.src
  obtain ⟨new, hreply, hnew, hopens⟩ := hanswered (ss.runs + 1)
  let wrong : Session := ⟨ss.ringNow o, ss.runs + 1, ss.prompts⟩
  have hone : afterTries o v.src v.id ss 1 = wrong := by rw [afterTries, afterTries, hrun]
  have hagain := @runScript_asked o wrong v.src v.id new 1 (.inr one_pos) hreply hnew
  have hfirst : v.fits o opens ss 0 = false := by
    rw [fits, keyAt, afterTries, hrun]
    exact hfits
  have hsecond : v.fits o opens ss 1 = true := by
    rw [fits, keyAt, hone, hagain]
    exact hopens
  have hbounded := v.bounded
  refine ⟨afterTries o v.src v.id ss 2, lineKeyctl_first hfree ?_ hsecond (by omega) hfuel, ?_⟩
  · intro i hi
    obtain rfl : i = 0 := by omega
    exact hfirst
  · rw [afterTries, hone, hagain]

theorem visit_refused {key : Text} (hfree : v.Free k) (hfuel : v.options.tries ≤ fuel)
    (hcached : v.cached o ss = some key) (hfits : opens v.src key = false) (htries : v.options.tries = 1) :
    lineKeyctl o opens s w fuel (k, ss) v.entry = some (k, ⟨ss.ringNow o, ss.runs + 1, ss.prompts⟩) := by
  have hrun := runScript_cached hcached v.src
  have hno : ∀ i < v.options.tries, v.fits o opens ss i = false := by
    intro i hi
    obtain rfl : i = 0 := by omega
    rw [fits, keyAt, afterTries, hrun]
    exact hfits
  rw [lineKeyctl_never hfree hno hfuel, htries, afterTries, afterTries, hrun]

theorem visit (hfree : v.Free k) (hfuel : v.options.tries ≤ fuel) (hanswered : v.Answered o opens) :
    ∃ ss', lineKeyctl o opens s w fuel (k, ss) v.entry =
        some (if v.opensNow o opens ss then k.add v.name (w.links v.src) else k, ss') ∧
      ss'.prompts = ss.prompts ++ if v.asksNow o opens ss then [v.src] else [] := by
  cases hcached : v.cached o ss with
  | none =>
    have hopens : v.opensNow o opens ss = true := by rw [opensNow, hcached]
    have hasks : v.asksNow o opens ss = true := by rw [asksNow, hcached]
    obtain ⟨key, hreply, hkey, hfits⟩ := hanswered ss.runs
    rw [hopens, hasks]
    exact ⟨_, visit_asked hfree hfuel hcached hreply hkey hfits, rfl⟩
  | some key =>
    have hopens : v.opensNow o opens ss = (opens v.src key || v.options.tries != 1) := by rw [opensNow, hcached]
    have hasks : v.asksNow o opens ss = (!opens v.src key && v.options.tries != 1) := by rw [asksNow, hcached]
    cases hfits : opens v.src key with
    | true =>
      rw [hopens, hasks, hfits]
      exact ⟨_, visit_cached hfree hfuel hcached hfits, (List.append_nil _).symm⟩
    | false =>
      by_cases htries : v.options.tries = 1
      · rw [hopens, hasks, hfits, htries]
        exact ⟨_, visit_refused hfree hfuel hcached hfits htries, (List.append_nil _).symm⟩
      · obtain ⟨ss', hline, hprompts⟩ := visit_second hfree hfuel hanswered hcached hfits htries
        have hne : (v.options.tries != 1) = true := bne_iff_ne.mpr htries
        rw [hopens, hasks, hfits, hne]
        exact ⟨ss', hline, hprompts⟩

end Volume

structure Ready (o : Outside) (opens : Text → Text → Bool) (fuel : ℕ) (k : Kernel) (vs : List (Volume s w)) :
    Prop where
  bounded : ∀ v ∈ vs, v.options.tries ≤ fuel
  answered : ∀ v ∈ vs, v.Answered o opens
  apart : vs.Pairwise Volume.Apart
  free : ∀ v ∈ vs, v.Free k

theorem has_add_eq (name under other : Text) :
    (k.add name under).has other = (k.has other || decide (name = other)) := by
  simp [Kernel.has, Kernel.add]

theorem has_add_of_ne {name other : Text} (h : name ≠ other) (under : Text) :
    (k.add name under).has other = k.has other := by
  rw [has_add_eq, decide_eq_false h, Bool.or_false]

namespace Ready

variable {v : Volume s w} {vs pre rest : List (Volume s w)}

theorem next (h : Ready o opens fuel k (v :: vs)) (ss : Session) :
    ∃ k' ss', lineKeyctl o opens s w fuel (k, ss) v.entry = some (k', ss') ∧ Ready o opens fuel k' vs ∧
      k'.has v.name = v.opensNow o opens ss ∧
      ss'.prompts = ss.prompts ++ (if v.asksNow o opens ss then [v.src] else []) ∧
      ∀ name, v.name ≠ name → k'.has name = k.has name := by
  obtain ⟨hbound, hbounded⟩ := List.forall_mem_cons.mp h.bounded
  obtain ⟨hanswer, hanswered⟩ := List.forall_mem_cons.mp h.answered
  obtain ⟨hfree, hfrees⟩ := List.forall_mem_cons.mp h.free
  obtain ⟨hapart, hrest⟩ := List.pairwise_cons.mp h.apart
  obtain ⟨ss', hline, hprompts⟩ := @Volume.visit o opens s w fuel k ss v hfree hbound hanswer
  cases hopens : v.opensNow o opens ss with
  | false =>
    rw [hopens] at hline
    exact ⟨k, ss', hline, ⟨hbounded, hanswered, hrest, hfrees⟩, hfree.2, hprompts, fun _ _ => rfl⟩
  | true =>
    rw [hopens] at hline
    refine ⟨_, ss', hline, ⟨hbounded, hanswered, hrest, ?_⟩, ?_, hprompts, fun name hne => has_add_of_ne hne _⟩
    · intro v' hv'
      obtain ⟨hname, hunf, -⟩ := hapart v' hv'
      obtain ⟨hfree₁, hfree₂⟩ := hfrees v' hv'
      exact ⟨(has_add_of_ne hunf _).trans hfree₁, (has_add_of_ne hname _).trans hfree₂⟩
    · rw [if_pos rfl, has_add_eq, decide_eq_true rfl, Bool.or_true]

theorem run (h : Ready o opens fuel k (pre ++ rest)) (ss : Session) :
    ∃ k' ss', startKeyctl o opens s w fuel (k, ss) (pre.map Volume.entry) = some (k', ss') ∧
      Ready o opens fuel k' rest ∧ ∀ name, (∀ v ∈ pre, v.name ≠ name) → k'.has name = k.has name := by
  induction pre generalizing k ss with
  | nil => exact ⟨k, ss, rfl, h, fun _ _ => rfl⟩
  | cons v pre ih =>
    obtain ⟨k₁, ss₁, hline, hready, -, -, hothers⟩ := h.next ss
    obtain ⟨k', ss', hrun, hrest, hnames⟩ := ih hready ss₁
    refine ⟨k', ss', ?_, hrest, ?_⟩
    · rw [List.map_cons, startKeyctl, List.foldlM_cons, hline]
      exact hrun
    · intro name hname
      rw [hnames name (fun u hu => hname u (List.mem_cons_of_mem _ hu)),
        hothers name (hname v (List.mem_cons_self ..))]

end Ready

theorem keyctl_opens (o : Outside) (opens : Text → Text → Bool) (s : Setting) (w : Disks) (fuel : ℕ) (k : Kernel)
    (ss : Session) (pre : List (Volume s w)) (v : Volume s w) (post : List (Volume s w))
    (h : Ready o opens fuel k (pre ++ v :: post)) :
    ∃ k₁ ss₁ k₂ ss₂ k' ss',
      startKeyctl o opens s w fuel (k, ss) (pre.map Volume.entry) = some (k₁, ss₁) ∧
      lineKeyctl o opens s w fuel (k₁, ss₁) v.entry = some (k₂, ss₂) ∧
      startKeyctl o opens s w fuel (k, ss) ((pre ++ v :: post).map Volume.entry) = some (k', ss') ∧
      k'.has v.name = v.opensNow o opens ss₁ ∧
      ss₂.prompts = ss₁.prompts ++ if v.asksNow o opens ss₁ then [v.src] else [] := by
  obtain ⟨k₁, ss₁, hpre, hready, -⟩ := h.run ss
  obtain ⟨k₂, ss₂, hline, hready₂, hopens, hprompts, -⟩ := hready.next ss₁
  have hpost : Ready o opens fuel k₂ (post ++ []) := by rwa [List.append_nil]
  obtain ⟨k', ss', hrun, -, hnames⟩ := hpost.run ss₂
  obtain ⟨hapart, -⟩ := List.pairwise_cons.mp hready.apart
  refine ⟨k₁, ss₁, k₂, ss₂, k', ss', hpre, hline, ?_, ?_, hprompts⟩
  · rw [List.map_append, List.map_cons, startKeyctl, List.foldlM_append, ← startKeyctl, hpre]
    change startKeyctl o opens s w fuel (k₁, ss₁) (v.entry :: post.map Volume.entry) = _
    rw [startKeyctl, List.foldlM_cons, hline]
    exact hrun
  · rw [hnames v.name (fun u hu => (hapart u hu).1.symm), hopens]

def keyctlSetting : Setting := ⟨.early, true, false, [], [], fun p => p = keyctlScript, fun _ => false⟩

def luksDisks : Disks where
  present _ := true
  links p := p
  keyFile _ := false
  isLuks _ := true
  unlocks _ := false
  type _ _ := []
  script _ _ _ _ := false

def keyctlOptions : Options := { Options.initial keyctlSetting with useLuks := true, keyscript := keyctlScript }

theorem keyctlOptions_parsed : parseOpts keyctlSetting "luks,keyscript=decrypt_keyctl".toList = some keyctlOptions := by
  decide +kernel

def keyctlVolume (dst src key : Text) (hdst : dst ≠ []) (hsrc : src ≠ []) (hkey : key ≠ []) :
    Volume keyctlSetting luksDisks where
  entry := ⟨dst, src, key, "luks,keyscript=decrypt_keyctl".toList⟩
  options := keyctlOptions
  parsed := keyctlOptions_parsed
  luks := rfl
  script := rfl
  unchecked := rfl
  bounded := Nat.succ_ne_zero 2
  wanted := .inl rfl
  dst_ne := hdst
  src_ne := hsrc
  key_ne := hkey
  present := rfl
  isLuks := rfl

def test1 : Volume keyctlSetting luksDisks :=
  keyctlVolume "test1".toList "/dev/sda1".toList "test_pw".toList (by decide) (by decide) (by decide)

def test2 : Volume keyctlSetting luksDisks :=
  keyctlVolume "test2".toList "/dev/sda2".toList "test_pw".toList (by decide) (by decide) (by decide)

def test3 : Volume keyctlSetting luksDisks :=
  keyctlVolume "test3".toList "/dev/sda3".toList "test_other_pw".toList (by decide) (by decide) (by decide)

def passphraseOf (src : Text) : Text := if src = "/dev/sda3".toList then "tulip".toList else "rose".toList

def rightKey (src key : Text) : Bool := key = passphraseOf src

def rightAnswers (expired : Bool) : Outside := ⟨fun _ src => ⟨some (passphraseOf src), true⟩, fun _ _ => expired⟩

theorem tests_ready (expired : Bool) :
    Ready (rightAnswers expired) rightKey 3 ⟨[], fun _ => 0⟩ [test1, test2, test3] where
  bounded := by
    intro v hv
    simp only [List.mem_cons, List.not_mem_nil, or_false] at hv
    obtain rfl | rfl | rfl := hv <;> exact le_rfl
  answered := by
    intro v _ n
    refine ⟨passphraseOf v.src, rfl, ?_, decide_eq_true rfl⟩
    rw [passphraseOf]
    split_ifs <;> exact List.cons_ne_nil _ _
  apart := by
    refine List.pairwise_cons.mpr ⟨?_, List.pairwise_cons.mpr ⟨?_, List.pairwise_singleton _ _⟩⟩
    · intro v hv
      simp only [List.mem_cons, List.not_mem_nil, or_false] at hv
      obtain rfl | rfl := hv <;> exact ⟨by decide, by decide, by decide⟩
    · intro v hv
      obtain rfl := List.mem_singleton.mp hv
      exact ⟨by decide, by decide, by decide⟩
  free := fun _ _ => ⟨rfl, rfl⟩

theorem test2_opens : ∃ k₁ ss₁ k₂ ss₂ k' ss',
    startKeyctl (rightAnswers true) rightKey keyctlSetting luksDisks 3 (⟨[], fun _ => 0⟩, ⟨fun _ => none, 0, []⟩)
      [test1.entry] = some (k₁, ss₁) ∧
    lineKeyctl (rightAnswers true) rightKey keyctlSetting luksDisks 3 (k₁, ss₁) test2.entry = some (k₂, ss₂) ∧
    startKeyctl (rightAnswers true) rightKey keyctlSetting luksDisks 3 (⟨[], fun _ => 0⟩, ⟨fun _ => none, 0, []⟩)
      [test1.entry, test2.entry, test3.entry] = some (k', ss') ∧
    k'.has "test2".toList = test2.opensNow (rightAnswers true) rightKey ss₁ ∧
    ss₂.prompts = ss₁.prompts ++ if test2.asksNow (rightAnswers true) rightKey ss₁ then ["/dev/sda2".toList] else [] :=
  keyctl_opens (rightAnswers true) rightKey keyctlSetting luksDisks 3 ⟨[], fun _ => 0⟩ ⟨fun _ => none, 0, []⟩
    [test1] test2 [test3] (tests_ready true)

def firstUses (known : List Text) : List (Volume s w) → List (Volume s w)
  | [] => []
  | v :: vs => if v.id ∈ known then firstUses known vs else v :: firstUses (v.id :: known) vs

structure Consistent (o : Outside) (opens : Text → Text → Bool) (passphrase : Text → Text) (vs : List (Volume s w)) :
    Prop where
  unexpired : ∀ n name, o.expired n name = false
  reply : ∀ v ∈ vs, ∀ n, o.reply n v.src = ⟨some (passphrase v.id), true⟩
  nonempty : ∀ v ∈ vs, passphrase v.id ≠ []
  fits : ∀ v ∈ vs, opens v.src (passphrase v.id) = true

theorem keyName_injective {a b : Text} (h : keyName a = keyName b) : a = b := List.append_cancel_left h

theorem ringNow_eq (h : ∀ n name, o.expired n name = false) (ss : Session) : ss.ringNow o = ss.ring := by
  funext name
  rw [Session.ringNow, h, if_neg Bool.false_ne_true]

theorem Ready.opened {v : Volume s w} {vs : List (Volume s w)} {k₁ k' : Kernel} {ss₁ ss' : Session}
    (h : Ready o opens fuel k (v :: vs)) (hopens : v.opensNow o opens ss = true)
    (hline : lineKeyctl o opens s w fuel (k, ss) v.entry = some (k₁, ss₁))
    (hrun : startKeyctl o opens s w fuel (k₁, ss₁) (vs.map Volume.entry) = some (k', ss')) :
    startKeyctl o opens s w fuel (k, ss) ((v :: vs).map Volume.entry) = some (k', ss') ∧ k'.has v.name = true := by
  obtain ⟨hapart, -⟩ := List.pairwise_cons.mp h.apart
  obtain ⟨k₂, ss₂, hline₂, hready, hhas, -, -⟩ := h.next ss
  obtain ⟨rfl, rfl⟩ := Prod.mk.inj (Option.some.inj (hline.symm.trans hline₂))
  have hrest : Ready o opens fuel k₁ (vs ++ []) := by rwa [List.append_nil]
  obtain ⟨k'', ss'', hrun₂, -, hnames⟩ := hrest.run ss₁
  obtain ⟨rfl, rfl⟩ := Prod.mk.inj (Option.some.inj (hrun.symm.trans hrun₂))
  constructor
  · rw [List.map_cons, startKeyctl, List.foldlM_cons, hline]
    exact hrun
  · rw [hnames v.name (fun u hu => (hapart u hu).1.symm), hhas, hopens]

theorem Consistent.tail {passphrase : Text → Text} {v : Volume s w} {vs : List (Volume s w)}
    (h : Consistent o opens passphrase (v :: vs)) : Consistent o opens passphrase vs where
  unexpired := h.unexpired
  reply u hu := h.reply u (List.mem_cons_of_mem _ hu)
  nonempty u hu := h.nonempty u (List.mem_cons_of_mem _ hu)
  fits u hu := h.fits u (List.mem_cons_of_mem _ hu)

theorem asks_unknown {passphrase : Text → Text} {vs : List (Volume s w)} (known : List Text)
    (h : Ready o opens fuel k vs) (hc : Consistent o opens passphrase vs)
    (hring : ∀ v ∈ vs, ss.ring (keyName v.id) = if v.id ∈ known then some (passphrase v.id) else none) :
    ∃ k' ss', startKeyctl o opens s w fuel (k, ss) (vs.map Volume.entry) = some (k', ss') ∧
      (∀ v ∈ vs, k'.has v.name = true) ∧ ss'.prompts = ss.prompts ++ (firstUses known vs).map Volume.src := by
  induction vs generalizing known k ss with
  | nil => exact ⟨k, ss, rfl, fun _ hv => absurd hv List.not_mem_nil, (List.append_nil _).symm⟩
  | cons v vs ih =>
    have hnow := ringNow_eq hc.unexpired ss
    have hv : v ∈ v :: vs := List.mem_cons_self ..
    obtain ⟨k₁, ss₁, hline, hready, -, -, -⟩ := h.next ss
    have hcached : v.cached o ss = if v.id ∈ known then some (passphrase v.id) else none := by
      rw [Volume.cached, hnow, hring v hv]
    by_cases hknown : v.id ∈ known
    · rw [if_pos hknown] at hcached
      have hopens : v.opensNow o opens ss = true := by
        rw [Volume.opensNow, hcached]
        exact Bool.or_eq_true_iff.mpr (.inl (hc.fits v hv))
      have hvisit := Volume.visit_cached (h.free v hv) (h.bounded v hv) hcached (hc.fits v hv)
      rw [hnow] at hvisit
      obtain ⟨rfl, rfl⟩ := Prod.mk.inj (Option.some.inj (hline.symm.trans hvisit))
      obtain ⟨k', ss', hrun, hall, hasked⟩ := @ih _ ⟨ss.ring, ss.runs + 1, ss.prompts⟩ known hready hc.tail
        (fun u hu => hring u (List.mem_cons_of_mem _ hu))
      obtain ⟨hstart, hhas⟩ := h.opened hopens hline hrun
      refine ⟨k', ss', hstart, List.forall_mem_cons.mpr ⟨hhas, hall⟩, ?_⟩
      rw [hasked, firstUses, if_pos hknown]
    · rw [if_neg hknown] at hcached
      have hopens : v.opensNow o opens ss = true := by rw [Volume.opensNow, hcached]
      have hvisit := Volume.visit_asked (h.free v hv) (h.bounded v hv) hcached (hc.reply v hv ss.runs)
        (hc.nonempty v hv) (hc.fits v hv)
      rw [hnow] at hvisit
      obtain ⟨rfl, rfl⟩ := Prod.mk.inj (Option.some.inj (hline.symm.trans hvisit))
      let asked : Session :=
        ⟨Function.update ss.ring (keyName v.id) (some (passphrase v.id)), ss.runs + 1, ss.prompts ++ [v.src]⟩
      have hring' : ∀ u ∈ vs, asked.ring (keyName u.id) =
          if u.id ∈ v.id :: known then some (passphrase u.id) else none := by
        intro u hu
        change Function.update ss.ring (keyName v.id) (some (passphrase v.id)) (keyName u.id) = _
        by_cases hid : u.id = v.id
        · rw [hid, Function.update_self, if_pos (List.mem_cons_self ..)]
        · rw [Function.update_of_ne (fun heq => hid (keyName_injective heq)), hring u (List.mem_cons_of_mem _ hu)]
          simp only [List.mem_cons, hid, false_or]
      obtain ⟨k', ss', hrun, hall, hasked⟩ := @ih _ asked (v.id :: known) hready hc.tail hring'
      obtain ⟨hstart, hhas⟩ := h.opened hopens hline hrun
      refine ⟨k', ss', hstart, List.forall_mem_cons.mpr ⟨hhas, hall⟩, ?_⟩
      rw [hasked, firstUses, if_neg hknown, List.map_cons]
      exact List.append_assoc _ _ _

theorem keyctl_asks_once (o : Outside) (opens : Text → Text → Bool) (passphrase : Text → Text) (s : Setting)
    (w : Disks) (fuel : ℕ) (k : Kernel) (ss : Session) (vs : List (Volume s w)) (h : Ready o opens fuel k vs)
    (hc : Consistent o opens passphrase vs) (hring : ∀ v ∈ vs, ss.ring (keyName v.id) = none) :
    ∃ k' ss', startKeyctl o opens s w fuel (k, ss) (vs.map Volume.entry) = some (k', ss') ∧
      (∀ v ∈ vs, k'.has v.name = true) ∧ ss'.prompts = ss.prompts ++ (firstUses [] vs).map Volume.src := by
  apply asks_unknown [] h hc
  intro v hv
  rw [if_neg List.not_mem_nil]
  exact hring v hv

theorem tests_asked : ∃ k' ss',
    startKeyctl (rightAnswers false) rightKey keyctlSetting luksDisks 3 (⟨[], fun _ => 0⟩, ⟨fun _ => none, 0, []⟩)
      [test1.entry, test2.entry, test3.entry] = some (k', ss') ∧
    (∀ v ∈ [test1, test2, test3], k'.has v.name = true) ∧ ss'.prompts = ["/dev/sda1".toList, "/dev/sda3".toList] := by
  let passphrase := fun id => if id = "test_other_pw".toList then "tulip".toList else "rose".toList
  have hc : Consistent (rightAnswers false) rightKey passphrase [test1, test2, test3] := by
    constructor
    · exact fun _ _ => rfl
    · intro v hv n
      simp only [List.mem_cons, List.not_mem_nil, or_false] at hv
      obtain rfl | rfl | rfl := hv <;> rfl
    · intro v hv
      simp only [List.mem_cons, List.not_mem_nil, or_false] at hv
      obtain rfl | rfl | rfl := hv <;> decide
    · intro v hv
      simp only [List.mem_cons, List.not_mem_nil, or_false] at hv
      obtain rfl | rfl | rfl := hv <;> decide
  have hfirst : (firstUses [] [test1, test2, test3]).map Volume.src = ["/dev/sda1".toList, "/dev/sda3".toList] := by
    decide
  obtain ⟨k', ss', hstart, hall, hprompts⟩ := keyctl_asks_once (rightAnswers false) rightKey passphrase keyctlSetting
    luksDisks 3 ⟨[], fun _ => 0⟩ ⟨fun _ => none, 0, []⟩ [test1, test2, test3] (tests_ready false) hc (fun _ _ => rfl)
  exact ⟨k', ss', hstart, hall, hprompts.trans hfirst⟩

end CgxLayer.Cryptdisks
