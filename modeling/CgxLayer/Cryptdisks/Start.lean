import CgxLayer.Cryptdisks.Crypttab

namespace CgxLayer.Cryptdisks

open Text

structure Mapping where
  name : Text
  under : Text
deriving DecidableEq

/-- The crypt mappings, in the order in which they were made, and how often each is open without
counting the mappings on it. -/
structure Kernel where
  mappings : List Mapping
  openers : Text → ℕ

def mapperDir : Text := "/dev/mapper/".toList

def Mapping.path (m : Mapping) : Text := mapperDir ++ m.name

namespace Kernel

def has (k : Kernel) (name : Text) : Bool := k.mappings.any (fun m => m.name = name)

def add (k : Kernel) (name under : Text) : Kernel := { k with mappings := k.mappings ++ [⟨name, under⟩] }

def drop (k : Kernel) (name : Text) : Kernel := { k with mappings := k.mappings.filter (fun m => m.name ≠ name) }

def openCount (k : Kernel) (name : Text) : ℕ :=
  k.openers name + k.mappings.countP (fun m => m.under = mapperDir ++ name)

def rename (k : Kernel) (old new : Text) : Kernel :=
  if k.has new then k
  else { k with mappings := k.mappings.map (fun m => if m.name = old then ⟨new, m.under⟩ else m) }

end Kernel

structure Attempt where
  type : Text
  args : Text
  keyscript : Text
  scriptArg : Text
  src : Text
  name : Text
  tried : ℕ

/-- What the commands of the start find. The type is what blkid prints of a device, or of a mapping
after so many tries. -/
structure Disks where
  present : Text → Bool
  links : Text → Text
  keyFile : Text → Bool
  isLuks : Text → Bool
  unlocks : Attempt → Bool
  type : Text → ℕ → Text
  script : Text → Text → Text → Text → Bool

def unformatted (dst : Text) : Text := dst ++ "_unformatted".toList

def blkidScript : Text := checksDir ++ "blkid".toList

def unBlkidScript : Text := checksDir ++ "un_blkid".toList

-- checks/blkid, on what /sbin/blkid prints
def blkidCheck (type fs : Text) : Bool :=
  if type = [] ∧ fs = [] then false
  else if type ≠ [] ∧ fs = "none".toList then false
  else if fs ≠ [] ∧ type ≠ fs then false
  else true

-- checks/un_blkid
def unBlkidCheck (type fs : Text) : Bool :=
  if type ≠ [] ∧ fs = [] then false
  else if fs ≠ [] ∧ type = fs then false
  else true

-- With an empty name the device itself is run as the script.
def runCheck (w : Disks) (check dev args type : Text) : Bool :=
  let fs := ((words shBlank args).head?).getD []
  if check = blkidScript then blkidCheck type fs
  else if check = unBlkidScript then unBlkidCheck type fs
  else w.script check dev args type

/-- An entry whose options are parsed, its source where its device is to be looked for. -/
structure Job where
  dst : Text
  src : Text
  key : Text
  prompt : Text
  options : Options

structure KeySource where
  keyFile : Text
  keyscript : Text
  scriptArg : Text

def askpass : Text := "/lib/cryptsetup/askpass".toList

-- `${key%/dev/*}` takes away from the last `/dev/` on
def namesDevice (key : Text) : Bool := key.tails.any (startsWith "/dev/".toList)

def volumeKey (j : Job) : KeySource :=
  if j.options.keyscript ≠ [] then ⟨"-".toList, j.options.keyscript, j.key⟩
  else if j.key = [] then ⟨"-".toList, askpass, j.prompt⟩
  else if namesDevice j.key then ⟨j.key, [], []⟩
  else ⟨"-".toList, "cat".toList, j.key⟩

def plainKey (j : Job) : KeySource :=
  if j.options.keyscript ≠ [] then ⟨"-".toList, j.options.keyscript, j.key⟩
  else if j.key = [] then ⟨"-".toList, askpass, j.prompt⟩
  else ⟨j.key, [], []⟩

def keyFileArg (key : KeySource) : Text := " --key-file=".toList ++ key.keyFile

/-- The loop that asks until the volume opens, with the try that did it; at most `fuel` turns. -/
def openVolume (w : Disks) (attempt : ℕ → Attempt) (name under : Text) (tries : ℕ) :
    ℕ → ℕ → Kernel → Option (Kernel × Option ℕ)
  | 0, _, _ => none
  | fuel + 1, tried, k =>
    if tried < tries ∨ tries = 0 then
      if w.unlocks (attempt tried) then some (k.add name under, some tried)
      else if tries ≤ tried + 1 ∧ tries ≠ 0 then some (k, none)
      else openVolume w attempt name under tries fuel (tried + 1) k
    else some (k, some tried)

def checkVolume (w : Disks) (j : Job) (tried : ℕ) (k : Kernel) : Kernel × Option ℕ :=
  let name := unformatted j.dst
  let dev := mapperDir ++ name
  if j.options.check ≠ [] ∧ runCheck w j.options.check dev j.options.checkArgs (w.type dev tried) = false then
    (k.drop name, none)
  else (k, some tried)

def openAndCheck (w : Disks) (j : Job) (attempt : ℕ → Attempt) (fuel : ℕ) (k : Kernel) :
    Option (Kernel × Option ℕ) :=
  match openVolume w attempt (unformatted j.dst) (w.links j.src) j.options.tries fuel 0 k with
  | none => none
  | some (k, none) => some (k, none)
  | some (k, some tried) => some (checkVolume w j tried k)

def doLuks (w : Disks) (j : Job) (fuel : ℕ) (k : Kernel) : Option (Kernel × Option ℕ) :=
  let header := if j.options.cryptHeader = [] then j.src else j.options.cryptHeader
  if w.isLuks header = false then some (k, none)
  else
    let key := volumeKey j
    let args := j.options.params ++ keyFileArg key ++ ' ' :: j.options.luksParams
    openAndCheck w j
      (fun tried => ⟨"luks".toList, args, key.keyscript, key.scriptArg, j.src, unformatted j.dst, tried⟩) fuel k

def precheckFails (w : Disks) (check src : Text) : Bool :=
  !runCheck w check src [] (w.type src 0) && !blkidCheck (w.type src 0) "swap".toList

def doTcrypt (w : Disks) (j : Job) (fuel : ℕ) (k : Kernel) : Option (Kernel × Option ℕ) :=
  if precheckFails w j.options.precheck j.src then some (k, none)
  else
    let key := volumeKey j
    let args := j.options.params ++ keyFileArg key ++ ' ' :: j.options.tcryptParams
    openAndCheck w j
      (fun tried => ⟨"tcrypt".toList, args, key.keyscript, key.scriptArg, j.src, unformatted j.dst, tried⟩) fuel k

/-- The loop of `do_noluks` with so many turns left: what cryptsetup returns is not looked at. -/
def openPlain (w : Disks) (j : Job) (attempt : ℕ → Attempt) : ℕ → Kernel → Kernel × Option ℕ
  | 0, k => (k, some j.options.tries)
  | left + 1, k =>
    let tried := j.options.tries - (left + 1)
    let name := unformatted j.dst
    let dev := mapperDir ++ name
    let opened := w.unlocks (attempt tried)
    let k := if opened then k.add name (w.links j.src) else k
    let type := if opened then w.type dev tried else []
    if j.options.check = [] ∨ runCheck w j.options.check dev j.options.checkArgs type = true then (k, some tried)
    else if left = 0 then (k.drop name, none)
    else openPlain w j attempt left (k.drop name)

def doNoluks (w : Disks) (j : Job) (k : Kernel) : Kernel × Option ℕ :=
  let precheck := if j.options.precheck = [] then unBlkidScript else j.options.precheck
  if precheckFails w precheck j.src then (k, none)
  else
    let key := plainKey j
    let args := j.options.plainParams ++ ' ' :: (j.options.params ++ keyFileArg key)
    openPlain w j
      (fun tried => ⟨"plain".toList, args, key.keyscript, key.scriptArg, j.src, unformatted j.dst, tried⟩)
      j.options.tries k

-- None where `check_key` returns 1; what it warns of changes nothing.
def checkKey (w : Disks) (o : Options) (key : Text) : Option Text :=
  if o.keyscript ≠ [] then some key
  else if key = [] ∨ key = "none".toList then some []
  else if w.keyFile key = false then none
  else if o.useLuks ∧ "random".toList <:+ key then none
  else some key

def uuidPrefix : Text := "UUID=".toList

def labelPrefix : Text := "LABEL=".toList

-- `sed 's,/,\\x2f,g'`
def escapeSlashes (label : Text) : Text := label.flatMap (fun c => if c = '/' then "\\x2f".toList else [c])

def byUuid : Text := "/dev/disk/by-uuid/".toList

def sourcePath (src : Text) : Text :=
  if startsWith uuidPrefix src then byUuid ++ src.drop uuidPrefix.length
  else if startsWith labelPrefix src then
    "/dev/disk/by-label/".toList ++ escapeSlashes (src.drop labelPrefix.length)
  else src

def readable (w : Disks) (k : Kernel) (src : Text) : Bool :=
  w.present (w.links src) || k.mappings.any (fun m => m.path = w.links src)

def promptFor (dst src : Text) : Text :=
  let diskname := if startsWith byUuid src then dst else src ++ " (".toList ++ dst ++ [')']
  "Please unlock disk ".toList ++ diskname ++ ": ".toList

/-- Preparing the new mapping for swap; a mapping that holds something else is left as it is, and
the close is of a name that is not there. -/
def doSwap (w : Disks) (j : Job) (tried : ℕ) (k : Kernel) : Kernel :=
  if j.options.makeSwap = false ∨ k.has (unformatted j.dst) = false then k
  else
    let type := w.type (mapperDir ++ unformatted j.dst) tried
    if unBlkidCheck type [] ∨ blkidCheck type "swap".toList then k else k.drop j.dst

def finalizeDevice (k : Kernel) (dst : Text) : Kernel := k.rename (unformatted dst) dst

def setUp (w : Disks) (j : Job) (fuel : ℕ) (k : Kernel) : Option (Kernel × Option ℕ) :=
  if j.options.useLuks then doLuks w j fuel k
  else if j.options.useTcrypt then doTcrypt w j fuel k
  else some (doNoluks w j k)

/-- The first half of `handle_crypttab_line_start`: the mapping to set up, or the return code where
there is none to. -/
def lineJob (s : Setting) (w : Disks) (k : Kernel) (e : TabEntry) : Except ℕ Job :=
  if e.dst = [] then .error 1
  else if e.src = [] ∨ e.key = [] ∨ e.opts = [] then .error 1
  else
    match parseOpts s e.opts with
    | none => .error 1
    | some o =>
      if o.ignore ∧ s.forceStart = false then .error 0
      else
        match checkKey w o e.key with
        | none => .error 1
        | some key =>
          let src := sourcePath e.src
          if readable w k src = false then .error (if o.loud then 1 else 0)
          else if k.has (unformatted e.dst) || k.has e.dst then .error 0
          else .ok ⟨e.dst, src, key, promptFor e.dst src, o⟩

/-- The second half, none as long as it asks for a key. -/
def startJob (w : Disks) (fuel : ℕ) (k : Kernel) (j : Job) : Option (Kernel × ℕ) :=
  match setUp w j fuel k with
  | none => none
  | some (k, none) => some (k, 1)
  | some (k, some tried) => some (finalizeDevice (doSwap w j tried k) j.dst, 0)

def handleCrypttabLineStart (s : Setting) (w : Disks) (fuel : ℕ) (k : Kernel) (e : TabEntry) :
    Option (Kernel × ℕ) :=
  match lineJob s w k e with
  | .error code => some (k, code)
  | .ok j => startJob w fuel k j

/-- `do_start` over the entries, which takes no notice of the return codes. -/
def doStart (s : Setting) (w : Disks) (fuel : ℕ) (k : Kernel) (es : List TabEntry) : Option Kernel :=
  es.foldlM (fun k e => (handleCrypttabLineStart s w fuel k e).map Prod.fst) k

variable {s : Setting} {w : Disks} {j : Job} {k k' : Kernel} {name under : Text} {fuel : ℕ}

theorem Kernel.has_iff : k.has name = true ↔ ∃ m ∈ k.mappings, m.name = name := by
  simp [Kernel.has]

theorem Kernel.ne_of_has (h : k.has name = false) : ∀ m ∈ k.mappings, m.name ≠ name := by
  intro m hm hname
  have hhas := Kernel.has_iff.mpr ⟨m, hm, hname⟩
  rw [h] at hhas
  cases hhas

theorem Kernel.drop_absent (h : k.has name = false) : k.drop name = k := by
  have hkeep : k.mappings.filter (fun m => m.name ≠ name) = k.mappings := by
    apply List.filter_eq_self.mpr
    intro m hm
    exact decide_eq_true (Kernel.ne_of_has h m hm)
  rw [Kernel.drop, hkeep]

theorem Kernel.drop_add (h : k.has name = false) (under : Text) : (k.add name under).drop name = k := by
  have hkeep : k.mappings.filter (fun m => m.name ≠ name) = k.mappings :=
    congrArg Kernel.mappings (Kernel.drop_absent h)
  rw [Kernel.drop, Kernel.add, List.filter_append, hkeep]
  simp

theorem Kernel.rename_mappings (hold : k.has name = false) (new : Text) :
    k.mappings.map (fun m => if m.name = name then ⟨new, m.under⟩ else m) = k.mappings := by
  have hsame : ∀ m ∈ k.mappings, (if m.name = name then ⟨new, m.under⟩ else m) = m :=
    fun m hm => if_neg (Kernel.ne_of_has hold m hm)
  rw [List.map_congr_left hsame, List.map_id']

theorem unformatted_ne (dst : Text) : unformatted dst ≠ dst := by
  intro h
  have hlen := congrArg List.length h
  rw [unformatted, List.length_append] at hlen
  have hpos : 0 < "_unformatted".toList.length := by decide
  omega

theorem has_add {dst : Text} (hdst : k.has dst = false) : (k.add (unformatted dst) under).has dst = false := by
  rw [Kernel.has, Kernel.add, List.any_append, ← Kernel.has, hdst]
  simp [unformatted_ne dst]

theorem finalize_add {dst : Text} (hunf : k.has (unformatted dst) = false) (hdst : k.has dst = false) :
    finalizeDevice (k.add (unformatted dst) under) dst = k.add dst under := by
  rw [finalizeDevice, Kernel.rename, has_add hdst, if_neg Bool.false_ne_true, Kernel.add, Kernel.add,
    List.map_append, Kernel.rename_mappings hunf]
  simp

theorem finalize_absent {dst : Text} (hunf : k.has (unformatted dst) = false) : finalizeDevice k dst = k := by
  rw [finalizeDevice, Kernel.rename, Kernel.rename_mappings hunf]
  split_ifs <;> rfl

def Made (k : Kernel) (name under : Text) (r : Kernel × Option ℕ) : Prop :=
  r.1 = k ∨ (r.2 ≠ none ∧ r.1 = k.add name under)

theorem openVolume_made {attempt : ℕ → Attempt} {tries tried : ℕ} {r : Kernel × Option ℕ}
    (h : openVolume w attempt name under tries fuel tried k = some r) : Made k name under r := by
  induction fuel generalizing tried with
  | zero => cases h
  | succ fuel ih =>
    rw [openVolume] at h
    split_ifs at h
    · cases h
      exact .inr ⟨Option.some_ne_none _, rfl⟩
    · cases h
      exact .inl rfl
    · exact ih h
    · cases h
      exact .inl rfl

theorem checkVolume_made {tried : ℕ} (hname : k.has (unformatted j.dst) = false)
    (h : Made k (unformatted j.dst) under (k', some tried)) :
    Made k (unformatted j.dst) under (checkVolume w j tried k') := by
  have hk : k' = k ∨ k' = k.add (unformatted j.dst) under := h.imp id And.right
  rw [checkVolume]
  split_ifs
  · left
    obtain rfl | rfl := hk
    · exact Kernel.drop_absent hname
    · exact Kernel.drop_add hname under
  · exact h

theorem openAndCheck_made {attempt : ℕ → Attempt} {r : Kernel × Option ℕ}
    (hname : k.has (unformatted j.dst) = false) (h : openAndCheck w j attempt fuel k = some r) :
    Made k (unformatted j.dst) (w.links j.src) r := by
  rw [openAndCheck] at h
  cases hopen : openVolume w attempt (unformatted j.dst) (w.links j.src) j.options.tries fuel 0 k with
  | none =>
    rw [hopen] at h
    cases h
  | some opened =>
    have hmade := openVolume_made hopen
    obtain ⟨k', _ | tried⟩ := opened
    · rw [hopen] at h
      cases h
      exact hmade
    · rw [hopen] at h
      cases h
      exact checkVolume_made hname hmade

theorem openPlain_made {attempt : ℕ → Attempt} (hname : k.has (unformatted j.dst) = false) (left : ℕ) :
    Made k (unformatted j.dst) (w.links j.src) (openPlain w j attempt left k) := by
  induction left with
  | zero => exact .inl rfl
  | succ left ih =>
    have hdrop : (if w.unlocks (attempt (j.options.tries - (left + 1))) then
        k.add (unformatted j.dst) (w.links j.src) else k).drop (unformatted j.dst) = k := by
      split_ifs
      · exact Kernel.drop_add hname _
      · exact Kernel.drop_absent hname
    rw [openPlain, hdrop]
    split_ifs
    · exact .inr ⟨Option.some_ne_none _, rfl⟩
    · exact .inl rfl
    · exact ih
    · exact .inl rfl
    · exact .inl rfl
    · exact ih

theorem setUp_made {r : Kernel × Option ℕ} (hname : k.has (unformatted j.dst) = false)
    (h : setUp w j fuel k = some r) : Made k (unformatted j.dst) (w.links j.src) r := by
  rw [setUp] at h
  split_ifs at h
  · rw [doLuks] at h
    generalize (if j.options.cryptHeader = [] then j.src else j.options.cryptHeader) = header at h
    dsimp only at h
    split_ifs at h
    · cases h
      exact .inl rfl
    · exact openAndCheck_made hname h
  · rw [doTcrypt] at h
    split_ifs at h
    · cases h
      exact .inl rfl
    · exact openAndCheck_made hname h
  · cases h
    rw [doNoluks]
    dsimp only
    generalize (if j.options.precheck = [] then unBlkidScript else j.options.precheck) = precheck
    split_ifs
    · exact .inl rfl
    · exact openPlain_made hname _

theorem doSwap_eq {tried : ℕ} (h : k.has j.dst = false) : doSwap w j tried k = k := by
  rw [doSwap]
  dsimp only
  split_ifs
  · rfl
  · rfl
  · exact Kernel.drop_absent h

theorem lineJob_ok {e : TabEntry} (h : lineJob s w k e = .ok j) : j.dst = e.dst ∧ j.src = sourcePath e.src ∧
    readable w k j.src = true ∧ k.has (unformatted j.dst) = false ∧ k.has j.dst = false := by
  unfold lineJob at h
  split at h
  · cases h
  split at h
  · cases h
  split at h
  · cases h
  split at h
  · cases h
  split at h
  · cases h
  dsimp only at h
  split at h
  · cases h
  split at h
  · cases h
  rename_i hread hthere
  obtain ⟨hunf, hdst⟩ := Bool.or_eq_false_iff.mp (Bool.eq_false_of_not_eq_true hthere)
  cases h
  exact ⟨rfl, rfl, Bool.eq_true_of_not_eq_false hread, hunf, hdst⟩

theorem startJob_made {code : ℕ} (hunf : k.has (unformatted j.dst) = false) (hdst : k.has j.dst = false)
    (h : startJob w fuel k j = some (k', code)) : k' = k ∨ (code = 0 ∧ k' = k.add j.dst (w.links j.src)) := by
  rw [startJob] at h
  cases hset : setUp w j fuel k with
  | none =>
    rw [hset] at h
    cases h
  | some r =>
    have hmade := setUp_made hunf hset
    obtain ⟨middle, _ | tried⟩ := r
    · rw [hset] at h
      cases h
      exact .inl (hmade.resolve_right (fun hadd => hadd.1 rfl))
    · rw [hset] at h
      cases h
      obtain rfl | ⟨-, rfl⟩ := hmade
      · left
        rw [doSwap_eq hdst, finalize_absent hunf]
      · right
        rw [doSwap_eq (has_add hdst), finalize_add hunf hdst]
        exact ⟨rfl, rfl⟩

structure Added (w : Disks) (k : Kernel) (e : TabEntry) (k' : Kernel) : Prop where
  absent : k.has e.dst = false
  readable : readable w k (sourcePath e.src) = true
  made : k' = k.add e.dst (w.links (sourcePath e.src))

theorem lineStart_cases {e : TabEntry} {code : ℕ} (h : handleCrypttabLineStart s w fuel k e = some (k', code)) :
    k' = k ∨ (code = 0 ∧ Added w k e k') := by
  rw [handleCrypttabLineStart] at h
  cases hjob : lineJob s w k e with
  | error c =>
    rw [hjob] at h
    cases h
    exact .inl rfl
  | ok j =>
    rw [hjob] at h
    obtain ⟨hname, hsrc, hread, hunf, hdst⟩ := lineJob_ok hjob
    obtain hsame | ⟨hcode, hmade⟩ := startJob_made hunf hdst h
    · exact .inl hsame
    · rw [hname] at hdst hmade
      rw [hsrc] at hread hmade
      exact .inr ⟨hcode, hdst, hread, hmade⟩

def TabEntry.mapping (w : Disks) (e : TabEntry) : Mapping := ⟨e.dst, w.links (sourcePath e.src)⟩

theorem doStart_cons {e : TabEntry} {es : List TabEntry} (h : doStart s w fuel k (e :: es) = some k') :
    ∃ middle code, handleCrypttabLineStart s w fuel k e = some (middle, code) ∧
      doStart s w fuel middle es = some k' := by
  rw [doStart, List.foldlM_cons] at h
  obtain ⟨middle, hmiddle, hrest⟩ := Option.bind_eq_some_iff.mp h
  obtain ⟨⟨k₁, code⟩, hline, rfl⟩ := Option.map_eq_some_iff.mp hmiddle
  exact ⟨k₁, code, hline, hrest⟩

theorem doStart_adds {es : List TabEntry} (h : doStart s w fuel k es = some k') :
    k'.openers = k.openers ∧ ∃ new, k'.mappings = k.mappings ++ new ∧ new.Sublist (es.map (TabEntry.mapping w)) := by
  induction es generalizing k with
  | nil =>
    cases h
    exact ⟨rfl, [], (List.append_nil _).symm, List.Sublist.slnil⟩
  | cons e es ih =>
    obtain ⟨middle, code, hline, hrest⟩ := doStart_cons h
    obtain ⟨hopeners, new, hnew, hsub⟩ := ih hrest
    obtain rfl | ⟨-, hadded⟩ := lineStart_cases hline
    · exact ⟨hopeners, new, hnew, hsub.cons _⟩
    · obtain rfl := hadded.made
      refine ⟨hopeners, e.mapping w :: new, ?_, hsub.cons_cons _⟩
      rw [hnew, Kernel.add, List.append_assoc]
      rfl

theorem doStart_nodup {es : List TabEntry} (h : doStart s w fuel k es = some k')
    (hk : (k.mappings.map Mapping.name).Nodup) : (k'.mappings.map Mapping.name).Nodup := by
  induction es generalizing k with
  | nil =>
    cases h
    exact hk
  | cons e es ih =>
    obtain ⟨middle, code, hline, hrest⟩ := doStart_cons h
    apply ih hrest
    obtain rfl | ⟨-, hadded⟩ := lineStart_cases hline
    · exact hk
    · rw [hadded.made, Kernel.add, List.map_append]
      refine List.nodup_append.mpr ⟨hk, List.nodup_singleton _, ?_⟩
      intro name hname name' hname' heq
      obtain ⟨m, hm, rfl⟩ := List.mem_map.mp hname
      rw [List.map_singleton, List.mem_singleton] at hname'
      exact Kernel.ne_of_has hadded.absent m hm (heq.trans hname')

theorem openVolume_returns {attempt : ℕ → Attempt} {tries tried : ℕ}
    (hfuel : tries ≤ tried + fuel) (htried : tried < tries) :
    ∃ r, openVolume w attempt name under tries fuel tried k = some r := by
  induction fuel generalizing tried with
  | zero => omega
  | succ fuel ih =>
    rw [openVolume, if_pos (.inl htried)]
    split_ifs with hunlocks hlast
    · exact ⟨_, rfl⟩
    · exact ⟨_, rfl⟩
    · apply ih <;> omega

theorem openAndCheck_returns {attempt : ℕ → Attempt} (htries : j.options.tries ≠ 0)
    (hfuel : j.options.tries ≤ fuel) : ∃ r, openAndCheck w j attempt fuel k = some r := by
  obtain ⟨⟨k', r⟩, hopen⟩ := @openVolume_returns w k (unformatted j.dst) (w.links j.src) fuel attempt
    j.options.tries 0 (by omega) (by omega)
  rw [openAndCheck, hopen]
  cases r <;> exact ⟨_, rfl⟩

theorem setUp_returns (htries : j.options.tries ≠ 0) (hfuel : j.options.tries ≤ fuel) :
    ∃ r, setUp w j fuel k = some r := by
  rw [setUp]
  split_ifs
  · rw [doLuks]
    generalize (if j.options.cryptHeader = [] then j.src else j.options.cryptHeader) = header
    dsimp only
    split_ifs
    · exact ⟨_, rfl⟩
    · exact openAndCheck_returns htries hfuel
  · rw [doTcrypt]
    split_ifs
    · exact ⟨_, rfl⟩
    · exact openAndCheck_returns htries hfuel
  · exact ⟨_, rfl⟩

theorem lineJob_options {e : TabEntry} (h : lineJob s w k e = .ok j) : parseOpts s e.opts = some j.options := by
  unfold lineJob at h
  split at h
  · cases h
  split at h
  · cases h
  split at h
  · cases h
  rename_i o ho
  split at h
  · cases h
  split at h
  · cases h
  dsimp only at h
  split at h
  · cases h
  split at h
  · cases h
  cases h
  exact ho

def Bounded (s : Setting) (fuel : ℕ) (e : TabEntry) : Prop :=
  ∀ o, parseOpts s e.opts = some o → o.tries ≠ 0 ∧ o.tries ≤ fuel

theorem lineStart_returns {e : TabEntry} (he : Bounded s fuel e) :
    ∃ r, handleCrypttabLineStart s w fuel k e = some r := by
  rw [handleCrypttabLineStart]
  cases hjob : lineJob s w k e with
  | error code => exact ⟨_, rfl⟩
  | ok j =>
    obtain ⟨htries, hfuel⟩ := he _ (lineJob_options hjob)
    obtain ⟨⟨k', _ | tried⟩, hset⟩ := @setUp_returns w j k fuel htries hfuel
    · exact ⟨(k', 1), by simp only [startJob, hset]⟩
    · exact ⟨_, by simp only [startJob, hset]; rfl⟩

theorem doStart_returns {es : List TabEntry} (hes : ∀ e ∈ es, Bounded s fuel e) (k : Kernel) :
    ∃ k', doStart s w fuel k es = some k' := by
  induction es generalizing k with
  | nil => exact ⟨k, rfl⟩
  | cons e es ih =>
    obtain ⟨he, hes⟩ := List.forall_mem_cons.mp hes
    obtain ⟨⟨middle, code⟩, hline⟩ := @lineStart_returns s w k fuel e he
    obtain ⟨k', hrest⟩ := ih hes middle
    refine ⟨k', ?_⟩
    rw [doStart, List.foldlM_cons, hline]
    exact hrest

theorem start_adds_entries (s : Setting) (w : Disks) (fuel : ℕ) (k : Kernel) (es : List TabEntry)
    (hes : ∀ e ∈ es, Bounded s fuel e) (hk : (k.mappings.map Mapping.name).Nodup) :
    ∃ k' new, doStart s w fuel k es = some k' ∧ k'.mappings = k.mappings ++ new ∧
      new.Sublist (es.map (TabEntry.mapping w)) ∧ (k'.mappings.map Mapping.name).Nodup := by
  obtain ⟨k', hstart⟩ := doStart_returns (w := w) hes k
  obtain ⟨-, new, hnew, hsub⟩ := doStart_adds hstart
  exact ⟨k', new, hstart, hnew, hsub, doStart_nodup hstart hk⟩

def bareSetting (state : InitState) : Setting := ⟨state, true, false, [], [], fun _ => false, fun _ => false⟩

def nested : Disks where
  present p := p = "/dev/sda2".toList
  links p := p
  keyFile _ := false
  isLuks _ := true
  unlocks _ := true
  type _ _ := []
  script _ _ _ _ := false

def nestedTab : Text :=
  "# <target name> <source device> <key file> <options>\n".toList ++
    "base /dev/sda2 none luks\ntop /dev/mapper/base none luks,tries=1\n".toList

def baseMapping : Mapping := ⟨"base".toList, "/dev/sda2".toList⟩

def topMapping : Mapping := ⟨"top".toList, "/dev/mapper/base".toList⟩

theorem nestedTab_bounded (state : InitState) : ∀ e ∈ entries nestedTab, Bounded (bareSetting state) 3 e := by
  have htries : ∀ e ∈ entries nestedTab, ∃ n ∈ [1, 3],
      (parseOpts (bareSetting state) e.opts).map Options.tries = some n := by
    cases state <;> decide +kernel
  intro e he o ho
  obtain ⟨n, hn, hopts⟩ := htries e he
  rw [ho] at hopts
  obtain rfl : o.tries = n := Option.some.inj hopts
  simp only [List.mem_cons, List.not_mem_nil, or_false] at hn
  omega

theorem nested_started : ∃ k' new,
    doStart (bareSetting .early) nested 3 ⟨[], fun _ => 0⟩ (entries nestedTab) = some k' ∧
    k'.mappings = [] ++ new ∧ new.Sublist [baseMapping, topMapping] ∧ (k'.mappings.map Mapping.name).Nodup := by
  obtain ⟨k', new, hstart, hnew, hsub, hnodup⟩ := start_adds_entries (bareSetting .early) nested 3 ⟨[], fun _ => 0⟩
    (entries nestedTab) (nestedTab_bounded .early) List.nodup_nil
  refine ⟨k', new, hstart, hnew, ?_, hnodup⟩
  have hentries : (entries nestedTab).map (TabEntry.mapping nested) = [baseMapping, topMapping] := by decide +kernel
  rw [← hentries]
  exact hsub

end CgxLayer.Cryptdisks
