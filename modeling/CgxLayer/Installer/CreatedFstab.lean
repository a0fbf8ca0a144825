import CgxLayer.Installer.LogicalVolumes
import CgxLayer.Installer.Menu
import CgxLayer.Shell.Script
import CgxLayer.TextFile

namespace CgxLayer.Installer

open Text Shell

def fstabFile : Text := "/tmp/fstab".toList

/-- The shell that `subprocess.call` starts, with what it does to /tmp/fstab on a command outside the
modelled language. -/
structure Sh where
  world : World
  vars : Vars
  outside : Text → Text → Text

def Sh.state (sh : Sh) (fstab : Text) : State :=
  ⟨sh.vars, fun f => if f = fstabFile then fstab else [], [], false⟩

def Sh.call (sh : Sh) (cmd fstab : Text) : Text :=
  match source sh.world (sh.state fstab) cmd with
  | some s => s.files fstabFile
  | none => sh.outside cmd fstab

inductive FsType where
  | ext2
  | ext3
  | ext4
  | vfat
  | xfs
deriving DecidableEq

def FsType.text : FsType → Text
  | .ext2 => "ext2".toList
  | .ext3 => "ext3".toList
  | .ext4 => "ext4".toList
  | .vfat => "vfat".toList
  | .xfs => "xfs".toList

inductive Dest where
  | fs (type : FsType) (mountPoint : Text)
  | swap
  | lvm
  | raid
deriving DecidableEq

def tabbed (ws : List Text) : Text := joinWith '\t' ws

def setDevContents (sh : Sh) (dev : Text) (dest : Dest) (fstab : Text) : Text :=
  match dest with
  | .fs type mountPoint =>
    let mpass := if mountPoint = rootPoint then "1".toList else "2".toList
    sh.call ("echo ".toList ++
      tabbed [dev, mountPoint, type.text, "defaults".toList, "0".toList, mpass] ++
      " >>/tmp/fstab".toList) fstab
  | .swap =>
    sh.call ("echo ".toList ++
      tabbed [dev, "swap".toList, "swap".toList, "sw".toList, "0".toList, "0".toList] ++
      " >>/tmp/fstab".toList) fstab
  | .lvm => fstab
  | .raid => fstab

/-- What a call does once the device is there: `num` is the number that parted gives the partition. -/
def createPartition (sh : Sh) (dev : Text) (num : ℕ) (partid : Dest) (fstab : Text) : Text :=
  setDevContents sh (partitionDevice dev num) partid fstab

-- `none` stands for the dest "part", a partition table on the array.
def createRaid (sh : Sh) (present : Text → Bool) (dest : Option Dest) (fstab : Text) : Except Failure Text :=
  match nextRaid present with
  | none => .error .installerException
  | some dev =>
    match dest with
    | none => .ok fstab
    | some dest => .ok (setDevContents sh dev dest fstab)

def createLv (sh : Sh) (vg name : LvmName) (dest : Dest) (fstab : Text) : Text :=
  setDevContents sh (lvDevice vg.text name.text) dest fstab

inductive Call where
  | createPartition (dev : Text) (num : ℕ) (partid : Dest)
  | createRaid (present : Text → Bool) (dest : Option Dest)
  | createLv (vg name : LvmName) (dest : Dest)

def call (sh : Sh) (fstab : Text) : Call → Except Failure Text
  | .createPartition dev num partid => .ok (createPartition sh dev num partid fstab)
  | .createRaid present dest => createRaid sh present dest fstab
  | .createLv vg name dest => .ok (createLv sh vg name dest fstab)

def callAll (sh : Sh) (fstab : Text) : List Call → Except Failure Text
  | [] => .ok fstab
  | c :: cs =>
    match call sh fstab c with
    | .error e => .error e
    | .ok fstab => callAll sh fstab cs

def rereadTmpFstab (efiSystem : Bool) (I : Installer) (fstab : Text) : Installer × Except Failure Unit :=
  match rereadFstab efiSystem (some (fileLines fstab)) with
  | .error e => (I, .error e)
  | .ok m => ({ I with mounts := m }, .ok ())

def given (l : Text) : Option (Text × FsInfo) :=
  match words pyBlank l with
  | dev :: mountPoint :: type :: opts :: _ =>
    if dev.head? ≠ some '#' ∧ type ∉ ignoreFsTypes then some (mountPoint, ⟨dev, type, some opts⟩) else none
  | _ => none

def Call.device : Call → Option Text
  | .createPartition dev num _ => some (partitionDevice dev num)
  | .createRaid present _ => nextRaid present
  | .createLv vg name _ => some (lvDevice vg.text name.text)

def Call.dest : Call → Option Dest
  | .createPartition _ _ partid => some partid
  | .createRaid _ dest => dest
  | .createLv _ _ dest => some dest

def Dest.given (dev : Text) : Dest → Option (Text × FsInfo)
  | .fs type mountPoint => some (mountPoint, ⟨dev, type.text, some "defaults".toList⟩)
  | _ => none

def Call.given (c : Call) : Option (Text × FsInfo) :=
  match c.device, c.dest with
  | some dev, some dest => dest.given dev
  | _, _ => none

def lastFor (k : Text) (es : List (Text × FsInfo)) : Option FsInfo :=
  ((es.filter (fun e => e.1 = k)).getLast?).map Prod.snd

/-- The mounts that `reread_fstab` leaves are the last entries of the first lines and the created
file systems, or the old ones when it raises. -/
def ReadsBack (sh : Sh) (efiSystem : Bool) (I : Installer) (fstab : Text) (cs : List Call) : Prop :=
  ∀ fstab', callAll sh fstab cs = .ok fstab' →
    match rereadTmpFstab efiSystem I fstab' with
    | (J, .ok _) => ∀ k, J.mounts.get? k =
        lastFor k ((fileLines fstab).filterMap Installer.given ++ cs.filterMap Call.given)
    | (J, .error _) => J.mounts = I.mounts

theorem fstabEntry_given {l : Text} {e : Option (Text × FsInfo)} (h : fstabEntry l = .ok e) :
    e = given l := by
  unfold fstabEntry at h
  unfold given
  rw [← words_strip l]
  generalize hs : strip pyBlank l = s at h ⊢
  cases s with
  | nil =>
    cases h
    rw [words_nil]
  | cons c s =>
    obtain ⟨w, ws, hw⟩ := words_cons_nonblank s (blank_of_strip_cons hs)
    dsimp only at h
    rw [hw] at h ⊢
    split_ifs at h with hhash
    · cases h
      rcases ws with _ | ⟨mountPoint, _ | ⟨type, _ | ⟨opts, rest⟩⟩⟩ <;> simp [hhash]
    · rcases ws with _ | ⟨mountPoint, _ | ⟨type, w'⟩⟩
      · cases h
      · cases h
      · dsimp only at h
        split_ifs at h with htype
        · cases h
          cases w' <;> simp [htype]
        · cases w' with
          | nil => cases h
          | cons opts rest =>
            cases h
            simp [hhash, htype]

theorem lastFor_cons (k : Text) (e : Text × FsInfo) (es : List (Text × FsInfo)) :
    lastFor k (e :: es) = (lastFor k es).or (if e.1 = k then some e.2 else none) := by
  unfold lastFor
  by_cases he : e.1 = k
  · rw [List.filter_cons_of_pos (by simpa using he), if_pos he]
    cases hes : es.filter (fun e => e.1 = k) with
    | nil => rfl
    | cons x xs =>
      rw [List.getLast?_cons_cons, List.getLast?_eq_some_getLast (List.cons_ne_nil x xs)]
      rfl
  · rw [List.filter_cons_of_neg (by simpa using he), if_neg he, Option.or_none]

theorem readLines_get? {lines : List Text} {m m' : Mounts} (h : readLines m lines = .ok m') (k : Text) :
    m'.get? k = (lastFor k (lines.filterMap given)).or (m.get? k) := by
  induction lines generalizing m with
  | nil =>
    cases h
    rfl
  | cons l ls ih =>
    simp only [readLines, addLine] at h
    cases he : fstabEntry l with
    | error e =>
      rw [he] at h
      cases h
    | ok e =>
      have hgiven := fstabEntry_given he
      rw [he] at h
      cases e with
      | none =>
        rw [List.filterMap_cons_none hgiven.symm]
        exact ih h
      | some e =>
        rw [List.filterMap_cons_some hgiven.symm, lastFor_cons, Option.or_assoc, ih h, Dict.get?_set]
        split_ifs <;> rfl

structure Spelled (W : World) (w : Text) : Prop where
  literal : Literal W w
  solid : ∀ c ∈ w, pyBlank c = false

theorem Spelled.isWord {W : World} {w : Text} (h : Spelled W w) : IsWord pyBlank w := by
  refine ⟨?_, h.solid⟩
  have hstart := h.literal.startable
  rintro rfl
  simp [startable] at hstart

def keyword (t : Text) : Bool := inert t && startable t && !isGlob (t.map (fun c => (c, false)))

theorem literal_of_keyword (W : World) {t : Text} (ht : keyword t = true) : Literal W t := by
  have hparts : (inert t = true ∧ startable t = true) ∧ isGlob (t.map (fun c => (c, false))) = false := by
    simpa [keyword] using ht
  refine ⟨hparts.1.1, hparts.1.2, fun hglob => ?_⟩
  rw [hparts.2] at hglob
  cases hglob

def echoName : Text := "echo".toList

theorem tabbed_concat (ws : List Text) (w : Text) :
    tabbed (ws ++ [w]) ++ [' '] = (ws.map (fun w => (w, '\t')) ++ [(w, ' ')]).flatMap (fun t => t.1 ++ [t.2]) := by
  induction ws with
  | nil => simp [tabbed, joinWith_singleton]
  | cons v vs ih =>
    have hcons : tabbed (v :: vs ++ [w]) = v ++ '\t' :: tabbed (vs ++ [w]) := by
      cases vs with
      | nil => exact joinWith_cons_cons '\t' v w []
      | cons u us => exact joinWith_cons_cons '\t' v u (us ++ [w])
    rw [hcons, List.append_assoc, List.cons_append, ih]
    simp

theorem scan_target (words : List Word) :
    ((Scan.inBare [] words none).scan (">>".toList ++ fstabFile)).bind Scan.finish =
      some [⟨words, some (bare fstabFile)⟩] := by
  have hscan : (Scan.inBare [] words none).scan (">>".toList ++ fstabFile) =
      some { Scan.inBare [] words none with redirecting := true, word := some (bare fstabFile) } := rfl
  rw [hscan, Option.bind_some]
  simp [Scan.finish, Scan.settle, Scan.endCommand, Scan.endWord, Scan.inBare]

theorem parse_echo (ws : List Text) (w : Text) (hws : ∀ v ∈ ws ++ [w], inert v = true ∧ startable v = true) :
    parse ("echo ".toList ++ tabbed (ws ++ [w]) ++ " >>/tmp/fstab".toList) =
      some [⟨(echoName :: (ws ++ [w])).map bare, some (bare fstabFile)⟩] := by
  have htext : "echo ".toList ++ tabbed (ws ++ [w]) ++ " >>/tmp/fstab".toList =
      ((echoName, ' ') :: (ws.map (fun w => (w, '\t')) ++ [(w, ' ')])).flatMap (fun t => t.1 ++ [t.2]) ++
        (">>".toList ++ fstabFile) := by
    rw [List.flatMap_cons, ← tabbed_concat]
    simp only [List.append_assoc]
    rfl
  have hall : ∀ t ∈ (echoName, ' ') :: (ws.map (fun w => (w, '\t')) ++ [(w, ' ')]),
      inert t.1 = true ∧ startable t.1 = true ∧ (t.2 = ' ' ∨ t.2 = '\t') := by
    intro t ht
    obtain rfl | ht := List.mem_cons.mp ht
    · decide
    · obtain ht | ht := List.mem_append.mp ht
      · obtain ⟨v, hv, rfl⟩ := List.mem_map.mp ht
        exact ⟨(hws v (List.mem_append_left _ hv)).1, (hws v (List.mem_append_left _ hv)).2, .inr rfl⟩
      · rw [List.mem_singleton.mp ht]
        have hw := hws w (List.mem_append_right _ (List.mem_singleton_self w))
        exact ⟨hw.1, hw.2, .inl rfl⟩
  have hscan := Scan.scan_words [] [] _ hall (">>".toList ++ fstabFile)
  change ((Scan.inBare [] [] none).scan _).bind Scan.finish = _
  rw [htext, hscan, scan_target]
  simp [Function.comp_def]

theorem call_echo (sh : Sh) (fstab : Text) {ws : List Text} (hws : ∀ w ∈ ws, Literal sh.world w)
    (hne : ws ≠ []) (hoption : ws.head? ≠ some "-n".toList) :
    sh.call ("echo ".toList ++ tabbed ws ++ " >>/tmp/fstab".toList) fstab =
      fstab ++ (joinWith ' ' ws ++ ['\n']) := by
  obtain ⟨init, last, rfl⟩ : ∃ init last, ws = init ++ [last] :=
    ⟨ws.dropLast, ws.getLast hne, (List.dropLast_append_getLast hne).symm⟩
  have hparse := parse_echo init last (fun v hv => ⟨(hws v hv).inert, (hws v hv).startable⟩)
  have hbackslash : ¬ (init ++ [last]).any (fun a => '\\' ∈ a) = true := by
    intro h
    obtain ⟨w, hw, hmem⟩ := List.any_eq_true.mp h
    obtain h | h := not_special_of_inert (hws w hw).inert (of_decide_eq_true hmem)
    · exact absurd h (by decide)
    · exact absurd h (by decide)
  have hecho := literal_of_keyword sh.world (show keyword echoName = true by decide)
  have hwords := expandAll_bare sh.vars (List.forall_mem_cons.mpr ⟨hecho, hws⟩)
  have htarget : expandTarget sh.world sh.vars (some (bare fstabFile)) = some (some fstabFile) := by
    rw [expandTarget, expand_bare sh.vars (literal_of_keyword sh.world (by decide))]
  have hstep : stepCommand sh.world (sh.state fstab) ⟨(echoName :: (init ++ [last])).map bare, some (bare fstabFile)⟩ =
      execCommand sh.world (sh.state fstab) ⟨(echoName :: (init ++ [last])).map bare, some (bare fstabFile)⟩ := rfl
  have hexec : execCommand sh.world (sh.state fstab) ⟨(echoName :: (init ++ [last])).map bare, some (bare fstabFile)⟩ =
      some ((sh.state fstab).appendFile fstabFile (joinWith ' ' (init ++ [last]) ++ ['\n'])) := by
    unfold execCommand
    have hactive : (sh.state fstab).active = true := rfl
    have hvars : (sh.state fstab).vars = sh.vars := rfl
    rw [if_pos hactive, hvars]
    dsimp only
    rw [hwords, htarget]
    simp only [execSimple, echoName, if_true, echo, if_neg (not_or.mpr ⟨hoption, hbackslash⟩)]
  have hsource : source sh.world (sh.state fstab)
      ("echo ".toList ++ tabbed (init ++ [last]) ++ " >>/tmp/fstab".toList) =
      some ((sh.state fstab).appendFile fstabFile (joinWith ' ' (init ++ [last]) ++ ['\n'])) := by
    rw [source, hparse, Option.bind_some, run, List.foldlM_cons, hstep, hexec]
    rfl
  rw [Sh.call, hsource]
  simp [State.appendFile, Sh.state]

def Dest.MountSpelled (W : World) : Dest → Prop
  | .fs _ mountPoint => Spelled W mountPoint
  | _ => True

def Dest.entered : Dest → Bool
  | .fs _ _ | .swap => true
  | _ => false

def Call.LineSpelled (W : World) : Call → Prop
  | .createPartition dev num partid =>
    (partid.entered = true → Spelled W (partitionDevice dev num)) ∧ partid.MountSpelled W
  | .createRaid _ dest => ∀ d ∈ dest, d.MountSpelled W
  | .createLv _ _ dest => dest.MountSpelled W

def safeChar (c : Char) : Bool := c.isAlphanum || c ∈ ['/', '_', '.', '+', '-']

theorem spelled_of_safe (W : World) {t : Text} (hstart : t.head? = some '/') (ht : ∀ c ∈ t, safeChar c = true) :
    Spelled W t := by
  have hwild : ∀ x ∈ ['*', '?', '['], safeChar x = false := by decide
  have hinert : inert t = true := by
    apply inert_of_forall
    intro c hc
    exact plain_of_class (by decide) (by decide) (ht c hc)
  have hglob : isGlob (t.map (fun c => (c, false))) = false := by
    apply isGlob_eq_false
    intro x hx
    obtain ⟨c, hc, rfl⟩ := List.mem_map.mp hx
    exact .inr (fun hin => ne_of_class (ht c hc) (hwild c hin) rfl)
  refine ⟨literal_of_keyword W ?_, ?_⟩
  · cases t with
    | nil => cases hstart
    | cons c t =>
      obtain rfl : c = '/' := Option.some.inj hstart
      rw [keyword, hinert, hglob]
      rfl
  · intro c hc
    obtain h | h := Bool.or_eq_true_iff.mp (ht c hc)
    · have hbounds := toNat_of_isAlphanum h
      exact pyBlank_of_printable (by omega) (by omega)
    · have hall : ∀ x ∈ ['/', '_', '.', '+', '-'], pyBlank x = false := by decide
      exact hall c (of_decide_eq_true h)

theorem safe_raidDevice (i : ℕ) : ∀ c ∈ raidDevice i, safeChar c = true := by
  intro c hc
  obtain h | h := List.mem_append.mp hc
  · have hall : ∀ x ∈ "/dev/md".toList, safeChar x = true := by decide
    exact hall c h
  · have hdigit := isDigit_of_mem_decimal h
    simp [safeChar, Char.isAlphanum, hdigit]

theorem safe_of_lvmChar {c : Char} (h : lvmChar c = true) : safeChar c = true := by
  obtain h | h := Bool.or_eq_true_iff.mp h
  · simp [safeChar, h]
  · have hall : ∀ x ∈ ['_', '.', '+', '-'], safeChar x = true := by decide
    exact hall c (of_decide_eq_true h)

theorem safe_lvDevice (vg name : LvmName) : ∀ c ∈ lvDevice vg.text name.text, safeChar c = true := by
  intro c hc
  have hall : ∀ x ∈ mapperDir ++ "-".toList, safeChar x = true := by decide
  simp only [lvDevice, List.mem_append] at hc
  obtain ((h | h) | h) | h := hc
  · exact hall c (List.mem_append_left _ h)
  · exact safe_of_lvmChar (vg.legal c h)
  · exact hall c (List.mem_append_right _ h)
  · exact safe_of_lvmChar (name.legal c h)

theorem partitionDevice_ne (dev : Text) (num : ℕ) : partitionDevice dev num ≠ "-n".toList := by
  intro h
  have hlast : ∃ c, (decimal num).getLast? = some c ∧ (partitionDevice dev num).getLast? = some c := by
    have hne : decimal num ≠ [] := Nat.toDigits_ne_nil
    refine ⟨_, List.getLast?_eq_some_getLast hne, ?_⟩
    unfold partitionDevice
    split_ifs
    · rw [List.append_cons, List.getLast?_append_of_ne_nil _ hne, List.getLast?_eq_some_getLast hne]
    · rw [List.getLast?_append_of_ne_nil _ hne, List.getLast?_eq_some_getLast hne]
  obtain ⟨c, hc, hdev⟩ := hlast
  rw [h] at hdev
  have hn : 'n' = c := Option.some.inj hdev
  have hdigit := isDigit_of_mem_decimal (List.mem_of_getLast? hc)
  rw [← hn] at hdigit
  exact absurd hdigit (by decide)

theorem entered_line {sh : Sh} {fstab : Text} (hend : Terminated fstab) {ws : List Text}
    (hws : ∀ w ∈ ws, Spelled sh.world w) (hne : ws ≠ []) (hoption : ws.head? ≠ some "-n".toList) :
    let fstab' := sh.call ("echo ".toList ++ tabbed ws ++ " >>/tmp/fstab".toList) fstab
    Terminated fstab' ∧ fileLines fstab' = fileLines fstab ++ [joinWith ' ' ws] := by
  intro fstab'
  have hcall : fstab' = fstab ++ (joinWith ' ' ws ++ ['\n']) :=
    call_echo sh fstab (fun w hw => (hws w hw).literal) hne hoption
  have hblank {c : Char} (hc : pyBlank c = true) (hsep : c ≠ ' ') : c ∉ joinWith ' ' ws := by
    intro hmem
    obtain heq | ⟨w, hw, hcw⟩ := mem_joinWith hmem
    · exact hsep heq
    · rw [(hws w hw).solid c hcw] at hc
      cases hc
  rw [hcall]
  refine ⟨.inr ⟨fstab ++ joinWith ' ' ws, by simp⟩, ?_⟩
  rw [fileLines_append hend, fileLines_line (hblank (by decide) (by decide)) (hblank (by decide) (by decide))]

theorem head_of_spelled {W : World} {w : Text} (h : Spelled W w) : w.head? ≠ some '#' := by
  have hstart := h.literal.startable
  simp only [startable, decide_eq_true_eq] at hstart
  exact hstart.1

theorem given_line {W : World} {dev mountPoint type opts : Text} {rest : List Text}
    (hws : ∀ w ∈ dev :: mountPoint :: type :: opts :: rest, Spelled W w) :
    given (joinWith ' ' (dev :: mountPoint :: type :: opts :: rest)) =
      if type ∈ ignoreFsTypes then none else some (mountPoint, ⟨dev, type, some opts⟩) := by
  have hwords := @words_joinWith pyBlank ' ' (by decide) _ (fun w hw => (hws w hw).isWord)
  have hhead := head_of_spelled (hws dev (List.mem_cons_self ..))
  unfold given
  rw [hwords]
  by_cases htype : type ∈ ignoreFsTypes <;> simp [hhead, htype]

theorem entered_given {sh : Sh} {fstab dev mountPoint type opts : Text} {rest : List Text} (hend : Terminated fstab)
    (hws : ∀ w ∈ dev :: mountPoint :: type :: opts :: rest, Spelled sh.world w) (hoption : dev ≠ "-n".toList) :
    let fstab' := sh.call ("echo ".toList ++ tabbed (dev :: mountPoint :: type :: opts :: rest) ++
      " >>/tmp/fstab".toList) fstab
    Terminated fstab' ∧ (fileLines fstab').filterMap given = (fileLines fstab).filterMap given ++
      (if type ∈ ignoreFsTypes then none else some (mountPoint, ⟨dev, type, some opts⟩) :
        Option (Text × FsInfo)).toList := by
  intro fstab'
  obtain ⟨hterm, hlines⟩ := entered_line hend hws (List.cons_ne_nil _ _) (fun h => hoption (Option.some.inj h))
  refine ⟨hterm, ?_⟩
  rw [hlines, List.filterMap_append, List.filterMap_cons, given_line hws]
  split_ifs <;> rfl

theorem spelled_fixed (W : World) :
    ∀ w ∈ [FsType.ext2.text, FsType.ext3.text, FsType.ext4.text, FsType.vfat.text, FsType.xfs.text,
      "defaults".toList, "swap".toList, "sw".toList, "0".toList, "1".toList, "2".toList], Spelled W w := by
  have hall : ∀ w ∈ [FsType.ext2.text, FsType.ext3.text, FsType.ext4.text, FsType.vfat.text, FsType.xfs.text,
      "defaults".toList, "swap".toList, "sw".toList, "0".toList, "1".toList, "2".toList],
      keyword w = true ∧ ∀ c ∈ w, pyBlank c = false := by decide
  exact fun w hw => ⟨literal_of_keyword W (hall w hw).1, (hall w hw).2⟩

theorem setDevContents_given {sh : Sh} {fstab dev : Text} {dest : Dest} (hend : Terminated fstab)
    (hdev : dest.entered = true → Spelled sh.world dev) (hoption : dev ≠ "-n".toList)
    (hmount : dest.MountSpelled sh.world) :
    Terminated (setDevContents sh dev dest fstab) ∧
      (fileLines (setDevContents sh dev dest fstab)).filterMap given =
        (fileLines fstab).filterMap given ++ (dest.given dev).toList := by
  have hfixed := spelled_fixed sh.world
  cases dest with
  | fs type mountPoint =>
    have htype : Spelled sh.world type.text ∧ type.text ∉ ignoreFsTypes := by
      cases type <;> exact ⟨hfixed _ (by decide), by decide⟩
    have hpass : Spelled sh.world (if mountPoint = rootPoint then "1".toList else "2".toList) := by
      split_ifs <;> exact hfixed _ (by decide)
    have hws : ∀ w ∈ [dev, mountPoint, type.text, "defaults".toList, "0".toList,
        if mountPoint = rootPoint then "1".toList else "2".toList], Spelled sh.world w := by
      simp only [List.forall_mem_cons]
      exact ⟨hdev rfl, hmount, htype.1, hfixed _ (by decide), hfixed _ (by decide), hpass,
        fun w hw => absurd hw List.not_mem_nil⟩
    have hentered := entered_given hend hws hoption
    rw [if_neg htype.2] at hentered
    exact hentered
  | swap =>
    have hws : ∀ w ∈ [dev, "swap".toList, "swap".toList, "sw".toList, "0".toList, "0".toList],
        Spelled sh.world w := by
      simp only [List.forall_mem_cons]
      exact ⟨hdev rfl, hfixed _ (by decide), hfixed _ (by decide), hfixed _ (by decide),
        hfixed _ (by decide), hfixed _ (by decide), fun w hw => absurd hw List.not_mem_nil⟩
    have hswap : "swap".toList ∈ ignoreFsTypes := by decide
    have hentered := entered_given hend hws hoption
    rw [if_pos hswap] at hentered
    exact hentered
  | lvm => exact ⟨hend, by simp [setDevContents, Dest.given]⟩
  | raid => exact ⟨hend, by simp [setDevContents, Dest.given]⟩

theorem ne_option_of_slash {t : Text} (h : t.head? = some '/') : t ≠ "-n".toList := by
  rintro rfl
  cases h

theorem setDevContents_safe {sh : Sh} {fstab dev : Text} {dest : Dest} (hend : Terminated fstab)
    (hstart : dev.head? = some '/') (hdev : ∀ c ∈ dev, safeChar c = true) (hmount : dest.MountSpelled sh.world) :
    Terminated (setDevContents sh dev dest fstab) ∧
      (fileLines (setDevContents sh dev dest fstab)).filterMap given =
        (fileLines fstab).filterMap given ++ (dest.given dev).toList :=
  setDevContents_given hend (fun _ => spelled_of_safe sh.world hstart hdev) (ne_option_of_slash hstart) hmount

theorem call_given {sh : Sh} {fstab fstab' : Text} {c : Call} (hend : Terminated fstab)
    (hc : c.LineSpelled sh.world) (hcall : call sh fstab c = .ok fstab') :
    Terminated fstab' ∧
      (fileLines fstab').filterMap given = (fileLines fstab).filterMap given ++ c.given.toList := by
  cases c with
  | createPartition dev num partid =>
    cases hcall
    exact setDevContents_given hend hc.1 (partitionDevice_ne dev num) hc.2
  | createRaid present dest =>
    simp only [call, createRaid] at hcall
    simp only [Call.given, Call.device, Call.dest]
    cases hdev : nextRaid present with
    | none =>
      rw [hdev] at hcall
      cases hcall
    | some dev =>
      rw [hdev] at hcall
      cases dest with
      | none =>
        cases hcall
        exact ⟨hend, by simp⟩
      | some dest =>
        cases hcall
        obtain ⟨i, -, rfl⟩ := Option.map_eq_some_iff.mp hdev
        exact setDevContents_safe hend rfl (safe_raidDevice i) (hc dest rfl)
  | createLv vg name dest =>
    cases hcall
    exact setDevContents_safe hend rfl (safe_lvDevice vg name) hc

theorem callAll_given {sh : Sh} {fstab fstab' : Text} {cs : List Call} (hend : Terminated fstab)
    (hcs : ∀ c ∈ cs, c.LineSpelled sh.world) (hcall : callAll sh fstab cs = .ok fstab') :
    (fileLines fstab').filterMap given =
      (fileLines fstab).filterMap given ++ cs.filterMap Call.given := by
  induction cs generalizing fstab with
  | nil =>
    cases hcall
    simp
  | cons c cs ih =>
    rw [callAll] at hcall
    cases hc : call sh fstab c with
    | error e =>
      rw [hc] at hcall
      cases hcall
    | ok next =>
      rw [hc] at hcall
      obtain ⟨hnext, hgiven⟩ := call_given hend (hcs c (List.mem_cons_self ..)) hc
      rw [ih hnext (fun d hd => hcs d (List.mem_cons_of_mem _ hd)) hcall, hgiven, List.append_assoc]
      cases hg : c.given <;> simp [hg]

theorem readsBack_of_lineSpelled (sh : Sh) (efiSystem : Bool) (I : Installer) (fstab : Text)
    (cs : List Call) (hend : Terminated fstab) (hcs : ∀ c ∈ cs, c.LineSpelled sh.world) :
    ReadsBack sh efiSystem I fstab cs := by
  intro fstab' hcall
  have hgiven := callAll_given hend hcs hcall
  unfold rereadTmpFstab
  cases hread : rereadFstab efiSystem (some (fileLines fstab')) with
  | error e => rfl
  | ok m =>
    intro k
    have hget := readLines_get? (readLines_of_rereadFstab hread) k
    rw [hgiven] at hget
    rw [hget]
    simp [Dict.get?, Dict.empty]

def bareSh : Sh := ⟨⟨fun _ => false, fun _ => []⟩, fun _ => none, fun _ fstab => fstab⟩

def rootLine : Text := "/dev/sda2 / ext3 defaults 0 1\n".toList

theorem data_reads_back : ReadsBack bareSh false initial rootLine
    [.createPartition "/dev/sda".toList 1 (.fs .ext3 "/srv/data".toList), .createRaid (fun _ => false) (some .lvm)] := by
  apply readsBack_of_lineSpelled
  · exact .inr ⟨"/dev/sda2 / ext3 defaults 0 1".toList, by decide⟩
  · intro c hc
    have hmount := spelled_of_safe bareSh.world (t := "/srv/data".toList) rfl (by decide)
    have hdev := spelled_of_safe bareSh.world (t := partitionDevice "/dev/sda".toList 1) rfl (by decide)
    obtain rfl | hc := List.mem_cons.mp hc
    · exact ⟨fun _ => hdev, hmount⟩
    · obtain rfl := List.mem_singleton.mp hc
      intro d hd
      cases hd
      exact trivial

theorem dollar_lost : ¬ ReadsBack bareSh false initial rootLine
    [.createPartition "/dev/sda".toList 1 (.fs .ext3 "/srv/$data".toList)] := by
  intro h
  have hcall : callAll bareSh rootLine [.createPartition "/dev/sda".toList 1 (.fs .ext3 "/srv/$data".toList)] =
      .ok (rootLine ++ "/dev/sda1 /srv/ ext3 defaults 0 2\n".toList) := by
    decide
  have hread := h _ hcall
  have hpoint := hread "/srv/$data".toList
  exact absurd hpoint (by decide)

end CgxLayer.Installer
