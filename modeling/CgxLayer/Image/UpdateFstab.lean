import CgxLayer.Shell.Read

namespace CgxLayer.Image

open Text Shell

def PlainWord (w : Text) : Prop := IsWord shBlank w ∧ '\\' ∉ w

structure Request where
  fsType : Text
  mount : Text
  device : Text
  plainType : PlainWord fsType
  plainMount : PlainWord mount
  plainDevice : device = [] ∨ PlainWord device

-- `echo` of the variables `device mount fs opts dump pass`
def echoVars (vars : List Text) : Text := joinWith ' ' vars

def loop (r : Request) : Bool → List Quoted → Bool × List Text
  | found, [] => (found, [])
  | found, l :: ls =>
    let vars := readVars 6 l
    if vars[1]? = some r.mount then
      let rest := loop r true ls
      (rest.1, echoVars (vars.set 2 r.fsType) :: rest.2)
    else
      let rest := loop r found ls
      (rest.1, echoVars vars :: rest.2)

-- A stage of a pipeline runs in a subshell: what it prints is kept, what it assigns is not.
def stage {S O : Type} (run : S → S × O) (s : S) : S × O := (s, (run s).2)

def Request.dev (r : Request) : Text := if r.device.isEmpty then "/dev/FIXME".toList else r.device

def Request.entry (r : Request) : List Text :=
  [r.dev, r.mount, r.fsType, "defaults".toList, "0".toList, "0".toList]

def addUpdateFstab (r : Request) (fstab : Text) : Text :=
  let out := stage (fun found => loop r found (logicalLines (terminated fstab))) false
  let new := unlines out.2
  if out.1 then new else new ++ (echoVars r.entry ++ ['\n'])

def entries (fstab : Text) : List (List Text) :=
  ((fstab.splitOn '\n').map (words shBlank)).filter (fun ws => ws ≠ [] && (ws.head?.bind List.head?) ≠ some '#')

def forMount (mount : Text) (ws : List Text) : Bool := ws[1]? == some mount

def retyped (r : Request) (ws : List Text) : List Text :=
  if forMount r.mount ws then ws.take 2 ++ r.fsType :: ws.drop 3 else ws

def updated (r : Request) (es : List (List Text)) : List (List Text) :=
  if es.any (forMount r.mount) then es.map (retyped r) else es ++ [r.entry]

structure UpdatesEntry (r : Request) (fstab : Text) : Prop where
  one : (entries (addUpdateFstab r fstab)).countP (forMount r.mount) = 1
  updated : entries (addUpdateFstab r fstab) = updated r (entries fstab)
  again : addUpdateFstab r (addUpdateFstab r fstab) = addUpdateFstab r fstab

def rewriteLine (r : Request) (l : Quoted) : Text :=
  echoVars (if (readVars 6 l)[1]? = some r.mount then (readVars 6 l).set 2 r.fsType else readVars 6 l)

def rewriteAll (r : Request) (ls : List Text) : List Text := (logicalLines ls).map (rewriteLine r)

theorem loop_out (r : Request) (found : Bool) (ls : List Quoted) :
    (loop r found ls).2 = ls.map (rewriteLine r) := by
  induction ls generalizing found with
  | nil => rfl
  | cons l ls ih =>
    rw [loop, List.map_cons, rewriteLine]
    split_ifs <;> simp [ih]

theorem unlines_append (ls ks : List Text) : unlines (ls ++ ks) = unlines ls ++ unlines ks :=
  List.flatMap_append

/-- What the loop sets is lost with its subshell, so an entry is always appended. -/
theorem addUpdateFstab_eq (r : Request) (fstab : Text) :
    addUpdateFstab r fstab = unlines (rewriteAll r (terminated fstab) ++ [echoVars r.entry]) := by
  have hnew : unlines [echoVars r.entry] = echoVars r.entry ++ ['\n'] := by simp [unlines]
  rw [unlines_append, hnew, rewriteAll, ← loop_out r false]
  rfl

def Request.entryInit (r : Request) : List Text := [r.dev, r.mount, r.fsType, "defaults".toList, "0".toList]

theorem Request.entry_eq (r : Request) : r.entry = r.entryInit ++ ["0".toList] := rfl

theorem Request.plainDev (r : Request) : PlainWord r.dev := by
  unfold Request.dev
  split_ifs with hdevice
  · exact ⟨⟨by decide, by decide⟩, by decide⟩
  · exact r.plainDevice.resolve_left (by simpa using hdevice)

theorem Request.entry_plain (r : Request) : ∀ w ∈ r.entry, PlainWord w := by
  intro w hw
  simp only [Request.entry, List.mem_cons, List.not_mem_nil, or_false] at hw
  rcases hw with rfl | rfl | rfl | rfl | rfl | rfl
  · exact r.plainDev
  · exact r.plainMount
  · exact r.plainType
  all_goals exact ⟨⟨by decide, by decide⟩, by decide⟩

theorem not_mem_join {c : Char} (hc : c ≠ ' ') {ws : List Text} (h : ∀ w ∈ ws, c ∉ w) : c ∉ echoVars ws := by
  intro hmem
  obtain hsep | ⟨w, hw, hcw⟩ := mem_joinWith hmem
  · exact hc hsep
  · exact h w hw hcw

theorem backslash_not_mem_entry (r : Request) : '\\' ∉ echoVars r.entry :=
  not_mem_join (by decide) (fun w hw => (r.entry_plain w hw).2)

theorem unescape_entry (r : Request) : unescape (echoVars r.entry) = plain (echoVars r.entry) :=
  unescape_plain (backslash_not_mem_entry r)

theorem rewriteLine_entry (r : Request) :
    rewriteLine r (unescape (echoVars r.entry)) = echoVars r.entry := by
  have hwords : ∀ w ∈ r.entry, IsWord shBlank w := fun w hw => (r.entry_plain w hw).1
  have hread : readVars 6 (plain (echoVars r.entry)) = r.entry := by
    rw [Request.entry_eq] at hwords ⊢
    exact readVars_join r.entryInit "0".toList (fun v hv => hwords v (List.mem_append_left _ hv))
      (hwords _ (List.mem_append_right _ (List.mem_singleton_self _)))
  have hmount : r.entry[1]? = some r.mount := rfl
  rw [unescape_entry, rewriteLine, hread, if_pos hmount]
  rfl

theorem entry_endsIn (r : Request) (m : Quoted) : EndsIn '0' (m ++ plain (echoVars r.entry)) := by
  have hinit : r.entryInit ≠ [] := List.cons_ne_nil _ _
  have hecho : echoVars r.entry = joinWith ' ' r.entryInit ++ [' '] ++ ['0'] := by
    rw [Request.entry_eq, echoVars, joinWith_concat ' ' hinit, List.append_assoc]
    rfl
  rw [hecho, plain_append, ← List.append_assoc]
  exact .inr ⟨_, rfl⟩

theorem echoVars_last {init : List Text} (hinit : init ≠ []) {p : Text} {c : Char}
    (hp : p = [] ∨ ∃ q, p = q ++ [c]) : ∃ t d, echoVars (init ++ [p]) = t ++ [d] ∧ (d = ' ' ∨ d = c) := by
  rw [echoVars, joinWith_concat ' ' hinit]
  rcases hp with rfl | ⟨q, rfl⟩
  · exact ⟨_, ' ', rfl, .inl rfl⟩
  · refine ⟨joinWith ' ' init ++ ' ' :: q, c, ?_, .inr rfl⟩
    rw [List.append_assoc, List.cons_append]

theorem continued_rewriteLine (r : Request) (m : Quoted) :
    continued (rewriteLine r (m ++ unescape (echoVars r.entry))) = false := by
  have hends := entry_endsIn r m
  rw [← unescape_entry] at hends
  obtain ⟨init, p, hread, hlen, hp⟩ := readVars_last (by decide) 5 hends
  have hout : ∃ t d, rewriteLine r (m ++ unescape (echoVars r.entry)) = t ++ [d] ∧ (d = ' ' ∨ d = '0') := by
    rw [rewriteLine, hread]
    split_ifs
    · rw [List.set_append_left 2 r.fsType (by omega)]
      apply echoVars_last _ hp
      intro hnil
      rw [← List.length_eq_zero_iff, List.length_set] at hnil
      omega
    · apply echoVars_last _ hp
      rintro rfl
      cases hlen
  obtain ⟨t, d, hout, hd⟩ := hout
  by_contra hcontinued
  obtain ⟨t', hlast⟩ := getLast_of_continued (Bool.eq_true_of_not_eq_false hcontinued)
  rw [hout] at hlast
  have hbackslash := List.singleton_inj.mp (List.append_inj_right' hlast rfl)
  rw [hbackslash] at hd
  revert hd
  decide

theorem rewriteAll_ne (r : Request) (ls : List Text) : rewriteAll r (ls ++ [echoVars r.entry]) ≠ ls := by
  have hentry : continued (echoVars r.entry) = false := continued_plain (backslash_not_mem_entry r)
  induction ls using List.reverseRecOn with
  | nil =>
    intro h
    have hlen := congrArg List.length h
    simp [rewriteAll, logicalLines, hentry] at hlen
  | append_singleton ls l ih =>
    intro h
    by_cases hl : continued l = true
    · obtain ⟨init, m, happend⟩ := logicalLines_append hentry (ls ++ [l])
      have hout : rewriteAll r (ls ++ [l] ++ [echoVars r.entry]) =
          init.map (rewriteLine r) ++ [rewriteLine r (m ++ unescape (echoVars r.entry))] := by
        rw [rewriteAll, happend []]
        simp [logicalLines]
      rw [hout] at h
      have hlast := List.append_inj_right' h rfl
      rw [← List.singleton_inj.mp hlast, continued_rewriteLine] at hl
      cases hl
    · obtain ⟨init, m, happend⟩ := logicalLines_append (Bool.eq_false_iff.mpr hl) ls
      have hout : rewriteAll r (ls ++ [l] ++ [echoVars r.entry]) =
          rewriteAll r (ls ++ [l]) ++ [rewriteLine r (unescape (echoVars r.entry))] := by
        rw [rewriteAll, rewriteAll, List.append_assoc, List.singleton_append, happend, happend []]
        simp [logicalLines, hentry]
      rw [hout, rewriteLine_entry] at h
      have hlast := List.singleton_inj.mp (List.append_inj_right' h rfl)
      have hrest := List.append_inj_left' h rfl
      rw [← hlast] at hrest
      exact ih hrest

theorem newline_not_mem_entry (r : Request) : '\n' ∉ echoVars r.entry := by
  apply not_mem_join (by decide)
  intro w hw hmem
  have hblank := (r.entry_plain w hw).1.2 '\n' hmem
  revert hblank
  decide

theorem newline_not_mem_rewriteAll (r : Request) {ls : List Text} (hls : ∀ l ∈ ls, '\n' ∉ l) :
    ∀ l ∈ rewriteAll r ls, '\n' ∉ l := by
  intro l hl
  obtain ⟨m, hm, rfl⟩ := List.mem_map.mp hl
  have hvars : ∀ w ∈ readVars 6 m, '\n' ∉ w := by
    intro w hw hmem
    obtain ⟨x, hx, hnewline⟩ := mem_readVars hw hmem
    obtain ⟨k, hk, hin⟩ := mem_logicalLines hm hx
    rw [hnewline] at hin
    exact hls k hk hin
  apply not_mem_join (by decide)
  intro w hw
  split_ifs at hw
  · rcases List.mem_or_eq_of_mem_set hw with hw | rfl
    · exact hvars w hw
    · intro hmem
      have hblank := r.plainType.1.2 '\n' hmem
      revert hblank
      decide
  · exact hvars w hw

theorem terminated_addUpdateFstab (r : Request) (fstab : Text) :
    terminated (addUpdateFstab r fstab) = rewriteAll r (terminated fstab) ++ [echoVars r.entry] := by
  rw [addUpdateFstab_eq, terminated_unlines]
  intro l hl
  rcases List.mem_append.mp hl with hl | hl
  · exact newline_not_mem_rewriteAll r (fun k hk => not_mem_terminated hk) l hl
  · rw [List.mem_singleton.mp hl]
    exact newline_not_mem_entry r

theorem never_updatesEntry (r : Request) (fstab : Text) : ¬ UpdatesEntry r fstab := by
  intro h
  have hlines := congrArg terminated h.again
  rw [terminated_addUpdateFstab, terminated_addUpdateFstab] at hlines
  exact rewriteAll_ne r _ (List.append_inj_left' hlines rfl)

def bootRequest : Request where
  fsType := "ext4".toList
  mount := "/boot".toList
  device := "/dev/sda1".toList
  plainType := ⟨⟨by decide, by decide⟩, by decide⟩
  plainMount := ⟨⟨by decide, by decide⟩, by decide⟩
  plainDevice := .inr ⟨⟨by decide, by decide⟩, by decide⟩

def bootFstab : Text := unlines ["/dev/sda1 /boot ext3 defaults 0 2".toList]

theorem boot_entered_twice : ¬ ∀ (r : Request) (fstab : Text), UpdatesEntry r fstab := by
  intro h
  have hone := (h bootRequest bootFstab).one
  revert hone
  decide +kernel

end CgxLayer.Image
