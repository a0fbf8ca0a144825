import CgxLayer.Text

namespace CgxLayer.Text

def universalNewlines : Text → Text
  | [] => []
  | [c] => [if c = '\r' then '\n' else c]
  | c :: d :: s =>
    if c ≠ '\r' then c :: universalNewlines (d :: s)
    else if d = '\n' then '\n' :: universalNewlines s
    else '\n' :: universalNewlines (d :: s)

def fileLines (text : Text) : List Text :=
  let ls := (universalNewlines text).splitOn '\n'
  if ls.getLast? = some [] then ls.dropLast else ls

def unlines (ls : List Text) : Text := ls.flatMap (fun l => l ++ ['\n'])

theorem universalNewlines_append (a b : Text) :
    universalNewlines (a ++ '\n' :: b) = universalNewlines (a ++ ['\n']) ++ universalNewlines b := by
  induction a using universalNewlines.induct with
  | case1 =>
    cases b <;> simp [universalNewlines]
  | case2 c =>
    cases b <;> by_cases hc : c = '\r' <;> simp [universalNewlines, hc]
  | case3 c d s hc ih =>
    simp only [List.cons_append, universalNewlines, if_pos hc] at ih ⊢
    rw [ih]
  | case4 c s hc ih =>
    simp only [List.cons_append, universalNewlines, if_neg hc, if_true] at ih ⊢
    rw [ih]
  | case5 c d s hc hd ih =>
    simp only [List.cons_append, universalNewlines, if_neg hc, if_neg hd] at ih ⊢
    rw [ih]

def Terminated (text : Text) : Prop := text = [] ∨ ∃ a, text = a ++ ['\n']

theorem universalNewlines_terminated (a : Text) : ∃ u, universalNewlines (a ++ ['\n']) = u ++ ['\n'] := by
  induction a using universalNewlines.induct with
  | case1 => exact ⟨[], rfl⟩
  | case2 c =>
    by_cases hc : c = '\r'
    · exact ⟨[], by rw [hc]; rfl⟩
    · exact ⟨[c], by simp [universalNewlines, hc]⟩
  | case3 c d s hc ih =>
    obtain ⟨u, hu⟩ := ih
    refine ⟨c :: u, ?_⟩
    simp only [List.cons_append, universalNewlines, if_pos hc] at hu ⊢
    rw [hu]
  | case4 c s hc ih =>
    obtain ⟨u, hu⟩ := ih
    refine ⟨'\n' :: u, ?_⟩
    simp only [List.cons_append, universalNewlines, if_neg hc, if_true] at hu ⊢
    rw [hu]
  | case5 c d s hc hd ih =>
    obtain ⟨u, hu⟩ := ih
    refine ⟨'\n' :: u, ?_⟩
    simp only [List.cons_append, universalNewlines, if_neg hc, if_neg hd] at hu ⊢
    rw [hu]

theorem fileLines_append {a : Text} (ha : Terminated a) (b : Text) :
    fileLines (a ++ b) = fileLines a ++ fileLines b := by
  obtain rfl | ⟨a, rfl⟩ := ha
  · rfl
  · obtain ⟨u, hu⟩ := universalNewlines_terminated a
    have hwhole : universalNewlines (a ++ ['\n'] ++ b) = u ++ '\n' :: universalNewlines b := by
      rw [List.append_assoc, List.singleton_append, universalNewlines_append, hu]
      simp
    have hfirst : fileLines (a ++ ['\n']) = u.splitOn '\n' := by
      simp [fileLines, hu, List.splitOn_append_cons_self]
    have hne : (universalNewlines b).splitOn '\n' ≠ [] := List.splitOn_ne_nil _ _
    rw [hfirst]
    simp only [fileLines, hwhole, List.splitOn_append_cons_self, List.getLast?_append_of_ne_nil _ hne]
    split_ifs
    · rw [List.dropLast_append_of_ne_nil hne]
    · rfl

theorem universalNewlines_id {s : Text} (h : '\r' ∉ s) : universalNewlines s = s := by
  induction s using universalNewlines.induct with
  | case1 => rfl
  | case2 c =>
    have hc : c ≠ '\r' := fun heq => h (heq ▸ List.mem_singleton_self c)
    simp [universalNewlines, hc]
  | case3 c d s hc ih =>
    rw [universalNewlines, if_pos hc, ih (fun hm => h (List.mem_cons_of_mem _ hm))]
  | case4 c s hc ih => exact absurd (List.mem_cons.mpr (.inl (not_not.mp hc).symm)) h
  | case5 c d s hc hd ih => exact absurd (List.mem_cons.mpr (.inl (not_not.mp hc).symm)) h

theorem fileLines_line {l : Text} (hl : '\n' ∉ l) (hr : '\r' ∉ l) : fileLines (l ++ ['\n']) = [l] := by
  have hid : universalNewlines (l ++ ['\n']) = l ++ '\n' :: [] := universalNewlines_id (by simp [hr])
  have hsplit : (l ++ '\n' :: []).splitOn '\n' = [l, []] := by
    rw [List.splitOn_append_cons_self_of_not_mem hl]
    rfl
  rw [fileLines, hid, hsplit]
  rfl

theorem not_mem_of_mem_splitOn {c : Char} {s l : Text} (h : l ∈ s.splitOn c) : c ∉ l := by
  induction s generalizing l with
  | nil =>
    rw [List.splitOn_nil, List.mem_singleton] at h
    rw [h]
    exact List.not_mem_nil
  | cons d s ih =>
    rw [List.splitOn_cons_eq_if_modifyHead] at h
    split_ifs at h with hd
    · rcases List.mem_cons.mp h with rfl | h
      · exact List.not_mem_nil
      · exact ih h
    · cases hs : s.splitOn c with
      | nil => exact absurd hs (List.splitOn_ne_nil c s)
      | cons k ks =>
        rw [hs, List.modifyHead_cons] at h
        rw [hs] at ih
        rcases List.mem_cons.mp h with rfl | h
        · rw [List.mem_cons, not_or]
          exact ⟨fun heq => hd (beq_iff_eq.mpr heq.symm), ih (List.mem_cons_self ..)⟩
        · exact ih (List.mem_cons_of_mem _ h)

theorem carriage_not_mem_universalNewlines (s : Text) : '\r' ∉ universalNewlines s := by
  induction s using universalNewlines.induct with
  | case1 => exact List.not_mem_nil
  | case2 c =>
    rw [universalNewlines, List.mem_singleton]
    split_ifs with hc
    · decide
    · exact fun h => hc h.symm
  | case3 c d s hc ih =>
    rw [universalNewlines, if_pos hc, List.mem_cons, not_or]
    exact ⟨fun h => hc h.symm, ih⟩
  | case4 c s hc ih =>
    rw [universalNewlines, if_neg hc, if_pos rfl, List.mem_cons, not_or]
    exact ⟨by decide, ih⟩
  | case5 c d s hc hd ih =>
    rw [universalNewlines, if_neg hc, if_neg hd, List.mem_cons, not_or]
    exact ⟨by decide, ih⟩

theorem universalNewlines_idem (s : Text) : universalNewlines (universalNewlines s) = universalNewlines s :=
  universalNewlines_id (carriage_not_mem_universalNewlines s)

theorem mem_of_mem_splitOn {c sep : Char} {s l : Text} (h : l ∈ s.splitOn sep) (hc : c ∈ l) : c ∈ s := by
  induction s generalizing l with
  | nil =>
    rw [List.splitOn_nil, List.mem_singleton] at h
    exact absurd hc (h ▸ List.not_mem_nil)
  | cons d s ih =>
    rw [List.splitOn_cons_eq_if_modifyHead] at h
    split_ifs at h with hd
    · rcases List.mem_cons.mp h with rfl | h
      · exact absurd hc List.not_mem_nil
      · exact List.mem_cons_of_mem _ (ih h hc)
    · cases hs : s.splitOn sep with
      | nil => exact absurd hs (List.splitOn_ne_nil sep s)
      | cons k ks =>
        rw [hs, List.modifyHead_cons] at h
        rw [hs] at ih
        rcases List.mem_cons.mp h with rfl | h
        · rcases List.mem_cons.mp hc with rfl | hc
          · exact List.mem_cons_self ..
          · exact List.mem_cons_of_mem _ (ih (List.mem_cons_self ..) hc)
        · exact List.mem_cons_of_mem _ (ih (List.mem_cons_of_mem _ h) hc)

theorem mem_splitOn_of_mem_fileLines {text l : Text} (h : l ∈ fileLines text) :
    l ∈ (universalNewlines text).splitOn '\n' := by
  simp only [fileLines] at h
  split_ifs at h
  · exact List.mem_of_mem_dropLast h
  · exact h

theorem newline_not_mem_fileLines {text l : Text} (h : l ∈ fileLines text) : '\n' ∉ l :=
  not_mem_of_mem_splitOn (mem_splitOn_of_mem_fileLines h)

theorem carriage_not_mem_fileLines {text l : Text} (h : l ∈ fileLines text) : '\r' ∉ l :=
  fun hr => carriage_not_mem_universalNewlines text (mem_of_mem_splitOn (mem_splitOn_of_mem_fileLines h) hr)

theorem fileLines_universalNewlines (s : Text) : fileLines (universalNewlines s) = fileLines s := by
  rw [fileLines, universalNewlines_idem, fileLines]

theorem unlines_cons (l : Text) (ls : List Text) : unlines (l :: ls) = l ++ ['\n'] ++ unlines ls := rfl

theorem fileLines_unlines {ls : List Text} (h : ∀ l ∈ ls, '\n' ∉ l ∧ '\r' ∉ l) :
    fileLines (unlines ls) = ls := by
  induction ls with
  | nil => rfl
  | cons l ls ih =>
    have hl := h l (List.mem_cons_self ..)
    rw [unlines_cons, fileLines_append (.inr ⟨l, rfl⟩), fileLines_line hl.1 hl.2,
      ih (fun m hm => h m (List.mem_cons_of_mem _ hm)), List.singleton_append]

end CgxLayer.Text
