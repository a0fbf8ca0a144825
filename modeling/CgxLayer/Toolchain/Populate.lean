import CgxLayer.Package.FilePerms

namespace CgxLayer.Toolchain

open Text
open Package (basename)

inductive Errno where
  | eexist
  | other (code : ℕ)

abbrev Dir (ε : Type) := Text → Option ε

/-- The link that `os.symlink` makes, and the error it gives for a name that is free. -/
structure Os (ε : Type) where
  link : Text → ε
  refusal : Dir ε → Text → Option ℕ

variable {ε : Type}

def symlink (os : Os ε) (dir : Dir ε) (f name : Text) : Except Errno (Dir ε) :=
  match dir name with
  | some _ => .error .eexist
  | none =>
    match os.refusal dir name with
    | some code => .error (.other code)
    | none => .ok (Function.update dir name (some (os.link f)))

/-- The loop of `populate_toolchain_links`, `none` where it ends in `bb.fatal`. -/
def populateToolchainLinks (os : Os ε) : List Text → Dir ε → Option (Dir ε)
  | [], bindir => some bindir
  | f :: files, bindir =>
    match symlink os bindir f (basename f) with
    | .ok bindir' => populateToolchainLinks os files bindir'
    | .error .eexist => some bindir
    | .error (.other _) => none

/-- A toolchain's files, each by what the pattern's `*` stands for in its name. -/
structure CrossTools where
  externalToolchain : Text
  targetPrefix : Text
  tools : List Text
  plainPrefix : '/' ∉ targetPrefix
  plain : ∀ tool ∈ tools, '/' ∉ tool
  distinct : tools.Nodup

def CrossTools.path (tc : CrossTools) (tool : Text) : Text :=
  tc.externalToolchain ++ "/bin/".toList ++ (tc.targetPrefix ++ tool)

def CrossTools.files (tc : CrossTools) : List Text := tc.tools.map tc.path

/-- In whatever order the files come, a run that returns leaves an entry for each of them and the
entries there were, always the same directory, to which a second run adds nothing. -/
structure Populates (os : Os ε) (tc : CrossTools) (bindir : Dir ε) : Prop where
  entered : ∀ files, files.Perm tc.files → ∀ after, populateToolchainLinks os files bindir = some after →
    ∀ f ∈ tc.files, (after (basename f)).isSome
  untouched : ∀ files, files.Perm tc.files → ∀ after, populateToolchainLinks os files bindir = some after →
    ∀ name e, bindir name = some e → after name = some e
  order : ∀ files files', files.Perm tc.files → files'.Perm tc.files → ∀ after after',
    populateToolchainLinks os files bindir = some after →
      populateToolchainLinks os files' bindir = some after' → after = after'
  again : ∀ files files', files.Perm tc.files → files'.Perm tc.files → ∀ after,
    populateToolchainLinks os files bindir = some after → populateToolchainLinks os files' after = some after

def Missing (bindir : Dir ε) (f : Text) : Prop := bindir (basename f) = none

variable {os : Os ε} {bindir after : Dir ε} {files : List Text} {f : Text}

theorem basename_path (tc : CrossTools) {tool : Text} (h : '/' ∉ tool) :
    basename (tc.path tool) = tc.targetPrefix ++ tool := by
  have hplain : ∀ c ∈ (tc.targetPrefix ++ tool).reverse, (c != '/') = true := by
    intro c hc
    rw [bne_iff_ne]
    rintro rfl
    rcases List.mem_append.mp (List.mem_reverse.mp hc) with hc | hc
    · exact tc.plainPrefix hc
    · exact h hc
  have hreverse : (tc.path tool).reverse =
      (tc.targetPrefix ++ tool).reverse ++ ('/' :: (tc.externalToolchain ++ "/bin".toList).reverse) := by
    simp [CrossTools.path]
  rw [basename, hreverse, List.takeWhile_append_of_pos hplain, List.takeWhile_cons_of_neg (by decide),
    List.append_nil, List.reverse_reverse]

theorem nodup_names (tc : CrossTools) : (tc.files.map basename).Nodup := by
  rw [CrossTools.files, List.map_map]
  apply List.Nodup.map_on _ tc.distinct
  intro tool htool tool' htool' h
  rw [Function.comp_apply, Function.comp_apply, basename_path tc (tc.plain _ htool),
    basename_path tc (tc.plain _ htool')] at h
  exact List.append_cancel_left h

theorem populate_cons (h : populateToolchainLinks os (f :: files) bindir = some after) :
    (¬ Missing bindir f ∧ after = bindir) ∨
      (Missing bindir f ∧ populateToolchainLinks os files
        (Function.update bindir (basename f) (some (os.link f))) = some after) := by
  rw [populateToolchainLinks, symlink] at h
  cases hname : bindir (basename f) with
  | some e =>
    rw [hname] at h
    exact .inl ⟨by simp [Missing, hname], (Option.some.inj h).symm⟩
  | none =>
    rw [hname] at h
    cases hcode : os.refusal bindir (basename f) with
    | some code => simp [hcode] at h
    | none =>
      rw [hcode] at h
      exact .inr ⟨hname, h⟩

theorem populate_of_present (h : ∀ f ∈ files.head?, ¬ Missing bindir f) :
    populateToolchainLinks os files bindir = some bindir := by
  cases files with
  | nil => rfl
  | cons f files =>
    obtain ⟨e, he⟩ := Option.ne_none_iff_exists'.mp (h f rfl)
    rw [populateToolchainLinks, symlink, he]

theorem populate_untouched (hrun : populateToolchainLinks os files bindir = some after) {name : Text} {e : ε}
    (he : bindir name = some e) : after name = some e := by
  induction files generalizing bindir with
  | nil =>
    cases hrun
    exact he
  | cons f files ih =>
    rcases populate_cons hrun with ⟨-, rfl⟩ | ⟨hfree, hrest⟩
    · exact he
    · apply ih hrest
      have hne : name ≠ basename f := by
        rintro rfl
        rw [Missing, he] at hfree
        cases hfree
      rw [Function.update_of_ne hne, he]

theorem populate_of_missing (hnodup : (files.map basename).Nodup) (hmissing : ∀ f ∈ files, Missing bindir f)
    (hrun : populateToolchainLinks os files bindir = some after) :
    (∀ f ∈ files, after (basename f) = some (os.link f)) ∧
      ∀ name ∉ files.map basename, after name = bindir name := by
  induction files generalizing bindir with
  | nil =>
    cases hrun
    simp
  | cons f files ih =>
    obtain ⟨hfree, hothers⟩ := List.forall_mem_cons.mp hmissing
    obtain ⟨hfirst, hnodup⟩ := List.nodup_cons.mp hnodup
    rcases populate_cons hrun with ⟨htaken, -⟩ | ⟨-, hrest⟩
    · exact absurd hfree htaken
    · have hnext : ∀ g ∈ files, Missing (Function.update bindir (basename f) (some (os.link f))) g := by
        intro g hg
        have hne : basename g ≠ basename f := fun heq => hfirst (heq ▸ List.mem_map_of_mem hg)
        rw [Missing, Function.update_of_ne hne]
        exact hothers g hg
      obtain ⟨hlinked, hkept⟩ := ih hnodup hnext hrest
      refine ⟨List.forall_mem_cons.mpr ⟨?_, hlinked⟩, fun name hname => ?_⟩
      · rw [hkept _ hfirst, Function.update_self]
      · obtain ⟨hne, hname⟩ := not_or.mp (mt List.mem_cons.mpr hname)
        rw [hkept name hname, Function.update_of_ne hne]

theorem populates_of_present {tc : CrossTools} (h : ∀ f ∈ tc.files, ¬ Missing bindir f) :
    Populates os tc bindir := by
  have hrun : ∀ files, files.Perm tc.files → populateToolchainLinks os files bindir = some bindir :=
    fun files hperm => populate_of_present (fun f hf => h f (hperm.mem_iff.mp (List.mem_of_mem_head? hf)))
  constructor
  · intro files hperm after hafter f hf
    rw [← Option.some.inj ((hrun files hperm).symm.trans hafter)]
    exact Option.isSome_iff_ne_none.mpr (h f hf)
  · exact fun _ _ _ hafter _ _ => populate_untouched hafter
  · intro files files' hperm hperm' after after' hafter hafter'
    rw [← Option.some.inj ((hrun files hperm).symm.trans hafter),
      ← Option.some.inj ((hrun files' hperm').symm.trans hafter')]
  · intro files files' hperm hperm' after hafter
    rw [← Option.some.inj ((hrun files hperm).symm.trans hafter)]
    exact hrun files' hperm'

theorem populates_of_missing {tc : CrossTools} (h : ∀ f ∈ tc.files, Missing bindir f) :
    Populates os tc bindir := by
  have hspec : ∀ files, files.Perm tc.files → ∀ after, populateToolchainLinks os files bindir = some after →
      (∀ f ∈ tc.files, after (basename f) = some (os.link f)) ∧
        ∀ name ∉ tc.files.map basename, after name = bindir name := by
    intro files hperm after hafter
    have hnames := hperm.map basename
    obtain ⟨hlinked, hkept⟩ := populate_of_missing (hnames.nodup_iff.mpr (nodup_names tc))
      (fun f hf => h f (hperm.mem_iff.mp hf)) hafter
    exact ⟨fun f hf => hlinked f (hperm.mem_iff.mpr hf), fun name hname => hkept name (mt hnames.mem_iff.mp hname)⟩
  constructor
  · intro files hperm after hafter f hf
    rw [(hspec files hperm after hafter).1 f hf, Option.isSome_some]
  · exact fun _ _ _ hafter _ _ => populate_untouched hafter
  · intro files files' hperm hperm' after after' hafter hafter'
    obtain ⟨hlinked, hkept⟩ := hspec files hperm after hafter
    obtain ⟨hlinked', hkept'⟩ := hspec files' hperm' after' hafter'
    funext name
    by_cases hname : name ∈ tc.files.map basename
    · obtain ⟨f, hf, rfl⟩ := List.mem_map.mp hname
      rw [hlinked f hf, hlinked' f hf]
    · rw [hkept name hname, hkept' name hname]
  · intro files files' hperm hperm' after hafter
    apply populate_of_present
    intro f hf
    have hmem := hperm'.mem_iff.mp (List.mem_of_mem_head? hf)
    rw [Missing, (hspec files hperm after hafter).1 f hmem]
    exact Option.some_ne_none _

theorem populates_iff_allOrNone (os : Os ε) (tc : CrossTools) (bindir : Dir ε) :
    Populates os tc bindir ↔
      (∀ f ∈ tc.files, Missing bindir f) ∨ ∀ f ∈ tc.files, ¬ Missing bindir f := by
  constructor
  · intro h
    by_contra hmixed
    push Not at hmixed
    obtain ⟨⟨present, hpresent, hentry⟩, missing, hmissing, hfree⟩ := hmixed
    have hperm : (present :: tc.files.erase present).Perm tc.files := (List.perm_cons_erase hpresent).symm
    have hrun : populateToolchainLinks os (present :: tc.files.erase present) bindir = some bindir := by
      apply populate_of_present
      rintro f ⟨⟩
      exact hentry
    have hentered := h.entered _ hperm bindir hrun missing hmissing
    rw [Missing.eq_1] at hfree
    rw [hfree] at hentered
    cases hentered
  · rintro (h | h)
    · exact populates_of_missing h
    · exact populates_of_present h

def plainOs : Os Text := ⟨id, fun _ _ => none⟩

def gccAndLd : CrossTools where
  externalToolchain := "/opt/tools".toList
  targetPrefix := "i586-".toList
  tools := ["gcc".toList, "ld".toList]
  plainPrefix := by decide
  plain := by decide
  distinct := by decide

def onlyGcc : Dir Text := fun name => if name = "i586-gcc".toList then some "/old/i586-gcc".toList else none

theorem ld_left_out : ¬ Populates plainOs gccAndLd onlyGcc := by
  intro h
  have hentered := h.entered _ (List.Perm.refl _) onlyGcc rfl (gccAndLd.path "ld".toList) (by decide)
  revert hentered
  decide

end CgxLayer.Toolchain
