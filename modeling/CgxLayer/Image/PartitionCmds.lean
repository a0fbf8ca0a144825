import CgxLayer.Image.SplitPartitions
import Mathlib.Logic.Function.Basic
import Mathlib.Data.List.Chain

namespace CgxLayer.Image

open Text

/-- The values of a datastore as they were set; a variable can be set to Python's `None`. -/
abbrev Data := Text → Option Text

structure BuildSystem where
  getVar : Data → Text → Option Text
  imagecmds : Data → Text

def setVar (d : Data) (var : Text) (val : Option Text) : Data := Function.update d var val

def imageFstypes : Text := "IMAGE_FSTYPES".toList

def imageRootfs : Text := "IMAGE_ROOTFS".toList

def imageName : Text := "IMAGE_NAME".toList

def imageLinkName : Text := "IMAGE_LINK_NAME".toList

def imageRootfsSize : Text := "IMAGE_ROOTFS_SIZE".toList

def imageSettings : List Text := [imageFstypes, imageRootfs, imageName, imageLinkName, imageRootfsSize]

def partitionVar (partition field : Text) : Text := "PARTITION_".toList ++ (partition ++ '_' :: field)

def partitionFs (partition : Text) : Text := partitionVar partition "FS".toList

def partitionSize (partition : Text) : Text := partitionVar partition "SIZE".toList

def truthy : Option Text → Bool
  | none => false
  | some val => !val.isEmpty

def orElse (val other : Option Text) : Option Text := if truthy val then val else other

-- `"%s-%s" % (val, partition)`
def suffixed (val : Option Text) (partition : Text) : Text := val.getD "None".toList ++ '-' :: partition

variable (bs : BuildSystem)

def fstypesOf (localdata : Data) (partition : Text) : Option Text :=
  orElse (bs.getVar localdata (partitionFs partition)) (bs.getVar localdata imageFstypes)

def sizeOf (d localdata : Data) (partition : Text) : Option Text :=
  if truthy (bs.getVar localdata (partitionSize partition)) then
    some ("$\x7b".toList ++ (partitionSize partition ++ "\x7d".toList))
  else bs.getVar d imageRootfsSize

/-- One turn of the loop; `d` is the datastore of the recipe, of which `localdata` began as a copy. -/
def nextPartition (d localdata : Data) (partition : Text) : Data :=
  let localdata := setVar localdata imageFstypes (fstypesOf bs localdata partition)
  let localdata := setVar localdata imageRootfs (some (suffixed (bs.getVar d imageRootfs) partition))
  let localdata := setVar localdata imageName (some (suffixed (bs.getVar d imageName) partition))
  let localdata := setVar localdata imageLinkName (some (suffixed (bs.getVar d imageLinkName) partition))
  let localdata := setVar localdata imageRootfsSize (sizeOf bs d localdata partition)
  setVar localdata imageLinkName (some (suffixed (bs.getVar d imageLinkName) partition))

def partitionCalls (d : Data) : Data → List Text → List (Text × Data)
  | _, [] => []
  | localdata, partition :: partitions =>
    if partition = "base".toList then partitionCalls d localdata partitions
    else
      (partition, nextPartition bs d localdata partition) ::
        partitionCalls d (nextPartition bs d localdata partition) partitions

def rmImages (d : Data) (partition : Text) : Text :=
  "\trm -f $\x7bDEPLOY_DIR_IMAGE\x7d/".toList ++ (suffixed (bs.getVar d imageLinkName) partition ++ ".*".toList)

def getPartitioncmds (d : Data) : Text :=
  let partitions := words pyBlank ((bs.getVar d "PARTITIONS".toList).getD [])
  let cmds := (partitionCalls bs d d partitions).flatMap (fun c => [rmImages bs d c.1, bs.imagecmds c.2])
  List.intercalate " \n ".toList cmds

def ownData (d : Data) (partition : Text) : Data := nextPartition bs d d partition

structure Independent (d : Data) (partitions : List Text) : Prop where
  settings : ∀ c ∈ partitionCalls bs d d partitions, ∀ var ∈ imageSettings, c.2 var = ownData bs d c.1 var
  original : ∀ c ∈ partitionCalls bs d d partitions, truthy (bs.getVar d (partitionFs c.1)) = false →
    c.2 imageFstypes = bs.getVar d imageFstypes

def named (d localdata : Data) (partition : Text) : Data :=
  setVar (setVar (setVar (setVar localdata imageFstypes (fstypesOf bs localdata partition))
    imageRootfs (some (suffixed (bs.getVar d imageRootfs) partition)))
    imageName (some (suffixed (bs.getVar d imageName) partition)))
    imageLinkName (some (suffixed (bs.getVar d imageLinkName) partition))

/-- With the settings of `q` in place, `p` reads its own variables, and the types it has when it
has none of its own, as it reads them from the datastore of the recipe. -/
structure Follows (d : Data) (q p : Text) : Prop where
  fstypes : fstypesOf bs (ownData bs d q) p = fstypesOf bs d p
  size : sizeOf bs d (named bs d (ownData bs d q) p) p = sizeOf bs d (named bs d d p) p

variable {bs}

def withImage (bs : BuildSystem) (d : Data) (partition : Text) (fstypes size : Option Text) : Data := fun var =>
  if var = imageFstypes then fstypes
  else if var = imageRootfs then some (suffixed (bs.getVar d imageRootfs) partition)
  else if var = imageName then some (suffixed (bs.getVar d imageName) partition)
  else if var = imageLinkName then some (suffixed (bs.getVar d imageLinkName) partition)
  else if var = imageRootfsSize then size
  else d var

theorem imageSettings_distinct : imageSettings.Nodup ∧ imageSettings.reverse.Nodup := by decide

theorem nextPartition_eq {d localdata : Data} (h : ∀ var, var ∉ imageSettings → localdata var = d var)
    (partition : Text) : nextPartition bs d localdata partition =
      withImage bs d partition (fstypesOf bs localdata partition)
        (sizeOf bs d (named bs d localdata partition) partition) := by
  obtain ⟨hforth, hback⟩ := imageSettings_distinct
  simp only [imageSettings, List.reverse_cons, List.reverse_nil, List.nil_append, List.cons_append,
    List.nodup_cons, List.mem_cons, List.not_mem_nil, or_false, not_or] at hforth hback
  funext var
  by_cases hvar : var ∈ imageSettings
  · simp only [imageSettings, List.mem_cons, List.not_mem_nil, or_false] at hvar
    rcases hvar with rfl | rfl | rfl | rfl | rfl <;>
      simp [nextPartition, named, setVar, withImage, hforth, hback]
  · have hkept := h var hvar
    simp only [imageSettings, List.mem_cons, List.not_mem_nil, or_false, not_or] at hvar
    simp [nextPartition, setVar, withImage, hvar, hkept]

theorem ownData_eq (d : Data) (partition : Text) : ownData bs d partition =
    withImage bs d partition (fstypesOf bs d partition) (sizeOf bs d (named bs d d partition) partition) :=
  nextPartition_eq (fun _ _ => rfl) partition

theorem ownData_kept (d : Data) (partition : Text) {var : Text} (h : var ∉ imageSettings) :
    ownData bs d partition var = d var := by
  rw [ownData_eq]
  simp only [imageSettings, List.mem_cons, List.not_mem_nil, or_false, not_or] at h
  simp [withImage, h]

theorem withImage_fstypes (d : Data) (partition : Text) (fstypes size : Option Text) :
    withImage bs d partition fstypes size imageFstypes = fstypes := if_pos rfl

theorem withImage_size (d : Data) (partition : Text) (fstypes size : Option Text) :
    withImage bs d partition fstypes size imageRootfsSize = size := by
  have hback := imageSettings_distinct.2
  simp only [imageSettings, List.reverse_cons, List.reverse_nil, List.nil_append, List.cons_append,
    List.nodup_cons, List.mem_cons, List.not_mem_nil, or_false, not_or] at hback
  simp [withImage, hback]

theorem nextPartition_own_iff (d : Data) (q p : Text) :
    (∀ var ∈ imageSettings, nextPartition bs d (ownData bs d q) p var = ownData bs d p var) ↔
      Follows bs d q p := by
  rw [nextPartition_eq (fun var hvar => ownData_kept d q hvar), ownData_eq d p]
  constructor
  · intro h
    constructor
    · have hfstypes := h imageFstypes (by decide)
      rwa [withImage_fstypes, withImage_fstypes] at hfstypes
    · have hsize := h imageRootfsSize (by decide)
      rwa [withImage_size, withImage_size] at hsize
  · intro h var _
    rw [h.fstypes, h.size]

theorem nextPartition_own {d : Data} {q p : Text} (h : Follows bs d q p) :
    nextPartition bs d (ownData bs d q) p = ownData bs d p := by
  rw [nextPartition_eq (fun var hvar => ownData_kept d q hvar), ownData_eq d p, h.fstypes, h.size]

theorem nonBase_cons (p : Text) (ps : List Text) :
    nonBase (p :: ps) = if p = "base".toList then nonBase ps else p :: nonBase ps := by
  unfold nonBase
  split_ifs with hp
  · rw [List.filter_cons_of_neg (by simpa using hp)]
  · rw [List.filter_cons_of_pos (by simpa using hp)]

theorem calls_own_iff (d : Data) (q : Text) (ps : List Text) :
    (∀ c ∈ partitionCalls bs d (ownData bs d q) ps, ∀ var ∈ imageSettings, c.2 var = ownData bs d c.1 var) ↔
      (q :: nonBase ps).IsChain (Follows bs d) := by
  induction ps generalizing q with
  | nil => simp [partitionCalls, nonBase]
  | cons p ps ih =>
    rw [partitionCalls, nonBase_cons]
    split_ifs with hp
    · exact ih q
    · rw [List.forall_mem_cons, List.isChain_cons_cons, nextPartition_own_iff]
      apply and_congr_right
      intro hfollows
      rw [nextPartition_own hfollows]
      exact ih p

theorem settings_iff_chain (d : Data) (ps : List Text) :
    (∀ c ∈ partitionCalls bs d d ps, ∀ var ∈ imageSettings, c.2 var = ownData bs d c.1 var) ↔
      (nonBase ps).IsChain (Follows bs d) := by
  induction ps with
  | nil => simp [partitionCalls, nonBase]
  | cons p ps ih =>
    rw [partitionCalls, nonBase_cons]
    split_ifs with hp
    · exact ih
    · rw [List.forall_mem_cons]
      exact (and_iff_right (fun _ _ => rfl)).trans (calls_own_iff d p ps)

theorem ownData_fstypes {d : Data} {partition : Text}
    (h : truthy (bs.getVar d (partitionFs partition)) = false) :
    ownData bs d partition imageFstypes = bs.getVar d imageFstypes := by
  rw [ownData_eq, withImage_fstypes, fstypesOf, orElse, h]
  rfl

theorem independent_iff_follows (bs : BuildSystem) (d : Data) (partitions : List Text) :
    Independent bs d partitions ↔ (nonBase partitions).IsChain (Follows bs d) := by
  rw [← settings_iff_chain]
  constructor
  · exact Independent.settings
  · intro h
    refine ⟨h, fun c hc hfs => ?_⟩
    rw [h c hc imageFstypes (List.mem_cons_self ..), ownData_fstypes hfs]

def plainSystem : BuildSystem := ⟨fun d var => d var, fun _ => []⟩

def usrAsExt3 : Data := fun var =>
  if var = imageFstypes then some "tar.gz".toList
  else if var = partitionFs "usr".toList then some "ext3".toList
  else none

theorem data_gets_types_of_usr : ¬ Independent plainSystem usrAsExt3 ["usr".toList, "data".toList] := by
  intro h
  let second := nextPartition plainSystem usrAsExt3 (ownData plainSystem usrAsExt3 "usr".toList) "data".toList
  have hmem : ("data".toList, second) ∈ partitionCalls plainSystem usrAsExt3 usrAsExt3 ["usr".toList, "data".toList] :=
    List.mem_cons_of_mem _ (List.mem_cons_self ..)
  have htypes := h.original _ hmem (by decide)
  revert htypes
  decide

end CgxLayer.Image
