import CgxLayer.Dict
import CgxLayer.Text
import Mathlib.Data.List.Infix

namespace CgxLayer.KernelConfig

open Text

def configPrefix : Text := "CONFIG_".toList

def assigned (var val : Text) : Text := var ++ '=' :: val

def prefixVar : Text := "PRECONFIGURE_PREFIX".toList

def ignoreVar : Text := "PRECONFIGURE_IGNORE".toList

structure IsName (var : Text) : Prop where
  plain : '=' ∉ var
  word : ∀ c ∈ var, pyBlank c = false

structure Datastore where
  vars : Dict Text Text
  names : ∀ var ∈ vars.keys, IsName var
  preconfigurePrefix : Text
  preconfigureIgnore : Text
  prefix_eq : vars.get? prefixVar = some preconfigurePrefix
  ignore_eq : vars.get? ignoreVar = some preconfigureIgnore

namespace Datastore

def isConfigVar (d : Datastore) (var : Text) : Bool :=
  startsWith (d.preconfigurePrefix ++ configPrefix) var && var ∉ words pyBlank d.preconfigureIgnore

def configVars (d : Datastore) : List (Text × Text) :=
  d.vars.entries.filter (fun e => d.isConfigVar e.1)

end Datastore

def getKernelConfigEnv (d : Datastore) : Text :=
  joinWith ' ' (sorted (d.configVars.map (fun e => assigned e.1 e.2)))

def getKernelConfigVars (d : Datastore) : Dict Text Text :=
  Dict.ofEntries (d.configVars.map (fun e => (e.1.drop d.preconfigurePrefix.length, e.2)))

theorem assigned_inj {x y v w : Text} (hx : '=' ∉ x) (hy : '=' ∉ y)
    (h : assigned x v = assigned y w) : x = y ∧ v = w := by
  have hsplit : splitFirst '=' (assigned x v) = splitFirst '=' (assigned y w) := congrArg _ h
  rw [assigned, assigned, splitFirst_append x v hx, splitFirst_append y w hy] at hsplit
  simpa using hsplit

namespace Datastore

variable {d : Datastore}

theorem mem_configVars {e : Text × Text} :
    e ∈ d.configVars ↔ e ∈ d.vars.entries ∧ d.isConfigVar e.1 = true := List.mem_filter

theorem name_of_mem {e : Text × Text} (he : e ∈ d.configVars) : IsName e.1 :=
  d.names e.1 (Dict.mem_keys_of_mem (mem_configVars.mp he).1)

theorem nodup_configVars (d : Datastore) : (d.configVars.map Prod.fst).Nodup :=
  d.vars.nodup.sublist (List.filter_sublist.map Prod.fst)

theorem eq_append_of_isConfigVar {var : Text} (h : d.isConfigVar var = true) :
    var = d.preconfigurePrefix ++ var.drop d.preconfigurePrefix.length := by
  rw [isConfigVar, Bool.and_eq_true, startsWith_iff] at h
  obtain ⟨t, rfl⟩ := h.1
  rw [List.append_assoc, List.drop_left]

theorem drop_injective {x y : Text} (hx : d.isConfigVar x = true) (hy : d.isConfigVar y = true)
    (h : x.drop d.preconfigurePrefix.length = y.drop d.preconfigurePrefix.length) : x = y := by
  rw [eq_append_of_isConfigVar hx, eq_append_of_isConfigVar hy, h]

theorem mem_getKernelConfigVars {x val : Text} : (x, val) ∈ (getKernelConfigVars d).entries ↔
    ∃ var, (var, val) ∈ d.configVars ∧ var.drop d.preconfigurePrefix.length = x := by
  have hnodup : ((d.configVars.map (fun e => (e.1.drop d.preconfigurePrefix.length, e.2))).map
      Prod.fst).Nodup := by
    rw [List.map_map]
    apply List.Nodup.map_on _ (List.Nodup.of_map Prod.fst d.nodup_configVars)
    intro e he f hf hef
    have hkeys := drop_injective (mem_configVars.mp he).2 (mem_configVars.mp hf).2 hef
    exact List.inj_on_of_nodup_map d.nodup_configVars he hf hkeys
  rw [getKernelConfigVars, Dict.mem_ofEntries hnodup]
  simp

theorem not_startsWith_own {pre name : Text} (h : ¬ configPrefix <:+: name) :
    startsWith (pre ++ configPrefix) name = false := by
  rw [Bool.eq_false_iff]
  intro hstart
  obtain ⟨t, ht⟩ := startsWith_iff.mp hstart
  exact h ⟨pre, t, ht⟩

theorem prefixVar_isConfigVar (d : Datastore) : d.isConfigVar prefixVar = false := by
  rw [isConfigVar, not_startsWith_own (by decide), Bool.false_and]

theorem ignoreVar_isConfigVar (d : Datastore) : d.isConfigVar ignoreVar = false := by
  rw [isConfigVar, not_startsWith_own (by decide), Bool.false_and]

end Datastore

structure Replaces (d : Datastore) (es : List (Text × Text)) : Prop where
  nodup : (es.map Prod.fst).Nodup
  names : ∀ e ∈ es, IsName e.1
  vars : ∀ e ∈ es, d.isConfigVar e.1 = true

namespace Replaces

variable {d : Datastore} {es : List (Text × Text)}

def others (d : Datastore) : List (Text × Text) :=
  d.vars.entries.filter (fun e => !d.isConfigVar e.1)

theorem mem_others {e : Text × Text} :
    e ∈ others d ↔ e ∈ d.vars.entries ∧ d.isConfigVar e.1 = false := by
  simp [others]

theorem nodup_append (h : Replaces d es) : ((others d ++ es).map Prod.fst).Nodup := by
  rw [List.map_append, List.nodup_append]
  refine ⟨d.vars.nodup.sublist (List.filter_sublist.map Prod.fst), h.nodup, ?_⟩
  intro x hx y hy hxy
  obtain ⟨e, he, rfl⟩ := List.mem_map.mp hx
  obtain ⟨f, hf, rfl⟩ := List.mem_map.mp hy
  have hfalse := (mem_others.mp he).2
  rw [hxy, h.vars f hf] at hfalse
  cases hfalse

theorem get_others (h : Replaces d es) {var val : Text} (hv : d.vars.get? var = some val)
    (hvar : d.isConfigVar var = false) : Dict.get? ⟨others d ++ es, h.nodup_append⟩ var = some val := by
  apply Dict.get?_eq_some.mpr
  exact List.mem_append_left _ (mem_others.mpr ⟨Dict.get?_eq_some.mp hv, hvar⟩)

def datastore (h : Replaces d es) : Datastore where
  vars := ⟨others d ++ es, h.nodup_append⟩
  names := by
    intro var hvar
    obtain ⟨val, hval⟩ := Dict.mem_keys_iff.mp hvar
    rcases List.mem_append.mp hval with hmem | hmem
    · exact d.names var (Dict.mem_keys_of_mem (mem_others.mp hmem).1)
    · exact h.names _ hmem
  preconfigurePrefix := d.preconfigurePrefix
  preconfigureIgnore := d.preconfigureIgnore
  prefix_eq := h.get_others d.prefix_eq d.prefixVar_isConfigVar
  ignore_eq := h.get_others d.ignore_eq d.ignoreVar_isConfigVar

theorem configVars_datastore (h : Replaces d es) : h.datastore.configVars = es := by
  have hothers : (others d).filter (fun e => d.isConfigVar e.1) = [] := by
    rw [List.filter_eq_nil_iff]
    intro e he
    simp [(mem_others.mp he).2]
  have hes : es.filter (fun e => d.isConfigVar e.1) = es := List.filter_eq_self.mpr h.vars
  change (others d ++ es).filter (fun e => d.isConfigVar e.1) = es
  rw [List.filter_append, hothers, hes, List.nil_append]

end Replaces

end CgxLayer.KernelConfig
