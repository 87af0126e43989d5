import Mathlib
import Xpl.Keyfile.Losses

/-! Saving a key file and loading it again. -/

set_option autoImplicit false

namespace Xpl.Keyfile
open Xpl.Library

namespace KeyFile

/-- The same groups and keys in the same order, and the same strings and lists. -/
structure SameAnswers (file file' : KeyFile) : Prop where
  groups : file'.getGroups = file.getGroups
  keys : ∀ groupName, file'.getKeys groupName = file.getKeys groupName
  string : ∀ groupName key, file'.getString groupName key = file.getString groupName key
  list : ∀ groupName key, file'.getStringList groupName key = file.getStringList groupName key

variable {setting : Setting} {file file' : KeyFile} {live live' : Prop}

/-! ## What is built -/

theorem Built.names (h : file.Built setting) : ∀ group ∈ file.contents, isGroupName group.1 := by
  rintro ⟨name, pairs⟩ inside
  obtain ⟨held, there, named, -⟩ := mem_contents.mp inside
  exact (h.groups held there).name name named

theorem Built.set (h : file.Built setting) : ∀ group ∈ file.contents, ∀ pair ∈ group.2, IsSet setting pair := by
  rintro ⟨name, pairs⟩ inside pair given
  obtain ⟨held, there, -, rfl⟩ := mem_contents.mp inside
  obtain ⟨node, present, made⟩ := List.mem_filterMap.mp given
  obtain ⟨key, keyed, rfl⟩ := Option.map_eq_some_iff.mp made
  obtain ⟨key', keyed', acceptable, plain, plain_value⟩ := (h.groups held there).pairs node (List.mem_reverse.mp present)
  cases keyed.symm.trans keyed'
  exact ⟨acceptable, plain, plain_value⟩

def listedKeys (file : KeyFile) (groupName : Bytes) : List Bytes :=
  match file.getKeys groupName with
  | .ok (.ok keys) => keys
  | _ => []

theorem Holds.weight_listed (h : file.Holds live) :
    contentsWeight file.contents =
      ((file.contents.map Prod.fst).map fun name => ((file.listedKeys name).map List.length).sum).sum := by
  unfold contentsWeight
  rw [List.map_map]
  congr 1
  apply List.map_congr_left
  rintro ⟨name, pairs⟩ inside
  rw [Function.comp_apply, listedKeys, h.getKeys_eq inside]
  rw [List.map_map]
  rfl

theorem SameAnswers.weight (same : file.SameAnswers file') (h : file.Holds live) (h' : file'.Holds live') :
    contentsWeight file'.contents = contentsWeight file.contents := by
  have names : file'.contents.map Prod.fst = file.contents.map Prod.fst := by
    have groups := same.groups
    rw [h.getGroups_eq, h'.getGroups_eq] at groups
    have inner := Option.some.inj groups
    apply (List.map_injective_iff.mpr (Option.some_injective Bytes))
    rw [List.map_map, List.map_map]
    exact inner
  have listed : file'.listedKeys = file.listedKeys := by
    funext name
    unfold listedKeys
    rw [same.keys]
  rw [h.weight_listed, h'.weight_listed, names, listed]

/-! ## Strings -/

/-- A key file that is about to be loaded. -/
def cleared (keepComments : Bool) : KeyFile := { init 2 with keepComments, keepTranslations := true }

end KeyFile

end Xpl.Keyfile
