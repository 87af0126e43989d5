import Mathlib.Data.List.AList

/-! Records at addresses in an ordered list, and an index that maps each key to the first record that has it. -/

set_option autoImplicit false

namespace Xpl.Library

variable {ι κ α : Type}

/-! ## Records by their address -/

section Addresses

variable [DecidableEq ι]

def updateRecord (records : List (ι × α)) (address : ι) (change : α → α) : List (ι × α) :=
  records.map fun held => if held.1 = address then (address, change held.2) else held

def removeRecord (records : List (ι × α)) (address : ι) : List (ι × α) :=
  records.eraseP fun held => held.1 = address

variable {records : List (ι × α)} {address other : ι} {change : α → α} {held : α}

theorem lookup_of_mem (distinct : (records.map Prod.fst).Nodup) (present : (address, held) ∈ records) :
    records.lookup address = some held := by
  induction records with
  | nil => cases present
  | cons head records ih =>
    obtain ⟨apart, distinct⟩ := List.nodup_cons.mp distinct
    rcases List.mem_cons.mp present with rfl | present
    · exact List.lookup_cons_self
    · have inside : address ∈ records.map Prod.fst := List.mem_map.mpr ⟨_, present, rfl⟩
      have elsewhere : address ≠ head.1 := fun same => apart (same ▸ inside)
      rw [List.lookup_cons, beq_false_of_ne elsewhere]
      exact ih distinct present

theorem same_of_mem (distinct : (records.map Prod.fst).Nodup) {held' : α} (present : (address, held) ∈ records)
    (present' : (address, held') ∈ records) : held = held' :=
  Option.some.inj ((lookup_of_mem distinct present).symm.trans (lookup_of_mem distinct present'))

theorem updateRecord_addresses : (updateRecord records address change).map Prod.fst = records.map Prod.fst := by
  unfold updateRecord
  rw [List.map_map]
  apply List.map_congr_left
  intro head _
  by_cases here : head.1 = address
  · simp [here]
  · simp [here]

theorem mem_updateRecord {entry : ι × α} (changed : entry ∈ updateRecord records address change) :
    (entry ∈ records ∧ entry.1 ≠ address) ∨ ∃ held, (address, held) ∈ records ∧ entry = (address, change held) := by
  obtain ⟨head, present, equal⟩ := List.mem_map.mp changed
  by_cases here : head.1 = address
  · rw [if_pos here] at equal
    subst here
    exact .inr ⟨head.2, present, equal.symm⟩
  · rw [if_neg here] at equal
    subst equal
    exact .inl ⟨present, here⟩

theorem updateRecord_self (present : (address, held) ∈ records) :
    (address, change held) ∈ updateRecord records address change :=
  List.mem_map.mpr ⟨_, present, if_pos rfl⟩

theorem updateRecord_head (distinct : (((address, held) :: records).map Prod.fst).Nodup) :
    updateRecord ((address, held) :: records) address change = (address, change held) :: records := by
  unfold updateRecord
  rw [List.map_cons, if_pos rfl]
  have others : records.map (fun held => if held.1 = address then (address, change held.2) else held) = records.map id := by
    apply List.map_congr_left
    intro other present
    have inside : other.1 ∈ records.map Prod.fst := List.mem_map_of_mem present
    have apart : other.1 ≠ address := fun same => (List.nodup_cons.mp distinct).1 (same ▸ inside)
    exact if_neg apart
  rw [others, List.map_id]

theorem removeRecord_sublist : (removeRecord records address).Sublist records := List.eraseP_sublist

theorem removeRecord_eq_filter (distinct : (records.map Prod.fst).Nodup) :
    removeRecord records address = records.filter fun held => held.1 ≠ address := by
  unfold removeRecord
  induction records with
  | nil => rfl
  | cons head records ih =>
    obtain ⟨apart, distinct⟩ := List.nodup_cons.mp distinct
    by_cases here : head.1 = address
    · subst here
      have untouched : records.filter (fun held => held.1 ≠ head.1) = records := by
        apply List.filter_eq_self.mpr
        intro held present
        have inside : held.1 ∈ records.map Prod.fst := List.mem_map_of_mem present
        exact decide_eq_true fun same => apart (same ▸ inside)
      rw [List.eraseP_cons_of_pos (by simp), List.filter_cons_of_neg (by simp), untouched]
    · rw [List.eraseP_cons_of_neg (by simpa using here), List.filter_cons_of_pos (by simpa using here), ih distinct]

end Addresses

/-! ## Records by their key -/

section Keys

variable [DecidableEq κ] (key : α → Option κ)

def firstWith (records : List (ι × α)) (k : κ) : Option ι :=
  (records.find? fun held => key held.2 = some k).map Prod.fst

/-- The index maps each key to the first record that has it, and nothing else to anything. -/
def IsIndex (index : κ → Option ι) (records : List (ι × α)) : Prop := ∀ k, index k = firstWith key records k

variable {key} {index : κ → Option ι} {records : List (ι × α)} {address : ι} {k : κ}

theorem firstWith_cons (held : ι × α) :
    firstWith key (held :: records) k = if key held.2 = some k then some held.1 else firstWith key records k := by
  unfold firstWith
  by_cases here : key held.2 = some k
  · simp [here]
  · simp [here]

theorem firstWith_isSome : (firstWith key records k).isSome ↔ ∃ held ∈ records, key held.2 = some k := by
  unfold firstWith
  simp

theorem IsIndex.isSome (h : IsIndex key index records) : (index k).isSome ↔ ∃ held ∈ records, key held.2 = some k := by
  rw [h k]
  exact firstWith_isSome

theorem IsIndex.mem (h : IsIndex key index records) (found : index k = some address) :
    ∃ held, (address, held) ∈ records ∧ key held = some k := by
  rw [h k] at found
  obtain ⟨entry, first, rfl⟩ := Option.map_eq_some_iff.mp found
  exact ⟨entry.2, List.mem_of_find?_eq_some first, by simpa using List.find?_some first⟩

theorem IsIndex.prepend (h : IsIndex key index records) {held : α} (keyed : key held = some k) (address : ι) :
    IsIndex key (Function.update index k (some address)) ((address, held) :: records) := by
  intro other
  rw [firstWith_cons, keyed]
  by_cases same : k = other
  · subst same
    rw [Function.update_self, if_pos rfl]
  · rw [Function.update_of_ne (Ne.symm same), if_neg fun equal => same (Option.some.inj equal), h other]

theorem IsIndex.of_keyed (h : IsIndex key index records) {records' : List (ι × α)}
    (same : (records'.filter fun held => (key held.2).isSome).map (fun held => (held.1, key held.2)) =
      (records.filter fun held => (key held.2).isSome).map fun held => (held.1, key held.2)) :
    IsIndex key index records' := by
  have skims : ∀ (records : List (ι × α)) (k : κ), firstWith key records k =
      (((records.filter fun held => (key held.2).isSome).map fun held => (held.1, key held.2)).find?
        fun held => held.2 = some k).map Prod.fst := by
    intro records k
    induction records with
    | nil => rfl
    | cons held records ih =>
      rw [firstWith_cons, ih]
      cases keyed : key held.2 with
      | none => simp [keyed]
      | some other =>
        by_cases here : other = k
        · simp [keyed, here]
        · simp [keyed, here]
  intro k
  rw [h k, skims, skims, same]

theorem firstWith_updateRecord [DecidableEq ι] {change : α → α} (same : ∀ held, key (change held) = key held) :
    firstWith key (updateRecord records address change) k = firstWith key records k := by
  unfold updateRecord
  induction records with
  | nil => rfl
  | cons head records ih =>
    rw [List.map_cons, firstWith_cons, firstWith_cons, ih]
    by_cases here : head.1 = address
    · simp [here, same]
    · simp [here]

theorem IsIndex.update [DecidableEq ι] (h : IsIndex key index records) {change : α → α}
    (same : ∀ held, key (change held) = key held) : IsIndex key index (updateRecord records address change) :=
  fun k => (h k).trans (firstWith_updateRecord same).symm

theorem firstWith_removeRecord [DecidableEq ι] (elsewhere : ∀ entry ∈ records, entry.1 = address → key entry.2 ≠ some k) :
    firstWith key (removeRecord records address) k = firstWith key records k := by
  unfold removeRecord
  induction records with
  | nil => rfl
  | cons head records ih =>
    obtain ⟨first, others⟩ := List.forall_mem_cons.mp elsewhere
    by_cases here : head.1 = address
    · rw [List.eraseP_cons_of_pos (by simpa using here), firstWith_cons, if_neg (first here)]
    · rw [List.eraseP_cons_of_neg (by simpa using here), firstWith_cons, firstWith_cons, ih others]

theorem IsIndex.remove [DecidableEq ι] (h : IsIndex key index records) (distinct : (records.map Prod.fst).Nodup) {held : α}
    (present : (address, held) ∈ records) (keyed : key held = some k)
    (once : ∀ entry ∈ records, key entry.2 = some k → entry.1 = address) :
    IsIndex key (Function.update index k none) (removeRecord records address) := by
  intro other
  by_cases same : other = k
  · subst same
    rw [Function.update_self]
    symm
    rw [← Option.not_isSome_iff_eq_none, firstWith_isSome, removeRecord_eq_filter distinct]
    rintro ⟨entry, inside, keyed⟩
    obtain ⟨inside, elsewhere⟩ := List.mem_filter.mp inside
    exact of_decide_eq_true elsewhere (once entry inside keyed)
  · rw [Function.update_of_ne same, h other, firstWith_removeRecord]
    rintro ⟨_, held'⟩ inside rfl other_key
    cases same_of_mem distinct present inside
    exact same (Option.some.inj (other_key.symm.trans keyed))

end Keys

end Xpl.Library
