import Xpl.Collections.HashTableCalls

/-! The tables that calls and iterators lead to, and loops whose caller decides at every entry
what to do with it. -/

set_option autoImplicit false

namespace Xpl.Collections
open Xpl.Library

namespace HashTable

section Contents

variable (t : HashTable)

/-- The entry at an index, as the arrays have it. -/
def nodeAt (i : Nat) : Option (UInt32 × UInt64 × UInt64) := do
  let h ← t.hashes.read i
  if hashIsReal h then do
    let key ← t.fetchKey i
    let value ← t.fetchValue i
    some (h, key, value)
  else none

def contents : List (UInt32 × UInt64 × UInt64) := (List.range t.size).filterMap t.nodeAt

variable {t} {length n : Nat} {slots : Nat → TableSlot}

theorem Holds.nodeAt (holds : t.Holds length slots) {i : Nat} (inside : i < length) : t.nodeAt i = (slots i).content := by
  simp only [HashTable.nodeAt, holds.read inside, Option.bind_eq_bind, Option.bind_some, hashIsReal_slotHash holds inside]
  cases slot : slots i with
  | unused => rfl
  | tombstone => rfl
  | real h entry =>
    simp only [Slot.content_real, Option.isSome_some, if_true, holds.fetchKey inside slot, holds.fetchValue inside slot,
      Option.bind_some, slotHash]

theorem Holds.contents (holds : t.Holds t.size slots) : t.contents = t.entries slots := by
  apply List.filterMap_congr
  intro i member
  exact holds.nodeAt (List.mem_range.mp member)

end Contents

section Choices

/-- A loop that does with its entry number `k` what `choice k` says. The flag tells whether the
iterator came to its end; the caller may also leave the loop, after `turns` entries. -/
def iterateFor (funcs : TableFuncs) (choice : Nat → IterStep) :
    Nat → Nat → HashTable → RealIter → Option (List (UInt64 × UInt64) × List Notified × Bool × HashTable)
  | 0, _, t, _ => some ([], [], false, t)
  | turns + 1, k, t, ri => do
    let (ri, entry) ← t.iterNext ri
    match entry with
    | none => some ([], [], true, t)
    | some (key, value) => do
      let (ri, log, t) ← t.iterStep funcs ri (choice k)
      let (visited, logs, ended, t) ← iterateFor funcs choice turns (k + 1) t ri
      some ((key, value) :: visited, log ++ logs, ended, t)

def entryAfter : IterStep → UInt32 × UInt64 × UInt64 → Option (UInt32 × UInt64 × UInt64)
  | .keep, entry => some entry
  | .remove, _ | .steal, _ => none
  | .replace value, (h, key, _) => some (h, key, value)

/-- What is left of entries that are visited from number `k` on. -/
def survivors (choice : Nat → IterStep) : Nat → List (UInt32 × UInt64 × UInt64) → List (UInt32 × UInt64 × UInt64)
  | _, [] => []
  | k, entry :: rest => (entryAfter (choice k) entry).toList ++ survivors choice (k + 1) rest

/-- The calls of destroy functions. -/
def choiceLog (funcs : TableFuncs) (choice : Nat → IterStep) : Nat → List (UInt32 × UInt64 × UInt64) → List Notified
  | _, [] => []
  | k, entry :: rest => logAfter funcs (choice k) entry.2 ++ choiceLog funcs choice (k + 1) rest

variable {t : HashTable} {n p : Nat} {slots : Nat → TableSlot}

theorem slotAfter_content (step : IterStep) (h : UInt32) (key value : UInt64) :
    (slotAfter step (.real h (key, value))).content = entryAfter step (h, key, value) := by
  cases step <;> rfl

theorem entriesBelow_pass {q : Nat} (after : p ≤ q) (empty : ∀ i, p ≤ i → i < q → (slots i).content = none) :
    entriesBelow slots q = entriesBelow slots p := by
  induction q, after using Nat.le_induction with
  | base => rfl
  | succ q above ih =>
    rw [entriesBelow_succ, ih fun i least less => empty i least (Nat.lt_succ_of_lt less), empty q above (Nat.lt_succ_self q),
      Option.toList_none, List.append_nil]

theorem iterateFor_spec (funcs : TableFuncs) (choice : Nat → IterStep) (turns k : Nat) (sound : t.Sound n slots)
    (within : p ≤ t.size) (enough : (entriesFrom slots p t.size).length < turns) :
    ∃ t' slots', iterateFor funcs choice turns k t { position := (p : Int) - 1, version := t.version } =
        some ((entriesFrom slots p t.size).map Prod.snd, choiceLog funcs choice k (entriesFrom slots p t.size), true, t') ∧
      t'.Sound n slots' ∧ t'.size = t.size ∧
      t'.entries slots' = entriesBelow slots p ++ survivors choice k (entriesFrom slots p t.size) := by
  -- on the turns: what survives below the position stays as it is, and the choices are counted by `k`
  induction turns generalizing t slots p k with
  | zero => exact absurd enough (Nat.not_lt_zero _)
  | succ turns ih =>
    obtain ⟨q, after, empty, same, next⟩ := iterNext_spec sound within
    have passed := entriesBelow_pass after empty
    rw [same] at enough ⊢
    rw [← passed]
    rcases next with ⟨rfl, ended⟩ | ⟨inside, h, key, value, slot, found⟩
    · have nothing : entriesFrom slots t.size t.size = [] := by
        rw [entriesFrom, Nat.sub_self]
        rfl
      refine ⟨t, slots, ?_, sound, rfl, ?_⟩
      · simp only [iterateFor, ended, some_bind, nothing]
        rfl
      · rw [nothing, survivors, List.append_nil]
        rfl
    · have first := entriesFrom_take inside (show (slots q).content = some (h, key, value) by rw [slot]; rfl)
      rw [first] at enough ⊢
      obtain ⟨t₁, stepped, sound₁, size₁⟩ := iterStep_slot funcs (choice k) sound inside slot
      have later : entriesFrom (Function.update slots q (slotAfter (choice k) (slots q))) (q + 1) t₁.size =
          entriesFrom slots (q + 1) t.size := by
        rw [size₁]
        exact entriesFrom_congr fun i above => Function.update_of_ne (by omega) _ _
      have index : ((q + 1 : Nat) : Int) - 1 = q := by omega
      obtain ⟨t', slots', looped, sound', size', left⟩ := ih (p := q + 1) (k + 1) sound₁ (by omega) (by
        rw [later]
        exact Nat.lt_of_succ_lt_succ enough)
      rw [later] at looped left
      rw [index] at looped
      refine ⟨t', slots', ?_, sound', size'.trans size₁, ?_⟩
      · simp only [iterateFor, found, stepped, looped, some_bind]
        rfl
      · have before : entriesBelow (Function.update slots q (slotAfter (choice k) (slots q))) q = entriesBelow slots q :=
          entriesBelow_congr fun i below => Function.update_of_ne (Nat.ne_of_lt below) _ _
        rw [left, survivors, entriesBelow_succ, before, Function.update_self, slot, slotAfter_content, List.append_assoc]

/-- A loop that may be left early keeps the invariant. -/
theorem iterateFor_sound {funcs : TableFuncs} {choice : Nat → IterStep} (turns k : Nat) {visited : List (UInt64 × UInt64)}
    {log : List Notified} {ended : Bool} {t' : HashTable} (sound : t.Sound n slots) (within : p ≤ t.size)
    (looped : iterateFor funcs choice turns k t { position := (p : Int) - 1, version := t.version } =
      some (visited, log, ended, t')) : ∃ slots', t'.Sound n slots' := by
  induction turns generalizing t slots p k visited log with
  | zero =>
    obtain ⟨_, _, _, rfl⟩ : _ ∧ _ ∧ _ ∧ t = t' := by simpa [iterateFor] using looped
    exact ⟨slots, sound⟩
  | succ turns ih =>
    obtain ⟨q, after, empty, same, ⟨rfl, finished⟩ | ⟨inside, h, key, value, slot, found⟩⟩ := iterNext_spec sound within
    · simp only [iterateFor, finished, some_bind] at looped
      obtain ⟨_, _, _, rfl⟩ : _ ∧ _ ∧ _ ∧ t = t' := by simpa using looped
      exact ⟨slots, sound⟩
    · obtain ⟨t₁, stepped, sound₁, size₁⟩ := iterStep_slot funcs (choice k) sound inside slot
      have index : ((q + 1 : Nat) : Int) - 1 = q := by omega
      simp only [iterateFor, found, stepped, Option.bind_eq_bind, Option.bind_some, Option.bind_eq_some_iff] at looped
      obtain ⟨⟨visited', logs, ended', t₂⟩, rest, results⟩ := looped
      obtain ⟨_, _, rfl, rfl⟩ : _ ∧ _ ∧ ended' = ended ∧ t₂ = t' := by simpa using results
      rw [← index] at rest
      exact ih (k + 1) sound₁ (by omega) rest

end Choices

/-- The tables that calls and iterators lead to from a new one. -/
inductive Reachable (funcs : TableFuncs) : HashTable → Prop where
  | created {t : HashTable} : newFull funcs = some t → Reachable funcs t
  | performed {t t' : HashTable} {call : TableCall} {answer : TableAnswer} {log : List Notified} :
      Reachable funcs t → call.perform funcs t = some (answer, log, t') → Reachable funcs t'
  | iterated {t t' : HashTable} {choice : Nat → IterStep} {turns : Nat} {visited : List (UInt64 × UInt64)} {log : List Notified}
      {ended : Bool} : Reachable funcs t → iterateFor funcs choice turns 0 t t.iterInit = some (visited, log, ended, t') →
      Reachable funcs t'

theorem Reachable.sound {funcs : TableFuncs} {t : HashTable} (reachable : Reachable funcs t) : ∃ n slots, t.Sound n slots := by
  induction reachable with
  | created made =>
    obtain ⟨new, same, sound⟩ := newFull_spec funcs
    obtain rfl := Option.some.inj (same.symm.trans made)
    exact ⟨_, _, sound⟩
  | performed _ done ih =>
    obtain ⟨n, slots, sound⟩ := ih
    obtain ⟨n', slots', sound', _⟩ := tableCall_sound _ sound done
    exact ⟨n', slots', sound'⟩
  | iterated _ looped ih =>
    obtain ⟨n, slots, sound⟩ := ih
    obtain ⟨slots', sound'⟩ := iterateFor_sound (p := 0) _ 0 sound (Nat.zero_le _) looped
    exact ⟨n, slots', sound'⟩

/-- A loop of the iterator visits the entries of the table one after the other, whatever its caller does with each,
and leaves those that were neither removed nor stolen, with their new values. -/
theorem iterateFor_visits (funcs : TableFuncs) (choice : Nat → IterStep) (t : HashTable) (reachable : Reachable funcs t) :
    ∃ t', iterateFor funcs choice (t.nnodes + 1) 0 t t.iterInit =
        some (t.contents.map Prod.snd, choiceLog funcs choice 0 t.contents, true, t') ∧
      t'.contents = survivors choice 0 t.contents ∧ t'.nnodes = t'.contents.length ∧ Probes funcs t' ∧
      ∃ n slots, t'.Sound n slots := by
  obtain ⟨n, slots, sound⟩ := reachable.sound
  have all : entriesFrom slots 0 t.size = t.contents := by
    rw [sound.holds.contents, entriesFrom_zero]
    rfl
  have enough : (entriesFrom slots 0 t.size).length < t.nnodes + 1 := by
    rw [entriesFrom_zero, sound.nodes]
    exact Nat.lt_succ_self _
  obtain ⟨t', slots', looped, sound', _, left⟩ :=
    iterateFor_spec (p := 0) funcs choice (t.nnodes + 1) 0 sound (Nat.zero_le _) enough
  rw [all] at looped left
  refine ⟨t', looped, ?_, ?_, sound'.probes funcs, n, slots', sound'⟩
  · rw [sound'.holds.contents, left]
    rfl
  · rw [sound'.holds.contents, sound'.nodes]
    rfl

/-- A map that owns its keys and its values. -/
def owning : TableFuncs :=
  { hashFunc := none, keyEqualFunc := none, keyDestroyFunc := true, valueDestroyFunc := true, small := true }

/-- The first entry is removed, the second stolen, and the third gets another value. -/
def eachWay : Nat → IterStep
  | 0 => .remove
  | 1 => .steal
  | 2 => .replace 9
  | _ => .keep

theorem iterateFor_visits_sample :
    ∃ t t' : HashTable, iterateFor owning eachWay (t.nnodes + 1) 0 t t.iterInit =
        some ([(7, 70), (6, 60), (8, 80), (5, 50)], [.key 7, .value 70, .value 80], true, t') ∧
      t'.contents = [(8, 8, 9), (5, 5, 50)] := by
  have made := Reachable.created (show newFull owning = some _ from rfl)
  have one := made.performed (show TableCall.perform _ _ (.map (.insert 5 50)) = some _ from rfl)
  have two := one.performed (show TableCall.perform _ _ (.map (.insert 6 60)) = some _ from rfl)
  have three := two.performed (show TableCall.perform _ _ (.map (.insert 7 70)) = some _ from rfl)
  have four := three.performed (show TableCall.perform _ _ (.map (.insert 8 80)) = some _ from rfl)
  obtain ⟨t', looped, left, _⟩ := iterateFor_visits _ eachWay _ four
  exact ⟨_, t', looped, left⟩

end HashTable

end Xpl.Collections
