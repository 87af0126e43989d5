import Mathlib.Logic.Basic

/-! Postconditions of computations that end in a value or in an error. -/

set_option autoImplicit false

namespace Xpl.Library

variable {ε α β : Type}

/-- The computation ends in a value with `post`, or in one of the `allowed` errors. -/
def Meets (allowed : ε → Prop) (post : α → Prop) : Except ε α → Prop
  | .ok value => post value
  | .error error => allowed error

section Rules
variable {x : Except ε α}
variable {allowed : ε → Prop} {post : α → Prop}

@[simp] theorem meets_ok {value : α} : Meets allowed post (.ok value) ↔ post value := Iff.rfl

@[simp] theorem meets_pure {value : α} : Meets allowed post (pure value) ↔ post value := Iff.rfl

@[simp] theorem meets_error {error : ε} : Meets allowed post (.error error) ↔ allowed error := Iff.rfl

theorem meets_true (x : Except ε α) : Meets (fun _ => True) (fun _ => True) x := by
  cases x with
  | ok value => trivial
  | error error => trivial

theorem Meets.mono {weaker : α → Prop} (meets : Meets allowed post x)
    (weaken : ∀ value, post value → weaker value) : Meets allowed weaker x := by
  cases x with
  | ok value => exact weaken value meets
  | error error => exact meets

theorem Meets.and {wider : ε → Prop} {other : α → Prop} (one : Meets allowed post x)
    (two : Meets wider other x) : Meets allowed (fun value => post value ∧ other value) x := by
  cases x with
  | ok value => exact ⟨one, two⟩
  | error error => exact one

theorem Meets.bind {final : β → Prop} {f : α → Except ε β} (first : Meets allowed post x)
    (next : ∀ value, post value → Meets allowed final (f value)) : Meets allowed final (x >>= f) := by
  cases x with
  | ok value => exact next value first
  | error error => exact first

theorem Meets.ite {condition : Prop} [Decidable condition] {y : Except ε α}
    (yes : condition → Meets allowed post x) (no : ¬condition → Meets allowed post y) :
    Meets allowed post (if condition then x else y) := by
  split
  · exact yes ‹_›
  · exact no ‹_›

/-- A loop over a list keeps what each of its turns keeps. -/
theorem Meets.foldlM {invariant : α → Prop} {items : List β} {body : α → β → Except ε α} {start : α}
    (holds : invariant start)
    (turn : ∀ value, ∀ item ∈ items, invariant value → Meets allowed invariant (body value item)) :
    Meets allowed invariant (items.foldlM body start) := by
  induction items generalizing start with
  | nil => exact holds
  | cons item items ih =>
    apply (turn start item List.mem_cons_self holds).bind
    intro value kept
    exact ih kept fun value item member => turn value item (List.mem_cons_of_mem _ member)

end Rules

/-! Computations on a state that may stop, with rules for pre- and postconditions.

The state in which a computation stops is kept. A `lost` state is one about which
nothing is promised any more; a computation never leaves the lost states.
-/

variable {σ α β : Type}

def Action (σ α : Type) : Type := σ → Option α × σ

namespace Action

def ret (a : α) : Action σ α := fun s => (some a, s)

def stop : Action σ α := fun s => (none, s)

def bind (x : Action σ α) (f : α → Action σ β) : Action σ β := fun s =>
  match x s with
  | (some a, s') => f a s'
  | (none, s') => (none, s')

instance : Monad (Action σ) where
  pure := ret
  bind := bind

def get : Action σ σ := fun s => (some s, s)

def modify (f : σ → σ) : Action σ Unit := fun s => (some (), f s)

theorem run_pure (a : α) (s : σ) : (pure a : Action σ α) s = (some a, s) := rfl

theorem run_bind (x : Action σ α) (f : α → Action σ β) (s : σ) :
    (x >>= f) s = match x s with
      | (some a, s') => f a s'
      | (none, s') => (none, s') := rfl

instance : LawfulMonad (Action σ) := LawfulMonad.mk' (Action σ)
  (fun x => by
    funext s
    change (x >>= fun a => pure (id a)) s = x s
    rw [run_bind]
    rcases x s with ⟨_ | a, s'⟩ <;> rfl)
  (fun _ _ => rfl)
  (fun x f g => by
    funext s
    simp only [run_bind]
    rcases x s with ⟨_ | a, s'⟩ <;> rfl)

/-- From a state with `pre` the computation ends with `post`, or in a lost state. -/
structure Triple (lost : σ → Prop) (pre : σ → Prop) (x : Action σ α) (post : α → σ → Prop) : Prop where
  stays : ∀ s, lost s → lost (x s).2
  ends : ∀ s, pre s → lost (x s).2 ∨ ∃ a, (x s).1 = some a ∧ post a (x s).2

section Rules

variable {lost pre : σ → Prop} {post : α → σ → Prop}

theorem Triple.ret {a : α} (holds : ∀ s, pre s → post a s) : Triple lost pre (Pure.pure a) post where
  stays _ h := h
  ends s h := Or.inr ⟨a, rfl, holds s h⟩

variable {x : Action σ α}

theorem Triple.bind {f : α → Action σ β} {post : α → σ → Prop} {final : β → σ → Prop}
    (first : Triple lost pre x post) (next : ∀ a, Triple lost (post a) (f a) final) :
    Triple lost pre (x >>= f) final where
  stays s h := by
    have after := first.stays s h
    rw [run_bind]
    revert after
    rcases x s with ⟨_ | a, s'⟩ <;> intro after
    · exact after
    · exact (next a).stays s' after
  ends s h := by
    have after := first.ends s h
    rw [run_bind]
    revert after
    rcases x s with ⟨_ | a, s'⟩ <;> intro after
    · rcases after with gone | ⟨a, ran, -⟩
      · exact Or.inl gone
      · cases ran
    · rcases after with gone | ⟨b, ran, holds⟩
      · exact Or.inl ((next a).stays s' gone)
      · cases ran
        exact (next a).ends s' holds

theorem Triple.weaken {pre' : σ → Prop} {post' : α → σ → Prop}
    (h : Triple lost pre x post) (before : ∀ s, pre' s → pre s) (after : ∀ a s, post a s → post' a s) :
    Triple lost pre' x post' where
  stays := h.stays
  ends s holds := (h.ends s (before s holds)).imp_right fun ⟨a, ran, post⟩ => ⟨a, ran, after a _ post⟩

theorem Triple.modify {f : σ → σ} {post : Unit → σ → Prop} (stays : ∀ s, lost s → lost (f s))
    (holds : ∀ s, pre s → post () (f s)) : Triple lost pre (Action.modify f) post where
  stays := stays
  ends s h := Or.inr ⟨(), rfl, holds s h⟩

theorem Triple.exists {ι : Type} {pre : ι → σ → Prop} (stays : ∀ s, lost s → lost (x s).2)
    (each : ∀ i, Triple lost (pre i) x post) : Triple lost (fun s => ∃ i, pre i s) x post where
  stays := stays
  ends s := fun ⟨i, h⟩ => (each i).ends s h

theorem Triple.forM {body : α → Action σ PUnit} (inv : List α → σ → Prop)
    (step : ∀ a rest, Triple lost (inv (a :: rest)) (body a) fun _ => inv rest) (items : List α) :
    Triple lost (inv items) (items.forM body) fun _ => inv [] := by
  induction items with
  | nil => exact .ret fun _ h => h
  | cons a items ih => exact (step a items).bind fun _ => ih

end Rules

end Action

end Xpl.Library
