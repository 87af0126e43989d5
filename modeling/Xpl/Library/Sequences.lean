import Mathlib.Data.List.Basic
import Xpl.Library.Checked

/-! Items that are read one behind the other, up to a limit or as a list of requests asks for
them, and relations that say what stands where.

A reader takes a position and gives an item with the position behind it. It recognises a
relation when the items it reads stand there if they are good, and when nothing else can.
-/

set_option autoImplicit false

namespace Xpl.Library

variable {ε α β γ : Type}

/-! ## Readers -/

/-- Items up to a limit. That one of them does not advance is an error of its own. -/
def readUntil (read : Nat → Except ε (α × Nat)) (stuck : ε) (limit : Nat) : Nat → Nat → Except ε (List α × Nat)
  | 0, position => if limit ≤ position then .ok ([], position) else .error stuck
  | fuel + 1, position =>
    if limit ≤ position then .ok ([], position)
    else do
      let item ← read position
      if item.2 ≤ position then .error stuck
      else do
        let rest ← readUntil read stuck limit fuel item.2
        return (item.1 :: rest.1, rest.2)

/-- One item for each request. -/
def readEach (read : γ → Nat → Except ε (α × Nat)) : List γ → Nat → Except ε (List α × Nat)
  | [], position => .ok ([], position)
  | request :: requests, position => do
    let item ← read request position
    let rest ← readEach read requests item.2
    return (item.1 :: rest.1, rest.2)

/-! ## What stands where -/

/-- Items one behind the other, each of which begins below the limit. -/
inductive Tiles (stands : Nat → β → Nat → Prop) (limit : Nat) : Nat → List β → Nat → Prop where
  | nil {position : Nat} : Tiles stands limit position [] position
  | cons {position middle stop : Nat} {item : β} {items : List β} : position < limit → stands position item middle →
      Tiles stands limit middle items stop → Tiles stands limit position (item :: items) stop

/-- Items one behind the other, and where each begins. -/
inductive Chain (stands : Nat → β → Nat → Prop) : Nat → List β → List Nat → Nat → Prop where
  | nil {position : Nat} : Chain stands position [] [] position
  | cons {position middle stop : Nat} {item : β} {items : List β} {starts : List Nat} : stands position item middle →
      Chain stands middle items starts stop → Chain stands position (item :: items) (position :: starts) stop

theorem tiles_iff {stands : Nat → β → Nat → Prop} {limit position stop : Nat} {items : List β} :
    Tiles stands limit position items stop ↔ ∃ starts, Chain stands position items starts stop ∧ ∀ start ∈ starts, start < limit := by
  constructor
  · intro tiles
    induction tiles with
    | nil => exact ⟨[], .nil, nofun⟩
    | cons before stands _ ih =>
      obtain ⟨starts, chain, below⟩ := ih
      exact ⟨_, .cons stands chain, List.forall_mem_cons.mpr ⟨before, below⟩⟩
  · rintro ⟨starts, chain, below⟩
    induction chain with
    | nil => exact .nil
    | cons stands _ ih =>
      obtain ⟨before, others⟩ := List.forall_mem_cons.mp below
      exact .cons before stands (ih others)

/-- One item for each request, one behind the other. -/
inductive Follow (stands : γ → Nat → β → Nat → Prop) : List γ → Nat → List β → Nat → Prop where
  | nil {position : Nat} : Follow stands [] position [] position
  | cons {request : γ} {requests : List γ} {position middle stop : Nat} {item : β} {items : List β} : stands request position item middle →
      Follow stands requests middle items stop → Follow stands (request :: requests) position (item :: items) stop

/-- What is read stands there if it is good; and if anything stands there it is what is read, which is good then. -/
structure Recognises (read : Nat → Except ε (α × Nat)) (stands : Nat → β → Nat → Prop) (value : α → β) (good : α → Prop) : Prop where
  sound : ∀ {position stop : Nat} {a : α}, read position = .ok (a, stop) → good a → stands position (value a) stop
  agrees : ∀ {position stop last : Nat} {a : α} {b : β}, read position = .ok (a, stop) → stands position b last →
    b = value a ∧ last = stop ∧ good a

section Recognition
variable {stuck : ε} {limit : Nat} {value : α → β} {good : α → Prop}
variable {read : Nat → Except ε (α × Nat)} {position : Nat}

/-- A successful step, and what follows it. -/
theorem ok_of_bind {x : Except ε α} {f : α → Except ε β} {b : β} (done : (x >>= f) = .ok b) : ∃ a, x = .ok a ∧ f a = .ok b := by
  cases x with
  | error e => cases done
  | ok a => exact ⟨a, rfl, done⟩

theorem readUntil_step {fuel stop : Nat} {items : List α}
    (done : readUntil read stuck limit fuel position = .ok (items, stop)) (before : position < limit) :
    ∃ (more : Nat) (item : α) (middle : Nat) (rest : List α), fuel = more + 1 ∧ read position = .ok (item, middle) ∧ position < middle ∧
      readUntil read stuck limit more middle = .ok (rest, stop) ∧ items = item :: rest := by
  cases fuel with
  | zero =>
    rw [readUntil, if_neg (Nat.not_le.mpr before)] at done
    cases done
  | succ fuel =>
    rw [readUntil, if_neg (Nat.not_le.mpr before)] at done
    obtain ⟨⟨item, middle⟩, first, next⟩ := ok_of_bind done
    split at next
    · cases next
    · rename_i onwards
      obtain ⟨⟨rest, last⟩, later, same⟩ := ok_of_bind next
      obtain ⟨rfl, rfl⟩ := Prod.mk.inj (Except.ok.inj same)
      exact ⟨fuel, item, middle, rest, rfl, first, Nat.not_le.mp onwards, later, rfl⟩

theorem readUntil_end {fuel : Nat} (reached : limit ≤ position) :
    readUntil read stuck limit fuel position = .ok ([], position) := by
  cases fuel <;> rw [readUntil, if_pos reached]

theorem Recognises.readUntil {stands : Nat → β → Nat → Prop} (item : Recognises read stands value good)
    (fuel : Nat) : Recognises (readUntil read stuck limit fuel) (fun position items stop => Tiles stands limit position items stop ∧ limit ≤ stop)
      (List.map value) (fun items => ∀ a ∈ items, good a) where
  sound := by
    intro position stop items done all
    induction items generalizing fuel position with
    | nil =>
      by_cases reached : limit ≤ position
      · rw [readUntil_end reached] at done
        obtain ⟨-, rfl⟩ := Prod.mk.inj (Except.ok.inj done)
        exact ⟨.nil, reached⟩
      · obtain ⟨_, _, _, _, _, _, _, _, impossible⟩ := readUntil_step done (Nat.not_le.mp reached)
        exact absurd impossible (List.cons_ne_nil _ _).symm
    | cons first items ih =>
      have before : position < limit := by
        by_contra reached
        rw [readUntil_end (Nat.not_lt.mp reached)] at done
        cases done
      obtain ⟨more, _, middle, _, rfl, read_, _, later, same⟩ := readUntil_step done before
      obtain ⟨rfl, rfl⟩ := List.cons.inj same
      obtain ⟨tiles, past⟩ := ih more later fun a member => all a (List.mem_cons_of_mem _ member)
      exact ⟨.cons before (item.sound read_ (all _ List.mem_cons_self)) tiles, past⟩
  agrees := by
    rintro position stop last items bs done ⟨tiles, past⟩
    induction tiles generalizing fuel items with
    | nil =>
      rw [readUntil_end past] at done
      obtain ⟨rfl, rfl⟩ := Prod.mk.inj (Except.ok.inj done)
      exact ⟨rfl, rfl, fun a member => absurd member List.not_mem_nil⟩
    | cons before stands tiles ih =>
      obtain ⟨more, first, middle, rest, rfl, read_, _, later, rfl⟩ := readUntil_step done before
      obtain ⟨rfl, rfl, fine⟩ := item.agrees read_ stands
      obtain ⟨rfl, rfl, others⟩ := ih more later past
      exact ⟨rfl, rfl, List.forall_mem_cons.mpr ⟨fine, others⟩⟩

theorem readEach_cons {read : γ → Nat → Except ε (α × Nat)} {request : γ} {requests : List γ} {stop : Nat} {items : List α}
    (done : readEach read (request :: requests) position = .ok (items, stop)) :
    ∃ (item : α) (middle : Nat) (rest : List α), read request position = .ok (item, middle) ∧
      readEach read requests middle = .ok (rest, stop) ∧ items = item :: rest := by
  obtain ⟨⟨item, middle⟩, first, next⟩ := ok_of_bind done
  obtain ⟨⟨rest, last⟩, later, same⟩ := ok_of_bind next
  obtain ⟨rfl, rfl⟩ := Prod.mk.inj (Except.ok.inj same)
  exact ⟨item, middle, rest, first, later, rfl⟩

theorem Recognises.readEach {read : γ → Nat → Except ε (α × Nat)} {stands : γ → Nat → β → Nat → Prop}
    (item : ∀ request, Recognises (read request) (stands request) value good) (requests : List γ) :
    Recognises (readEach read requests) (Follow stands requests) (List.map value) (fun items => ∀ a ∈ items, good a) where
  sound := by
    intro position stop items done all
    induction requests generalizing position items with
    | nil =>
      obtain ⟨rfl, rfl⟩ := Prod.mk.inj (Except.ok.inj done)
      exact .nil
    | cons request requests ih =>
      obtain ⟨first, middle, rest, read_, later, rfl⟩ := readEach_cons done
      obtain ⟨fine, others⟩ := List.forall_mem_cons.mp all
      exact .cons ((item request).sound read_ fine) (ih later others)
  agrees := by
    intro position stop last items bs done follow
    induction follow generalizing items with
    | nil =>
      obtain ⟨rfl, rfl⟩ := Prod.mk.inj (Except.ok.inj done)
      exact ⟨rfl, rfl, fun a member => absurd member List.not_mem_nil⟩
    | cons stands follow ih =>
      obtain ⟨first, middle, rest, read_, later, rfl⟩ := readEach_cons done
      obtain ⟨rfl, rfl, fine⟩ := (item _).agrees read_ stands
      obtain ⟨rfl, rfl, others⟩ := ih later
      exact ⟨rfl, rfl, List.forall_mem_cons.mpr ⟨fine, others⟩⟩

end Recognition

section Progress
variable {allowed : ε → Prop} {stuck : ε} {limit : Nat}

theorem readUntil_advances {read : Nat → Except ε (α × Nat)} (advances : ∀ position, Meets allowed (fun item => position < item.2) (read position))
    {fuel position : Nat} (enough : limit ≤ position + fuel) :
    Meets allowed (fun items => position ≤ items.2 ∧ limit ≤ items.2) (readUntil read stuck limit fuel position) := by
  induction fuel generalizing position with
  | zero =>
    have past : limit ≤ position := enough
    rw [readUntil_end past]
    exact ⟨Nat.le_refl position, past⟩
  | succ fuel ih =>
    apply Meets.ite
    · exact fun reached => ⟨Nat.le_refl position, reached⟩
    · intro _
      apply (advances position).bind
      intro item onwards
      rw [if_neg (Nat.not_le.mpr onwards)]
      apply (@ih item.2 (by omega)).bind
      rintro rest ⟨further, past⟩
      exact ⟨Nat.le_trans (Nat.le_of_lt onwards) further, past⟩

theorem readEach_advances {read : γ → Nat → Except ε (α × Nat)} {requests : List γ}
    (advances : ∀ request ∈ requests, ∀ position, Meets allowed (fun item => position < item.2) (read request position)) (some_request : requests ≠ [])
    (position : Nat) : Meets allowed (fun items => position < items.2) (readEach read requests position) := by
  induction requests generalizing position with
  | nil => exact absurd rfl some_request
  | cons request requests ih =>
    apply (advances request List.mem_cons_self position).bind
    intro item onwards
    cases requests with
    | nil => exact onwards
    | cons next requests =>
      apply (ih (fun other member => advances other (List.mem_cons_of_mem _ member)) (List.cons_ne_nil _ _) item.2).bind
      intro rest further
      exact Nat.lt_trans onwards further

end Progress

end Xpl.Library
