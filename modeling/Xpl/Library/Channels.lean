import Mathlib.Logic.Relation

/-! Two machines that send each other words over channels which keep the order.
Reading and writing may fail at any time. -/

set_option autoImplicit false

namespace Xpl.Library

/-- What a machine does next: it waits for a word, goes on by itself, or is at its end. -/
inductive Turn where
  | reads | acts | ended
  deriving DecidableEq

/-- A step takes the word that was read, if reading worked, and a flag that tells whether writing does. -/
structure Machine (σ α : Type) where
  turn : σ → Turn
  step : σ → Option α → Bool → σ × List α

variable {σ τ α : Type}

/-- One step, whatever the other side sends. -/
def Machine.Steps (m : Machine σ α) (s t : σ) : Prop :=
  m.turn s ≠ .ended ∧ ∃ (word : Option α) (writes : Bool), t = (m.step s word writes).1

/-- A machine that reads needs a word, one that acts by itself takes none. -/
def Machine.Takes (m : Machine σ α) (s : σ) (word : Option α) : Prop :=
  m.turn s = .reads ∧ word.isSome ∨ m.turn s = .acts ∧ word = none

/-- Two machines and the words under way between them. -/
structure Link (σ τ α : Type) where
  left : σ
  right : τ
  toRight : List α
  toLeft : List α

namespace Link

/-- The left machine takes a step; `rest` is what is then under way to it. -/
def leftStep (l : Link σ τ α) (L : Machine σ α) (word : Option α) (writes : Bool) (rest : List α) : Link σ τ α :=
  ⟨(L.step l.left word writes).1, l.right, l.toRight ++ (L.step l.left word writes).2, rest⟩

def rightStep (l : Link σ τ α) (R : Machine τ α) (word : Option α) (writes : Bool) (rest : List α) : Link σ τ α :=
  ⟨l.left, (R.step l.right word writes).1, rest, l.toLeft ++ (R.step l.right word writes).2⟩

/-- One machine reads the oldest word that is under way to it, or takes a step without one. -/
inductive Moves (L : Machine σ α) (R : Machine τ α) (l : Link σ τ α) : Link σ τ α → Prop
  | left (word : Option α) (rest : List α) (writes : Bool) (turn : L.turn l.left ≠ .ended)
      (ready : word = none ∨ L.turn l.left = .reads) (queue : l.toLeft = word.toList ++ rest) : Moves L R l (l.leftStep L word writes rest)
  | right (word : Option α) (rest : List α) (writes : Bool) (turn : R.turn l.right ≠ .ended)
      (ready : word = none ∨ R.turn l.right = .reads) (queue : l.toRight = word.toList ++ rest) : Moves L R l (l.rightStep R word writes rest)

abbrev Reaches (L : Machine σ α) (R : Machine τ α) : Link σ τ α → Link σ τ α → Prop := Relation.ReflTransGen (Moves L R)

end Link

/-- What every step on a way keeps holds at its end. -/
theorem keeps_of_way {s t : σ} {steps : σ → σ → Prop} {invariant : σ → Prop}
    (keeps : ∀ u v, Relation.ReflTransGen steps s u → steps u v → Relation.ReflTransGen steps v t → invariant u → invariant v)
    (start : invariant s) (reached : Relation.ReflTransGen steps s t) : invariant t := by
  have onward : ∀ u, Relation.ReflTransGen steps s u → Relation.ReflTransGen steps u t → invariant u → invariant t := by
    intro u before after
    induction after using Relation.ReflTransGen.head_induction_on with
    | refl => exact id
    | head step rest ih => exact fun holds => ih (before.tail step) (keeps _ _ before step rest holds)
  exact onward s .refl reached start

/-- What every step keeps holds wherever the steps lead. -/
theorem keeps_of_steps {s t : σ} {steps : σ → σ → Prop} {invariant : σ → Prop}
    (keeps : ∀ s t, invariant s → steps s t → invariant t) (start : invariant s)
    (reached : Relation.ReflTransGen steps s t) : invariant t :=
  keeps_of_way (fun u v _ step _ holds => keeps u v holds step) start reached

/-- All runs lead to `final`: from each state on the way there is one step, and none from the last. -/
inductive Inevitable (steps : σ → σ → Prop) (final : σ) : σ → Prop
  | done (stuck : ∀ t, ¬steps final t) : Inevitable steps final final
  | next {s s' : σ} (step : steps s s') (only : ∀ t, steps s t → t = s') (leads : Inevitable steps final s') : Inevitable steps final s

namespace Inevitable
variable {steps : σ → σ → Prop} {final s t : σ}

theorem reaches (leads : Inevitable steps final s) : Relation.ReflTransGen steps s final := by
  induction leads with
  | done stuck => exact .refl
  | next step only leads ih => exact .head step ih

theorem run (leads : Inevitable steps final s) (reached : Relation.ReflTransGen steps s t) : Inevitable steps final t := by
  refine keeps_of_steps (fun s t leads step => ?_) leads reached
  cases leads with
  | done stuck => exact absurd step (stuck t)
  | next first only leads => exact only t step ▸ leads

theorem eq_of_stuck (leads : Inevitable steps final s) (stuck : ∀ t, ¬steps s t) : s = final := by
  cases leads with
  | done _ => rfl
  | next step only leads => exact absurd step (stuck _)

theorem final_stuck (leads : Inevitable steps final s) : ∀ t, ¬steps final t := by
  induction leads with
  | done stuck => exact stuck
  | next _ _ _ ih => exact ih

/-- Every run ends. -/
theorem acc (leads : Inevitable steps final s) : Acc (fun t s => steps s t) s := by
  induction leads with
  | done stuck => exact .intro _ fun t step => absurd step (stuck t)
  | next step only leads ih => exact .intro _ fun t step => only t step ▸ ih

end Inevitable

namespace Link
variable {L : Machine σ α} {R : Machine τ α} {l l' : Link σ τ α}

/-- A move in which nothing fails. -/
inductive Flows (L : Machine σ α) (R : Machine τ α) (l : Link σ τ α) : Link σ τ α → Prop
  | left (word : Option α) (rest : List α) (takes : L.Takes l.left word) (queue : l.toLeft = word.toList ++ rest) :
      Flows L R l (l.leftStep L word true rest)
  | right (word : Option α) (rest : List α) (takes : R.Takes l.right word) (queue : l.toRight = word.toList ++ rest) :
      Flows L R l (l.rightStep R word true rest)

/-- A machine that waits for a word while none is under way has nothing to do. -/
theorem not_takes {m : Machine σ α} {s : σ} {word : Option α} {rest : List α} (waits : m.turn s = .reads ∨ m.turn s = .ended)
    (takes : m.Takes s word) : [] ≠ word.toList ++ rest := by
  rcases takes with ⟨turn, some_word⟩ | ⟨turn, none⟩
  · obtain ⟨a, rfl⟩ := Option.isSome_iff_exists.mp some_word
    exact (List.cons_ne_nil a _).symm
  · rcases waits with other | other
    · cases turn.symm.trans other
    · cases turn.symm.trans other

theorem takes_unique {m : Machine σ α} {s : σ} {word word' : Option α} {rest rest' : List α} (takes : m.Takes s word)
    (other : m.Takes s word') (same : word.toList ++ rest = word'.toList ++ rest') : word = word' ∧ rest = rest' := by
  rcases takes with ⟨turn, some_word⟩ | ⟨turn, rfl⟩
  · rcases other with ⟨-, some_other⟩ | ⟨other, -⟩
    · obtain ⟨a, rfl⟩ := Option.isSome_iff_exists.mp some_word
      obtain ⟨b, rfl⟩ := Option.isSome_iff_exists.mp some_other
      obtain ⟨rfl, rfl⟩ := List.cons.inj same
      exact ⟨rfl, rfl⟩
    · cases turn.symm.trans other
  · rcases other with ⟨other, -⟩ | ⟨-, rfl⟩
    · cases turn.symm.trans other
    · exact ⟨rfl, same⟩

section
variable {final : Link σ τ α} {s s' : σ} {t t' : τ} {word : Option α} {words rest written : List α}

theorem leads_done (left : L.turn s = .ended) (right : R.turn t = .ended) : Inevitable (Flows L R) ⟨s, t, [], []⟩ ⟨s, t, [], []⟩ := by
  refine .done fun l flows => ?_
  cases flows with
  | left word rest takes queue => exact not_takes (.inr left) takes queue
  | right word rest takes queue => exact not_takes (.inr right) takes queue

theorem leads_left (waits : R.turn t = .reads ∨ R.turn t = .ended) (takes : L.Takes s word) (queue : words = word.toList ++ rest)
    (step : L.step s word true = (s', written)) (leads : Inevitable (Flows L R) final ⟨s', t, written, rest⟩) :
    Inevitable (Flows L R) final ⟨s, t, [], words⟩ := by
  have next : leftStep ⟨s, t, [], words⟩ L word true rest = ⟨s', t, written, rest⟩ := by
    rw [leftStep, step]
    rfl
  refine .next (next ▸ .left word rest takes queue) (fun l flows => ?_) leads
  cases flows with
  | left word' rest' takes' queue' =>
    obtain ⟨rfl, rfl⟩ := takes_unique takes takes' (queue.symm.trans queue')
    exact next
  | right word' rest' takes' queue' => exact absurd queue' (not_takes waits takes')

theorem leads_right (waits : L.turn s = .reads ∨ L.turn s = .ended) (takes : R.Takes t word) (queue : words = word.toList ++ rest)
    (step : R.step t word true = (t', written)) (leads : Inevitable (Flows L R) final ⟨s, t', rest, written⟩) :
    Inevitable (Flows L R) final ⟨s, t, words, []⟩ := by
  have next : rightStep ⟨s, t, words, []⟩ R word true rest = ⟨s, t', rest, written⟩ := by
    rw [rightStep, step]
    rfl
  refine .next (next ▸ .right word rest takes queue) (fun l flows => ?_) leads
  cases flows with
  | left word' rest' takes' queue' => exact absurd queue' (not_takes waits takes')
  | right word' rest' takes' queue' =>
    obtain ⟨rfl, rfl⟩ := takes_unique takes takes' (queue.symm.trans queue')
    exact next

end

theorem Flows.moves (flows : Flows L R l l') : Moves L R l l' := by
  have takes : ∀ {υ : Type} {m : Machine υ α} {s : υ} {word : Option α}, m.Takes s word →
      m.turn s ≠ .ended ∧ (word = none ∨ m.turn s = .reads) := by
    rintro υ m s word (⟨turn, -⟩ | ⟨turn, rfl⟩)
    · exact ⟨by simp [turn], .inr turn⟩
    · exact ⟨by simp [turn], .inl rfl⟩
  cases flows with
  | left word rest ready queue => exact .left word rest true (takes ready).1 (takes ready).2 queue
  | right word rest ready queue => exact .right word rest true (takes ready).1 (takes ready).2 queue

/-- What a machine can take now, with the words that are left. -/
def next (m : Machine σ α) (s : σ) (words : List α) : Option (Option α × List α) :=
  match m.turn s, words with
  | .acts, words => some (none, words)
  | .reads, word :: rest => some (some word, rest)
  | _, _ => none

theorem takes_of_next {m : Machine σ α} {s : σ} {words rest : List α} {word : Option α} (can : next m s words = some (word, rest)) :
    m.Takes s word ∧ words = word.toList ++ rest := by
  unfold next at can
  split at can
  case h_1 turn =>
    obtain ⟨rfl, rfl⟩ := Prod.mk.inj (Option.some.inj can)
    exact ⟨.inr ⟨turn, rfl⟩, rfl⟩
  case h_2 turn =>
    obtain ⟨rfl, rfl⟩ := Prod.mk.inj (Option.some.inj can)
    exact ⟨.inl ⟨turn, rfl⟩, rfl⟩
  · cases can

/-- The interleaving in which the left machine goes first where both can go on. -/
def play (L : Machine σ α) (R : Machine τ α) : Nat → Link σ τ α → Link σ τ α
  | 0, l => l
  | turns + 1, l =>
    match next L l.left l.toLeft, next R l.right l.toRight with
    | some (word, rest), _ => play L R turns (l.leftStep L word true rest)
    | none, some (word, rest) => play L R turns (l.rightStep R word true rest)
    | none, none => l

theorem play_reaches (turns : Nat) (l : Link σ τ α) : Reaches L R l (play L R turns l) := by
  induction turns generalizing l with
  | zero => exact .refl
  | succ turns ih =>
    unfold play
    split
    case h_1 _ _ word rest can =>
      obtain ⟨takes, queue⟩ := takes_of_next can
      exact .head (Flows.left word rest takes queue).moves (ih _)
    case h_2 _ _ word rest _ can =>
      obtain ⟨takes, queue⟩ := takes_of_next can
      exact .head (Flows.right word rest takes queue).moves (ih _)
    · exact .refl

end Link

end Xpl.Library
