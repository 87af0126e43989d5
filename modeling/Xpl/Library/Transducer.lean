import Xpl.Library.Partial
import Mathlib.Data.List.Basic

/-! Machines that read one symbol at a time and put out a word for each. A reader
that takes its input in chunks and simulates such a machine has an output that
does not depend on where the chunks end. -/

set_option autoImplicit false

namespace Xpl.Library

variable {σ τ α β : Type}

abbrev Transducer (σ α β : Type) := σ → α → σ × List β

namespace Transducer

def run (step : Transducer σ α β) (s : σ) : List α → σ × List β
  | [] => (s, [])
  | x :: xs => ((run step (step s x).1 xs).1, (step s x).2 ++ (run step (step s x).1 xs).2)

variable (step : Transducer σ α β)

@[simp] theorem run_nil (s : σ) : run step s [] = (s, []) := rfl

theorem run_cons (s : σ) (x : α) (xs : List α) :
    run step s (x :: xs) = ((run step (step s x).1 xs).1, (step s x).2 ++ (run step (step s x).1 xs).2) := rfl

theorem run_append (s : σ) (xs ys : List α) :
    run step s (xs ++ ys) =
      ((run step (run step s xs).1 ys).1, (run step s xs).2 ++ (run step (run step s xs).1 ys).2) := by
  induction xs generalizing s with
  | nil => rfl
  | cons x xs ih => simp only [List.cons_append, run_cons, ih, List.append_assoc]

theorem run_keeps (invariant : σ → Prop) (keeps : ∀ s x, invariant s → invariant (step s x).1) (s : σ) (xs : List α)
    (holds : invariant s) : invariant (run step s xs).1 := by
  induction xs generalizing s with
  | nil => exact holds
  | cons x xs ih => exact ih _ (keeps s x holds)

end Transducer

def feedChunks (feed : τ → List α → Option (τ × List β)) (t : τ) : List (List α) → Option (τ × List β)
  | [] => some (t, [])
  | chunk :: chunks => do
    let (t, out) ← feed t chunk
    let (t, rest) ← feedChunks feed t chunks
    return (t, out ++ rest)

/-- The reader between two chunks stands for a state of the machine. -/
def Simulates (feed : τ → List α → Option (τ × List β)) (step : Transducer σ α β) (stands : τ → σ → Prop) : Prop :=
  ∀ t s chunk, stands t s → ∃ t', feed t chunk = some (t', (step.run s chunk).2) ∧ stands t' (step.run s chunk).1

theorem Simulates.feedChunks {feed : τ → List α → Option (τ × List β)} {step : Transducer σ α β} {stands : τ → σ → Prop}
    (simulates : Simulates feed step stands) {t : τ} {s : σ} (chunks : List (List α)) (start : stands t s) :
    ∃ t', feedChunks feed t chunks = some (t', (step.run s chunks.flatten).2) ∧
      stands t' (step.run s chunks.flatten).1 := by
  induction chunks generalizing t s with
  | nil => exact ⟨t, rfl, start⟩
  | cons chunk chunks ih =>
    obtain ⟨t', fed, stands'⟩ := simulates t s chunk start
    obtain ⟨t'', rest, stands''⟩ := ih stands'
    refine ⟨t'', ?_, ?_⟩
    · unfold Library.feedChunks
      simp only [fed, rest, some_bind, Option.pure_def, List.flatten_cons,
        Transducer.run_append]
    · simpa only [List.flatten_cons, Transducer.run_append] using stands''

theorem feedChunks_keeps {feed : τ → List α → Option (τ × List β)} (invariant : τ → Prop)
    (keeps : ∀ t chunk t' out, invariant t → feed t chunk = some (t', out) → invariant t') {t t' : τ}
    {chunks : List (List α)} {out : List β} (start : invariant t) (fed : feedChunks feed t chunks = some (t', out)) :
    invariant t' := by
  induction chunks generalizing t out with
  | nil =>
    obtain ⟨rfl, -⟩ := Prod.mk.inj (Option.some.inj fed)
    exact start
  | cons chunk chunks ih =>
    unfold feedChunks at fed
    simp only [Option.bind_eq_bind, Option.bind_eq_some_iff, Option.pure_def, Option.some.injEq, Prod.mk.injEq] at fed
    obtain ⟨⟨t1, out1⟩, first, ⟨t2, out2⟩, rest, rfl, -⟩ := fed
    exact ih (keeps t chunk t1 out1 start first) rest

end Xpl.Library
