import Xpl.Text.ExtendedCharacters

/-! What the converters report about their input: an input ends well, breaks down or breaks
off, and the position that is reported is that of the character where it does. -/

set_option autoImplicit false

namespace Xpl.Text
open Xpl.Library

inductive Ending where
  | complete | illFormed | truncated

/-- The report on an input whose well-formed part is `converted` and ends at `offset`. A
failed conversion returns `NULL` with the error set, and any other one sets no error. A position
is stored where the caller asks for it. -/
def Reports {α : Type} (converted : List α) (offset : Nat) (wantsRead : Bool) (result : Option (Conversion α)) (zero : α) : Ending → Prop
  | .complete => result ≠ none
  | .illFormed => ∃ (error : ConvertError) (position : Nat), error.code = .illegalSequence ∧
      result = some (.failed error position) ∧ (wantsRead = true → position = offset)
  | .truncated =>
    if wantsRead then result = some (.written (converted ++ [zero]) offset converted.length)
    else ∃ position, result = some (.failed partialCharacter position)

/-- The characters that the original form of UTF-8 with up to six bytes can express. -/
def FitsUtf8 (c : Nat) : Prop := c < 2 ^ 31

/-- A converter counts for the characters that the target can express what it writes for them, and refuses the others. -/
structure Counts {α : Type} (units : Nat → Except ConvertError Nat) (emit : Nat → List α) (target : Nat → Prop) : Prop where
  accepts : ∀ c, target c → units c = .ok (emit c).length
  refuses : ∀ c, ¬target c → ∃ error : ConvertError, error.code = .illegalSequence ∧ units c = .error error

/-- The input of a call: all up to the length, or up to a zero that comes before it. -/
def Content {α : Type} [OfNat α 0] (memory : List α) (len : Option Nat) (content : List α) : Prop :=
  0 ∉ content ∧ ∃ after, memory = content ++ after ∧
    (len = some content.length ∨ (∀ n, len = some n → content.length < n) ∧ after.head? = some 0)

/-- Every call that reads as far as it may has an input. -/
theorem exists_content {α : Type} [OfNat α 0] [DecidableEq α] {memory : List α} {len : Option Nat}
    (readable : len.elim (0 ∈ memory) (· ≤ memory.length)) : ∃ content, Content memory len content := by
  induction memory generalizing len with
  | nil =>
    cases len with
    | none => exact absurd readable List.not_mem_nil
    | some n =>
      obtain rfl : n = 0 := Nat.le_zero.mp readable
      exact ⟨[], List.not_mem_nil, [], rfl, Or.inl rfl⟩
  | cons first memory ih =>
    by_cases done : len = some 0
    · exact ⟨[], List.not_mem_nil, first :: memory, rfl, Or.inl done⟩
    · by_cases zero : first = 0
      · refine ⟨[], List.not_mem_nil, first :: memory, rfl, Or.inr ⟨fun n limit => ?_, congrArg some zero⟩⟩
        exact Nat.pos_of_ne_zero fun empty => done (empty ▸ limit)
      · have onwards : (len.map (· - 1)).elim (0 ∈ memory) (· ≤ memory.length) := by
          cases len with
          | none => exact (List.mem_cons.mp readable).resolve_left fun same => zero same.symm
          | some n =>
            change n - 1 ≤ memory.length
            change n ≤ memory.length + 1 at readable
            omega
        obtain ⟨content, clean, after, split, ends⟩ := ih onwards
        refine ⟨first :: content, fun held => ?_, after, by rw [split]; rfl, ?_⟩
        · exact (List.mem_cons.mp held).elim (fun same => zero same.symm) clean
        · cases len with
          | none => exact Or.inr ⟨fun n impossible => (nomatch impossible), (ends.resolve_left fun impossible => (nomatch impossible)).2⟩
          | some n =>
            have positive : n ≠ 0 := fun empty => done (congrArg some empty)
            rcases ends with exact | ⟨more, stop⟩
            · have size : n - 1 = content.length := Option.some.inj exact
              exact Or.inl (congrArg some (by rw [List.length_cons]; omega))
            · refine Or.inr ⟨fun other limit => ?_, stop⟩
              have before := more (n - 1) rfl
              cases limit
              rw [List.length_cons]
              omega

/-! ## Counters of 32 bits -/

/-- The first characters of a text take exactly so many units. -/
def Reaches (size : Nat → Nat) (text : List Nat) (count : Nat) : Prop := ∃ front, front <+: text ∧ total size front = count

theorem reaches_zero (size : Nat → Nat) (text : List Nat) : Reaches size text 0 := ⟨[], List.nil_prefix, rfl⟩

theorem reaches_cons {size : Nat → Nat} {c count : Nat} (positive : 0 < size c) (more : 0 < count) (text : List Nat) :
    Reaches size (c :: text) count ↔ size c ≤ count ∧ Reaches size text (count - size c) := by
  constructor
  · rintro ⟨front, begins, sum⟩
    cases front with
    | nil => exact absurd sum (Nat.ne_of_lt more)
    | cons first front =>
      obtain ⟨rfl, rest⟩ := List.cons_prefix_cons.mp begins
      rw [total_cons] at sum
      exact ⟨by omega, front, rest, by omega⟩
  · rintro ⟨room, front, begins, sum⟩
    refine ⟨c :: front, List.cons_prefix_cons.mpr ⟨rfl, begins⟩, ?_⟩
    rw [total_cons]
    omega

/-- The counter has become negative, or a conversion can end where it says. -/
def Finishes (size : Nat → Nat) (unitBytes : Nat) (text : List Nat) : Prop :=
  2 ^ 31 ≤ total size text % 2 ^ 32 + unitBytes ∨ Reaches size text (total size text % 2 ^ 32)

/-- No block is served for a count that is not positive. -/
theorem tryMallocN_refused {alloc : Nat → Bool} (allocator : Allocator alloc) {n : Int} (negative : wrapInt n ≤ 0) {unitBytes : Nat}
    (unitSize : 0 < unitBytes) : tryMallocN alloc (wrapInt n) unitBytes = false := by
  have wrapped := wrapInt_cases n
  by_cases zero : wrapInt n = 0
  · rw [tryMallocN, zero]
    simp
  · have huge : 2 ^ 63 ≤ (wrapInt n % 2 ^ 64).toNat := by omega
    have more := Nat.le_mul_of_pos_right (wrapInt n % 2 ^ 64).toNat unitSize
    rw [tryMallocN, allocator.absurd _ (Nat.le_trans huge more), Bool.and_false]

end Xpl.Text
