import Xpl.Text.CharacterOffsets

/-! Repair of strings that are not UTF-8, and reversal of strings that are.

A function has no result where the program reads outside of the memory it is given or an
assertion fails. A length is absent when it is negative.
-/

set_option autoImplicit false

namespace Xpl.Text
open Xpl.Library

def strlen : Bytes → Option Nat
  | [] => none
  | b :: rest => if b = 0 then some 0 else (strlen rest).map (· + 1)

def replacementCharacter : Bytes := [0xef, 0xbf, 0xbd]

section Functions

/-- The loop of `xutf8_make_valid`: the buffer, once there is one, and what is left of the input. -/
def makeValidLoop (string : Option Bytes) (remainder : Bytes) : Option (Option Bytes × Bytes) :=
  if 0 < remainder.length then
    match xutf8ValidateBounded remainder with
    | none => none
    | some (true, _) => some (string, remainder)
    | some (false, validBytes) =>
      makeValidLoop (some (string.getD [] ++ remainder.take validBytes ++ replacementCharacter)) (remainder.drop (validBytes + 1))
  else some (string, remainder)
termination_by remainder.length
decreasing_by
  rw [List.length_drop]
  omega

def actualLength (memory : Bytes) (len : Option Nat) : Option Nat := do
  let len ← len.elim (strlen memory) some
  if len ≤ memory.length then some len else none

def xutf8MakeValid (str : Bytes) (len : Option Nat) : Option Bytes := do
  let len ← actualLength str len
  match ← makeValidLoop none (str.take len) with
  | (none, _) => return (str.take len).takeWhile (· ≠ 0)
  | (some string, remainder) =>
    let (valid, _) ← xutf8Validate (string ++ remainder ++ [0])
    if valid then some (string ++ remainder) else none

/-- The loop of `xutf8_strreverse`: `p` goes forward in the string, `r` backward in the result, which holds
what stands behind `r`. -/
def reverseLoop (str : Bytes) (p r : Nat) (result : Bytes) : Option Bytes :=
  if 0 < r then
    match str[p]? with
    | none => none
    | some first =>
      let skip := utf8Skip first
      if skip ≤ r ∧ p + skip ≤ str.length then reverseLoop str (p + skip) (r - skip) ((str.drop p).take skip ++ result)
      else none
  else some result
termination_by r
decreasing_by
  have positive := utf8Skip_pos first
  omega

def xutf8Strreverse (str : Bytes) (len : Option Nat) : Option Bytes := do
  let len ← len.elim (strlen str) some
  reverseLoop str 0 len []

end Functions

section Repairing

/-- The repaired string: valid runs stay as they are, and each byte at which no character begins is replaced. -/
inductive Repairs : Bytes → Bytes → Prop where
  | valid {run : Bytes} : IsUtf8 run → Repairs run run
  | broken {run rest repaired : Bytes} {b : UInt8} : IsUtf8 run → (∀ c, IsScalar c → c ≠ 0 → ¬utf8 c <+: b :: rest) →
      Repairs rest repaired → Repairs (run ++ b :: rest) (run ++ replacementCharacter ++ repaired)

variable {bytes repaired : Bytes}

theorem leadLength_eq_none : leadLength bytes = none ↔ ∀ c, IsScalar c → c ≠ 0 → ¬utf8 c <+: bytes := by
  constructor
  · rintro none c scalar nonzero ⟨rest, rfl⟩
    rw [leadLength_utf8 scalar nonzero] at none
    cases none
  · intro nowhere
    cases lead : leadLength bytes with
    | none => rfl
    | some size =>
      obtain ⟨c, ⟨scalar, nonzero, rest, shape⟩, _⟩ := leads_of_leadLength lead
      exact absurd ⟨rest, shape.symm⟩ (nowhere c scalar nonzero)

theorem fastValidateLen_append {run : Bytes} (valid : IsUtf8 run) (rest : Bytes) :
    fastValidateLen (run ++ rest) = run.length + fastValidateLen rest := by
  obtain ⟨text, isText, rfl⟩ := valid
  exact fastValidateLen_text isText rest

theorem fastValidateLen_run {run rest : Bytes} (valid : IsUtf8 run) (stops : ∀ c, IsScalar c → c ≠ 0 → ¬utf8 c <+: rest) :
    fastValidateLen (run ++ rest) = run.length := by
  rw [fastValidateLen_append valid, fastValidateLen_none (leadLength_eq_none.mpr stops), Nat.add_zero]

theorem isUtf8_append {front back : Bytes} (one : IsUtf8 front) (two : IsUtf8 back) : IsUtf8 (front ++ back) := by
  rw [isUtf8_iff, fastValidateLen_append one, (isUtf8_iff back).mp two, List.length_append]

theorem isUtf8_replacement : IsUtf8 replacementCharacter := ⟨[0xfffd], by simp [IsText, IsScalar], rfl⟩

theorem exists_repairs (bytes : Bytes) : ∃ repaired, Repairs bytes repaired := by
  induction size : bytes.length using Nat.strongRecOn generalizing bytes with
  | ind size ih =>
    obtain ⟨bound, valid⟩ := isUtf8_take bytes
    cases left : bytes.drop (fastValidateLen bytes) with
    | nil =>
      have whole := List.take_append_drop (fastValidateLen bytes) bytes
      rw [left, List.append_nil] at whole
      rw [whole] at valid
      exact ⟨bytes, .valid valid⟩
    | cons b rest =>
      have whole := List.take_append_drop (fastValidateLen bytes) bytes
      rw [left] at whole
      have shorter := congrArg List.length left
      rw [List.length_drop, List.length_cons] at shorter
      obtain ⟨repaired, repairs⟩ := ih rest.length (by omega) rest rfl
      rw [← whole]
      refine ⟨_, .broken valid (leadLength_eq_none.mp ?_) repairs⟩
      by_contra some_lead
      obtain ⟨count, lead⟩ := Option.ne_none_iff_exists'.mp some_lead
      -- the run would have been longer
      have counted := fastValidateLen_append valid (b :: rest)
      rw [whole, fastValidateLen_some lead, List.length_take] at counted
      have positive := (leadLength_le lead).1
      omega

theorem Repairs.isUtf8 (repairs : Repairs bytes repaired) : IsUtf8 repaired := by
  induction repairs with
  | valid valid => exact valid
  | broken valid _ _ ih => exact isUtf8_append (isUtf8_append valid isUtf8_replacement) ih

/-- What the loop leaves in the buffer and in the rest. -/
theorem Repairs.loop (repairs : Repairs bytes repaired) (fits : bytes.length < 2 ^ 63) (string : Option Bytes) :
    ∃ string' remainder, makeValidLoop string bytes = some (string', remainder) ∧
      string'.getD [] ++ remainder = string.getD [] ++ repaired ∧
        (string' = none → string = none ∧ remainder = bytes ∧ IsUtf8 bytes) := by
  -- over the repair: up to its first bad byte the text is copied as it is, and the loop goes on behind it
  induction repairs generalizing string with
  | @valid run valid =>
    refine ⟨string, run, ?_, rfl, fun none => ⟨none, rfl, valid⟩⟩
    rw [makeValidLoop, xutf8ValidateBounded, fastValidateBounded_eq fits, (isUtf8_iff run).mp valid, some_bind,
      decide_eq_true rfl]
    exact ite_self _
  | @broken run rest repaired b valid stops repairs ih =>
    have size : (run ++ b :: rest).length = run.length + (rest.length + 1) := List.length_append
    have count := fastValidateLen_run valid stops
    obtain ⟨string', remainder, looped, joined, fresh⟩ := ih (by omega) (some (string.getD [] ++ run ++ replacementCharacter))
    refine ⟨string', remainder, ?_, ?_, fun none => ?_⟩
    · rw [makeValidLoop, if_pos (by omega), xutf8ValidateBounded, fastValidateBounded_eq fits, count, some_bind,
        decide_eq_false (by omega), Option.pure_def]
      dsimp only
      have behind : (run ++ b :: rest).drop (run.length + 1) = rest := by
        rw [List.append_cons, List.drop_left' (by rw [List.length_append]; rfl)]
      rw [List.take_left, behind]
      exact looped
    · rw [joined, Option.getD_some]
      simp only [List.append_assoc]
    · cases (fresh none).1

theorem strlen_terminated (noNul : ∀ b ∈ bytes, b ≠ 0) (rest : Bytes) : strlen (bytes ++ 0 :: rest) = some bytes.length := by
  induction bytes with
  | nil => rfl
  | cons b bytes ih =>
    obtain ⟨nonzero, others⟩ := List.forall_mem_cons.mp noNul
    rw [List.cons_append, strlen, if_neg nonzero, ih others]
    rfl

theorem xutf8Validate_of_isUtf8 (valid : IsUtf8 bytes) : xutf8Validate (bytes ++ [0]) = some (true, bytes.length) := by
  rw [xutf8Validate, fastValidate_eq, (isUtf8_iff bytes).mp valid, some_bind,
    List.getElem?_append_right (Nat.le_refl _), Nat.sub_self]
  rfl

/-- What the function gets to read: as many bytes as the length says, or all up to the first NUL. -/
def Input (memory : Bytes) (len : Option Nat) (bytes : Bytes) : Prop :=
  (∃ rest, memory = bytes ++ rest ∧ len = some bytes.length) ∨ ∃ rest, memory = bytes ++ 0 :: rest ∧ len = none ∧ ∀ b ∈ bytes, b ≠ 0

theorem Input.actualLength {memory : Bytes} {len : Option Nat} (input : Input memory len bytes) :
    actualLength memory len = some bytes.length ∧ memory.take bytes.length = bytes := by
  rcases input with ⟨rest, rfl, rfl⟩ | ⟨rest, rfl, rfl, noNul⟩
  · refine ⟨if_pos ?_, List.take_left⟩
    rw [List.length_append]
    exact Nat.le_add_right _ _
  · refine ⟨?_, List.take_left⟩
    rw [Text.actualLength, Option.elim_none, strlen_terminated noNul, some_bind, if_pos]
    rw [List.length_append]
    exact Nat.le_add_right _ _

theorem Repairs.made {memory : Bytes} {len : Option Nat} (repairs : Repairs bytes repaired) (input : Input memory len bytes)
    (fits : bytes.length < 2 ^ 63) : xutf8MakeValid memory len = some repaired := by
  obtain ⟨string, remainder, looped, joined, fresh⟩ := repairs.loop fits none
  obtain ⟨length, taken⟩ := input.actualLength
  rw [xutf8MakeValid, length, some_bind, taken, looped, some_bind]
  rw [Option.getD_none, List.nil_append] at joined
  cases string with
  | none =>
    obtain ⟨_, same, valid⟩ := fresh rfl
    rw [List.takeWhile_eq_self_iff.mpr fun b member => decide_eq_true (valid.no_zero b member), ← joined, same]
    rfl
  | some string =>
    rw [Option.getD_some] at joined
    dsimp only
    rw [joined, xutf8Validate_of_isUtf8 repairs.isUtf8]
    rfl

/-- There is one way to repair a string. -/
theorem Repairs.unique {other : Bytes} (one : Repairs bytes repaired) (two : Repairs bytes other) (fits : bytes.length < 2 ^ 63) :
    repaired = other := by
  have input : Input bytes (some bytes.length) bytes := Or.inl ⟨[], (List.append_nil bytes).symm, rfl⟩
  exact Option.some.inj ((one.made input fits).symm.trans (two.made input fits))

end Repairing

section Reversing
variable {string rest : Bytes} {before middle : List Nat}

/-- The characters go to the front of the result one after the other. -/
theorem reverseLoop_text (valid : IsText middle) (shape : string = (before ++ middle).flatMap utf8 ++ rest) (result : Bytes) :
    reverseLoop string (extent before) (extent middle) result = some (middle.reverse.flatMap utf8 ++ result) := by
  -- over the characters that are left; the result grows in front
  induction middle generalizing before result with
  | nil =>
    rw [reverseLoop]
    exact if_neg (Nat.lt_irrefl 0)
  | cons c middle ih =>
    obtain ⟨a, read, _, skip⟩ := first_byte valid.head.1.lt shape
    have positive := utf8_length_pos c
    have total := extent_append before [c]
    have single : extent [c] = (utf8 c).length := extent_cons c []
    have next : string = ((before ++ [c]) ++ middle).flatMap utf8 ++ rest := by rw [shape, List.append_cons]
    have size : utf8Skip a = (utf8 c).length := by omega
    have room : extent before + utf8Skip a ≤ string.length := by
      have length := congrArg List.length next
      rw [List.flatMap_append, List.append_assoc, List.length_append, ← extent] at length
      omega
    have chunk : (string.drop (extent before)).take (utf8Skip a) = utf8 c := by
      rw [shape, List.flatMap_append, List.append_assoc, extent, List.drop_left, List.flatMap_cons, List.append_assoc, size, List.take_left]
    rw [reverseLoop, extent_cons, if_pos (by omega), read]
    dsimp only
    rw [if_pos ⟨by omega, room⟩, chunk, skip, size, Nat.add_sub_cancel_left, ih valid.tail next, List.reverse_cons, List.flatMap_append,
      List.flatMap_singleton, List.append_assoc]

theorem xutf8Strreverse_text {memory : Bytes} {len : Option Nat} {text : List Nat} (valid : IsText text)
    (input : Input memory len (text.flatMap utf8)) : xutf8Strreverse memory len = some (text.reverse.flatMap utf8) := by
  have loop : ∀ rest, reverseLoop (text.flatMap utf8 ++ rest) 0 (text.flatMap utf8).length [] = some (text.reverse.flatMap utf8) := by
    intro rest
    have reversed := @reverseLoop_text _ rest [] text valid rfl []
    rwa [List.append_nil] at reversed
  rcases input with ⟨rest, rfl, rfl⟩ | ⟨rest, rfl, rfl, noNul⟩
  · exact loop rest
  · rw [xutf8Strreverse, Option.elim_none, strlen_terminated noNul]
    exact loop _

end Reversing

/-- Repair and reversal of the bytes that the functions get to read. -/
theorem xutf8MakeValid_xutf8Strreverse {memory bytes : Bytes} {len : Option Nat} (input : Input memory len bytes) (fits : bytes.length < 2 ^ 63) :
    (∃ repaired, xutf8MakeValid memory len = some repaired ∧ (∀ result, Repairs bytes result ↔ result = repaired) ∧ IsUtf8 repaired ∧
      (IsUtf8 bytes → repaired = bytes) ∧
      ∀ memory' len', Input memory' len' repaired → repaired.length < 2 ^ 63 → xutf8MakeValid memory' len' = some repaired) ∧
    ∀ text, IsText text → bytes = text.flatMap utf8 →
      xutf8Strreverse memory len = some (text.reverse.flatMap utf8) ∧
        ∀ memory' len', Input memory' len' (text.reverse.flatMap utf8) → xutf8Strreverse memory' len' = some bytes := by
  constructor
  · obtain ⟨repaired, repairs⟩ := exists_repairs bytes
    refine ⟨repaired, repairs.made input fits, fun result => ⟨fun other => other.unique repairs fits, fun same => same ▸ repairs⟩,
      repairs.isUtf8, fun valid => repairs.unique (.valid valid) fits, fun memory' len' again small => ?_⟩
    exact (Repairs.valid repairs.isUtf8).made again small
  · rintro text valid rfl
    refine ⟨xutf8Strreverse_text valid input, fun memory' len' again => ?_⟩
    have reversed : IsText text.reverse := fun c member => valid c (List.mem_reverse.mp member)
    have twice := xutf8Strreverse_text reversed again
    rwa [List.reverse_reverse] at twice

/-- A NUL and a lone byte are replaced; what is valid around them stays. -/
theorem xutf8MakeValid_xutf8Strreverse_witness :
    ∃ repaired, xutf8MakeValid [0x61, 0, 0xc3, 0x62] (some 4) = some repaired ∧ IsUtf8 repaired := by
  obtain ⟨repaired, made, _, valid, _⟩ := (@xutf8MakeValid_xutf8Strreverse _ [0x61, 0, 0xc3, 0x62] _ (Or.inl ⟨[], rfl, rfl⟩)
    (by decide)).1
  exact ⟨repaired, made, valid⟩

end Xpl.Text
