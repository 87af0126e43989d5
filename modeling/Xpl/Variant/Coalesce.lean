import Xpl.Library.Partial
import Xpl.Variant.Type

/-! `pattern_copy` and `pattern_coalesce` of gvariant-parser.c.

A pattern is the list of the bytes before its NUL. A computation has no result where the program reads
beyond the end of a pattern or writes beyond the memory of the result.
-/

set_option autoImplicit false

namespace Xpl.Variant
open Xpl.Library

def isPrefixChar (c : UInt8) : Bool := c = ascii 'a' || c = ascii 'm' || c = ascii 'M'

/-- The `do … while (brackets)` loop: the bytes that it copies, and the pattern after them. -/
def copyBrackets (brackets : Int) : Bytes → Option (Bytes × Bytes)
  | [] => none
  | c :: pattern =>
    let brackets :=
      if c = ascii '(' ∨ c = ascii '{' then brackets + 1
      else if c = ascii ')' ∨ c = ascii '}' then brackets - 1
      else brackets
    if brackets = 0 then some ([c], pattern)
    else (copyBrackets brackets pattern).map fun (copied, rest) => (c :: copied, rest)

def patternCopy : Bytes → Option (Bytes × Bytes)
  | [] => none
  | c :: pattern =>
    if isPrefixChar c then (patternCopy pattern).map fun (copied, rest) => (c :: copied, rest)
    else copyBrackets 0 (c :: pattern)

def numberChars : List UInt8 := "ynqiuxthd".toList.map ascii

def stringChars : List UInt8 := "sog".toList.map ascii

/-- The cases after `again`, with what they write, `one` and `the_other`; none of them may apply. -/
def coalesceTurn : Bytes → Bytes → Option (Option (Bytes × Bytes × Bytes))
  | c :: one, d :: theOther =>
    if c = ascii '*' ∧ d ≠ ascii ')' then do
      let (copied, rest) ← patternCopy (d :: theOther)
      some (some (copied, one, rest))
    else if c = ascii 'M' ∧ d = ascii 'm' then some (some ([d], c :: one, theOther))
    else if c = ascii 'M' ∧ d ≠ ascii 'm' ∧ d ≠ ascii '*' then some (some ([], one, d :: theOther))
    else if c = ascii 'N' ∧ d ∈ numberChars then some (some ([d], one, theOther))
    else if c = ascii 'S' ∧ d ∈ stringChars then some (some ([d], one, theOther))
    else some none
  | _, _ => some none

/-- Writing to the result, which has `capacity` bytes. -/
def writeOut (capacity : Nat) (out bytes : Bytes) : Option Bytes :=
  if out.length + bytes.length ≤ capacity then some (out ++ bytes) else none

/-- The loop, with the terminator at its end; `NULL` where a pattern is left. Every turn takes a byte of a pattern. -/
def coalesceLoop (capacity : Nat) : Nat → Bytes → Bytes → Bytes → Option (Option Bytes)
  | 0, _, _, _ => none
  | fuel + 1, out, left, right =>
    match left, right with
    | l :: left, r :: right =>
      if l = r then do
        let out ← writeOut capacity out [l]
        coalesceLoop capacity fuel out left right
      else do
        match ← coalesceTurn (l :: left) (r :: right) with
        | some (bytes, one, theOther) => do
          let out ← writeOut capacity out bytes
          coalesceLoop capacity fuel out one theOther
        | none => do
          match ← coalesceTurn (r :: right) (l :: left) with
          | some (bytes, one, theOther) => do
            let out ← writeOut capacity out bytes
            coalesceLoop capacity fuel out theOther one
          | none => some none
    | [], [] => do
      let _ ← writeOut capacity out [0]
      some (some out)
    | _, _ => some none

def patternCoalesce (left right : Bytes) : Option (Option Bytes) :=
  coalesceLoop (left.length + right.length) (left.length + right.length + 1) [] left right

/-! ## The loop without a bound on its turns -/

section Turns

theorem copyBrackets_split {brackets : Int} {pattern copied rest : Bytes} (copies : copyBrackets brackets pattern = some (copied, rest)) :
    copied ++ rest = pattern ∧ copied ≠ [] := by
  induction pattern generalizing brackets copied rest with
  | nil => exact nomatch copies
  | cons c pattern ih =>
    rw [copyBrackets] at copies
    generalize (if c = ascii '(' ∨ c = ascii '{' then brackets + 1 else
      if c = ascii ')' ∨ c = ascii '}' then brackets - 1 else brackets) = count at copies
    split at copies
    · obtain ⟨rfl, rfl⟩ := Prod.mk.inj (Option.some.inj copies)
      exact ⟨rfl, List.cons_ne_nil _ _⟩
    · obtain ⟨⟨later, tail⟩, more, same⟩ := Option.map_eq_some_iff.mp copies
      obtain ⟨rfl, rfl⟩ := Prod.mk.inj same
      exact ⟨congrArg (c :: ·) (ih more).1, List.cons_ne_nil _ _⟩

theorem patternCopy_split {pattern copied rest : Bytes} (copies : patternCopy pattern = some (copied, rest)) :
    copied ++ rest = pattern ∧ copied ≠ [] := by
  induction pattern generalizing copied rest with
  | nil => exact nomatch copies
  | cons c pattern ih =>
    rw [patternCopy] at copies
    split at copies
    · obtain ⟨⟨later, tail⟩, more, same⟩ := Option.map_eq_some_iff.mp copies
      obtain ⟨rfl, rfl⟩ := Prod.mk.inj same
      exact ⟨congrArg (c :: ·) (ih more).1, List.cons_ne_nil _ _⟩
    · exact copyBrackets_split copies

theorem coalesceTurn_shrinks {one theOther bytes one' theOther' : Bytes}
    (turn : coalesceTurn one theOther = some (some (bytes, one', theOther'))) :
    bytes.length + one'.length + theOther'.length ≤ one.length + theOther.length ∧
      one'.length + theOther'.length < one.length + theOther.length ∧
      (one' = [] → bytes.length + theOther'.length < one.length + theOther.length) := by
  unfold coalesceTurn at turn
  split at turn
  · split at turn
    · obtain ⟨⟨copied, rest⟩, copies, same⟩ := Option.bind_eq_some_iff.mp turn
      obtain ⟨rfl, rfl, rfl⟩ : copied = bytes ∧ _ = one' ∧ rest = theOther' := by simpa using same
      have shape := congrArg List.length (patternCopy_split copies).1
      simp only [List.length_append, List.length_cons] at shape ⊢
      omega
    · split at turn
      · obtain ⟨rfl, rfl, rfl⟩ : [_] = bytes ∧ _ = one' ∧ _ = theOther' := by simpa using turn
        simp only [List.length_cons, List.length_nil]
        omega
      · split at turn
        · obtain ⟨rfl, rfl, rfl⟩ : [] = bytes ∧ _ = one' ∧ _ = theOther' := by simpa using turn
          simp only [List.length_cons, List.length_nil]
          omega
        · split at turn
          · obtain ⟨rfl, rfl, rfl⟩ : [_] = bytes ∧ _ = one' ∧ _ = theOther' := by simpa using turn
            simp only [List.length_cons, List.length_nil]
            omega
          · split at turn
            · obtain ⟨rfl, rfl, rfl⟩ : [_] = bytes ∧ _ = one' ∧ _ = theOther' := by simpa using turn
              simp only [List.length_cons, List.length_nil]
              omega
            · exact nomatch turn
  · exact nomatch turn

/-- The first bytes for which no case applies. -/
theorem coalesceTurn_none {c d : UInt8} {one theOther : Bytes} (star : c = ascii '*' → d = ascii ')')
    (maybe : c = ascii 'M' → d = ascii '*') (number : c = ascii 'N' → d ∉ numberChars) (string : c = ascii 'S' → d ∉ stringChars) :
    coalesceTurn (c :: one) (d :: theOther) = some none := by
  have not_m : ascii '*' ≠ ascii 'm' := by decide
  unfold coalesceTurn
  dsimp only
  rw [if_neg fun both => both.2 (star both.1), if_neg fun both => not_m ((maybe both.1).symm.trans both.2),
    if_neg fun all => all.2.2 (maybe all.1), if_neg fun both => number both.1 both.2, if_neg fun both => string both.1 both.2]

theorem coalesceTurn_exclusive {c d : UInt8} {one theOther : Bytes} (differ : c ≠ d)
    (applies : coalesceTurn (c :: one) (d :: theOther) ≠ some none) : coalesceTurn (d :: theOther) (c :: one) = some none := by
  have wild : ∀ x ∈ numberChars ++ stringChars, x ≠ ascii '*' ∧ x ≠ ascii 'M' ∧ x ≠ ascii 'N' ∧ x ≠ ascii 'S' := by decide +kernel
  have letters : ∀ x ∈ [ascii '*', ascii 'M', ascii 'N', ascii 'S'], x ∉ numberChars ++ stringChars := by decide +kernel
  by_contra both
  apply applies
  apply coalesceTurn_none
  · intro star
    by_contra open_bracket
    apply both
    subst star
    apply coalesceTurn_none
    · exact fun same => absurd same.symm differ
    · exact fun _ => rfl
    · exact fun _ member => letters _ (by simp) (List.mem_append_left _ member)
    · exact fun _ member => letters _ (by simp) (List.mem_append_right _ member)
  · intro maybe
    by_contra no_star
    apply both
    subst maybe
    apply coalesceTurn_none
    · exact fun same => absurd same no_star
    · exact fun same => absurd same.symm differ
    · exact fun _ member => letters _ (by simp) (List.mem_append_left _ member)
    · exact fun _ member => letters _ (by simp) (List.mem_append_right _ member)
  · intro _ member
    obtain ⟨star, maybe, number, string⟩ := wild d (List.mem_append_left _ member)
    exact both (coalesceTurn_none (absurd · star) (absurd · maybe) (absurd · number) (absurd · string))
  · intro _ member
    obtain ⟨star, maybe, number, string⟩ := wild d (List.mem_append_right _ member)
    exact both (coalesceTurn_none (absurd · star) (absurd · maybe) (absurd · number) (absurd · string))

end Turns

/-- The result of a merge, after some bytes. -/
def after (bytes : Bytes) (result : Option (Option Bytes)) : Option (Option Bytes) := result.map fun rest => rest.map (bytes ++ ·)

@[simp] theorem after_nil (result : Option (Option Bytes)) : after [] result = result := by
  rcases result with - | - | rest <;> rfl

theorem after_after (first second : Bytes) (result : Option (Option Bytes)) :
    after first (after second result) = after (first ++ second) result := by
  rcases result with - | - | rest
  · rfl
  · rfl
  · simp [after]

def mergeLoop : Nat → Bytes → Bytes → Option (Option Bytes)
  | 0, _, _ => none
  | fuel + 1, left, right =>
    match left, right with
    | l :: left, r :: right =>
      if l = r then after [l] (mergeLoop fuel left right)
      else
        match coalesceTurn (l :: left) (r :: right) with
        | none => none
        | some (some (bytes, one, theOther)) => after bytes (mergeLoop fuel one theOther)
        | some none =>
          match coalesceTurn (r :: right) (l :: left) with
          | none => none
          | some (some (bytes, one, theOther)) => after bytes (mergeLoop fuel theOther one)
          | some none => some none
    | [], [] => some (some [])
    | _, _ => some none

/-- What the loop writes, without its terminator. -/
def merge (left right : Bytes) : Option (Option Bytes) := mergeLoop (left.length + right.length + 1) left right

theorem mergeLoop_enough {first second : Nat} {left right : Bytes} (enough : left.length + right.length < first)
    (also : left.length + right.length < second) : mergeLoop first left right = mergeLoop second left right := by
  induction first generalizing second left right with
  | zero => omega
  | succ first ih =>
    obtain ⟨second, rfl⟩ : ∃ n, second = n + 1 := ⟨second - 1, by omega⟩
    unfold mergeLoop
    cases left with
    | nil => cases right <;> rfl
    | cons l left =>
      cases right with
      | nil => rfl
      | cons r right =>
        simp only [List.length_cons] at enough also
        dsimp only
        split
        · rw [@ih second left right (by omega) (by omega)]
        · split
          · rfl
          · rename_i bytes one theOther turn
            have shrinks := (coalesceTurn_shrinks turn).2.1
            simp only [List.length_cons] at shrinks
            rw [@ih second one theOther (by omega) (by omega)]
          · split
            · rfl
            · rename_i bytes one theOther turn
              have shrinks := (coalesceTurn_shrinks turn).2.1
              simp only [List.length_cons] at shrinks
              rw [@ih second theOther one (by omega) (by omega)]
            · rfl

/-- The terminator after what the loop writes. -/
def finish (capacity : Nat) (out : Bytes) : Option (Option Bytes) → Option (Option Bytes)
  | none => none
  | some none => some none
  | some (some rest) => if out.length + rest.length + 1 ≤ capacity then some (some (out ++ rest)) else none

theorem finish_after (capacity : Nat) (out bytes : Bytes) (result : Option (Option Bytes)) :
    finish capacity out (after bytes result) = finish capacity (out ++ bytes) result := by
  rcases result with - | - | rest
  · rfl
  · rfl
  · simp only [finish, after, Option.map_some, List.length_append, List.append_assoc, Nat.add_assoc]

theorem writeOut_room {capacity : Nat} {out bytes : Bytes} {before later : Nat} (room : out.length + before ≤ capacity)
    (shrinks : bytes.length + later ≤ before) :
    writeOut capacity out bytes = some (out ++ bytes) ∧ (out ++ bytes).length + later ≤ capacity := by
  rw [List.length_append]
  exact ⟨if_pos (by omega), by omega⟩

/-- The memory of the result is enough for the turns; only the terminator may be left without a place. -/
theorem coalesceLoop_merge {capacity fuel : Nat} {out left right : Bytes} (room : out.length + (left.length + right.length) ≤ capacity) :
    coalesceLoop capacity fuel out left right = finish capacity out (mergeLoop fuel left right) := by
  -- on the turns: both loops take the same side, and what is written never exceeds the two patterns
  induction fuel generalizing out left right with
  | zero => rfl
  | succ fuel ih =>
    unfold coalesceLoop mergeLoop
    cases left with
    | nil =>
      cases right with
      | nil =>
        simp only [writeOut, finish, List.length_singleton, List.length_nil, List.append_nil, Nat.add_zero]
        split <;> rfl
      | cons r right => rfl
    | cons l left =>
      cases right with
      | nil => rfl
      | cons r right =>
        dsimp only
        split
        · have two : [l].length + (left.length + right.length) ≤ (l :: left).length + (r :: right).length := by
            simp only [List.length_cons, List.length_nil]
            omega
          obtain ⟨written, fits⟩ := writeOut_room room two
          rw [written, finish_after, some_bind, ih fits]
        · cases turn : coalesceTurn (l :: left) (r :: right) with
          | none => rfl
          | some applied =>
            cases applied with
            | some applied =>
              obtain ⟨bytes, one, theOther⟩ := applied
              have shrinks := (coalesceTurn_shrinks turn).1
              obtain ⟨written, fits⟩ := writeOut_room room (Nat.add_assoc _ _ _ ▸ shrinks)
              rw [some_bind]
              dsimp only
              rw [written, finish_after, some_bind, ih fits]
            | none =>
              rw [Option.bind_eq_bind, Option.bind_some]
              cases swapped : coalesceTurn (r :: right) (l :: left) with
              | none => rfl
              | some applied =>
                cases applied with
                | none => rfl
                | some applied =>
                  obtain ⟨bytes, one, theOther⟩ := applied
                  have shrinks := (coalesceTurn_shrinks swapped).1
                  have both : bytes.length + (theOther.length + one.length) ≤ (l :: left).length + (r :: right).length := by omega
                  obtain ⟨written, fits⟩ := writeOut_room room both
                  rw [Option.bind_eq_bind, Option.bind_some]
                  dsimp only
                  rw [written, finish_after, Option.bind_some, ih fits]

theorem patternCoalesce_merge (left right : Bytes) :
    patternCoalesce left right = finish (left.length + right.length) [] (merge left right) :=
  coalesceLoop_merge (by rw [List.length_nil, Nat.zero_add])

theorem merge_cons (c d : UInt8) (left right : Bytes) :
    merge (c :: left) (d :: right) =
      if c = d then after [c] (mergeLoop (left.length + 1 + (right.length + 1)) left right)
      else
        match coalesceTurn (c :: left) (d :: right) with
        | none => none
        | some (some (bytes, one, theOther)) => after bytes (mergeLoop (left.length + 1 + (right.length + 1)) one theOther)
        | some none =>
          match coalesceTurn (d :: right) (c :: left) with
          | none => none
          | some (some (bytes, one, theOther)) => after bytes (mergeLoop (left.length + 1 + (right.length + 1)) theOther one)
          | some none => some none := rfl

theorem merge_same (c : UInt8) (left right : Bytes) : merge (c :: left) (c :: right) = after [c] (merge left right) := by
  rw [merge_cons, if_pos rfl]
  exact congrArg (after [c]) (mergeLoop_enough (by omega) (by omega))

theorem merge_turn {c d : UInt8} {left right bytes one theOther : Bytes} (differ : c ≠ d)
    (turn : coalesceTurn (c :: left) (d :: right) = some (some (bytes, one, theOther))) :
    merge (c :: left) (d :: right) = after bytes (merge one theOther) := by
  have shrinks := (coalesceTurn_shrinks turn).2.1
  rw [merge_cons, if_neg differ, turn]
  exact congrArg (after bytes) (mergeLoop_enough shrinks (Nat.lt_succ_self _))

theorem merge_swap {c d : UInt8} {left right bytes one theOther : Bytes} (differ : c ≠ d)
    (turn : coalesceTurn (d :: right) (c :: left) = some (some (bytes, one, theOther))) :
    merge (c :: left) (d :: right) = after bytes (merge theOther one) := by
  have shrinks := (coalesceTurn_shrinks turn).2.1
  have first := @coalesceTurn_exclusive d c right left differ.symm (by rw [turn]; exact fun same => nomatch Option.some.inj same)
  rw [merge_cons, if_neg differ, first, turn]
  simp only [List.length_cons] at shrinks
  exact congrArg (after bytes) (mergeLoop_enough (by omega) (Nat.lt_succ_self _))

theorem merge_stuck {c d : UInt8} {left right : Bytes} (differ : c ≠ d) (turn : coalesceTurn (c :: left) (d :: right) = some none)
    (swapped : coalesceTurn (d :: right) (c :: left) = some none) : merge (c :: left) (d :: right) = some none := by
  rw [merge_cons, if_neg differ, turn, swapped]

/-- A copy reads beyond a pattern. -/
theorem merge_outside {c d : UInt8} {left right : Bytes} (differ : c ≠ d) (turn : coalesceTurn (c :: left) (d :: right) = none) :
    merge (c :: left) (d :: right) = none := by
  rw [merge_cons, if_neg differ, turn]

theorem merge_outside_swapped {c d : UInt8} {left right : Bytes} (differ : c ≠ d)
    (turn : coalesceTurn (c :: left) (d :: right) = some none) (swapped : coalesceTurn (d :: right) (c :: left) = none) :
    merge (c :: left) (d :: right) = none := by
  rw [merge_cons, if_neg differ, turn, swapped]

theorem merge_comm (left right : Bytes) : merge left right = merge right left := by
  -- on the two lengths: with the sides exchanged the loop takes the same turn
  induction size : left.length + right.length using Nat.strong_induction_on generalizing left right with
  | h size ih =>
    cases left with
    | nil => cases right <;> rfl
    | cons c left =>
      cases right with
      | nil => rfl
      | cons d right =>
        by_cases same : c = d
        · subst same
          rw [merge_same, merge_same, ih _ (by rw [← size, List.length_cons, List.length_cons]; omega) left right rfl]
        · cases turn : coalesceTurn (c :: left) (d :: right) with
          | none =>
            have swapped := @coalesceTurn_exclusive c d left right same (by rw [turn]; exact fun same => nomatch same)
            rw [merge_outside same turn, merge_outside_swapped (Ne.symm same) swapped turn]
          | some applied =>
            cases applied with
            | none =>
              cases swapped : coalesceTurn (d :: right) (c :: left) with
              | none => rw [merge_outside_swapped same turn swapped, merge_outside (Ne.symm same) swapped]
              | some other =>
                cases other with
                | none => rw [merge_stuck same turn swapped, merge_stuck (Ne.symm same) swapped turn]
                | some other =>
                  obtain ⟨bytes, one, theOther⟩ := other
                  have shrinks := (coalesceTurn_shrinks swapped).2.1
                  rw [merge_swap same swapped, merge_turn (Ne.symm same) swapped, ih _ (by omega) theOther one rfl]
            | some applied =>
              obtain ⟨bytes, one, theOther⟩ := applied
              have shrinks := (coalesceTurn_shrinks turn).2.1
              rw [merge_turn same turn, merge_swap (Ne.symm same) turn, ih _ (by omega) one theOther rfl]

theorem merge_nil_left {right out : Bytes} (merged : merge [] right = some (some out)) : right = [] ∧ out = [] := by
  cases right with
  | nil => exact ⟨rfl, (Option.some.inj (Option.some.inj merged)).symm⟩
  | cons r right => exact nomatch (show some none = some (some out) from merged)

theorem after_some {bytes out : Bytes} {result : Option (Option Bytes)} (found : after bytes result = some (some out)) :
    ∃ rest, result = some (some rest) ∧ out = bytes ++ rest := by
  rcases result with - | - | rest
  · exact nomatch found
  · exact nomatch (show some none = some (some out) from found)
  · exact ⟨rest, rfl, (Option.some.inj (Option.some.inj found)).symm⟩

/-- There is a place for the terminator. -/
theorem merge_length {left right out : Bytes} (merged : merge left right = some (some out)) (some_byte : left ≠ []) :
    out.length + 1 ≤ left.length + right.length := by
  induction size : left.length + right.length using Nat.strong_induction_on generalizing left right out with
  | h total ih =>
    -- what a turn leaves is merged in turn, unless it took all
    have turned : ∀ {c d : UInt8} {one theOther bytes one' theOther' : Bytes},
        coalesceTurn (c :: one) (d :: theOther) = some (some (bytes, one', theOther')) →
        (c :: one).length + (d :: theOther).length = total → after bytes (merge one' theOther') = some (some out) → out.length + 1 ≤ total := by
      intro c d one theOther bytes one' theOther' turn counted result
      obtain ⟨rest, more, rfl⟩ := after_some result
      obtain ⟨shrinks, less, last⟩ := coalesceTurn_shrinks turn
      rw [List.length_append]
      by_cases all : one' = []
      · subst all
        obtain ⟨rfl, rfl⟩ := merge_nil_left more
        have last := last rfl
        omega
      · have later := ih _ (by omega) more all rfl
        omega
    obtain ⟨c, left, rfl⟩ := List.exists_cons_of_ne_nil some_byte
    cases right with
    | nil => exact nomatch (show some none = some (some out) from merged)
    | cons d right =>
      by_cases same : c = d
      · subst same
        rw [merge_same] at merged
        obtain ⟨rest, more, rfl⟩ := after_some merged
        simp only [List.length_cons] at size
        by_cases all : left = []
        · subst all
          obtain ⟨rfl, rfl⟩ := merge_nil_left more
          simp only [List.append_nil, List.length_singleton]
          omega
        · have later := ih _ (by omega) more all rfl
          simp only [List.length_append, List.length_singleton]
          omega
      · cases turn : coalesceTurn (c :: left) (d :: right) with
        | none =>
          rw [merge_outside same turn] at merged
          exact nomatch merged
        | some applied =>
          cases applied with
          | some applied =>
            rw [merge_turn same turn] at merged
            exact turned turn size merged
          | none =>
            cases swapped : coalesceTurn (d :: right) (c :: left) with
            | none =>
              rw [merge_outside_swapped same turn swapped] at merged
              exact nomatch merged
            | some applied =>
              cases applied with
              | none =>
                rw [merge_stuck same turn swapped] at merged
                exact nomatch merged
              | some applied =>
                rw [merge_swap same swapped, merge_comm] at merged
                exact turned swapped (by omega) merged

end Xpl.Variant
