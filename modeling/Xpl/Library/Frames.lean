import Mathlib.Data.List.Basic

/-! Streams of records, each a free word followed by a frame. A frame opens at its first word alone and closes at its
last word alone, so that neither a frame nor a free word can be mistaken for anything else in the stream. -/

set_option autoImplicit false

namespace Xpl.Library

variable {α : Type} {opens closes : α → Prop}

structure IsFrame (opens closes : α → Prop) (frame : List α) : Prop where
  long : 2 ≤ frame.length
  opens : ∀ {i word}, frame[i]? = some word → (opens word ↔ i = 0)
  closes : ∀ {i word}, frame[i]? = some word → (closes word ↔ i + 1 = frame.length)

/-- The stream of the records. -/
def framed : List (α × List α) → List α
  | [] => []
  | (free, frame) :: records => free :: (frame ++ framed records)

theorem framed_append (first second : List (α × List α)) : framed (first ++ second) = framed first ++ framed second := by
  induction first with
  | nil => rfl
  | cons record first ih =>
    simp [framed, ih]

def StandsAt (records : List (α × List α)) (p : Nat) (record : α × List α) : Prop :=
  ∃ before after, records = before ++ record :: after ∧ p = (framed before).length

theorem standsAt_head (record : α × List α) (records : List (α × List α)) : StandsAt (record :: records) 0 record :=
  ⟨[], records, rfl, rfl⟩

theorem StandsAt.cons {records : List (α × List α)} {p : Nat} {record : α × List α} (stands : StandsAt records p record)
    (free : α) (frame : List α) : StandsAt ((free, frame) :: records) (1 + frame.length + p) record := by
  obtain ⟨before, after, rfl, rfl⟩ := stands
  refine ⟨(free, frame) :: before, after, rfl, ?_⟩
  simp only [framed, List.length_cons, List.length_append]
  omega

theorem StandsAt.mem {records : List (α × List α)} {p : Nat} {record : α × List α} (stands : StandsAt records p record) :
    record ∈ records := by
  obtain ⟨before, after, rfl, -⟩ := stands
  simp

/-- What follows the position of a record. -/
theorem StandsAt.drop {records : List (α × List α)} {p : Nat} {record : α × List α} (stands : StandsAt records p record) :
    ∃ after, (framed records).drop p = record.1 :: (record.2 ++ framed after) := by
  obtain ⟨before, after, rfl, rfl⟩ := stands
  refine ⟨after, ?_⟩
  rw [framed_append, List.drop_left]
  rfl

/-! ## Finding frames -/

section Frames

variable {frame other : List α}

theorem IsFrame.getElem_zero (is_frame : IsFrame opens closes frame) : ∃ word, frame[0]? = some word ∧ opens word := by
  have long := is_frame.long
  have first : frame[0]? = some frame[0] := List.getElem?_eq_getElem (by omega)
  exact ⟨frame[0], first, (is_frame.opens first).mpr rfl⟩

theorem IsFrame.getElem_one (is_frame : IsFrame opens closes frame) : ∃ word, frame[1]? = some word ∧ ¬opens word := by
  have long := is_frame.long
  have second : frame[1]? = some frame[1] := List.getElem?_eq_getElem (by omega)
  exact ⟨frame[1], second, fun opened => absurd ((is_frame.opens second).mp opened) (by omega)⟩

theorem IsFrame.getElem_last (is_frame : IsFrame opens closes frame) :
    ∃ word, frame[frame.length - 1]? = some word ∧ closes word := by
  have long := is_frame.long
  have last : frame[frame.length - 1]? = some frame[frame.length - 1] := List.getElem?_eq_getElem (by omega)
  exact ⟨_, last, (is_frame.closes last).mpr (by omega)⟩

theorem getElem?_of_prefix {front whole : List α} (begins : front <+: whole) {i : Nat} {word : α}
    (held : front[i]? = some word) : whole[i]? = some word := by
  obtain ⟨rest, rfl⟩ := begins
  have inside : i < front.length := (List.getElem?_eq_some_iff.mp held).1
  rw [List.getElem?_append_left inside, held]

theorem IsFrame.eq_of_prefix (left : IsFrame opens closes frame) (right : IsFrame opens closes other) {rest : List α}
    (begins : frame <+: other ++ rest) : frame = other := by
  have same_length : frame.length = other.length := by
    obtain ⟨word, last, closed⟩ := left.getElem_last
    obtain ⟨word', last', closed'⟩ := right.getElem_last
    have long' := right.long
    by_cases shorter : frame.length ≤ other.length
    · have within := getElem?_of_prefix begins last
      rw [List.getElem?_append_left (by omega)] at within
      have ended := (right.closes within).mp closed
      omega
    · have inside : other.length - 1 < frame.length := by omega
      have within := getElem?_of_prefix begins (List.getElem?_eq_getElem inside)
      rw [List.getElem?_append_left (by omega), last'] at within
      have ended := (left.closes ((List.getElem?_eq_getElem inside).trans within.symm)).mp closed'
      omega
  exact (List.prefix_of_prefix_length_le begins (List.prefix_append _ _) (Nat.le_of_eq same_length)).eq_of_length same_length

end Frames

/-! ## Positions -/

section Positions

variable {records : List (α × List α)} {p : Nat} {record : α × List α}

theorem StandsAt.getElem?_free (stands : StandsAt records p record) : (framed records)[p]? = some record.1 := by
  obtain ⟨after, rest⟩ := stands.drop
  rw [← Nat.add_zero p, ← List.getElem?_drop, rest]
  rfl

theorem StandsAt.getElem?_frame (stands : StandsAt records p record) {k : Nat} (inside : k < record.2.length) :
    (framed records)[p + 1 + k]? = record.2[k]? := by
  obtain ⟨after, rest⟩ := stands.drop
  rw [Nat.add_assoc, ← List.getElem?_drop, rest, Nat.add_comm 1 k, List.getElem?_cons_succ, List.getElem?_append_left inside]

/-- Every position is that of a free word or lies in a frame. -/
theorem locate (inside : p < (framed records).length) :
    ∃ q record, StandsAt records q record ∧ (p = q ∨ ∃ k < record.2.length, p = q + 1 + k) := by
  induction records generalizing p with
  | nil => exact absurd inside (Nat.not_lt_zero p)
  | cons record records ih =>
    obtain ⟨free, frame⟩ := record
    simp only [framed, List.length_cons, List.length_append] at inside
    by_cases first : p ≤ frame.length
    · refine ⟨0, _, standsAt_head _ _, ?_⟩
      rcases p with _ | k
      · exact .inl rfl
      · exact .inr ⟨k, first, by omega⟩
    · obtain ⟨q, record, stands, place⟩ := ih (show p - (1 + frame.length) < _ by omega)
      refine ⟨1 + frame.length + q, record, stands.cons free frame, ?_⟩
      rcases place with same | ⟨k, within, same⟩
      · exact .inl (by omega)
      · exact .inr ⟨k, within, by omega⟩

variable (frames : ∀ record ∈ records, IsFrame opens closes record.2)
include frames

theorem StandsAt.next_opens (stands : StandsAt records p record) {word : α}
    (follows : (framed records)[p + 1 + (record.2.length + 1)]? = some word) : opens word := by
  obtain ⟨before, after, rfl, rfl⟩ := stands
  rw [framed_append, Nat.add_assoc, List.getElem?_append_right (Nat.le_add_right _ _), Nat.add_sub_cancel_left, Nat.add_comm 1] at follows
  obtain ⟨free, frame⟩ := record
  simp only [framed, List.getElem?_cons_succ] at follows
  rw [List.getElem?_append_right (Nat.le_succ _), show frame.length.succ - frame.length = 0 + 1 by omega] at follows
  cases after with
  | nil => simp [framed] at follows
  | cons next after =>
    obtain ⟨free', next⟩ := next
    obtain ⟨first, begins, opened⟩ := (frames (free', next) (by simp)).getElem_zero
    rw [framed, List.getElem?_cons_succ, List.getElem?_append_left (List.getElem?_eq_some_iff.mp begins).1, begins] at follows
    cases follows
    exact opened

theorem occurs_iff {frame : List α} (is_frame : IsFrame opens closes frame) :
    frame <+: (framed records).drop (p + 1) ↔ ∃ free, StandsAt records p (free, frame) := by
  constructor
  · intro occurs
    obtain ⟨first, at_zero, opened⟩ := is_frame.getElem_zero
    obtain ⟨second, at_one, unopened⟩ := is_frame.getElem_one
    have first_there := getElem?_of_prefix occurs at_zero
    have second_there := getElem?_of_prefix occurs at_one
    rw [List.getElem?_drop] at first_there second_there
    have inside := (List.getElem?_eq_some_iff.mp first_there).1
    obtain ⟨q, record, stands, rfl | ⟨k, within, rfl⟩⟩ := locate (show p < (framed records).length by omega)
    · obtain ⟨after, rest⟩ := stands.drop
      rw [← List.drop_drop, rest] at occurs
      obtain rfl := is_frame.eq_of_prefix (frames _ stands.mem) occurs
      exact ⟨_, stands⟩
    · exfalso
      by_cases last : k + 1 = record.2.length
      · -- the second word would be the one that opens the next frame
        refine unopened (stands.next_opens frames ?_)
        rwa [← last]
      · have held := stands.getElem?_frame (show k + 1 < record.2.length by omega)
        rw [← Nat.add_assoc, first_there] at held
        exact absurd (((frames _ stands.mem).opens held.symm).mp opened) (Nat.succ_ne_zero k)
  · rintro ⟨free, stands⟩
    obtain ⟨after, rest⟩ := stands.drop
    rw [← List.drop_drop, rest]
    exact List.prefix_append _ _

theorem StandsAt.closed_before (stands : StandsAt records p record) :
    p = 0 ∨ ∃ word, (framed records)[p - 1]? = some word ∧ closes word := by
  obtain ⟨before, after, rfl, rfl⟩ := stands
  obtain rfl | ⟨init, ⟨free, frame⟩, rfl⟩ := List.eq_nil_or_concat' before
  · exact .inl rfl
  · obtain ⟨word, last, closed⟩ := (frames (free, frame) (by simp)).getElem_last
    have long : 2 ≤ frame.length := (frames (free, frame) (by simp)).long
    refine .inr ⟨word, ?_, closed⟩
    have place : (framed (init ++ [(free, frame)])).length - 1 = (framed init).length + (frame.length - 1 + 1) := by
      simp only [framed_append, framed, List.length_append, List.length_cons, List.length_nil]
      omega
    rw [place, framed_append, framed_append, List.append_assoc, List.getElem?_append_right (Nat.le_add_right _ _), Nat.add_sub_cancel_left]
    simp only [framed, List.append_nil, List.cons_append, List.getElem?_cons_succ]
    rwa [List.getElem?_append_left (by omega)]

theorem StandsAt.not_before_last (stands : StandsAt records p record) {k : Nat} (last : k + 1 = record.2.length)
    (behind : p + 1 + k = 0 ∨ ∃ word, (framed records)[p + 1 + k - 1]? = some word ∧ closes word) : False := by
  have long := (frames _ stands.mem).long
  obtain zero | ⟨word, before, closed⟩ := behind
  · omega
  · obtain ⟨i, rfl⟩ : ∃ i, k = i + 1 := ⟨k - 1, by omega⟩
    have held := stands.getElem?_frame (show i < record.2.length by omega)
    rw [show p + 1 + (i + 1) - 1 = p + 1 + i by omega, held] at before
    have ended := ((frames _ stands.mem).closes before).mp closed
    omega

theorem next_inside (inside : p < (framed records).length)
    (behind : p = 0 ∨ ∃ word, (framed records)[p - 1]? = some word ∧ closes word) : p + 1 < (framed records).length := by
  obtain ⟨q, record, stands, place⟩ := locate inside
  have long := (frames _ stands.mem).long
  have whole : q + 1 + record.2.length ≤ (framed records).length := by
    have last := stands.getElem?_frame (show record.2.length - 1 < record.2.length by omega)
    rw [List.getElem?_eq_getElem (show record.2.length - 1 < record.2.length by omega)] at last
    have reached := (List.getElem?_eq_some_iff.mp last).1
    omega
  rcases place with rfl | ⟨k, within, rfl⟩
  · omega
  · by_cases last : k + 1 = record.2.length
    · exact absurd (stands.not_before_last frames last behind) not_false
    · omega

theorem free_of_between (behind : p = 0 ∨ ∃ word, (framed records)[p - 1]? = some word ∧ closes word) {next : α}
    (follows : (framed records)[p + 1]? = some next) (opened : opens next) : ∃ record, StandsAt records p record := by
  have inside := (List.getElem?_eq_some_iff.mp follows).1
  obtain ⟨q, record, stands, rfl | ⟨k, within, rfl⟩⟩ := locate (show p < (framed records).length by omega)
  · exact ⟨record, stands⟩
  · exfalso
    by_cases last : k + 1 = record.2.length
    · exact stands.not_before_last frames last behind
    · have held := stands.getElem?_frame (show k + 1 < record.2.length by omega)
      rw [← Nat.add_assoc, follows] at held
      exact absurd (((frames _ stands.mem).opens held.symm).mp opened) (Nat.succ_ne_zero k)

end Positions

end Xpl.Library
