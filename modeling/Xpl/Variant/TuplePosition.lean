import Mathlib.Data.List.Induction
import Xpl.Variant.Safety

/-! The walk over the items of a tuple: where each item starts, according to the ends that
are stored in a value. -/

set_option autoImplicit false

namespace Xpl.Variant
open Xpl.Library

/-- The offset and the number of stored ends after an item. -/
def tupleStep (value : Serialised) (position : Nat × Nat) (item : VariantType) : Nat × Nat :=
  if item.fixedSize ≠ 0 then (roundUp position.1 item.alignment + item.fixedSize, position.2)
  else ((gvsTupleOffset value (position.2 + 1)).getD 0, position.2 + 1)

/-- Where the items of a tuple leave off, according to the stored ends. -/
def tuplePosition (value : Serialised) (front : List VariantType) : Nat × Nat :=
  front.foldl (tupleStep value) (0, 0)

theorem tuplePosition_append (value : Serialised) (front : List VariantType) (item : VariantType) :
    tuplePosition value (front ++ [item]) = tupleStep value (tuplePosition value front) item := by
  simp [tuplePosition]

theorem variableCount_append (front : List VariantType) (item : VariantType) :
    variableCount (front ++ [item]) = variableCount front + if item.fixedSize = 0 then 1 else 0 := by
  simp [variableCount, List.countP_append, List.countP_cons]

theorem tuplePosition_count (value : Serialised) (front : List VariantType) :
    (tuplePosition value front).2 = variableCount front := by
  induction front using List.reverseRecOn with
  | nil => rfl
  | append_singleton front item ih =>
    rw [tuplePosition_append, variableCount_append, tupleStep]
    by_cases fixed : item.fixedSize = 0 <;> simp [fixed, ih]

theorem stateAfter_append (front : List VariantType) (item : VariantType) :
    stateAfter (front ++ [item]) = (stateAfter front).pass item.info := by
  simp [stateAfter]

/-- The table of constants follows the stored ends. -/
theorem tracks_tuplePosition {value : Serialised} (backed : value.data.isNull = true → value.data.size = 0)
    (front : List VariantType) (room : gvsGetOffsetSize value.size * variableCount front ≤ value.size) :
    ∃ prevEnd, (stateAfter front).Tracks prevEnd (tuplePosition value front).1 ∧
      (if variableCount front ≠ 0 then gvsTupleOffset value (variableCount front) else some 0) = some prevEnd := by
  induction front using List.reverseRecOn with
  | nil => exact ⟨0, TableState.tracks_run (-1) 0, rfl⟩
  | append_singleton front item ih =>
    rw [variableCount_append] at room ⊢
    rw [stateAfter_append, tuplePosition_append, tupleStep, TableState.pass]
    by_cases fixed : item.fixedSize = 0
    · rw [if_pos fixed] at room ⊢
      obtain ⟨stop, read⟩ := gvsTupleOffset_inside backed (Nat.succ_pos _) room
      refine ⟨stop, ?_, by rw [if_pos (Nat.succ_ne_zero _), read]⟩
      rw [if_neg (not_not.mpr fixed), tuplePosition_count, read, show item.info.fixedSize = 0 from fixed]
      exact .advance_variable _ stop
    · rw [if_neg fixed, Nat.add_zero] at room ⊢
      obtain ⟨prevEnd, tracks, read⟩ := ih room
      refine ⟨prevEnd, ?_, read⟩
      rw [if_pos fixed]
      exact (tracks.align item.alignment_isAlignment).advance fixed

theorem gvsTuplePrevEnd_eq (value : Serialised) (front back : List VariantType) (item : VariantType) :
    gvsTuplePrevEnd value (memberAt front item back) =
      if variableCount front ≠ 0 then gvsTupleOffset value (variableCount front) else some 0 := by
  have index := memberAt_i front back item
  have count : ((memberAt front item back).i + 1).toNat = variableCount front := by omega
  have zero : (memberAt front item back).i + 1 ≠ 0 ↔ variableCount front ≠ 0 := by omega
  rw [gvsTuplePrevEnd, count]
  simp only [zero]

theorem gvsTupleChild_place {value child : Serialised} {front back : List VariantType} {item : VariantType}
    {lastEnd : Nat → Option Nat} (decoded : gvsTupleChild value (memberAt front item back) lastEnd = some child)
    (backed : child.data.isNull = false) :
    (value.data.isNull = true → value.data.size = 0) ∧
    gvsGetOffsetSize value.size * variableCount front ≤ value.size ∧
    ∃ prevEnd stop, gvsTuplePrevEnd value (memberAt front item back) = some prevEnd ∧
      gvsTupleEnd value (memberAt front item back) ((memberAt front item back).start prevEnd) = some stop ∧
      (memberAt front item back).start prevEnd < stop ∧ stop ≤ value.size ∧
      (∃ bound, lastEnd stop = some bound ∧ stop ≤ bound) ∧
      ((memberAt front item back).ending = .offset →
        gvsGetOffsetSize value.size * (variableCount front + 1) ≤ value.size) ∧
      child.data = value.data.range ((memberAt front item back).start prevEnd) stop := by
  have index := memberAt_i front back item
  set m := memberAt front item back with m_def
  have count : (m.i + 1).toNat = variableCount front := by omega
  have next : (m.i + 2).toNat = variableCount front + 1 := by omega
  unfold gvsTupleChild at decoded
  simp only [count, next] at decoded
  split at decoded
  case isTrue missing =>
    split at decoded
    · cases decoded
      cases backed
    · cases decoded
  case isFalse present =>
    split at decoded
    case isTrue =>
      cases decoded
      cases backed
    case isFalse room =>
      split at decoded
      case isTrue =>
        cases decoded
        cases backed
      case isFalse table =>
        obtain ⟨prevEnd, read, decoded⟩ := Option.bind_eq_some_iff.mp decoded
        obtain ⟨stop, found, decoded⟩ := Option.bind_eq_some_iff.mp decoded
        obtain ⟨bound, limit, decoded⟩ := Option.bind_eq_some_iff.mp decoded
        cases decoded
        split at backed
        case isFalse => cases backed
        case isTrue forward =>
          have through : m.ending = .offset →
              gvsGetOffsetSize value.size * (variableCount front + 1) ≤ value.size := fun offset => by
            by_contra more
            exact room ⟨offset, by omega⟩
          refine ⟨fun null => ?_, ?_, prevEnd, stop, read, found, forward.1, forward.2.1, ⟨bound, limit, forward.2.2⟩,
            through, if_pos forward⟩
          · by_contra size
            exact present ⟨null, size⟩
          · by_cases offset : m.ending = .offset
            · exact Nat.le_trans (Nat.mul_le_mul_left _ (Nat.le_succ _)) (through offset)
            · by_contra more
              exact table ⟨offset, by omega⟩

end Xpl.Variant
