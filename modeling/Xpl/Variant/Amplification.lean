import Xpl.Library.Intervals
import Xpl.Variant.TableBounds

/-! When the children of a container share no bytes.

Nothing compares the entries of an offset table with each other. A table that steps
back lets two children cover the same bytes, unless the bytes that it steps over had only
been skipped.
-/

set_option autoImplicit false

namespace Xpl.Variant
open Xpl.Library
variable {value child : Serialised} {element : VariantType} {bytes : Bytes}
variable {alignment : Nat}

/-- The addresses that a value occupies. -/
def Serialised.extent (value : Serialised) : Nat × Nat :=
  (value.data.address, value.data.address + value.size)

theorem Data.IsPart.extent
    (part : child.data.IsPart value.data alignment) (backed : child.data.isNull = false) :
    ∃ start stop, start < stop ∧ stop ≤ value.size ∧ child.data = value.data.range start stop ∧
      child.extent = (value.data.address + start, value.data.address + stop) := by
  rcases part with null | ⟨start, stop, forward, inside, -, whole, same⟩
  · rw [null] at backed
    cases backed
  · have address : child.data.address = value.data.address + start := by
      rw [same, Data.address_range whole]
    have size : child.size = stop - start := by
      rw [Serialised.size, same]
      exact Data.size_range inside
    refine ⟨start, stop, forward, inside, same, ?_⟩
    rw [Serialised.extent, address, size]
    congr 1
    omega

/-- To the start of an element, and to its stored end; the tests of the source may leave the element without data. -/
def arrayStretch (alignment : Nat) (bytes : Bytes) (index : Nat) : Stretch where
  start := arrayStart alignment bytes index
  stop := arrayEntry bytes index
  kept := decide (arrayStart alignment bytes index < arrayEntry bytes index ∧ arrayEntry bytes index ≤ arrayLastEnd bytes)

/-! ## Tuples -/

/-- The bound on the ends of the items of a tuple. -/
def tupleEndBound (value : Serialised) : Nat :=
  (value.type.items.getLast?).elim 0 fun last => lastEndBound value value.type.items.dropLast last

/-- To the start of an item, and to its end; the tests of the source may leave the item without data. -/
def tupleStretch (value : Serialised) (index : Nat) : Stretch :=
  match value.type.items.drop index with
  | [] => { start := 0, stop := 0, kept := false }
  | item :: back =>
    { start := itemStart value (value.type.items.take index) item
      stop := itemStop value (value.type.items.take index) item back
      kept := !value.data.isNull && decide (ItemInside value (value.type.items.take index) item back ∧
        itemStop value (value.type.items.take index) item back ≤ tupleEndBound value) }

/-- The walk along the offset table of a value, if it has one. -/
def Serialised.walk (value : Serialised) : List Stretch :=
  match value.type with
  | .array element =>
    if element.fixedSize ≠ 0 then []
    else (List.range (arrayLength value.data.bytes)).map (arrayStretch element.alignment value.data.bytes)
  | .tuple items => (List.range items.length).map (tupleStretch value)
  | .dictEntry _ _ => (List.range 2).map (tupleStretch value)
  | _ => []

end Xpl.Variant
