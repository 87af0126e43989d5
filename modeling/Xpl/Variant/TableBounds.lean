import Xpl.Variant.TuplePosition

/-! The children of a tuple and its offset table.

The end of a child is bounded only through the last child. That child may have no data,
and where it is of fixed size its own end is not compared with the table.
-/

set_option autoImplicit false

namespace Xpl.Variant
open Xpl.Library
variable {value : Serialised}

/-- Where the stored ends place an item of a tuple. -/
def itemStart (value : Serialised) (front : List VariantType) (item : VariantType) : Nat :=
  roundUp (tuplePosition value front).1 item.alignment % wordSize

def itemStop (value : Serialised) (front : List VariantType) (item : VariantType) (back : List VariantType) : Nat :=
  match memberEnding item back with
  | .last => value.size - gvsGetOffsetSize value.size * variableCount front
  | .fixed => (itemStart value front item + item.fixedSize) % wordSize
  | .offset => (gvsTupleOffset value (variableCount front + 1)).getD 0

def endsNeeded (front : List VariantType) (item : VariantType) (back : List VariantType) : Nat :=
  variableCount front + if memberEnding item back = .offset then 1 else 0

structure ItemInside (value : Serialised) (front : List VariantType) (item : VariantType)
    (back : List VariantType) : Prop where
  room : gvsGetOffsetSize value.size * endsNeeded front item back ≤ value.size
  forward : itemStart value front item < itemStop value front item back
  inside : itemStop value front item back ≤ value.size

instance (value : Serialised) (front : List VariantType) (item : VariantType) (back : List VariantType) :
    Decidable (ItemInside value front item back) :=
  decidable_of_iff (gvsGetOffsetSize value.size * endsNeeded front item back ≤ value.size ∧
      itemStart value front item < itemStop value front item back ∧ itemStop value front item back ≤ value.size)
    ⟨fun h => ⟨h.1, h.2.1, h.2.2⟩, fun h => ⟨h.room, h.forward, h.inside⟩⟩

/-- A member for which the table has room is decoded from its place. -/
theorem gvsTupleChild_eq (present : value.data.isNull = false)
    (front : List VariantType) (item : VariantType) (back : List VariantType) {lastEnd : Nat → Option Nat}
    {bound : Nat} (limit : lastEnd (itemStop value front item back) = some bound) :
    gvsTupleChild value (memberAt front item back) lastEnd = some
      { type := item
        data := if ItemInside value front item back ∧ itemStop value front item back ≤ bound then
            value.data.range (itemStart value front item) (itemStop value front item back)
          else .null item.fixedSize
        depth := value.depth + 1 } := by
  have index := memberAt_i front back item
  have ending : (memberAt front item back).ending = memberEnding item back := rfl
  have count : ((memberAt front item back).i + 1).toNat = variableCount front := by omega
  have next : ((memberAt front item back).i + 2).toNat = variableCount front + 1 := by omega
  have nothing : ¬(value.data.isNull = true ∧ value.size ≠ 0) := by simp [present]
  have backed : value.data.isNull = true → value.data.size = 0 := by simp [present]
  have fixed_only : memberEnding item back ≠ .fixed → item.fixedSize = 0 := by
    intro other
    by_contra fixed
    exact other ((@memberAt_ending_fixed front back item).mpr fixed)
  unfold gvsTupleChild
  rw [if_neg nothing, ending, memberAt_type, memberAt_typeInfo]
  by_cases room : gvsGetOffsetSize value.size * endsNeeded front item back ≤ value.size
  · obtain ⟨before, through⟩ : gvsGetOffsetSize value.size * variableCount front ≤ value.size ∧
        (memberEnding item back = .offset → gvsGetOffsetSize value.size * (variableCount front + 1) ≤ value.size) := by
      rw [endsNeeded] at room
      exact ⟨Nat.le_trans (Nat.mul_le_mul_left _ (Nat.le_add_right _ _)) room, fun offset => by rwa [if_pos offset] at room⟩
    obtain ⟨prevEnd, tracks, same⟩ := tracks_tuplePosition backed front before
    have previous : gvsTuplePrevEnd value (memberAt front item back) = some prevEnd := by
      rw [gvsTuplePrevEnd_eq, same]
    have start : (memberAt front item back).start prevEnd = itemStart value front item :=
      (tracks.align item.alignment_isAlignment).start _
    have stop : gvsTupleEnd value (memberAt front item back) (itemStart value front item) =
        some (itemStop value front item back) := by
      rw [gvsTupleEnd, itemStop, ending]
      cases kind : memberEnding item back with
      | last => rw [count]
      | fixed => rfl
      | offset =>
        obtain ⟨offset, read⟩ := gvsTupleOffset_inside backed (Nat.succ_pos _) (through kind)
        rw [next]
        simp [read]
    rw [if_neg fun short => ?_, if_neg fun short => ?_]
    · simp only [previous, start, stop, limit, some_bind]
      congr 2
      by_cases placed : itemStart value front item < itemStop value front item back ∧
          itemStop value front item back ≤ value.size ∧ itemStop value front item back ≤ bound
      · rw [if_pos placed, if_pos ⟨⟨room, placed.1, placed.2.1⟩, placed.2.2⟩]
      · have other : ¬(ItemInside value front item back ∧ itemStop value front item back ≤ bound) := fun h =>
          placed ⟨h.1.forward, h.1.inside, h.2⟩
        rw [if_neg placed, if_neg other]
        split
        case isTrue => rfl
        case isFalse varies => rw [fixed_only varies]
    · rw [count] at short
      omega
    · rw [next] at short
      exact absurd (through short.1) (by omega)
  · have absent : ¬(ItemInside value front item back ∧ itemStop value front item back ≤ bound) := fun h => room h.1.room
    rw [if_neg absent]
    rw [endsNeeded] at room
    by_cases offset : memberEnding item back = .offset
    · rw [if_pos offset] at room
      rw [if_pos ⟨offset, by rw [next]; omega⟩,
        fixed_only (by rw [offset]; decide)]
    · rw [if_neg offset, Nat.add_zero] at room
      rw [if_neg fun h => offset h.1,
        if_pos ⟨offset, by rw [count]; omega⟩]
      rfl

def lastEndBound (value : Serialised) (init : List VariantType) (last : VariantType) : Nat :=
  if ItemInside value init last [] then itemStop value init last []
  else (last.fixedSize + (wordSize - value.data.address)) % wordSize

theorem gvsTupleLastChild_eq (present : value.data.isNull = false) {init : List VariantType}
    {last : VariantType} (ends : value.type.items = init ++ [last]) :
    gvsTupleLastChild value = some
      { type := last
        data := if ItemInside value init last [] then
            value.data.range (itemStart value init last) (itemStop value init last [])
          else .null last.fixedSize
        depth := value.depth + 1 } := by
  rw [gvsTupleLastChild, members_getLast? ends, some_bind,
    gvsTupleChild_eq present init last [] rfl]
  simp only [Nat.le_refl, and_true]

theorem gvsTupleGetChild_eq (present : value.data.isNull = false)
    (placed : value.data.address + value.size ≤ wordSize) (fits : value.size < wordSize)
    {init : List VariantType} {last : VariantType} (ends : value.type.items = init ++ [last])
    {front back : List VariantType} {item : VariantType} (shape : value.type.items = front ++ item :: back) :
    gvsTupleGetChild value front.length = some
      { type := item
        data := if ItemInside value front item back ∧ itemStop value front item back ≤ lastEndBound value init last then
            value.data.range (itemStart value front item) (itemStop value front item back)
          else .null item.fixedSize
        depth := value.depth + 1 } := by
  have length : value.type.members.length = front.length + (back.length + 1) := by
    rw [length_members, shape, List.length_append, List.length_cons]
  rw [gvsTupleGetChild, members_getElem? shape, some_bind, length]
  cases back with
  | nil =>
    obtain ⟨rfl, same⟩ := List.append_inj' (shape.symm.trans ends) rfl
    cases same
    have own : ItemInside value front last [] → itemStop value front last [] ≤ lastEndBound value front last := by
      intro inside
      rw [lastEndBound, if_pos inside]
    rw [if_neg (by simp), gvsTupleChild_eq present front last [] rfl]
    simp only [Nat.le_refl, and_true, and_iff_left_of_imp own]
  | cons next rest =>
    rw [if_pos (by simp), gvsTupleLastChild_eq present ends]
    refine gvsTupleChild_eq present front item (next :: rest) ?_
    simp only [some_bind, lastEndBound]
    congr 1
    split
    case isFalse => simp [Data.address, Serialised.size, Data.size]
    case isTrue inside =>
      have forward := inside.forward
      have within := inside.inside
      have difference : value.data.address + itemStart value init last +
          (itemStop value init last [] - itemStart value init last) + (wordSize - value.data.address) =
            itemStop value init last [] + wordSize := by omega
      rw [Data.address_range present, Serialised.size, Data.size_range inside.inside, difference,
        Nat.add_mod_right, Nat.mod_eq_of_lt (by omega)]

/-- Every child that has data ends before the stored ends. -/
def Serialised.ChildrenClear (value : Serialised) : Prop :=
  ∀ index child, gvsTupleGetChild value index = some child → child.data.isNull = false →
    child.data.address + child.size + gvsGetOffsetSize value.size * variableCount value.type.items.dropLast ≤
      value.data.address + value.size

/-- The last item lies inside the value and ends before the table, or it does not lie there, and no other item
that does ends in the table. -/
def Serialised.TableClear (value : Serialised) : Prop :=
  ∀ init last, value.type.items = init ++ [last] →
    if ItemInside value init last [] then
      itemStop value init last [] + gvsGetOffsetSize value.size * variableCount init ≤ value.size
    else ∀ front item back, value.type.items = front ++ item :: back → ItemInside value front item back →
      itemStop value front item back ≤ (last.fixedSize + (wordSize - value.data.address)) % wordSize →
      itemStop value front item back + gvsGetOffsetSize value.size * variableCount init ≤ value.size

/-- The children of a tuple stay clear of its offset table if and only if the stored ends say so. -/
theorem childrenClear_iff (value : Serialised) (present : value.data.isNull = false)
    (placed : value.data.address + value.size ≤ wordSize) (fits : value.size < wordSize) :
    value.ChildrenClear ↔ value.TableClear := by
  have extent : ∀ {start stop : Nat} {child : Serialised}, child.data = value.data.range start stop → start < stop →
      stop ≤ value.size → child.data.address + child.size = value.data.address + stop := by
    intro start stop child data forward inside
    rw [Serialised.size, data, Data.address_range present, Data.size_range inside]
    omega
  constructor
  · intro clear init last ends
    -- An item inside the value and the bound is the data of a child.
    have child_clear : ∀ front item back, value.type.items = front ++ item :: back → ItemInside value front item back →
        itemStop value front item back ≤ lastEndBound value init last →
        itemStop value front item back + gvsGetOffsetSize value.size * variableCount init ≤ value.size := by
      intro front item back shape inside below
      have found := gvsTupleGetChild_eq present placed fits ends shape
      rw [if_pos ⟨inside, below⟩] at found
      have bounded := clear _ _ found (by rw [Data.isNull_range, present])
      rw [extent rfl inside.forward inside.inside, ends, List.dropLast_concat] at bounded
      omega
    split
    case isTrue inside =>
      exact child_clear init last [] ends inside (by rw [lastEndBound, if_pos inside])
    case isFalse absent =>
      intro front item back shape inside below
      exact child_clear front item back shape inside (by rwa [lastEndBound, if_neg absent])
  · intro table index child found backed
    obtain ⟨front, item, back, shape, rfl⟩ : ∃ front item back, value.type.items = front ++ item :: back ∧
        front.length = index := by
      obtain ⟨member, entry, -⟩ := Option.bind_eq_some_iff.mp found
      obtain ⟨front, item, back, shape, place, -⟩ := exists_memberAt entry
      exact ⟨front, item, back, shape, place⟩
    obtain ⟨init, last, ends⟩ : ∃ init last, value.type.items = init ++ [last] :=
      ⟨_, _, (List.dropLast_append_getLast (by simp [shape])).symm⟩
    rw [gvsTupleGetChild_eq present placed fits ends shape, Option.some.injEq] at found
    have data := congrArg Serialised.data found
    split at data
    case isFalse =>
      rw [← data] at backed
      cases backed
    case isTrue reached =>
      obtain ⟨inside, below⟩ := reached
      have clear := table init last ends
      rw [extent data.symm inside.forward inside.inside, ends, List.dropLast_concat]
      rw [lastEndBound] at below
      split at below
      case isTrue final =>
        rw [if_pos final] at clear
        omega
      case isFalse absent =>
        rw [if_neg absent] at clear
        have bounded := clear front item back shape inside below
        omega

def twoArrays (bytes : Bytes) : Serialised :=
  { type := .tuple [.array (.basic .byte), .array (.basic .byte)], data := .span 16 bytes, depth := 0 }

theorem childrenClear_twoArrays : (twoArrays [5, 6, 1]).ChildrenClear := by
  refine (childrenClear_iff (twoArrays [5, 6, 1]) (by decide) (by decide) (by decide)).mpr fun init last ends => ?_
  have shape : [VariantType.array (.basic .byte)] ++ [VariantType.array (.basic .byte)] = init ++ [last] := ends
  obtain ⟨rfl, same⟩ := List.append_inj' shape rfl
  cases same
  have inside : ItemInside (twoArrays [5, 6, 1]) [.array (.basic .byte)] (.array (.basic .byte)) [] := by decide
  rw [if_pos inside]
  decide

/-- The last array is empty, and so does not bound the first, whose stored end lies behind the table. -/
theorem twoArrays_not_clear : ¬∀ value : Serialised, value.type.isTuple = true → xvariantSerialisedCheck value = true →
    value.type.alignment + 1 ∣ value.data.address → value.data.isNull = false →
    value.data.address + value.size ≤ wordSize → value.size < wordSize → value.ChildrenClear := by
  intro claim
  have clear := claim (twoArrays [0, 2]) rfl (by decide) (by decide) rfl (by decide) (by decide)
  have found : gvsTupleGetChild (twoArrays [0, 2]) 0 = some
      { type := .array (.basic .byte), data := .span 16 [0, 2], depth := 1 } := by rfl
  have bounded := clear 0 _ found rfl
  revert bounded
  decide

end Xpl.Variant
