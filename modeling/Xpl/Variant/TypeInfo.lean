import Mathlib.Data.Nat.Bitwise
import Xpl.Library.Layout
import Xpl.Variant.TypeString

/-! Alignment and fixed size of every definite type, and the table of constants
that finds the members of a tuple.

A type info is identified with its type: `Xpl.Variant.TypeInfoTable` proves that
the program keeps one info per type string.
-/

set_option autoImplicit false

namespace Xpl.Variant
open Xpl.Library

/-- `fixedSize` is zero for a variable-sized type; `alignment` is in "one less"
form. -/
structure TypeInfo where
  fixedSize : Nat
  alignment : Nat
  deriving DecidableEq, Repr

/-- How the end of a tuple member is found. -/
inductive Ending where
  | fixed | last | offset
  deriving DecidableEq, Repr

/-- `b` is stored in a signed byte, as the complement of a mask. -/
structure MemberInfo where
  type : VariantType
  typeInfo : TypeInfo
  i : Int
  a : Nat
  b : Int
  c : Nat
  ending : Ending

/-- The row of `xvariant_type_info_basic_table` for a basic type. -/
def Basic.info : Basic → TypeInfo
  | .boolean | .byte => ⟨1, 0⟩
  | .int16 | .uint16 => ⟨2, 1⟩
  | .int32 | .uint32 | .handle => ⟨4, 3⟩
  | .int64 | .uint64 | .double => ⟨8, 7⟩
  | .string | .objectPath | .signature => ⟨0, 0⟩

def tupleAllocateMembers : List (VariantType × TypeInfo) → List MemberInfo
  | [] => []
  | (type, info) :: items =>
    { type := type, typeInfo := info, i := 0, a := 0, b := 0, c := 0
      ending := if info.fixedSize ≠ 0 then .fixed else if items.isEmpty then .last else .offset } ::
      tupleAllocateMembers items

/-- The loop variables of `tuple_generate_table`. -/
structure TableState where
  i : Int
  a : Nat
  b : Nat
  c : Nat

def tupleAlign (offset alignment : Nat) : Nat := alignUp offset alignment

/-- Rules 1 and 2: align to `d`. -/
def TableState.align (s : TableState) (d : Nat) : TableState :=
  if d ≤ s.b then { s with c := tupleAlign s.c d }
  else { s with a := s.a + tupleAlign s.c s.b, b := d, c := 0 }

/-- Move past an item of size `e`; a variable-sized one starts a new run. -/
def TableState.advance (s : TableState) (e : Nat) : TableState :=
  if e = 0 then { i := s.i + 1, a := 0, b := 0, c := 0 } else { s with c := s.c + e }

def TableState.pass (s : TableState) (info : TypeInfo) : TableState :=
  (s.align info.alignment).advance info.fixedSize

def tupleTableAppend (item : MemberInfo) (s : TableState) : MemberInfo :=
  -- `~b & c` moves the aligned part of `c` into `a`.
  { item with i := s.i, a := s.a + (s.c - (s.c &&& s.b)) + s.b, b := -(s.b + 1), c := s.c &&& s.b }

def tupleGenerateTable : TableState → List MemberInfo → List MemberInfo
  | _, [] => []
  | s, item :: items =>
    tupleTableAppend item (s.align item.typeInfo.alignment) ::
      tupleGenerateTable (s.pass item.typeInfo) items

def TableState.initial : TableState := { i := -1, a := 0, b := 0, c := 0 }

/-- A signed byte used as an operand of 64-bit arithmetic. -/
def signExtend (value : Int) : Nat := (value % 2 ^ 64).toNat

/-- `((prev_end + a) & b) | c`. -/
def MemberInfo.start (m : MemberInfo) (prevEnd : Nat) : Nat :=
  ((prevEnd + m.a) % 2 ^ 64 &&& signExtend m.b) ||| m.c

def tupleSetBaseInfo (members : List MemberInfo) : TypeInfo :=
  match members.getLast? with
  | none => { fixedSize := 1, alignment := 0 }
  | some m =>
    let alignment := members.foldl (fun mask member => mask ||| member.typeInfo.alignment) 0
    { alignment := alignment
      fixedSize :=
        if m.i = -1 ∧ m.typeInfo.fixedSize ≠ 0 then
          tupleAlign (m.start 0 + m.typeInfo.fixedSize) alignment % 2 ^ 64
        else 0 }

def tupleInfoNew (items : List (VariantType × TypeInfo)) : List MemberInfo :=
  tupleGenerateTable .initial (tupleAllocateMembers items)

mutual
def VariantType.info : VariantType → TypeInfo
  | .basic b => b.info
  | .variant => { fixedSize := 0, alignment := 7 }
  | .maybe element => { fixedSize := 0, alignment := element.info.alignment }
  | .array element => { fixedSize := 0, alignment := element.info.alignment }
  | .tuple items => tupleSetBaseInfo (tupleInfoNew (VariantType.infos items))
  | .dictEntry key value => tupleSetBaseInfo (tupleInfoNew [(.basic key, key.info), (value, value.info)])

def VariantType.infos : List VariantType → List (VariantType × TypeInfo)
  | [] => []
  | item :: items => (item, item.info) :: VariantType.infos items
end

/-- The items of a tuple, or the key and the value of a dictionary entry. -/
def VariantType.items : VariantType → List VariantType
  | .tuple items => items
  | .dictEntry key value => [.basic key, value]
  | _ => []

/-- The table that `xvariant_type_info_member_info` indexes. -/
def VariantType.members (t : VariantType) : List MemberInfo := tupleInfoNew (VariantType.infos t.items)

/-- Types with an info of their own; the others are rows of the static table. -/
def VariantType.isContainer : VariantType → Bool
  | .basic _ | .variant => false
  | _ => true

def xvariantTypeInfoQueryDepth (t : VariantType) : Nat :=
  if t.isContainer then xvariantTypeStringGetDepth t.string else 1

def VariantType.fixedSize (t : VariantType) : Nat := t.info.fixedSize
def VariantType.alignment (t : VariantType) : Nat := t.info.alignment

theorem VariantType.infos_eq_map (items : List VariantType) :
    VariantType.infos items = items.map fun item => (item, item.info) := by
  induction items with
  | nil => rfl
  | cons item items ih => simp [VariantType.infos, ih]

/-! ## The table finds the members -/

/-- The alignments that `xvariant_type_info_check` admits. -/
def IsAlignment (mask : Nat) : Prop := mask = 0 ∨ mask = 1 ∨ mask = 3 ∨ mask = 7

theorem IsAlignment.isMask {mask : Nat} (h : IsAlignment mask) : IsMask mask := by
  rcases h with rfl | rfl | rfl | rfl
  · exact isMask_zero
  · exact isMask_one
  · exact isMask_three
  · exact isMask_seven

theorem IsAlignment.or {first second : Nat} (h : IsAlignment first) (g : IsAlignment second) :
    IsAlignment (first ||| second) ∧ first ≤ first ||| second ∧ second ≤ first ||| second := by
  rcases h with rfl | rfl | rfl | rfl <;> rcases g with rfl | rfl | rfl | rfl <;>
    exact ⟨by unfold IsAlignment; decide, by decide, by decide⟩

/-- The loop variables lead from the end of the last variable-sized item to the
current offset: add `a`, align to `b`, add `c`. -/
structure TableState.Tracks (s : TableState) (prevEnd offset : Nat) : Prop where
  mask : IsAlignment s.b
  reach : offset = roundUp (prevEnd + s.a) s.b + s.c

theorem TableState.tracks_run (i : Int) (offset : Nat) :
    ({ i := i, a := 0, b := 0, c := 0 } : TableState).Tracks offset offset :=
  ⟨Or.inl rfl, by simp [roundUp]⟩

theorem TableState.Tracks.align {s : TableState} {prevEnd offset d : Nat} (h : s.Tracks prevEnd offset)
    (mask : IsAlignment d) : (s.align d).Tracks prevEnd (roundUp offset d) := by
  obtain ⟨seen, rfl⟩ := h
  rw [TableState.align]
  split
  case isTrue below =>
    -- The run so far is a multiple of the larger alignment.
    refine ⟨seen, ?_⟩
    have divides := mask.isMask.dvd_of_le seen.isMask below
    rw [roundUp_add_of_dvd (Nat.dvd_trans divides (dvd_roundUp _ _))]
    simp only [tupleAlign, alignUp_eq_roundUp mask.isMask]
  case isFalse above =>
    refine ⟨mask, ?_⟩
    have divides := seen.isMask.dvd_of_le mask.isMask (by omega)
    simp only [tupleAlign, alignUp_eq_roundUp seen.isMask, Nat.add_zero]
    calc roundUp (roundUp (prevEnd + s.a) s.b + s.c) d
        = roundUp (roundUp (roundUp (prevEnd + s.a) s.b + s.c) s.b) d := (roundUp_roundUp divides).symm
      _ = roundUp (roundUp (roundUp s.c s.b + (prevEnd + s.a)) s.b) d := by
        rw [roundUp_add_of_dvd (dvd_roundUp _ _), roundUp_add_of_dvd (dvd_roundUp _ _), Nat.add_comm]
      _ = roundUp (prevEnd + (s.a + roundUp s.c s.b)) d := by
        rw [roundUp_roundUp divides]
        congr 1
        omega

theorem TableState.Tracks.advance {s : TableState} {prevEnd offset e : Nat} (h : s.Tracks prevEnd offset)
    (fixed : e ≠ 0) : (s.advance e).Tracks prevEnd (offset + e) := by
  obtain ⟨seen, rfl⟩ := h
  rw [TableState.advance, if_neg fixed]
  exact ⟨seen, by simp [Nat.add_assoc]⟩

theorem TableState.Tracks.advance_variable (s : TableState) (stop : Nat) : (s.advance 0).Tracks stop stop :=
  tracks_run (s.i + 1) stop

theorem signExtend_complement {mask : Nat} (h : IsAlignment mask) :
    signExtend (-(mask + 1)) = 2 ^ 64 - (mask + 1) := by
  rcases h with rfl | rfl | rfl | rfl <;> decide

theorem tupleTableAppend_start {s : TableState} (mask : IsAlignment s.b) (item : MemberInfo) (prevEnd : Nat) :
    (tupleTableAppend item s).start prevEnd =
      (prevEnd + (tupleTableAppend item s).a) % 2 ^ 64 / (s.b + 1) * (s.b + 1) + s.c % (s.b + 1) := by
  have word := Nat.mod_lt (prevEnd + (tupleTableAppend item s).a) (by decide : 0 < 2 ^ 64)
  have low := Nat.mod_lt s.c (Nat.add_one_pos s.b)
  rw [MemberInfo.start]
  simp only [tupleTableAppend] at word ⊢
  rw [signExtend_complement mask, mask.isMask.and_compl word, mask.isMask.and_eq_mod,
    mask.isMask.or_eq_add (Nat.dvd_mul_left _ _) (by omega)]

theorem TableState.Tracks.start {s : TableState} {prevEnd offset : Nat} (h : s.Tracks prevEnd offset)
    (item : MemberInfo) : (tupleTableAppend item s).start prevEnd = offset % 2 ^ 64 := by
  obtain ⟨mask, rfl⟩ := h
  have divides := mask.isMask.dvd_word
  have split := Nat.div_add_mod s.c (s.b + 1)
  have low := Nat.mod_lt s.c (Nat.add_one_pos s.b)
  rw [tupleTableAppend_start mask]
  -- Dividing the wrapped sum rounds the unwrapped one up.
  have rounded : (prevEnd + (tupleTableAppend item s).a) / (s.b + 1) * (s.b + 1) =
      roundUp (prevEnd + s.a) s.b + (s.b + 1) * (s.c / (s.b + 1)) := by
    rw [Nat.add_comm (roundUp _ _), ← roundUp_add_of_dvd (Nat.dvd_mul_right _ _), roundUp]
    congr 2
    simp only [tupleTableAppend, mask.isMask.and_eq_mod]
    omega
  have wrapped : (prevEnd + (tupleTableAppend item s).a) % 2 ^ 64 / (s.b + 1) * (s.b + 1) =
      (roundUp (prevEnd + s.a) s.b + (s.b + 1) * (s.c / (s.b + 1))) % 2 ^ 64 := by
    rw [← rounded]
    exact mod_div_mul divides _
  have whole : roundUp (prevEnd + s.a) s.b + s.c =
      roundUp (prevEnd + s.a) s.b + (s.b + 1) * (s.c / (s.b + 1)) + s.c % (s.b + 1) := by omega
  rw [wrapped, whole]
  exact (mod_add_of_dvd divides (Nat.dvd_add (dvd_roundUp _ _) (Nat.dvd_mul_right _ _)) low).symm

theorem tupleGenerateTable_append (s : TableState) (front back : List MemberInfo) :
    tupleGenerateTable s (front ++ back) =
      tupleGenerateTable s front ++
        tupleGenerateTable (front.foldl (fun s item => s.pass item.typeInfo) s) back := by
  induction front generalizing s with
  | nil => rfl
  | cons item front ih => simp [tupleGenerateTable, ih]

theorem tupleGenerateTable_map (s : TableState) (items : List MemberInfo) :
    (tupleGenerateTable s items).map (fun m => (m.type, m.typeInfo, m.ending)) =
      items.map fun m => (m.type, m.typeInfo, m.ending) := by
  induction items generalizing s with
  | nil => rfl
  | cons item items ih => simp [tupleGenerateTable, tupleTableAppend, ih]

theorem tupleAllocateMembers_map (items : List (VariantType × TypeInfo)) :
    (tupleAllocateMembers items).map (fun m => (m.type, m.typeInfo)) = items := by
  induction items with
  | nil => rfl
  | cons item items ih => simp [tupleAllocateMembers, ih]

theorem tupleAllocateMembers_append (front back : List (VariantType × TypeInfo)) (more : back ≠ []) :
    tupleAllocateMembers (front ++ back) =
      front.map (fun item => { type := item.1, typeInfo := item.2, i := 0, a := 0, b := 0, c := 0
                               ending := if item.2.fixedSize ≠ 0 then .fixed else .offset }) ++
        tupleAllocateMembers back := by
  induction front with
  | nil => rfl
  | cons item front ih => simp [tupleAllocateMembers, ih, more]

/-- The loop variables when the item after `front` is reached. -/
def stateAfter (front : List VariantType) : TableState :=
  front.foldl (fun s item => s.pass item.info) .initial

/-- The table entry of an item. -/
def memberAt (front : List VariantType) (item : VariantType) (back : List VariantType) : MemberInfo :=
  tupleTableAppend
    { type := item, typeInfo := item.info, i := 0, a := 0, b := 0, c := 0
      ending := if item.fixedSize ≠ 0 then .fixed else if back.isEmpty then .last else .offset }
    ((stateAfter front).align item.alignment)

theorem length_tupleGenerateTable (s : TableState) (items : List MemberInfo) :
    (tupleGenerateTable s items).length = items.length := by
  have same := congrArg List.length (tupleGenerateTable_map s items)
  rwa [List.length_map, List.length_map] at same

theorem tupleInfoNew_append (front back : List VariantType) (item : VariantType) :
    ∃ before after, tupleInfoNew (VariantType.infos (front ++ item :: back)) =
      before ++ memberAt front item back :: after ∧ before.length = front.length := by
  rw [tupleInfoNew, VariantType.infos_eq_map, List.map_append, List.map_cons,
    tupleAllocateMembers_append _ _ (List.cons_ne_nil _ _), tupleGenerateTable_append,
    tupleAllocateMembers, tupleGenerateTable]
  refine ⟨_, _, congrArg₂ _ rfl (congrArg₂ List.cons ?_ rfl), by simp [length_tupleGenerateTable]⟩
  simp only [memberAt, stateAfter, List.isEmpty_map, List.foldl_map]
  rfl

theorem length_members (t : VariantType) : t.members.length = t.items.length := by
  have same := congrArg List.length (tupleAllocateMembers_map (VariantType.infos t.items))
  rw [List.length_map] at same
  rw [VariantType.members, tupleInfoNew, length_tupleGenerateTable, same, VariantType.infos_eq_map,
    List.length_map]

theorem members_getElem? {t : VariantType} {front back : List VariantType} {item : VariantType}
    (shape : t.items = front ++ item :: back) : t.members[front.length]? = some (memberAt front item back) := by
  obtain ⟨before, after, split, length⟩ := tupleInfoNew_append front back item
  rw [VariantType.members, shape, split, ← length, List.getElem?_append_right (Nat.le_refl _), Nat.sub_self]
  rfl

theorem exists_memberAt {t : VariantType} {index : Nat} {m : MemberInfo} (entry : t.members[index]? = some m) :
    ∃ front item back, t.items = front ++ item :: back ∧ front.length = index ∧
      m = memberAt front item back := by
  obtain ⟨bound, -⟩ := List.getElem?_eq_some_iff.mp entry
  rw [length_members] at bound
  have shape : t.items = t.items.take index ++ t.items[index] :: t.items.drop (index + 1) := by
    rw [List.getElem_cons_drop, List.take_append_drop]
  have place : (t.items.take index).length = index := by simp; omega
  have found := members_getElem? shape
  rw [place, entry, Option.some.injEq] at found
  exact ⟨_, _, _, shape, place, found⟩

@[simp] theorem memberAt_type (front back : List VariantType) (item : VariantType) :
    (memberAt front item back).type = item := rfl

@[simp] theorem memberAt_typeInfo (front back : List VariantType) (item : VariantType) :
    (memberAt front item back).typeInfo = item.info := rfl

theorem memberAt_ending (front back : List VariantType) (item : VariantType) :
    (memberAt front item back).ending =
      if item.fixedSize ≠ 0 then .fixed else if back.isEmpty then .last else .offset := rfl

/-- How the end of an item is found. -/
def memberEnding (item : VariantType) (back : List VariantType) : Ending :=
  if item.fixedSize ≠ 0 then .fixed else if back.isEmpty then .last else .offset

/-- What the loops over a tuple read of a member. -/
def MemberInfo.kind (member : MemberInfo) : VariantType × TypeInfo × Ending :=
  (member.type, member.typeInfo, member.ending)

def memberKinds : List VariantType → List (VariantType × TypeInfo × Ending)
  | [] => []
  | item :: items => (item, item.info, memberEnding item items) :: memberKinds items

theorem members_kinds (t : VariantType) : t.members.map MemberInfo.kind = memberKinds t.items := by
  have kept := tupleGenerateTable_map .initial (tupleAllocateMembers (VariantType.infos t.items))
  refine Eq.trans kept ?_
  generalize t.items = items
  induction items with
  | nil => rfl
  | cons item items ih =>
    have empty : (VariantType.infos items).isEmpty = items.isEmpty := by
      rw [VariantType.infos_eq_map, List.isEmpty_map]
    simp [VariantType.infos, tupleAllocateMembers, memberKinds, memberEnding, ih, empty, VariantType.fixedSize]

theorem members_getLast? {t : VariantType} {front : List VariantType} {item : VariantType}
    (shape : t.items = front ++ [item]) : t.members.getLast? = some (memberAt front item []) := by
  rw [List.getLast?_eq_getElem?, length_members, shape, List.length_append, List.length_singleton, Nat.add_sub_cancel]
  exact members_getElem? shape

/-- The items whose ends are stored, were all of them followed by another one. -/
def variableCount (items : List VariantType) : Nat := items.countP fun item => item.fixedSize = 0

theorem pass_i (s : TableState) (info : TypeInfo) :
    (s.pass info).i = s.i + if info.fixedSize = 0 then 1 else 0 := by
  simp only [TableState.pass, TableState.align, TableState.advance]
  split <;> split <;> simp

theorem memberAt_i (front back : List VariantType) (item : VariantType) :
    (memberAt front item back).i + 1 = variableCount front := by
  have counted : ∀ s : TableState, (front.foldl (fun s item => s.pass item.info) s).i =
      s.i + variableCount front := by
    induction front with
    | nil => simp [variableCount]
    | cons first front ih =>
      intro s
      rw [List.foldl_cons, ih, pass_i, variableCount, variableCount, List.countP_cons]
      by_cases varies : first.info.fixedSize = 0
      · simp only [VariantType.fixedSize, varies, decide_true, if_true]
        push_cast
        ring
      · simp [VariantType.fixedSize, varies]
  have kept : (memberAt front item back).i = (stateAfter front).i := by
    simp only [memberAt, tupleTableAppend, TableState.align]
    split <;> rfl
  rw [kept, stateAfter, counted]
  simp [TableState.initial]

theorem memberAt_start_aligned (front back : List VariantType) (item : VariantType) (prevEnd : Nat)
    (mask : IsAlignment item.alignment) (seen : IsAlignment (stateAfter front).b) :
    item.alignment + 1 ∣ (memberAt front item back).start prevEnd ∧
      (memberAt front item back).start prevEnd < 2 ^ 64 := by
  have word := Nat.mod_lt (prevEnd + (memberAt front item back).a) (by decide : 0 < 2 ^ 64)
  -- After the alignment step both the run and its rest are multiples.
  obtain ⟨reached, divides, rest⟩ : IsAlignment ((stateAfter front).align item.alignment).b ∧
      item.alignment + 1 ∣ ((stateAfter front).align item.alignment).b + 1 ∧
      item.alignment + 1 ∣ ((stateAfter front).align item.alignment).c := by
    rw [TableState.align]
    split
    case isTrue below =>
      refine ⟨seen, mask.isMask.dvd_of_le seen.isMask below, ?_⟩
      simp only [tupleAlign, alignUp_eq_roundUp mask.isMask]
      exact dvd_roundUp _ _
    case isFalse => exact ⟨mask, Nat.dvd_refl _, Nat.dvd_zero _⟩
  have low := Nat.mod_lt ((stateAfter front).align item.alignment).c
    (Nat.add_one_pos ((stateAfter front).align item.alignment).b)
  rw [memberAt, tupleTableAppend_start reached] at *
  refine ⟨Nat.dvd_add (Nat.dvd_mul_left_of_dvd divides _) ((Nat.dvd_mod_iff divides).mpr rest), ?_⟩
  obtain ⟨k, size⟩ := reached.isMask.dvd_word
  rw [size] at word ⊢
  have quotient := (Nat.div_lt_iff_lt_mul (Nat.add_one_pos _)).mpr (Nat.mul_comm _ k ▸ word)
  have room := Nat.mul_le_mul_right (((stateAfter front).align item.alignment).b + 1) quotient
  rw [Nat.succ_mul, Nat.mul_comm k] at room
  omega

/-! ## Alignment and size of a tuple -/

def itemsAlignment (items : List VariantType) : Nat :=
  items.foldl (fun mask item => mask ||| item.alignment) 0

def fixedEnd (offset : Nat) (items : List VariantType) : Nat :=
  items.foldl (fun offset item => roundUp offset item.alignment + item.fixedSize) offset

theorem stateAfter_mask {front : List VariantType} (masks : ∀ item ∈ front, IsAlignment item.alignment) :
    IsAlignment (stateAfter front).b := by
  have step : ∀ s : TableState, IsAlignment s.b →
      IsAlignment (front.foldl (fun s item => s.pass item.info) s).b := by
    induction front with
    | nil => exact fun s h => h
    | cons item front ih =>
      intro s h
      apply ih fun other member => masks other (List.mem_cons_of_mem _ member)
      have mask := masks item List.mem_cons_self
      simp only [TableState.pass, TableState.align, TableState.advance]
      split <;> split
      · exact Or.inl rfl
      · exact Or.inl rfl
      · exact h
      · exact mask
  exact step .initial (Or.inl rfl)

theorem tracks_fixed {items : List VariantType} (masks : ∀ item ∈ items, IsAlignment item.alignment)
    (fixed : ∀ item ∈ items, item.fixedSize ≠ 0) {s : TableState} {prevEnd offset : Nat}
    (h : s.Tracks prevEnd offset) :
    (items.foldl (fun s item => s.pass item.info) s).Tracks prevEnd (fixedEnd offset items) := by
  induction items generalizing s offset with
  | nil => exact h
  | cons item items ih =>
    exact ih (fun other member => masks other (List.mem_cons_of_mem _ member))
      (fun other member => fixed other (List.mem_cons_of_mem _ member))
      ((h.align (masks item List.mem_cons_self)).advance (fixed item List.mem_cons_self))

theorem fixedEnd_append (offset : Nat) (front back : List VariantType) :
    fixedEnd offset (front ++ back) = fixedEnd (fixedEnd offset front) back := List.foldl_append

theorem variableCount_eq_zero {items : List VariantType} :
    variableCount items = 0 ↔ ∀ item ∈ items, item.fixedSize ≠ 0 := by
  simp [variableCount, List.countP_eq_zero]

theorem tupleInfoNew_alignment (items : List VariantType) :
    (tupleInfoNew (VariantType.infos items)).foldl (fun mask member => mask ||| member.typeInfo.alignment) 0 =
      itemsAlignment items := by
  have infos : (tupleInfoNew (VariantType.infos items)).map MemberInfo.typeInfo =
      items.map VariantType.info := by
    have kept := congrArg (List.map fun e : VariantType × TypeInfo × Ending => e.2.1)
      (tupleGenerateTable_map .initial (tupleAllocateMembers (VariantType.infos items)))
    have allocated := congrArg (List.map Prod.snd) (tupleAllocateMembers_map (VariantType.infos items))
    rw [VariantType.infos_eq_map] at allocated
    simp only [List.map_map, Function.comp_def] at kept allocated
    rw [VariantType.infos_eq_map] at kept
    rw [tupleInfoNew, VariantType.infos_eq_map]
    exact kept.trans allocated
  have fold := congrArg (List.foldl (fun mask (info : TypeInfo) => mask ||| info.alignment) 0) infos
  rw [List.foldl_map, List.foldl_map] at fold
  exact fold

theorem tupleSetBaseInfo_items (items : List VariantType) (some_item : items ≠ [])
    (masks : ∀ item ∈ items, IsAlignment item.alignment) (whole : IsMask (itemsAlignment items)) :
    tupleSetBaseInfo (tupleInfoNew (VariantType.infos items)) =
      { alignment := itemsAlignment items
        fixedSize := if variableCount items = 0 then
          roundUp (fixedEnd 0 items) (itemsAlignment items) % 2 ^ 64 else 0 } := by
  obtain ⟨front, item, rfl⟩ := List.eq_nil_or_concat' items |>.resolve_left some_item
  obtain ⟨before, after, split, length⟩ := tupleInfoNew_append front [] item
  have last : (tupleInfoNew (VariantType.infos (front ++ [item]))).getLast? = some (memberAt front item []) := by
    have total := length_members (.tuple (front ++ [item]))
    rw [VariantType.members, VariantType.items, split] at total
    simp only [List.length_append, List.length_cons, length, List.length_nil] at total
    have none_after : after = [] := List.length_eq_zero_iff.mp (by omega)
    rw [split, none_after, List.getLast?_concat]
  have index := memberAt_i front [] item
  rw [tupleSetBaseInfo, last]
  simp only [tupleInfoNew_alignment, memberAt_typeInfo]
  congr 1
  by_cases fixed : variableCount (front ++ [item]) = 0
  · have sizes := variableCount_eq_zero.mp fixed
    have none_before : variableCount front = 0 :=
      variableCount_eq_zero.mpr fun other member => sizes other (List.mem_append_left _ member)
    have size := sizes item (List.mem_append_right _ List.mem_cons_self)
    have state := tracks_fixed (fun other member => masks other (List.mem_append_left _ member))
      (variableCount_eq_zero.mp none_before) (TableState.tracks_run (-1) 0)
    have mask := masks item (List.mem_append_right _ List.mem_cons_self)
    have place := (state.align mask).start
      { type := item, typeInfo := item.info, i := 0, a := 0, b := 0, c := 0
        ending := if item.fixedSize ≠ 0 then .fixed else if ([] : List VariantType).isEmpty then .last else .offset }
    rw [if_pos fixed, if_pos ⟨by omega, size⟩, tupleAlign, alignUp_eq_roundUp whole]
    change (memberAt front item []).start 0 = _ at place
    rw [place, fixedEnd_append, ← roundUp_mod whole.dvd_word, Nat.mod_add_mod, roundUp_mod whole.dvd_word]
    rfl
  · rw [if_neg fixed, if_neg]
    rintro ⟨first, size⟩
    have none_before : variableCount front = 0 := by omega
    apply fixed
    rw [variableCount_eq_zero] at none_before ⊢
    intro other member
    rcases List.mem_append.mp member with earlier | same
    · exact none_before other earlier
    · rw [List.mem_singleton.mp same]
      exact size

theorem itemsAlignment_or {items : List VariantType} (masks : ∀ item ∈ items, IsAlignment item.alignment) :
    IsAlignment (itemsAlignment items) ∧ ∀ item ∈ items, item.alignment ≤ itemsAlignment items := by
  have fold : ∀ mask, IsAlignment mask →
      IsAlignment (items.foldl (fun mask item => mask ||| item.alignment) mask) ∧
      mask ≤ items.foldl (fun mask item => mask ||| item.alignment) mask ∧
      ∀ item ∈ items, item.alignment ≤ items.foldl (fun mask item => mask ||| item.alignment) mask := by
    induction items with
    | nil => exact fun mask h => ⟨h, Nat.le_refl _, fun _ member => nomatch member⟩
    | cons item items ih =>
      intro mask h
      obtain ⟨joined, left, right⟩ := h.or (masks item List.mem_cons_self)
      obtain ⟨whole, kept, each⟩ :=
        ih (fun other member => masks other (List.mem_cons_of_mem _ member)) _ joined
      refine ⟨whole, Nat.le_trans left kept, fun other member => ?_⟩
      rcases List.mem_cons.mp member with rfl | later
      · exact Nat.le_trans right kept
      · exact each other later
  obtain ⟨whole, -, each⟩ := fold 0 (Or.inl rfl)
  exact ⟨whole, each⟩

/-- Tuples and dictionary entries are laid out alike. -/
theorem info_of_members {t : VariantType} (tuple : t.info = tupleSetBaseInfo t.members)
    (masks : ∀ item ∈ t.items, IsAlignment item.alignment) (some_item : t.items ≠ []) :
    t.alignment = itemsAlignment t.items ∧
      t.fixedSize = if variableCount t.items = 0 then
        roundUp (fixedEnd 0 t.items) (itemsAlignment t.items) % 2 ^ 64 else 0 := by
  have base := tupleSetBaseInfo_items t.items some_item masks (itemsAlignment_or masks).1.isMask
  rw [VariantType.alignment, VariantType.fixedSize, tuple, VariantType.members, base]
  exact ⟨rfl, rfl⟩

structure TypeInfo.WellFormed (info : TypeInfo) : Prop where
  mask : IsAlignment info.alignment
  divides : info.alignment + 1 ∣ info.fixedSize
  fits : info.fixedSize < 2 ^ 64

theorem Basic.info_wellFormed (b : Basic) : b.info.WellFormed := by
  cases b <;> exact ⟨by unfold IsAlignment; decide, by decide, by decide⟩

theorem info_wellFormed_of_members {t : VariantType} (tuple : t.info = tupleSetBaseInfo t.members)
    (each : ∀ item ∈ t.items, item.info.WellFormed) : t.info.WellFormed := by
  by_cases some_item : t.items = []
  · rw [tuple, VariantType.members, some_item]
    exact ⟨Or.inl rfl, by decide, by decide⟩
  · have masks : ∀ item ∈ t.items, IsAlignment item.alignment := fun item member => (each item member).mask
    obtain ⟨alignment, size⟩ := info_of_members tuple masks some_item
    have mask := (itemsAlignment_or masks).1
    change t.info.alignment = _ at alignment
    change t.info.fixedSize = _ at size
    refine ⟨alignment ▸ mask, ?_, ?_⟩
    · rw [alignment, size]
      split
      · exact (Nat.dvd_mod_iff mask.isMask.dvd_word).mpr (dvd_roundUp _ _)
      · exact Nat.dvd_zero _
    · rw [size]
      split
      · exact Nat.mod_lt _ (by decide)
      · decide

theorem VariantType.info_wellFormed (t : VariantType) : t.info.WellFormed := by
  induction t with
  | basic b => exact b.info_wellFormed
  | variant => exact ⟨by simp [VariantType.info, IsAlignment], Nat.dvd_zero _, by decide⟩
  | maybe element ih => exact ⟨ih.mask, Nat.dvd_zero _, by simp [VariantType.info]⟩
  | array element ih => exact ⟨ih.mask, Nat.dvd_zero _, by simp [VariantType.info]⟩
  | tuple items ih => exact info_wellFormed_of_members rfl ih
  | dictEntry key value ih =>
    apply info_wellFormed_of_members rfl
    rintro item member
    rcases List.mem_cons.mp member with rfl | rest
    · exact key.info_wellFormed
    · rw [List.mem_singleton.mp rest]
      exact ih

theorem VariantType.alignment_isAlignment (t : VariantType) : IsAlignment t.alignment := t.info_wellFormed.mask

/-- Tuples and dictionary entries, which are laid out alike. -/
def VariantType.isTuple : VariantType → Bool
  | .tuple _ | .dictEntry _ _ => true
  | _ => false

theorem VariantType.info_tupleLike {t : VariantType} (tuple : t.isTuple = true) :
    t.info = tupleSetBaseInfo t.members := by
  cases t with
  | tuple items => rfl
  | dictEntry key value => rfl
  | _ => cases tuple

theorem VariantType.tuple_layout {t : VariantType} (tuple : t.isTuple = true) (some_item : t.items ≠ []) :
    t.alignment = itemsAlignment t.items ∧
      t.fixedSize = if variableCount t.items = 0 then
        roundUp (fixedEnd 0 t.items) (itemsAlignment t.items) % 2 ^ 64 else 0 :=
  info_of_members (info_tupleLike tuple) (fun item _ => item.alignment_isAlignment) some_item

theorem VariantType.fixedSize_unit {t : VariantType} (tuple : t.isTuple = true) (unit : t.items = []) :
    t.fixedSize = 1 := by
  rw [VariantType.fixedSize, info_tupleLike tuple, VariantType.members, unit]
  rfl

theorem VariantType.item_alignment_le {t item : VariantType} (tuple : t.isTuple = true) (member : item ∈ t.items) :
    item.alignment ≤ t.alignment := by
  rw [(tuple_layout tuple (List.ne_nil_of_mem member)).1]
  exact (itemsAlignment_or fun other _ => other.alignment_isAlignment).2 item member

theorem VariantType.item_fixed {t item : VariantType} (tuple : t.isTuple = true) (fixed : t.fixedSize ≠ 0)
    (member : item ∈ t.items) : item.fixedSize ≠ 0 := by
  rw [(tuple_layout tuple (List.ne_nil_of_mem member)).2] at fixed
  split at fixed
  case isTrue all => exact variableCount_eq_zero.mp all item member
  case isFalse => exact absurd rfl fixed

end Xpl.Variant
