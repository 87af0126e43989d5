import Xpl.Variant.NormalForm

/-! Uniqueness of the normal form.

The check never compares the width of an offset table with the width that the serialiser
chooses. What it accepts is the output of the serialiser exactly when every table uses the
smallest width.
-/

set_option autoImplicit false

namespace Xpl.Variant
open Xpl.Library
variable {bytes : Bytes} {value : Serialised}
variable {pieces : List Piece}

def Serialised.tableEntries (value : Serialised) : Nat :=
  match value.type with
  | .array element => if element.fixedSize ≠ 0 then 0 else (gvsVariableSizedArrayNChildren value).getD 0
  | .tuple items => variableCount items.dropLast
  | .dictEntry key item => variableCount [.basic key, item].dropLast
  | .basic _ | .variant | .maybe _ => 0

/-- A table, unless it is empty, uses the smallest offsets that address its container. -/
def tableMinimal (size entries : Nat) : Bool :=
  entries = 0 || gvsGetOffsetSize size = tableWidth (size - gvsGetOffsetSize size * entries) entries

/-- All tables of a value, down to a number of levels. -/
def offsetsMinimal : Nat → Serialised → Bool
  | 0, _ => true
  | fuel + 1, value =>
    tableMinimal value.size value.tableEntries &&
      (List.range ((xvariantSerialisedNChildren value).getD 0)).all fun index =>
        (xvariantSerialisedGetChild value index).all (offsetsMinimal fuel)

theorem withTable_eq_iff {body : Bytes} {entries : List Nat}
    (form : bytes = body ++ table (gvsGetOffsetSize bytes.length) entries) :
    withTable body entries = bytes ↔ tableMinimal bytes.length entries.length = true := by
  have length : bytes.length = body.length + gvsGetOffsetSize bytes.length * entries.length := by
    have total := congrArg List.length form
    rwa [List.length_append, length_table] at total
  have rest : bytes.length - gvsGetOffsetSize bytes.length * entries.length = body.length := by omega
  rw [tableMinimal, rest]
  by_cases empty : entries = []
  · subst empty
    simp only [List.length_nil, decide_true, Bool.true_or, iff_true]
    rw [form]
    rfl
  · have count : 0 < entries.length := List.length_pos_iff.mpr empty
    rw [decide_eq_false (by omega), Bool.false_or, decide_eq_true_eq]
    constructor
    · intro same
      have total := congrArg List.length same
      rw [length_withTable, length] at total
      exact Nat.eq_of_mul_eq_mul_right count (by omega)
    · intro same
      rw [withTable, ← same]
      exact form.symm

theorem length_storedEnds_items :
    (storedEnds 0 pieces).length = variableCount (pieces.map Prod.fst).dropLast := by
  rcases List.eq_nil_or_concat' pieces with rfl | ⟨front, last, rfl⟩
  · rfl
  · rw [length_storedEnds, List.map_append, List.map_singleton, List.dropLast_concat]

theorem Assembled.encodeNode_eq_iff
    (assembled : Assembled value.depth value.type pieces bytes) (checked : xvariantSerialisedCheck value = true)
    (carries : value.Carries (value.type, bytes)) :
    encodeNode value.type pieces = bytes ↔ tableMinimal value.size value.tableEntries = true := by
  have holds := assembled.holds checked carries
  have size : value.size = bytes.length := carries.size
  obtain ⟨admitted, sized, -, fits, -, form⟩ := assembled
  rw [size]
  cases tuple : value.type.isTuple with
  | true =>
    have items := (VariantType.admits_tuple tuple).mp admitted
    have entries : value.tableEntries = (storedEnds 0 pieces).reverse.length := by
      rw [List.length_reverse, length_storedEnds_items, items, Serialised.tableEntries]
      cases type : value.type with
      | tuple items => rfl
      | dictEntry key item => rfl
      | _ =>
        rw [type] at tuple
        cases tuple
    rw [assemble_tuple tuple] at form
    rw [encodeNode_tuple tuple, entries]
    exact withTable_eq_iff form
  | false =>
    cases type : value.type with
    | basic b =>
      rw [type] at admitted
      cases admitted
    | variant =>
      rw [type] at form
      have none_entry : value.tableEntries = 0 := by rw [Serialised.tableEntries, type]
      rw [none_entry, form]
      simp [encodeNode, assemble, tableMinimal]
    | maybe element =>
      rw [type] at form
      have none_entry : value.tableEntries = 0 := by rw [Serialised.tableEntries, type]
      rw [none_entry, form]
      simp [encodeNode, assemble, tableMinimal]
    | array element =>
      rw [type] at form
      by_cases fixed : element.fixedSize = 0
      · have counted := holds.1
        rw [xvariantSerialisedNChildren, if_pos checked, type] at counted
        simp only [fixed, ne_eq, not_true_eq_false, if_false] at counted
        have entries : value.tableEntries = (layoutEnds 0 (pieces.map Piece.part)).length := by
          rw [Serialised.tableEntries, type]
          simp [fixed, counted]
        rw [assemble, if_neg (not_not.mpr fixed)] at form
        rw [encodeNode_variableArray fixed, entries]
        exact withTable_eq_iff form
      · have none_entry : value.tableEntries = 0 := by
          rw [Serialised.tableEntries, type]
          simp [fixed]
        rw [none_entry, form]
        simp [encodeNode, assemble, tableMinimal, fixed]
    | tuple items =>
      rw [type] at tuple
      cases tuple
    | dictEntry key item =>
      rw [type] at tuple
      cases tuple

theorem Serialised.Carries.unique {first second : Piece} (left : value.Carries first)
    (right : value.Carries second) : first = second :=
  Prod.ext (left.type.symm.trans right.type) (left.bytes.symm.trans right.bytes)

/-- The pieces that a reader finds are determined. -/
theorem Serialised.Holds.unique {first second : List Piece} (left : value.Holds first)
    (right : value.Holds second) : first = second := by
  have lengths : first.length = second.length := Option.some.inj (left.1.symm.trans right.1)
  apply List.ext_getElem lengths
  intro index inside within
  have split : ∀ (pieces : List Piece) (bound : index < pieces.length),
      pieces = pieces.take index ++ pieces[index] :: pieces.drop (index + 1) := by
    intro pieces bound
    rw [List.getElem_cons_drop, List.take_append_drop]
  obtain ⟨child, found, carries, -⟩ := left.2 _ _ _ (split first inside)
  obtain ⟨other, same, carried, -⟩ := right.2 _ _ _ (split second within)
  rw [List.length_take, Nat.min_eq_left (Nat.le_of_lt inside)] at found
  rw [List.length_take, Nat.min_eq_left (Nat.le_of_lt within), found, Option.some.injEq] at same
  subst same
  exact carries.unique carried

theorem children_eq_iff {children : List Value} (holds : value.Holds pieces)
    (proper : value.Proper) (container : ∀ b, value.type ≠ .basic b)
    (all : Value.RepresentsAll children (value.depth + 1) pieces) {test : Serialised → Bool}
    (each : ∀ child ∈ children, ∀ (found : Serialised) (bytes : Bytes), child.Represents (value.depth + 1) bytes →
      found.Carries (child.type, bytes) → found.depth = value.depth + 1 → found.Proper →
      (child.encode = bytes ↔ test found = true)) :
    (∀ index < pieces.length, (xvariantSerialisedGetChild value index).all test = true) ↔
      Value.pieces children = pieces := by
  obtain ⟨lengths, placed⟩ := List.forall₂_iff_get.mp ((Value.representsAll_iff _ _ _).mp all)
  have one : ∀ (index : Nat) (among : index < children.length) (inside : index < pieces.length),
      (xvariantSerialisedGetChild value index).all test = true ↔
        (children.get ⟨index, among⟩).piece = pieces.get ⟨index, inside⟩ := by
    intro index among inside
    obtain ⟨type, represents⟩ := placed index among inside
    have split : pieces = pieces.take index ++ pieces.get ⟨index, inside⟩ :: pieces.drop (index + 1) := by
      rw [List.get_eq_getElem, List.getElem_cons_drop, List.take_append_drop]
    obtain ⟨found, get, carries, depth, isProper⟩ := holds.getChild proper container split
    rw [List.length_take, Nat.min_eq_left (Nat.le_of_lt inside)] at get
    have carried : found.Carries ((children.get ⟨index, among⟩).type, (pieces.get ⟨index, inside⟩).2) := type ▸ carries
    rw [get, Option.all_some, ← each _ (List.get_mem _ _) found _ represents carried depth isProper]
    exact ⟨fun same => Prod.ext type.symm same, fun same => congrArg Prod.snd same⟩
  rw [Value.pieces_eq_map]
  constructor
  · intro passed
    apply List.ext_get (by rw [List.length_map, lengths])
    intro index among inside
    rw [List.get_eq_getElem, List.getElem_map]
    exact (one index (by simpa using among) inside).mp (passed index inside)
  · rintro rfl index inside
    rw [List.length_map] at inside
    exact (one index inside (by simpa using inside)).mpr (by simp)

theorem encode_eq_iff_minimal {v : Value}
    (represents : v.Represents value.depth bytes) (carries : value.Carries (v.type, bytes)) (proper : value.Proper)
    {fuel : Nat} (enough : maxRecursionDepth - value.depth ≤ fuel) :
    v.encode = bytes ↔ offsetsMinimal fuel value = true := by
  induction v generalizing value bytes fuel with
  | leaf basic own =>
    obtain ⟨below, -, rfl⟩ := represents
    obtain ⟨levels, rfl⟩ : ∃ levels, fuel = levels + 1 := ⟨fuel - 1, by omega⟩
    have type : value.type = .basic basic := carries.type
    have entries : value.tableEntries = 0 := by rw [Serialised.tableEntries, type]
    have children : xvariantSerialisedNChildren value = none := by
      rw [xvariantSerialisedNChildren, type]
      exact ite_self _
    simp [Value.encode, offsetsMinimal, tableMinimal, entries, children]
  | node type children ih =>
    have readable := represents
    obtain ⟨below, pieces, all, assembled⟩ := represents
    obtain ⟨levels, rfl⟩ : ∃ levels, fuel = levels + 1 := ⟨fuel - 1, by omega⟩
    have same : value.type = type := carries.type
    subst same
    have container : ∀ b, value.type ≠ .basic b := by
      intro b basic
      have admitted := assembled.admitted
      rw [basic] at admitted
      cases admitted
    have holds := assembled.holds proper.check carries
    -- Child by child: the encodings are the pieces.
    have each : (∀ index < pieces.length, (xvariantSerialisedGetChild value index).all (offsetsMinimal levels) = true) ↔
        Value.pieces children = pieces := by
      apply children_eq_iff holds proper container all
      intro child member found piece represents carried depth isProper
      exact ih child member (depth ▸ represents) carried isProper (by omega)
    rw [offsetsMinimal, Bool.and_eq_true, ← assembled.encodeNode_eq_iff proper.check carries, holds.1, Option.getD_some,
      List.all_eq_true]
    simp only [List.mem_range]
    rw [each, Value.encode]
    constructor
    · intro encoded
      have writable : (Value.node value.type children).Writable := by
        refine ⟨readable.wellFormed, ?_⟩
        rw [Value.encode, encoded]
        exact assembled.fits
      have types : (Value.pieces children).map Prod.fst = pieces.map Prod.fst := by
        rw [Value.types_pieces, Value.types_of_representsAll all]
      -- The same bytes are a container of the encoded children.
      have again : Assembled value.depth value.type (Value.pieces children) bytes := by
        refine ⟨types ▸ assembled.admitted, Value.pieces_sized writable, ?_, assembled.fits, ?_, ?_⟩
        · intro variant piece member
          obtain ⟨other, among, type⟩ := List.mem_map.mp (types ▸ List.mem_map_of_mem (f := Prod.fst) member)
          exact type ▸ assembled.readable variant other among
        · intro element array some_piece
          apply assembled.counted element array
          intro empty
          rw [empty, List.map_nil, List.map_eq_nil_iff] at types
          exact some_piece types
        · rw [← encoded]
          exact encodeNode_form _ _
      have found := (again.holds proper.check carries).unique holds
      exact ⟨found ▸ encoded, found⟩
    · rintro ⟨own, same⟩
      rw [same, own]

/-! ## Values from bytes -/

/-- `xvariant_new_from_bytes` with data at an aligned address: a fixed-sized type drops
data of another size. -/
def xvariantNewFromBytes (type : VariantType) (base : Nat) (bytes : Bytes) : Serialised :=
  { type := type
    data := if type.fixedSize ≠ 0 ∧ bytes.length ≠ type.fixedSize then .null type.fixedSize else Data.ofBlock base bytes
    depth := 0 }

theorem isNormal_null {memory : Nat → UInt8} {value : Serialised} (null : value.data.isNull = true)
    (fixed : value.type.fixedSize ≠ 0) (size : value.size = value.type.fixedSize) :
    xvariantSerialisedIsNormal memory value ≠ some true := by
  rw [xvariantSerialisedIsNormal]
  cases maxRecursionDepth - value.depth with
  | zero => exact fun accepted => by cases accepted
  | succ levels =>
    rw [isNormalWithin]
    cases tuple : value.type.isTuple with
    | true =>
      rw [gvsIsNormal_tuple tuple, gvsTupleIsNormal, if_pos ⟨null, by omega⟩]
      exact fun accepted => by cases accepted
    | false =>
      cases type : value.type with
      | basic b => simp [gvsIsNormal, type, basicIsNormal, null]
      | tuple items =>
        rw [type] at tuple
        cases tuple
      | dictEntry key item =>
        rw [type] at tuple
        cases tuple
      | _ =>
        rw [type] at fixed
        exact absurd rfl fixed

theorem represents_of_newFromBytes {memory : Nat → UInt8} {type : VariantType} {base : Nat}
    (allocated : Allocated base bytes.length type.alignment)
    (accepted : xvariantSerialisedIsNormal memory (xvariantNewFromBytes type base bytes) = some true) :
    (xvariantNewFromBytes type base bytes).Carries (type, bytes) ∧ (xvariantNewFromBytes type base bytes).Proper ∧
      ∃ v : Value, v.type = type ∧ v.Represents 0 bytes := by
  have kept : ¬(type.fixedSize ≠ 0 ∧ bytes.length ≠ type.fixedSize) := by
    intro dropped
    apply @isNormal_null memory (xvariantNewFromBytes type base bytes) _ dropped.1 _ accepted
    · rw [xvariantNewFromBytes, if_pos dropped]
      rfl
    · rw [xvariantNewFromBytes, if_pos dropped]
      rfl
  have block : xvariantNewFromBytes type base bytes =
      { type := type, data := Data.ofBlock base bytes, depth := 0 } := by
    rw [xvariantNewFromBytes, if_neg kept]
  rw [block] at accepted ⊢
  have carries := @carries_ofBlock base bytes type _ allocated 0
  obtain ⟨v, same, represents⟩ := represents_of_isNormal carries
    (fun fixed => by rw [carries.size]; exact not_not.mp fun other => kept ⟨fixed, other⟩) accepted
  subst same
  exact ⟨carries, proper_ofBlock represents allocated, v, rfl, represents⟩

/-- What the check accepts decodes to a value, and the serialiser writes the same bytes for
that value exactly when every offset table is minimal. -/
theorem isNormal_canonical_iff (memory : Nat → UInt8) (type : VariantType) (base : Nat) (bytes : Bytes)
    (allocated : Allocated base bytes.length type.alignment)
    (accepted : xvariantSerialisedIsNormal memory (xvariantNewFromBytes type base bytes) = some true) :
    ∃ v, readBack maxRecursionDepth (xvariantNewFromBytes type base bytes) = some v ∧ v.type = type ∧
      v.wellFormed = true ∧
      (∀ block, Allocated block v.encode.length type.alignment →
        ((∃ buffer, xvariantEnsureSerialised v block = some buffer ∧ buffer.contents = bytes.map some) ↔
          offsetsMinimal maxRecursionDepth (xvariantNewFromBytes type base bytes) = true)) ∧
      ∀ place other, Allocated place other.length type.alignment →
        xvariantSerialisedIsNormal memory (xvariantNewFromBytes type place other) = some true →
        readBack maxRecursionDepth (xvariantNewFromBytes type place other) = some v →
        offsetsMinimal maxRecursionDepth (xvariantNewFromBytes type base bytes) = true →
        offsetsMinimal maxRecursionDepth (xvariantNewFromBytes type place other) = true → other = bytes := by
  have canonical : ∀ {place : Nat} {data : Bytes}, Allocated place data.length type.alignment →
      xvariantSerialisedIsNormal memory (xvariantNewFromBytes type place data) = some true →
      ∃ v, readBack maxRecursionDepth (xvariantNewFromBytes type place data) = some v ∧ v.type = type ∧
        v.wellFormed = true ∧
        (v.encode = data ↔ offsetsMinimal maxRecursionDepth (xvariantNewFromBytes type place data) = true) := by
    intro place data block passed
    obtain ⟨carries, proper, v, rfl, represents⟩ := represents_of_newFromBytes block passed
    exact ⟨v, readBack_of_represents represents carries proper (Nat.le_refl _), rfl, represents.wellFormed,
      encode_eq_iff_minimal represents carries proper (Nat.le_refl _)⟩
  obtain ⟨v, decoded, same, valid, minimal⟩ := canonical allocated accepted
  refine ⟨v, decoded, same, valid, fun block place => ?_, fun place other block passed again first second => ?_⟩
  · have fits : v.encode.length < wordSize := by
      have placed := place.placed
      have null := place.null
      by_cases zero : block = 0
      · rw [null zero]
        exact Nat.two_pow_pos 64
      · omega
    subst same
    obtain ⟨-, buffer, written, contents⟩ := xvariantEnsureSerialised_eq ⟨valid, fits⟩ place.aligned
      (fun zero => List.length_eq_zero_iff.mp (place.null zero))
    rw [← minimal]
    constructor
    · rintro ⟨result, found, same⟩
      rw [written, Option.some.injEq] at found
      rw [← found, contents] at same
      exact List.map_injective_iff.mpr (Option.some_injective _) same
    · intro same
      exact ⟨buffer, written, same ▸ contents⟩
  · obtain ⟨w, decodes, -, -, unique⟩ := canonical block passed
    rw [again, Option.some.injEq] at decodes
    subst decodes
    rw [← minimal.mpr first]
    exact (unique.mpr second).symm

def oneString (string : Bytes) : Value := .node (.array (.basic .string)) [.leaf .string string]

theorem isNormal_canonical_short :
    ∃ v, readBack maxRecursionDepth (xvariantNewFromBytes (.array (.basic .string)) 8 [ascii 'a', 0, 2]) = some v ∧
      ∃ buffer, xvariantEnsureSerialised v 8 = some buffer ∧ buffer.contents = [ascii 'a', 0, 2].map some := by
  obtain ⟨v, decoded, -, -, output, -⟩ := isNormal_canonical_iff (fun _ => 0) (.array (.basic .string)) 8
    [ascii 'a', 0, 2] ⟨by decide, by decide, by decide⟩ (by decide)
  have same : oneString [ascii 'a', 0] = v := Option.some.inj decoded
  subst same
  exact ⟨_, decoded, (output 8 ⟨by decide, by decide, by decide⟩).mpr (by decide)⟩

def longString : Bytes := List.replicate 253 (ascii 'a') ++ [0]

set_option maxRecDepth 4000 in
/-- An array that holds the string passes the check with an offset of two bytes, while the
serialiser writes one of one byte. -/
theorem wideOffset_accepted : ¬∀ (memory : Nat → UInt8) (type : VariantType) (base : Nat) (bytes : Bytes) (v : Value)
    (block : Nat) (buffer : Buffer), Allocated base bytes.length type.alignment →
    xvariantSerialisedIsNormal memory (xvariantNewFromBytes type base bytes) = some true →
    readBack maxRecursionDepth (xvariantNewFromBytes type base bytes) = some v →
    Allocated block v.encode.length type.alignment → xvariantEnsureSerialised v block = some buffer →
    buffer.contents = bytes.map some := by
  intro claim
  have valid : (oneString longString).wellFormed = true := by decide +kernel
  have length : (oneString longString).encode.length = 255 := by decide +kernel
  have fits : (oneString longString).encode.length < wordSize := by rw [length]; decide
  obtain ⟨-, buffer, written, contents⟩ := @xvariantEnsureSerialised_eq (oneString longString) ⟨valid, fits⟩ 8
    (by decide) (by decide)
  have same := claim (fun _ => 0) (.array (.basic .string)) 8 (longString ++ [254, 0]) (oneString longString) 8 buffer
    ⟨by decide, by decide +kernel, by decide⟩ (by decide +kernel) rfl ⟨by decide, by rw [length]; decide, by decide⟩
    written
  have lengths := congrArg List.length (contents.symm.trans same)
  exact absurd lengths (by decide +kernel)

end Xpl.Variant
