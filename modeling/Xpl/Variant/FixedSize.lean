import Xpl.Variant.Writing

/-! Which types have a fixed size, and that it is the size of each value and of the layout that
the serialiser writes.
-/

set_option autoImplicit false

namespace Xpl.Variant
open Xpl.Library
variable {t : VariantType}

/-! ## Alignment -/

def VariantType.components : VariantType → List VariantType
  | .maybe element => [element]
  | .array element => [element]
  | .tuple items => items
  | .dictEntry key value => [.basic key, value]
  | _ => []

theorem IsAlignment.or_eq_max {first second : Nat} (h : IsAlignment first) (g : IsAlignment second) :
    first ||| second = max first second := by
  rcases h with rfl | rfl | rfl | rfl <;> rcases g with rfl | rfl | rfl | rfl <;> rfl

theorem itemsAlignment_eq_max (items : List VariantType) :
    itemsAlignment items = (items.map VariantType.alignment).foldr max 0 := by
  have fold : ∀ mask, IsAlignment mask → items.foldl (fun mask item => mask ||| item.alignment) mask =
      max mask ((items.map VariantType.alignment).foldr max 0) := by
    induction items with
    | nil => exact fun mask _ => (Nat.max_zero mask).symm
    | cons item items ih =>
      intro mask h
      have joined := (h.or item.alignment_isAlignment).1
      rw [List.foldl_cons, ih _ joined, h.or_eq_max item.alignment_isAlignment, List.map_cons, List.foldr_cons,
        Nat.max_assoc]
  rw [itemsAlignment, fold 0 (Or.inl rfl), Nat.zero_max]

theorem alignment_tuple (tuple : t.isTuple = true) :
    t.alignment = (t.items.map VariantType.alignment).foldr max 0 := by
  by_cases some_item : t.items = []
  · rw [VariantType.alignment, VariantType.info_tupleLike tuple, VariantType.members, some_item]
    rfl
  · rw [(VariantType.tuple_layout tuple some_item).1, itemsAlignment_eq_max]

theorem alignment_container (container : t.isContainer = true) :
    t.alignment = (t.components.map VariantType.alignment).foldr max 0 := by
  cases t with
  | basic b => cases container
  | variant => cases container
  | maybe element => exact (Nat.max_zero _).symm
  | array element => exact (Nat.max_zero _).symm
  | tuple items => exact alignment_tuple rfl
  | dictEntry key value => exact alignment_tuple rfl

/-! ## Types of fixed size -/

mutual
/-- Built from basic types of fixed size by tuples and dictionary entries alone. -/
def VariantType.isFixed : VariantType → Bool
  | .basic b => b.info.fixedSize != 0
  | .tuple items => VariantType.allFixed items
  | .dictEntry key value => key.info.fixedSize != 0 && value.isFixed
  | _ => false

def VariantType.allFixed : List VariantType → Bool
  | [] => true
  | item :: items => item.isFixed && VariantType.allFixed items
end

theorem VariantType.allFixed_iff (items : List VariantType) :
    VariantType.allFixed items = true ↔ ∀ item ∈ items, item.isFixed = true := by
  induction items with
  | nil => simp [VariantType.allFixed]
  | cons item items ih => simp [VariantType.allFixed, ih]

theorem VariantType.isFixed_tuple (tuple : t.isTuple = true) :
    t.isFixed = true ↔ ∀ item ∈ t.items, item.isFixed = true := by
  cases t with
  | tuple items => exact VariantType.allFixed_iff items
  | dictEntry key value => simp [VariantType.isFixed, VariantType.items]
  | _ => cases tuple

theorem VariantType.isFixed_of_fixedSize (fixed : t.fixedSize ≠ 0) : t.isFixed = true := by
  induction t with
  | basic b => exact bne_iff_ne.mpr fixed
  | variant => exact absurd rfl fixed
  | maybe element _ => exact absurd rfl fixed
  | array element _ => exact absurd rfl fixed
  | tuple items ih =>
    refine (VariantType.isFixed_tuple rfl).mpr fun item member => ?_
    exact ih item member (VariantType.item_fixed rfl fixed member)
  | dictEntry key value ih =>
    refine (VariantType.isFixed_tuple rfl).mpr fun item member => ?_
    have size := VariantType.item_fixed (t := .dictEntry key value) rfl fixed member
    rcases List.mem_cons.mp member with rfl | rest
    · exact bne_iff_ne.mpr size
    · cases List.mem_singleton.mp rest
      exact ih size

theorem VariantType.length_string_tuple (tuple : t.isTuple = true) :
    t.string.length = (t.items.map fun item => item.string.length).sum + 2 := by
  have joined : ∀ items : List VariantType, (TypeExpr.strings (VariantType.toExprs items)).length =
      (items.map fun item => item.string.length).sum := by
    intro items
    induction items with
    | nil => rfl
    | cons item items ih =>
      simp only [VariantType.toExprs, TypeExpr.strings, List.length_append, ih, List.map_cons, List.sum_cons]
      rfl
  cases t with
  | tuple items => simp [VariantType.string, VariantType.toExpr, TypeExpr.string, VariantType.items, joined]
  | dictEntry key value =>
    simp [VariantType.string, VariantType.toExpr, TypeExpr.string, VariantType.items]
    omega
  | _ => cases tuple

theorem fixedEnd_le {items : List VariantType}
    (each : ∀ item ∈ items, item.alignment + item.fixedSize ≤ 16 * item.string.length) (offset : Nat) :
    fixedEnd offset items ≤ offset + 16 * (items.map fun item => item.string.length).sum := by
  induction items generalizing offset with
  | nil => exact Nat.le_refl _
  | cons item items ih =>
    have first := each item List.mem_cons_self
    have near := roundUp_le offset item.alignment
    have rest := ih (fun other member => each other (List.mem_cons_of_mem _ member))
      (roundUp offset item.alignment + item.fixedSize)
    rw [List.map_cons, List.sum_cons]
    change fixedEnd (roundUp offset item.alignment + item.fixedSize) items ≤ _
    omega

theorem fixedEnd_pos {items : List VariantType} (some_item : items ≠ [])
    (each : ∀ item ∈ items, item.fixedSize ≠ 0) (offset : Nat) : 0 < fixedEnd offset items := by
  induction items generalizing offset with
  | nil => exact absurd rfl some_item
  | cons item items ih =>
    have first := each item List.mem_cons_self
    by_cases last : items = []
    · rw [last]
      change 0 < roundUp offset item.alignment + item.fixedSize
      omega
    · exact ih last (fun other member => each other (List.mem_cons_of_mem _ member)) _

theorem fixedSize_tuple (tuple : t.isTuple = true) (short : 16 * t.string.length < 2 ^ 64)
    (each : ∀ item ∈ t.items, item.fixedSize ≠ 0 ∧ item.alignment + item.fixedSize ≤ 16 * item.string.length) :
    t.fixedSize ≠ 0 ∧ t.alignment + t.fixedSize ≤ 16 * t.string.length := by
  have length := VariantType.length_string_tuple tuple
  have aligned := t.alignment_le
  by_cases some_item : t.items = []
  · rw [VariantType.fixedSize_unit tuple some_item]
    omega
  · obtain ⟨alignment, size⟩ := VariantType.tuple_layout tuple some_item
    have body := fixedEnd_le (fun item member => (each item member).2) 0
    have positive := fixedEnd_pos some_item (fun item member => (each item member).1) 0
    have near := roundUp_le (fixedEnd 0 t.items) t.alignment
    have above := le_roundUp (fixedEnd 0 t.items) t.alignment
    rw [if_pos (variableCount_eq_zero.mpr fun item member => (each item member).1), ← alignment,
      Nat.mod_eq_of_lt (by omega)] at size
    omega

theorem VariantType.length_string_item {item : VariantType} (tuple : t.isTuple = true) (member : item ∈ t.items) :
    item.string.length ≤ t.string.length := by
  obtain ⟨front, back, shape⟩ := List.append_of_mem member
  rw [VariantType.length_string_tuple tuple, shape, List.map_append, List.map_cons, List.sum_append, List.sum_cons]
  omega

theorem fixedSize_basic {b : Basic} (fixed : (VariantType.basic b).isFixed = true) :
    (VariantType.basic b).fixedSize ≠ 0 ∧
      (VariantType.basic b).alignment + (VariantType.basic b).fixedSize ≤ 16 * (VariantType.basic b).string.length := by
  cases b <;> first | exact ⟨by decide, by decide⟩ | cases fixed

theorem fixedSize_of_isFixed (fixed : t.isFixed = true) (short : 16 * t.string.length < 2 ^ 64) :
    t.fixedSize ≠ 0 ∧ t.alignment + t.fixedSize ≤ 16 * t.string.length := by
  induction t with
  | basic b => exact fixedSize_basic fixed
  | variant => cases fixed
  | maybe element _ => cases fixed
  | array element _ => cases fixed
  | tuple items ih =>
    refine fixedSize_tuple rfl short fun item member => ?_
    have shorter := VariantType.length_string_item (t := .tuple items) rfl member
    exact ih item member ((VariantType.isFixed_tuple rfl).mp fixed item member) (by omega)
  | dictEntry key value ih =>
    refine fixedSize_tuple rfl short fun item member => ?_
    have shorter := VariantType.length_string_item (t := .dictEntry key value) rfl member
    have inner := (VariantType.isFixed_tuple (t := .dictEntry key value) rfl).mp fixed item member
    rcases List.mem_cons.mp member with rfl | rest
    · exact fixedSize_basic inner
    · cases List.mem_singleton.mp rest
      exact ih inner (by omega)

/-! ## Values of fixed size -/

theorem VariantType.tuple_of_fixedSize (fixed : t.fixedSize ≠ 0) :
    t.isTuple = true ∨ ∃ b, t = .basic b := by
  cases t with
  | basic b => exact Or.inr ⟨b, rfl⟩
  | tuple items => exact Or.inl rfl
  | dictEntry key value => exact Or.inl rfl
  | _ => exact absurd rfl fixed

theorem neededSize_fixed {v : Value} (valid : v.wellFormed = true) (fixed : v.type.fixedSize ≠ 0) :
    v.toInstance.size = some v.type.fixedSize := by
  cases v with
  | leaf basic bytes => exact congrArg some (Basic.accepts_fixed valid fixed)
  | node type children =>
    rcases VariantType.tuple_of_fixedSize fixed with tuple | ⟨b, rfl⟩
    · cases type with
      | tuple items => exact if_pos fixed
      | dictEntry key value => exact if_pos fixed
      | _ => cases tuple
    · have admitted := ((Value.wellFormed_node (.basic b) children).mp valid).1
      cases admitted

theorem fixedEnd_closed {m : MemberInfo} (last : t.members.getLast? = some m)
    (fixed : ∀ item ∈ t.items, item.fixedSize ≠ 0) (fits : fixedEnd 0 t.items < wordSize) :
    fixedEnd 0 t.items = m.start 0 + m.typeInfo.fixedSize := by
  obtain ⟨init, item, shape⟩ : ∃ init item, t.items = init ++ [item] := by
    have some_item : t.items ≠ [] := by
      intro none_item
      rw [List.getLast?_eq_none_iff.mpr (List.length_eq_zero_iff.mp (by rw [length_members, none_item]; rfl))] at last
      cases last
    exact ⟨_, _, (List.dropLast_append_getLast some_item).symm⟩
  rw [members_getLast? shape, Option.some.injEq] at last
  subst last
  rw [shape] at fixed fits ⊢
  have state := tracks_fixed (fun other _ => other.alignment_isAlignment)
    (fun other member => fixed other (List.mem_append_left _ member)) (TableState.tracks_run (-1) 0)
  have place : (memberAt init item []).start 0 = roundUp (fixedEnd 0 init) item.alignment % 2 ^ 64 :=
    (state.align item.alignment_isAlignment).start _
  rw [fixedEnd_append] at fits ⊢
  change roundUp (fixedEnd 0 init) item.alignment + item.fixedSize < 2 ^ 64 at fits
  rw [place, Nat.mod_eq_of_lt (by omega)]
  rfl

theorem tupleLoop_fixed {type : VariantType} (tuple : type.isTuple = true) (fixed : type.fixedSize ≠ 0)
    {children : List Value} (writable : (Value.node type children).Writable) {m : MemberInfo}
    (last : type.members.getLast? = some m) {data : Nat} {buffer : Buffer}
    (room : Room buffer data (type, (Value.node type children).encode)) :
    ∃ next, tupleLoop data (gvsGetOffsetSize type.fixedSize) 0 type.fixedSize type.members
        (Value.toInstances children) buffer = some (m.start 0 + m.typeInfo.fixedSize, type.fixedSize, next) ∧
      tupleAlign (m.start 0 + m.typeInfo.fixedSize) type.alignment = type.fixedSize := by
  have admitted := ((Value.wellFormed_node type children).mp writable.valid).1
  rw [← Value.types_pieces] at admitted
  have items := (VariantType.admits_tuple tuple).mp admitted
  have fills : List.Forall₂ Instance.Fills (Value.toInstances children) (Value.pieces children) := by
    rw [Value.toInstances_eq_map, Value.pieces_eq_map, List.forall₂_map_left_iff, List.forall₂_map_right_iff,
      List.forall₂_same]
    exact fun child member => Value.toInstance_fills (writable.child member)
  have sized := Value.pieces_sized writable
  have encoded : (Value.node type children).encode = encodeTuple type (Value.pieces children) := by
    rw [Value.encode, encodeNode_tuple tuple]
  have whole : (Value.node type children).encode.length = type.fixedSize := Value.length_encode writable fixed
  have fits := writable.fits
  have holds := room.holds
  simp only [whole] at holds
  have laid := length_layout 0 ((Value.pieces children).map Piece.part)
  have body := length_encodeTuple type (Value.pieces children)
  rw [← encoded] at body
  obtain ⟨below, no_ends⟩ := length_body_le tuple items sized fixed (by omega)
  have each := pieces_fixed tuple items fixed
  have stop : layoutEnd 0 ((Value.pieces children).map Piece.part) = m.start 0 + m.typeInfo.fixedSize := by
    have walked := layoutEnd_fixed sized each 0
    rw [items] at walked
    rw [walked]
    exact fixedEnd_closed last (fun item member => VariantType.item_fixed tuple fixed member) (by omega)
  have aligned : ∀ piece ∈ Value.pieces children, piece.1.alignment + 1 ∣ data := by
    intro piece member
    have among : piece.1 ∈ type.items := items ▸ List.mem_map_of_mem member
    exact Nat.dvd_trans (piece.1.alignment_isAlignment.isMask.dvd_of_le type.alignment_isAlignment.isMask
      (VariantType.item_alignment_le tuple among)) room.aligned
  have null : data = 0 → ∀ piece ∈ Value.pieces children, piece.2 = [] := by
    intro zero
    exact absurd (whole.symm.trans (List.length_eq_zero_iff.mpr (room.null zero))) fixed
  have kinds : type.members.map MemberInfo.kind = memberKinds ((Value.pieces children).map Prod.fst) := by
    rw [members_kinds, items]
  have written := tupleLoop_eq fills kinds (gvsGetOffsetSize type.fixedSize) aligned null 0 holds (by omega)
    (by rw [no_ends]; simp only [List.length_nil]; omega)
  rw [no_ends, stop, List.length_nil, Nat.mul_zero, Nat.sub_zero] at written
  refine ⟨_, written, ?_⟩
  have some_piece : Value.pieces children ≠ [] := by
    intro none_piece
    rw [none_piece] at items
    rw [List.getLast?_eq_none_iff.mpr (List.length_eq_zero_iff.mp (by rw [length_members, ← items]; rfl))] at last
    cases last
  have rounded := roundUp_body tuple items sized fixed some_piece (by omega)
  rw [tupleAlign, alignUp_eq_roundUp type.alignment_isAlignment.isMask, ← stop]
  exact rounded

structure VariantType.SizesReal (t : VariantType) : Prop where
  built : t.fixedSize ≠ 0 ↔ t.isFixed = true
  common : t.fixedSize ≠ 0 → ∀ v : Value, v.type = t → v.wellFormed = true → v.toInstance.size = some t.fixedSize
  multiple : t.alignment + 1 ∣ t.fixedSize
  admitted : IsAlignment t.alignment
  largest : t.isContainer = true → t.alignment = (t.components.map VariantType.alignment).foldr max 0
  closed : ∀ m, t.fixedSize ≠ 0 → t.members.getLast? = some m → ∀ children, (Value.node t children).Writable →
    ∀ data buffer, Room buffer data (t, (Value.node t children).encode) →
      (∃ next, tupleLoop data (gvsGetOffsetSize t.fixedSize) 0 t.fixedSize t.members (Value.toInstances children) buffer =
        some (m.start 0 + m.typeInfo.fixedSize, t.fixedSize, next)) ∧
      tupleAlign (m.start 0 + m.typeInfo.fixedSize) t.alignment = t.fixedSize

/-- The bound keeps every sum of sizes within a word. -/
theorem sizesReal_of_short (t : VariantType) (short : 16 * t.string.length < 2 ^ 64) : t.SizesReal where
  built := ⟨VariantType.isFixed_of_fixedSize, fun fixed => (fixedSize_of_isFixed fixed short).1⟩
  common := by
    rintro fixed v rfl valid
    exact neededSize_fixed valid fixed
  multiple := t.info_wellFormed.divides
  admitted := t.alignment_isAlignment
  largest := alignment_container
  closed := by
    intro m fixed last children writable data buffer room
    have tuple : t.isTuple = true := by
      rcases VariantType.tuple_of_fixedSize fixed with tuple | ⟨b, rfl⟩
      · exact tuple
      · cases last
    obtain ⟨next, written, rounded⟩ := tupleLoop_fixed tuple fixed writable last room
    exact ⟨⟨next, written⟩, rounded⟩

theorem sizesReal_short : (VariantType.tuple [.basic .byte, .basic .uint32, .basic .uint16]).SizesReal :=
  sizesReal_of_short _ (by decide)

/-- A byte, perhaps another byte, and a number: the padding before the number absorbs the second byte. -/
def paddedTuple : VariantType := .tuple [.basic .byte, .maybe (.basic .byte), .basic .uint32]

theorem paddedTuple_neededSize (first second third : Instance) (short : second.size = some 0 ∨ second.size = some 1) :
    gvsTupleNeededSize paddedTuple [first, second, third] = some 9 := by
  obtain ⟨type, size, store⟩ := second
  rcases short with rfl | rfl <;> rfl

theorem paddedTuple_size (v : Value) (type : v.type = paddedTuple) (valid : v.wellFormed = true) :
    v.toInstance.size = some 9 := by
  cases v with
  | leaf basic bytes => cases type
  | node shape children =>
    obtain rfl : shape = paddedTuple := type
    obtain ⟨admitted, each⟩ := (Value.wellFormed_node _ _).mp valid
    have types : children.map Value.type = [.basic .byte, .maybe (.basic .byte), .basic .uint32] := by
      simpa [paddedTuple, VariantType.admits] using admitted
    obtain ⟨first, rest, rfl, -, types⟩ := List.map_eq_cons_iff.mp types
    obtain ⟨second, rest, rfl, maybe, types⟩ := List.map_eq_cons_iff.mp types
    obtain ⟨third, rest, rfl, -, types⟩ := List.map_eq_cons_iff.mp types
    obtain rfl := List.map_eq_nil_iff.mp types
    have inner := each second (by simp)
    cases second with
    | leaf basic bytes => cases maybe
    | node shape children =>
      obtain rfl : shape = .maybe (.basic .byte) := maybe
      cases children with
      | nil => exact paddedTuple_neededSize _ _ _ (Or.inl rfl)
      | cons child children =>
        have single := ((Value.wellFormed_node _ _).mp inner).1
        simp only [VariantType.admits, List.map_cons, reduceCtorEq, decide_false, Bool.false_or, decide_eq_true_eq,
          List.cons.injEq, List.map_eq_nil_iff] at single
        exact paddedTuple_neededSize _ _ _ (Or.inr rfl)

/-- A tuple of `2 ^ 31` tuples of `2 ^ 30` numbers of eight bytes. -/
def wideTuple : VariantType := .tuple (List.replicate (2 ^ 31) (.tuple (List.replicate (2 ^ 30) (.basic .uint64))))

theorem replicate_fixedSize (fixed : t.fixedSize ≠ 0) {count : Nat} (some_item : count ≠ 0) :
    (VariantType.tuple (List.replicate count t)).fixedSize = count * t.fixedSize % 2 ^ 64 := by
  obtain ⟨count, rfl⟩ := Nat.exists_eq_succ_of_ne_zero some_item
  have repeated : ∀ item ∈ List.replicate (count + 1) t, item = t := fun item member => List.eq_of_mem_replicate member
  have alignment : itemsAlignment (List.replicate (count + 1) t) = t.alignment := by
    have all : ∀ count, ((List.replicate (count + 1) t).map VariantType.alignment).foldr max 0 = t.alignment := by
      intro count
      induction count with
      | zero => exact Nat.max_zero _
      | succ count ih =>
        rw [List.replicate_succ, List.map_cons, List.foldr_cons, ih, Nat.max_self]
    rw [itemsAlignment_eq_max, all]
  have body : ∀ count, fixedEnd 0 (List.replicate count t) = count * t.fixedSize := by
    intro count
    induction count with
    | zero => exact (Nat.zero_mul _).symm
    | succ count ih =>
      have divides : t.alignment + 1 ∣ count * t.fixedSize := Nat.dvd_mul_left_of_dvd t.info_wellFormed.divides count
      rw [List.replicate_succ', fixedEnd_append, ih, Nat.succ_mul]
      change roundUp (count * t.fixedSize) t.alignment + t.fixedSize = _
      rw [roundUp_of_dvd divides]
  obtain ⟨-, size⟩ := VariantType.tuple_layout (t := .tuple (List.replicate (count + 1) t)) rfl
    (by simp [VariantType.items])
  rw [size, if_pos (variableCount_eq_zero.mpr fun item member => by rw [repeated item member]; exact fixed)]
  change roundUp (fixedEnd 0 (List.replicate (count + 1) t)) (itemsAlignment (List.replicate (count + 1) t)) % 2 ^ 64 = _
  have divides : t.alignment + 1 ∣ (count + 1) * t.fixedSize := Nat.dvd_mul_left_of_dvd t.info_wellFormed.divides _
  rw [alignment, body, roundUp_of_dvd divides]

theorem replicate_isFixed (fixed : t.isFixed = true) (count : Nat) :
    (VariantType.tuple (List.replicate count t)).isFixed = true := by
  refine (VariantType.isFixed_tuple rfl).mpr fun item member => ?_
  rw [List.eq_of_mem_replicate member]
  exact fixed

theorem wideTuple_wraps : wideTuple.isFixed = true ∧ wideTuple.fixedSize = 0 := by
  have inner : (VariantType.tuple (List.replicate (2 ^ 30) (.basic .uint64))).fixedSize = 2 ^ 33 :=
    replicate_fixedSize (t := .basic .uint64) (by decide) (by decide)
  refine ⟨replicate_isFixed (replicate_isFixed rfl _) _, ?_⟩
  have outer := replicate_fixedSize (t := .tuple (List.replicate (2 ^ 30) (.basic .uint64))) (by rw [inner]; decide)
    (by decide : 2 ^ 31 ≠ 0)
  rw [inner] at outer
  exact outer.trans (by decide)

/-- The padded tuple has one common size without a fixed one, and the size of the wide tuple wraps to zero. -/
theorem common_size_not_fixed : (¬∀ t : VariantType, t.fixedSize ≠ 0 ↔
      ∃ size, ∀ v : Value, v.type = t → v.wellFormed = true → v.toInstance.size = some size) ∧
    ¬∀ t : VariantType, t.SizesReal := by
  constructor
  · intro claim
    exact (claim paddedTuple).mpr ⟨9, paddedTuple_size⟩ (by decide)
  · intro claim
    obtain ⟨fixed, zero⟩ := wideTuple_wraps
    exact (claim wideTuple).built.mpr fixed zero

end Xpl.Variant
