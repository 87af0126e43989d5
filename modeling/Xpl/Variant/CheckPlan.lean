import Xpl.Variant.Core
import Xpl.Variant.NormalForm

/-! The check for normal form where nothing behind the end of a container may be read, and the
parts that it visits.
-/

set_option autoImplicit false

namespace Xpl.Variant
open Xpl.Library
variable {mask offset : Nat} {value : Serialised}

/-! ## The check with a given reader -/

section Check
variable (byteAt : Data → Nat → Option UInt8) (normal : Serialised → Option Bool)

/-- The padding test of `gvs_tuple_is_normal`. -/
def isTuplePaddingBy (value : Serialised) (position : Nat) : Option Bool :=
  if position > value.size then some false else (byteAt value.data position).map (· = 0)

def tupleNormalLoopBy (value : Serialised) (offsetSize : Nat) :
    List MemberInfo → Nat → Nat → Option (Option (Nat × Nat))
  | [], offset, offsetPtr => some (some (offset, offsetPtr))
  | member :: members, offset, offsetPtr => do
    let alignment := member.typeInfo.alignment
    match ← skipPadding (isTuplePaddingBy byteAt value) alignment alignment offset with
    | none => return none
    | some start =>
      match ← tupleNormalEnd value offsetSize member start offsetPtr with
      | none => return none
      | some (stop, offsetPtr) =>
        if stop < start ∨ stop > offsetPtr then return none
        if ← normal (value.childAt member.type start stop) then
          tupleNormalLoopBy value offsetSize members stop offsetPtr
        else return none

def isTailPaddingBy (value : Serialised) (position : Nat) : Option Bool :=
  (byteAt value.data position).map (· = 0)

def tupleNormalTailBy (value : Serialised) (offset : Nat) : Option (Option Nat) :=
  if value.type.members.length = 0 then do
    if ← isTailPaddingBy byteAt value offset then return some (offset + 1) else return none
  else skipPadding (isTailPaddingBy byteAt value) value.type.alignment value.type.alignment offset

def gvsTupleIsNormalBy (value : Serialised) : Option Bool :=
  if value.data.isNull ∧ value.size ≠ 0 then some false
  else do
    let offsetSize := gvsGetOffsetSize value.size
    match ← tupleNormalLoopBy byteAt normal value offsetSize value.type.members 0 value.size with
    | none => return false
    | some (offset, offsetPtr) =>
      if value.type.fixedSize ≠ 0 then
        if value.type.fixedSize = value.size ∧ offsetPtr = value.size then
          match ← tupleNormalTailBy byteAt value offset with
          | none => return false
          | some stop => if stop = value.size then return decide (offsetPtr = stop) else none
        else none
      else return decide (offsetPtr = offset)

def gvsIsNormalBy (value : Serialised) : Option Bool :=
  match value.type with
  | .maybe element =>
    if element.fixedSize ≠ 0 then gvsFixedSizedMaybeIsNormal normal element value
    else gvsVariableSizedMaybeIsNormal normal element value
  | .array element =>
    if element.fixedSize ≠ 0 then gvsFixedSizedArrayIsNormal normal element value
    else gvsVariableSizedArrayIsNormal normal element value
  | .tuple _ | .dictEntry _ _ => gvsTupleIsNormalBy byteAt normal value
  | .variant => gvsVariantIsNormal normal value
  | .basic b => basicIsNormal b value.data

end Check

def isNormalWithinBy (byteAt : Data → Nat → Option UInt8) : Nat → Serialised → Option Bool
  | 0, _ => some false
  | levels + 1, value => gvsIsNormalBy byteAt (isNormalWithinBy byteAt levels) value

/-- `xvariant_serialised_is_normal` where a read behind the end fails, as an assertion does. -/
def xvariantSerialisedIsNormalConfined (value : Serialised) : Option Bool :=
  isNormalWithinBy Data.byte (maxRecursionDepth - value.depth) value

theorem tupleNormalLoopBy_memory (memory : Nat → UInt8) (normal : Serialised → Option Bool) (value : Serialised)
    (width : Nat) (members : List MemberInfo) (offset offsetPtr : Nat) :
    tupleNormalLoopBy (Data.byteIn memory) normal value width members offset offsetPtr =
      tupleNormalLoop memory normal value width members offset offsetPtr := by
  induction members generalizing offset offsetPtr with
  | nil => rfl
  | cons member members ih =>
    simp only [tupleNormalLoopBy, tupleNormalLoop, ih]
    rfl

/-- With memory behind the end it is the same check. -/
theorem isNormalWithinBy_memory (memory : Nat → UInt8) (levels : Nat) (value : Serialised) :
    isNormalWithinBy (Data.byteIn memory) levels value = isNormalWithin memory levels value := by
  induction levels generalizing value with
  | zero => rfl
  | succ levels ih =>
    have same : isNormalWithinBy (Data.byteIn memory) levels = isNormalWithin memory levels := funext ih
    rw [isNormalWithinBy, isNormalWithin, same]
    cases type : value.type with
    | tuple items =>
      simp only [gvsIsNormalBy, gvsIsNormal, type, gvsTupleIsNormalBy, gvsTupleIsNormal, tupleNormalLoopBy_memory]
      rfl
    | dictEntry key item =>
      simp only [gvsIsNormalBy, gvsIsNormal, type, gvsTupleIsNormalBy, gvsTupleIsNormal, tupleNormalLoopBy_memory]
      rfl
    | _ => simp only [gvsIsNormalBy, gvsIsNormal, type]

/-! ## What the check visits -/

/-- The parts that a check visits, as long as they are in normal form, and its verdict after the last one. Without a
verdict it reads behind the end of the container. -/
structure Plan where
  parts : List Serialised
  verdict : Option Bool

def Plan.reject : Plan := { parts := [], verdict := some false }
def Plan.accept (parts : List Serialised) : Plan := { parts := parts, verdict := some true }
def Plan.visit (plan : Plan) (part : Serialised) : Plan := { plan with parts := part :: plan.parts }

def isZero (bytes : Bytes) (start stop : Nat) : Bool := (slice bytes start stop).all (· = 0)

def arrayPlan (element : VariantType) (value : Serialised) (offsetSize lastEnd : Nat) : Nat → Nat → Nat → Plan
  | 0, _, _ => .accept []
  | count + 1, index, offset =>
    let entry := lastEnd + offsetSize * index
    let thisEnd := leValue (slice value.data.bytes entry (entry + offsetSize))
    let start := roundUp offset element.alignment
    if start ≤ thisEnd ∧ thisEnd ≤ lastEnd ∧ isZero value.data.bytes offset start = true then
      (arrayPlan element value offsetSize lastEnd count (index + 1) thisEnd).visit (value.childAt element start thisEnd)
    else .reject

def tuplePlan (value : Serialised) (offsetSize : Nat) : List MemberInfo → Nat → Nat → Plan
  | [], offset, offsetPtr =>
    { parts := []
      verdict := some (if value.type.fixedSize ≠ 0 then isZero value.data.bytes offset value.size
        else decide (offsetPtr = offset)) }
  | member :: members, offset, offsetPtr =>
    let start := roundUp offset member.typeInfo.alignment
    if isZero value.data.bytes offset start then
      -- The padding goes on behind the last byte.
      if value.size < start then { parts := [], verdict := none }
      else
        match tupleNormalEnd value offsetSize member start offsetPtr with
        | some (some (stop, offsetPtr)) =>
          if stop < start ∨ stop > offsetPtr then .reject
          else (tuplePlan value offsetSize members stop offsetPtr).visit (value.childAt member.type start stop)
        | _ => .reject
    else .reject

def arrayCheckPlan (element : VariantType) (value : Serialised) : Plan :=
  let offsetSize := gvsGetOffsetSize value.size
  let lastEnd := arrayLastEnd value.data.bytes
  if value.size = 0 then .accept []
  else if lastEnd < value.size ∧ (value.size - lastEnd) % offsetSize = 0 then
    arrayPlan element value offsetSize lastEnd ((value.size - lastEnd) / offsetSize) 0 0
  else .reject

def checkPlan (value : Serialised) : Plan :=
  match value.type with
  | .maybe element =>
    if value.size = 0 then .accept []
    else if element.fixedSize ≠ 0 then
      if value.size = element.fixedSize then .accept [gvsFixedSizedMaybeGetChild element value] else .reject
    else if value.data.byte (value.size - 1) = some 0 then
      .accept [{ type := element, data := value.data.range 0 (value.size - 1), depth := value.depth + 1 }]
    else .reject
  | .array element =>
    if element.fixedSize ≠ 0 then
      if value.size % element.fixedSize = 0 then
        .accept ((List.range (value.size / element.fixedSize)).map (gvsFixedSizedArrayGetChild element value))
      else .reject
    else arrayCheckPlan element value
  | .tuple _ | .dictEntry _ _ =>
    if value.data.isNull ∧ value.size ≠ 0 then .reject
    else tuplePlan value (gvsGetOffsetSize value.size) value.type.members 0 value.size
  | .variant =>
    match gvsVariantGetChild value with
    | some child =>
      if depthAllows value.depth (xvariantTypeInfoQueryDepth child.type) ∧
          (child.data.isNull = false ∨ child.size = 0) then .accept [child]
      else .reject
    | none => .reject
  | .basic b => { parts := [], verdict := basicIsNormal b value.data }

/-- Going through the parts. -/
def visitAll (normal : Serialised → Option Bool) (verdict : Option Bool) : List Serialised → Option Bool
  | [] => verdict
  | part :: parts => do
    if ← normal part then visitAll normal verdict parts else return false

/-! ## Padding -/

/-- The first byte that is not padding ends the loop. -/
theorem skipPadding_stops {isPadding : Nat → Option Bool} (isMask : IsMask mask) {fuel position : Nat}
    (enough : roundUp offset mask - offset ≤ fuel) (above : offset ≤ position) (below : position < roundUp offset mask)
    (before : ∀ other, offset ≤ other → other < position → isPadding other = some true)
    (stops : isPadding position ≠ some true) :
    skipPadding isPadding mask fuel offset = (isPadding position).map fun _ => none := by
  induction fuel generalizing offset with
  | zero => omega
  | succ fuel ih =>
    have between : ¬mask + 1 ∣ offset := fun multiple => by
      rw [roundUp_of_dvd multiple] at below
      omega
    have low : ¬offset &&& mask = 0 := by rwa [isMask.and_eq_mod, ← Nat.dvd_iff_mod_eq_zero]
    rw [skipPadding, if_neg low]
    rcases Nat.eq_or_lt_of_le above with rfl | later
    · cases byte : isPadding offset with
      | none => rfl
      | some padding =>
        cases padding with
        | false => rfl
        | true => exact absurd byte stops
    · rw [before offset (Nat.le_refl _) later, some_bind, if_pos rfl]
      have next := roundUp_succ between
      exact ih (by omega) later (by omega) fun other first last => before other (by omega) last

theorem isZero_iff (bytes : Bytes) (start stop : Nat) :
    isZero bytes start stop = true ↔
      ∀ position, start ≤ position → position < stop → position < bytes.length → bytes[position]? = some 0 := by
  rw [isZero, List.all_eq_true]
  simp only [decide_eq_true_eq]
  constructor
  · intro zero position above below inside
    have found : (slice bytes start stop)[position - start]? = some bytes[position] := by
      rw [slice, List.getElem?_take_of_lt (by omega), List.getElem?_drop, List.getElem?_eq_getElem (by omega)]
      congr
      omega
    rw [List.getElem?_eq_getElem inside, zero _ (List.mem_of_getElem? found)]
  · intro zero byte member
    obtain ⟨index, found⟩ := List.getElem?_of_mem member
    rw [slice] at found
    have short := (List.getElem?_eq_some_iff.mp found).1
    rw [List.length_take, List.length_drop] at short
    rw [List.getElem?_take_of_lt (by omega), List.getElem?_drop, zero _ (by omega) (by omega) (by omega)] at found
    cases found
    rfl

theorem exists_not_zero {bytes : Bytes} {start stop : Nat} (other : isZero bytes start stop = false) :
    ∃ position, start ≤ position ∧ position < stop ∧ position < bytes.length ∧ bytes[position]? ≠ some 0 ∧
      ∀ before, start ≤ before → before < position → bytes[before]? = some 0 := by
  have some_byte : ∃ position, start ≤ position ∧ position < stop ∧ position < bytes.length ∧ bytes[position]? ≠ some 0 := by
    by_contra none_byte
    have zero : isZero bytes start stop = true := (isZero_iff bytes start stop).mpr fun position above below inside => by
      by_contra different
      exact none_byte ⟨position, above, below, inside, different⟩
    rw [zero] at other
    cases other
  obtain ⟨above, below, inside, different⟩ := Nat.find_spec some_byte
  refine ⟨Nat.find some_byte, above, below, inside, different, fun before first last => ?_⟩
  by_contra wrong
  exact Nat.find_min some_byte last ⟨first, by omega, by omega, wrong⟩

theorem skipPadding_inside {isPadding : Nat → Option Bool} (isMask : IsMask mask) {bytes : Bytes}
    (inside : roundUp offset mask ≤ bytes.length)
    (reads : ∀ position, offset ≤ position → position < roundUp offset mask →
      isPadding position = some (decide (bytes[position]? = some 0))) :
    skipPadding isPadding mask mask offset =
      some (if isZero bytes offset (roundUp offset mask) then some (roundUp offset mask) else none) := by
  have enough : roundUp offset mask - offset ≤ mask := by
    have near := roundUp_le offset mask
    omega
  cases zero : isZero bytes offset (roundUp offset mask) with
  | true =>
    refine skipPadding_complete isMask enough fun position above below => ?_
    rw [reads position above below, (isZero_iff _ _ _).mp zero position above below (by omega)]
    rfl
  | false =>
    obtain ⟨position, above, below, -, different, before⟩ := exists_not_zero zero
    have stops : isPadding position = some false := by simp [reads position above below, different]
    rw [if_neg Bool.false_ne_true, skipPadding_stops isMask enough above below (fun other first last => ?_)
      (by rw [stops]; simp), stops]
    · rfl
    · rw [reads other first (by omega), before other first last]
      rfl

/-! ## Arrays -/

section Arrays
variable {element : VariantType} {value : Serialised} {address : Nat} {bytes : Bytes} (normal : Serialised → Option Bool)

theorem isArrayPadding_inside (data : value.data = .span address bytes) {thisEnd position : Nat}
    (inside : thisEnd ≤ bytes.length) (before : position < thisEnd) :
    isArrayPadding value thisEnd position = some (decide (bytes[position]? = some 0)) := by
  rw [isArrayPadding, if_pos before, data]
  change (bytes[position]?).map (fun byte => decide (byte = 0)) = _
  rw [List.getElem?_eq_getElem (by omega)]
  simp

theorem skipPadding_array (data : value.data = .span address bytes) {thisEnd offset : Nat} (inside : thisEnd ≤ bytes.length)
    (above : offset ≤ thisEnd) :
    skipPadding (isArrayPadding value thisEnd) element.alignment element.alignment offset =
      some (if roundUp offset element.alignment ≤ thisEnd ∧
        isZero bytes offset (roundUp offset element.alignment) = true then some (roundUp offset element.alignment) else none) := by
  have mask := element.alignment_isAlignment.isMask
  by_cases room : roundUp offset element.alignment ≤ thisEnd
  · rw [skipPadding_inside mask (Nat.le_trans room inside) fun position first last =>
      isArrayPadding_inside data inside (by omega)]
    simp only [room, true_and]
  · have some_stop : ∃ position, offset ≤ position ∧ isArrayPadding value thisEnd position ≠ some true :=
      ⟨thisEnd, above, by simp [isArrayPadding]⟩
    obtain ⟨first, stops⟩ := Nat.find_spec some_stop
    have early : Nat.find some_stop ≤ thisEnd := Nat.find_min' some_stop ⟨above, by simp [isArrayPadding]⟩
    have refused : isArrayPadding value thisEnd (Nat.find some_stop) = some false := by
      rcases Nat.eq_or_lt_of_le early with last | before
      · rw [last, isArrayPadding, if_neg (Nat.lt_irrefl _)]
      · rw [isArrayPadding_inside data inside before] at stops ⊢
        simpa using stops
    have near := roundUp_le offset element.alignment
    rw [skipPadding_stops mask (by omega) first (by omega) (fun other above below => ?_) stops, refused,
      if_neg fun h => room h.1]
    · rfl
    · by_contra different
      exact Nat.find_min some_stop below ⟨above, different⟩

theorem arrayNormalLoop_plan (data : value.data = .span address bytes) (count index offset : Nat)
    (table : arrayLastEnd bytes + gvsGetOffsetSize bytes.length * (index + count) = bytes.length)
    (last : count = 0 → offset = arrayLastEnd bytes) :
    arrayNormalLoop normal element value (gvsGetOffsetSize bytes.length) (arrayLastEnd bytes) count index offset =
      visitAll normal
        (arrayPlan element value (gvsGetOffsetSize bytes.length) (arrayLastEnd bytes) count index offset).verdict
        (arrayPlan element value (gvsGetOffsetSize bytes.length) (arrayLastEnd bytes) count index offset).parts := by
  induction count generalizing index offset with
  | zero =>
    rw [arrayNormalLoop, if_pos (last rfl)]
    rfl
  | succ count ih =>
    set width := gvsGetOffsetSize bytes.length with width_def
    have spread : width * (index + (count + 1)) = width * index + width + width * count := by ring
    have next : width * (index + 1 + count) = width * (index + (count + 1)) := by ring
    set thisEnd := leValue (slice bytes (arrayLastEnd bytes + width * index) (arrayLastEnd bytes + width * index + width))
      with thisEnd_def
    have read : gvsReadUnalignedLe value.data (arrayLastEnd bytes + width * index) width = some thisEnd := by
      rw [data, gvsReadUnalignedLe_span address (by omega)]
    have plan : arrayPlan element value width (arrayLastEnd bytes) (count + 1) index offset =
        if roundUp offset element.alignment ≤ thisEnd ∧ thisEnd ≤ arrayLastEnd bytes ∧
            isZero bytes offset (roundUp offset element.alignment) = true then
          (arrayPlan element value width (arrayLastEnd bytes) count (index + 1) thisEnd).visit
            (value.childAt element (roundUp offset element.alignment) thisEnd)
        else .reject := by
      rw [arrayPlan, data]
      rfl
    -- The last entry of the table is the start of the table.
    have final : count = 0 → thisEnd = arrayLastEnd bytes := by
      rintro rfl
      have position : arrayLastEnd bytes + width * index = bytes.length - width := by omega
      rw [thisEnd_def, position]
      rfl
    have rounded := le_roundUp offset element.alignment
    rw [arrayNormalLoop, plan, read]
    simp only [some_bind]
    by_cases order : thisEnd < offset ∨ thisEnd > arrayLastEnd bytes
    · have outside : ¬(roundUp offset element.alignment ≤ thisEnd ∧ thisEnd ≤ arrayLastEnd bytes ∧
          isZero bytes offset (roundUp offset element.alignment) = true) := by
        rintro ⟨first, second, -⟩
        omega
      rw [if_pos order, if_neg outside]
      rfl
    · rw [if_neg order, skipPadding_array data (by omega) (by omega)]
      by_cases room : roundUp offset element.alignment ≤ thisEnd ∧
          isZero bytes offset (roundUp offset element.alignment) = true
      · rw [if_pos room, if_pos ⟨room.1, by omega, room.2⟩]
        simp only [Option.bind_some, Plan.visit, visitAll, Option.bind_eq_bind]
        rw [ih (index + 1) thisEnd (by omega) final]
      · rw [if_neg room, if_neg fun h => room ⟨h.1, h.2.2⟩]
        rfl

theorem gvsVariableSizedArrayIsNormal_plan (backed : value.size = 0 ∨ value.data.isNull = false) :
    gvsVariableSizedArrayIsNormal normal element value =
      visitAll normal (arrayCheckPlan element value).verdict (arrayCheckPlan element value).parts := by
  unfold gvsVariableSizedArrayIsNormal arrayCheckPlan
  by_cases empty : value.size = 0
  · rw [if_pos empty, if_pos empty]
    rfl
  · cases data : value.data with
    | null size =>
      rw [data] at backed
      cases backed.resolve_left empty
    | span address bytes =>
      have size : value.size = bytes.length := by rw [Serialised.size, data]; rfl
      have width := gvsGetOffsetSize_le bytes.length
      have read : gvsReadUnalignedLe (.span address bytes) (bytes.length - gvsGetOffsetSize bytes.length)
          (gvsGetOffsetSize bytes.length) = some (arrayLastEnd bytes) := by
        rw [gvsReadUnalignedLe_span address (Nat.le_of_eq (Nat.sub_add_cancel width)), arrayLastEnd]
      rw [if_neg empty, if_neg empty]
      simp only [size, read, some_bind, Data.bytes]
      by_cases table : arrayLastEnd bytes < bytes.length ∧
          (bytes.length - arrayLastEnd bytes) % gvsGetOffsetSize bytes.length = 0
      · obtain ⟨room, whole⟩ := table
        have divides := Nat.dvd_of_mod_eq_zero whole
        have counted := Nat.mul_div_cancel' divides
        have some_entry : (bytes.length - arrayLastEnd bytes) / gvsGetOffsetSize bytes.length ≠ 0 := by
          intro none_entry
          rw [none_entry, Nat.mul_zero] at counted
          omega
        rw [if_neg (by omega), if_neg (not_not.mpr whole), if_neg some_entry, if_pos ⟨room, whole⟩]
        exact arrayNormalLoop_plan normal data _ 0 0 (by rw [Nat.zero_add, counted]; omega) fun none_left =>
          absurd none_left some_entry
      · rw [if_neg table]
        by_cases beyond : arrayLastEnd bytes > bytes.length
        · rw [if_pos beyond]
          rfl
        · rw [if_neg beyond]
          split
          · rfl
          · rw [if_pos]
            · rfl
            · have last : arrayLastEnd bytes = bytes.length := by
                by_contra other
                exact table ⟨by omega, by omega⟩
              rw [last, Nat.sub_self, Nat.zero_div]

theorem arrayCheckPlan_verdict (element : VariantType) (value : Serialised) :
    ∃ verdict, (arrayCheckPlan element value).verdict = some verdict := by
  have walked : ∀ width lastEnd count index offset,
      ∃ verdict, (arrayPlan element value width lastEnd count index offset).verdict = some verdict := by
    intro width lastEnd count
    induction count with
    | zero => exact fun _ _ => ⟨true, rfl⟩
    | succ count ih =>
      intro index offset
      unfold arrayPlan
      dsimp only
      split
      · exact ih _ _
      · exact ⟨false, rfl⟩
  unfold arrayCheckPlan
  dsimp only
  split
  · exact ⟨true, rfl⟩
  · split
    · exact walked _ _ _ _ _
    · exact ⟨false, rfl⟩

theorem allNormal_eq (parts : List Serialised) : allNormal normal parts = visitAll normal (some true) parts := by
  induction parts with
  | nil => rfl
  | cons part parts ih => rw [allNormal, visitAll, ih]

end Arrays

/-! ## Tuples -/

/-- A reader of the bytes of a container, and what a tuple check comes to that looks behind the end. -/
structure Reader (byteAt : Data → Nat → Option UInt8) (past : Option Bool) : Prop where
  inside : ∀ data position, position < data.bytes.length → byteAt data position = data.bytes[position]?
  rejects : past = none ∨ past = some false
  exceeds : ∀ normal value width member members offset offsetPtr, member.typeInfo.WellFormed →
    value.size = value.data.bytes.length → offset ≤ value.size → offsetPtr ≤ value.size →
    value.size < roundUp offset member.typeInfo.alignment →
    isZero value.data.bytes offset (roundUp offset member.typeInfo.alignment) = true →
    tupleNormalLoopBy byteAt normal value width (member :: members) offset offsetPtr = past.map fun _ => none

theorem isTuplePaddingBy_inside {byteAt : Data → Nat → Option UInt8} {past : Option Bool} (reader : Reader byteAt past)
    (size : value.size = value.data.bytes.length) {position : Nat} (inside : position < value.size) :
    isTuplePaddingBy byteAt value position = some (decide (value.data.bytes[position]? = some 0)) := by
  rw [isTuplePaddingBy, if_neg (by omega), reader.inside _ _ (by omega), List.getElem?_eq_getElem (by omega)]
  simp

theorem skipPadding_over {byteAt : Data → Nat → Option UInt8}
    (inside : ∀ data position, position < data.bytes.length → byteAt data position = data.bytes[position]?)
    (size : value.size = value.data.bytes.length) (isMask : IsMask mask)
    (within : offset ≤ value.size) (exceeds : value.size < roundUp offset mask)
    (zero : isZero value.data.bytes offset (roundUp offset mask) = true)
    (stops : isTuplePaddingBy byteAt value value.size ≠ some true) :
    skipPadding (isTuplePaddingBy byteAt value) mask mask offset =
      (isTuplePaddingBy byteAt value value.size).map fun _ => none := by
  have near := roundUp_le offset mask
  refine skipPadding_stops isMask (by omega) within exceeds (fun position first last => ?_) stops
  rw [isTuplePaddingBy, if_neg (by omega), inside _ _ (by omega),
    (isZero_iff _ _ _).mp zero position first (by omega) (by omega)]
  rfl

theorem reader_confined : Reader Data.byte none := by
  have inside : ∀ data position, position < data.bytes.length → Data.byte data position = data.bytes[position]? := by
    intro data position below
    cases data with
    | null size => cases below
    | span address bytes => rfl
  refine ⟨inside, Or.inl rfl, ?_⟩
  intro normal value width member members offset offsetPtr known size within _ exceeds zero
  have behind : isTuplePaddingBy Data.byte value value.size = none := by
    rw [isTuplePaddingBy, if_neg (Nat.lt_irrefl _), size]
    cases value.data with
    | null size => rfl
    | span address bytes => simp [Data.byte, Data.bytes]
  rw [tupleNormalLoopBy, skipPadding_over inside size known.mask.isMask within exceeds zero (by simp [behind]), behind]
  rfl

theorem reader_memory (memory : Nat → UInt8) : Reader (Data.byteIn memory) (some false) := by
  have inside : ∀ data position, position < data.bytes.length →
      Data.byteIn memory data position = data.bytes[position]? := by
    intro data position below
    cases data with
    | null size => cases below
    | span address bytes =>
      change some (bytes.getD position _) = bytes[position]?
      have found : position < bytes.length := below
      rw [List.getD_eq_getElem _ _ found, List.getElem?_eq_getElem found]
  refine ⟨inside, Or.inr rfl, ?_⟩
  intro normal value width member members offset offsetPtr known size within bounded exceeds zero
  have mask := known.mask.isMask
  have near := roundUp_le offset member.typeInfo.alignment
  have upTo : ∀ position, offset ≤ position → position < value.size →
      isTuplePaddingBy (Data.byteIn memory) value position = some true := by
    intro position first last
    rw [isTuplePaddingBy, if_neg (by omega), inside _ _ (by omega),
      (isZero_iff _ _ _).mp zero position first (by omega) (by omega)]
    rfl
  rw [tupleNormalLoopBy]
  by_cases stops : isTuplePaddingBy (Data.byteIn memory) value value.size = some true
  · by_cases next : roundUp offset member.typeInfo.alignment = value.size + 1
    · -- The member would start behind the end, so that no end suits it.
      have skipped : skipPadding (isTuplePaddingBy (Data.byteIn memory) value) member.typeInfo.alignment
          member.typeInfo.alignment offset = some (some (roundUp offset member.typeInfo.alignment)) := by
        refine skipPadding_complete mask (by omega) fun position first last => ?_
        rcases Nat.lt_or_ge position value.size with before | after
        · exact upTo position first before
        · rw [show position = value.size by omega]
          exact stops
      rw [skipped, next]
      simp only [Option.bind_eq_bind, Option.bind_some, tupleNormalEnd]
      cases member.ending with
      | last =>
        dsimp only [Option.bind_some]
        rw [if_pos (by omega)]
        rfl
      | fixed =>
        dsimp only [Option.bind_some]
        rw [if_pos]
        · rfl
        · rw [wordSize]
          omega
      | offset =>
        dsimp only
        split
        · rfl
        · rw [if_pos (by omega)]
          rfl
    · have refused : isTuplePaddingBy (Data.byteIn memory) value (value.size + 1) = some false := by
        rw [isTuplePaddingBy, if_pos (Nat.lt_succ_self _)]
      have skipped : skipPadding (isTuplePaddingBy (Data.byteIn memory) value) member.typeInfo.alignment
          member.typeInfo.alignment offset = (isTuplePaddingBy (Data.byteIn memory) value (value.size + 1)).map
            fun _ => none := by
        refine skipPadding_stops mask (by omega) (by omega) (by omega) (fun position first last => ?_) (by simp [refused])
        rcases Nat.lt_or_ge position value.size with before | after
        · exact upTo position first before
        · rw [show position = value.size by omega]
          exact stops
      rw [skipped, refused]
      rfl
  · rw [skipPadding_over inside size mask within exceeds zero stops]
    cases byte : isTuplePaddingBy (Data.byteIn memory) value value.size with
    | some padding => rfl
    | none =>
      cases data : value.data with
      | null count =>
        -- Without bytes every offset is a multiple.
        rw [data] at size
        have start : offset = 0 := by
          change value.size = 0 at size
          omega
        rw [start, roundUp_of_dvd (Nat.dvd_zero _)] at exceeds
        exact absurd exceeds (Nat.not_lt_zero _)
      | span address bytes =>
        rw [isTuplePaddingBy, if_neg (Nat.lt_irrefl _), data] at byte
        cases byte

/-- What follows the loop of `gvs_tuple_is_normal`. -/
def tupleFinish (byteAt : Data → Nat → Option UInt8) (value : Serialised) : Option (Nat × Nat) → Option Bool
  | none => some false
  | some (offset, offsetPtr) =>
    if value.type.fixedSize ≠ 0 then
      if value.type.fixedSize = value.size ∧ offsetPtr = value.size then
        match tupleNormalTailBy byteAt value offset with
        | none => none
        | some none => some false
        | some (some stop) => if stop = value.size then some (decide (offsetPtr = stop)) else none
      else none
    else some (decide (offsetPtr = offset))

section Tuples
variable {byteAt : Data → Nat → Option UInt8} {past : Option Bool} {value : Serialised}

theorem gvsTupleIsNormalBy_eq (normal : Serialised → Option Bool) :
    gvsTupleIsNormalBy byteAt normal value = if value.data.isNull ∧ value.size ≠ 0 then some false
      else (tupleNormalLoopBy byteAt normal value (gvsGetOffsetSize value.size) value.type.members 0 value.size).bind
        (tupleFinish byteAt value) := by
  rw [gvsTupleIsNormalBy]
  split
  · rfl
  · dsimp only [Option.bind_eq_bind]
    congr 1
    funext walked
    cases walked with
    | none => rfl
    | some result =>
      obtain ⟨offset, offsetPtr⟩ := result
      dsimp only [tupleFinish]
      split
      · split
        · cases tupleNormalTailBy byteAt value offset with
          | none => rfl
          | some stop => cases stop <;> rfl
        · rfl
      · rfl

theorem tupleNormalEnd_inside (size : value.size = value.data.bytes.length) {member : MemberInfo} {offset offsetPtr : Nat}
    (bounded : offsetPtr ≤ value.size) :
    ∃ result, tupleNormalEnd value (gvsGetOffsetSize value.size) member offset offsetPtr = some result ∧
      ∀ stop next, result = some (stop, next) → next ≤ offsetPtr ∧
        (member.ending = .fixed → next = offsetPtr ∧ stop = (offset + member.typeInfo.fixedSize) % wordSize) := by
  rw [tupleNormalEnd]
  cases ending : member.ending with
  | fixed =>
    refine ⟨_, rfl, fun stop next same => ?_⟩
    cases same
    exact ⟨Nat.le_refl _, fun _ => ⟨rfl, rfl⟩⟩
  | last =>
    refine ⟨_, rfl, fun stop next same => ?_⟩
    cases same
    exact ⟨Nat.le_refl _, by rintro ⟨⟩⟩
  | offset =>
    dsimp only
    split
    case isTrue => exact ⟨none, rfl, by rintro _ _ ⟨⟩⟩
    case isFalse room =>
      split
      case isTrue => exact ⟨none, rfl, by rintro _ _ ⟨⟩⟩
      case isFalse =>
        obtain ⟨stop, read⟩ : ∃ stop, gvsReadUnalignedLe value.data (offsetPtr - gvsGetOffsetSize value.size)
            (gvsGetOffsetSize value.size) = some stop := by
          refine readTable_inside (fun null => ?_) (by change _ ≤ value.size; omega)
          change value.size = 0
          rw [size]
          cases data : value.data with
          | null count => rfl
          | span address bytes => rw [data] at null; cases null
        rw [read]
        refine ⟨_, rfl, fun other next same => ?_⟩
        cases same
        exact ⟨Nat.sub_le _ _, by rintro ⟨⟩⟩

theorem tupleFinish_fixed (reader : Reader byteAt past) (tuple : value.type.isTuple = true)
    (size : value.size = value.data.bytes.length) (fixed : value.type.fixedSize ≠ 0)
    (sized : value.size = value.type.fixedSize) {offset : Nat} (body : fixedEnd 0 value.type.items = offset)
    (within : offset ≤ value.size) :
    tupleFinish byteAt value (some (offset, value.size)) = some (isZero value.data.bytes offset value.size) := by
  have reads : ∀ position, position < value.size →
      isTailPaddingBy byteAt value position = some (decide (value.data.bytes[position]? = some 0)) := by
    intro position inside
    rw [isTailPaddingBy, reader.inside _ _ (by omega), List.getElem?_eq_getElem (by omega)]
    simp
  have tail : tupleNormalTailBy byteAt value offset =
      some (if isZero value.data.bytes offset value.size then some value.size else none) := by
    rw [tupleNormalTailBy]
    by_cases none_item : value.type.items = []
    · have unit := VariantType.fixedSize_unit tuple none_item
      have start : offset = 0 := by rw [← body, none_item]; rfl
      rw [if_pos (by rw [length_members, none_item]; rfl), start, reads 0 (by omega), sized, unit]
      have zero : isZero value.data.bytes 0 1 = decide (value.data.bytes[0]? = some 0) := by
        rw [Bool.eq_iff_iff, isZero_iff, decide_eq_true_eq]
        constructor
        · exact fun all => all 0 (Nat.le_refl _) (by decide) (by omega)
        · intro first position _ below _
          rw [show position = 0 by omega]
          exact first
      rw [zero, some_bind]
      split <;> rfl
    · obtain ⟨alignment, whole⟩ := VariantType.tuple_layout tuple none_item
      have items : ∀ item ∈ value.type.items, item.fixedSize ≠ 0 := fun item => VariantType.item_fixed tuple fixed
      have divides : value.type.alignment + 1 ∣ value.type.fixedSize := value.type.info_wellFormed.divides
      have below := roundUp_le_of_dvd divides (show offset ≤ value.type.fixedSize by omega)
      rw [if_pos (variableCount_eq_zero.mpr items), ← alignment, body, Nat.mod_eq_of_lt (by omega)] at whole
      rw [if_neg (by rw [length_members]; simpa using none_item)]
      rw [skipPadding_inside value.type.alignment_isAlignment.isMask (by omega) fun position _ below => reads position (by omega),
        ← whole, ← sized]
  rw [tupleFinish, if_pos fixed, if_pos ⟨sized.symm, rfl⟩, tail]
  cases isZero value.data.bytes offset value.size <;> simp

theorem tupleNormalLoopBy_plan (reader : Reader byteAt past) (normal : Serialised → Option Bool)
    (tuple : value.type.isTuple = true) (size : value.size = value.data.bytes.length)
    (sized : value.type.fixedSize ≠ 0 → value.size = value.type.fixedSize) {items : List VariantType}
    {members : List MemberInfo} (kinds : members.map MemberInfo.kind = memberKinds items) {offset offsetPtr : Nat}
    (within : offset ≤ offsetPtr) (bounded : offsetPtr ≤ value.size)
    (whole : value.type.fixedSize ≠ 0 → offsetPtr = value.size ∧ (∀ item ∈ items, item.fixedSize ≠ 0) ∧
      fixedEnd 0 value.type.items = fixedEnd offset items) :
    (tupleNormalLoopBy byteAt normal value (gvsGetOffsetSize value.size) members offset offsetPtr).bind
        (tupleFinish byteAt value) =
      visitAll normal ((tuplePlan value (gvsGetOffsetSize value.size) members offset offsetPtr).verdict.or past)
        (tuplePlan value (gvsGetOffsetSize value.size) members offset offsetPtr).parts := by
  induction items generalizing members offset offsetPtr with
  | nil =>
    obtain rfl := List.map_eq_nil_iff.mp kinds
    simp only [tupleNormalLoopBy, tuplePlan, Option.bind_some, Option.some_or, visitAll]
    by_cases fixed : value.type.fixedSize = 0
    · simp [tupleFinish, fixed]
    · obtain ⟨rfl, -, body⟩ := whole fixed
      rw [if_pos fixed]
      exact tupleFinish_fixed reader tuple size fixed (sized fixed) body within
  | cons item items ih =>
    obtain ⟨member, members, rfl, kind, kinds⟩ := List.map_eq_cons_iff.mp kinds
    have info : member.typeInfo = item.info := congrArg (fun kind => kind.2.1) kind
    have ending : member.ending = memberEnding item items := congrArg (fun kind => kind.2.2) kind
    have known : member.typeInfo.WellFormed := info ▸ item.info_wellFormed
    have mask := known.mask.isMask
    have near := roundUp_le offset member.typeInfo.alignment
    cases zero : isZero value.data.bytes offset (roundUp offset member.typeInfo.alignment) with
    | false =>
      -- A byte of the padding is not zero.
      obtain ⟨position, above, below, inside, different, before⟩ := exists_not_zero zero
      have reads : ∀ other, other < value.size → isTuplePaddingBy byteAt value other =
          some (decide (value.data.bytes[other]? = some 0)) := fun other => isTuplePaddingBy_inside reader size
      have stops : isTuplePaddingBy byteAt value position = some false := by simp [reads position (by omega), different]
      have skipped : skipPadding (isTuplePaddingBy byteAt value) member.typeInfo.alignment member.typeInfo.alignment offset =
          (isTuplePaddingBy byteAt value position).map fun _ => none := by
        refine skipPadding_stops mask (by omega) above below (fun other first last => ?_) (by simp [stops])
        rw [reads other (by omega), before other first last]
        rfl
      rw [tupleNormalLoopBy, skipped, stops, tuplePlan, zero, if_neg Bool.false_ne_true]
      rfl
    | true =>
      by_cases exceeds : value.size < roundUp offset member.typeInfo.alignment
      · rw [reader.exceeds normal value _ member members offset offsetPtr known size (by omega) bounded exceeds zero, tuplePlan,
          zero, if_pos rfl, if_pos exceeds]
        rcases reader.rejects with rfl | rfl <;> rfl
      · have skipped : skipPadding (isTuplePaddingBy byteAt value) member.typeInfo.alignment member.typeInfo.alignment
            offset = some (some (roundUp offset member.typeInfo.alignment)) := by
          rw [skipPadding_inside mask (by omega) fun position _ below =>
            isTuplePaddingBy_inside reader size (by omega), zero, if_pos rfl]
        obtain ⟨result, found, bound⟩ := @tupleNormalEnd_inside value size member
          (roundUp offset member.typeInfo.alignment) offsetPtr bounded
        rw [tupleNormalLoopBy, skipped, tuplePlan, zero, if_pos rfl, if_neg exceeds]
        simp only [some_bind, found]
        cases result with
        | none => rfl
        | some result =>
          obtain ⟨stop, next⟩ := result
          obtain ⟨lower, own⟩ := bound stop next rfl
          dsimp only
          by_cases wrong : stop < roundUp offset member.typeInfo.alignment ∨ stop > next
          · rw [if_pos wrong, if_pos wrong]
            rfl
          · rw [if_neg wrong, if_neg wrong]
            have rest := @ih members kinds stop next (by omega) (by omega) fun fixed => by
              obtain ⟨full, each, body⟩ := whole fixed
              have first := each item List.mem_cons_self
              have isFixed : member.ending = .fixed := by rw [ending, memberEnding, if_pos first]
              obtain ⟨same, ends⟩ := own isFixed
              have sum : stop = roundUp offset item.alignment + item.fixedSize := by
                have fits : item.fixedSize < wordSize := item.info_wellFormed.fits
                rw [info] at ends wrong
                change stop = (roundUp offset item.alignment + item.fixedSize) % wordSize at ends
                change ¬(stop < roundUp offset item.alignment ∨ stop > next) at wrong
                rw [wordSize] at ends fits
                omega
              refine ⟨same.trans full, fun other member => each other (List.mem_cons_of_mem _ member), ?_⟩
              rw [body, sum]
              rfl
            simp only [Plan.visit, visitAll, Option.bind_eq_bind]
            rw [← rest]
            cases normal (value.childAt member.type (roundUp offset member.typeInfo.alignment) stop) with
            | none => rfl
            | some passed => cases passed <;> rfl

end Tuples

/-! ## One container -/

/-- A value with the size that its type asks for, at a place in memory. -/
structure Serialised.Checkable (value : Serialised) : Prop where
  sized : value.type.fixedSize ≠ 0 → value.size = value.type.fixedSize
  backed : value.type.fixedSize = 0 → value.size = 0 ∨ value.data.isNull = false
  placed : value.data.address + value.size ≤ wordSize
  present : value.data.address = 0 → value.data.bytes = []

theorem Data.size_bytes {data : Data} (backed : data.size = 0 ∨ data.isNull = false) : data.size = data.bytes.length := by
  cases data with
  | null size => exact backed.resolve_right nofun
  | span address bytes => rfl

theorem Data.byte_inside {data : Data} (backed : data.isNull = false) {position : Nat} (inside : position < data.size) :
    ∃ byte, data.byte position = some byte := by
  cases data with
  | null size => cases backed
  | span address bytes => exact ⟨_, List.getElem?_eq_getElem inside⟩

theorem visitAll_single (normal : Serialised → Option Bool) (part : Serialised) :
    visitAll normal (some true) [part] = normal part := by
  rw [visitAll]
  cases normal part with
  | none => rfl
  | some passed => cases passed <;> rfl

theorem basicIsNormal_some {b : Basic} (known : value.Checkable) (type : value.type = .basic b) :
    ∃ verdict, basicIsNormal b value.data = some verdict := by
  unfold basicIsNormal
  split
  case isTrue => exact ⟨_, rfl⟩
  case isFalse backed =>
    cases b with
    | boolean =>
      have size : value.size = 1 := by
        have sized := known.sized
        rw [type] at sized
        exact sized (by decide)
      obtain ⟨byte, read⟩ := @Data.byte_inside value.data (by simpa using backed) 0 (by change 0 < value.size; omega)
      exact ⟨_, by rw [read]; rfl⟩
    | _ => exact ⟨_, rfl⟩

theorem gvsVariantGetChild_some (backed : value.size = 0 ∨ value.data.isNull = false) :
    ∃ child, gvsVariantGetChild value = some child := by
  unfold gvsVariantGetChild
  split
  case isTrue => exact ⟨_, rfl⟩
  case isFalse nonempty =>
    cases data : value.data with
    | null size =>
      rw [data] at backed
      cases backed.resolve_left nonempty
    | span address bytes =>
      have size : value.size = bytes.length := by rw [Serialised.size, data]; rfl
      obtain ⟨position, nul, below⟩ := findNul_inside address bytes (value.size - 1) (by omega)
      obtain ⟨byte, read⟩ := @Data.byte_inside (.span address bytes) rfl position (by change position < bytes.length; omega)
      simp only [nul, read, Option.bind_eq_bind, Option.bind_some]
      split
      · exact ⟨_, rfl⟩
      · split
        case isTrue valid =>
          rw [Bool.and_eq_true] at valid
          obtain ⟨type, named, -⟩ := ofString_of_valid valid.1 valid.2
          rw [named, Option.bind_some]
          split <;> exact ⟨_, rfl⟩
        case isFalse => exact ⟨_, rfl⟩

section Container
variable {byteAt : Data → Nat → Option UInt8} {past : Option Bool} {value : Serialised}

theorem gvsTupleIsNormalBy_plan (reader : Reader byteAt past) (normal : Serialised → Option Bool) (known : value.Checkable)
    (tuple : value.type.isTuple = true) (present : ¬(value.data.isNull = true ∧ value.size ≠ 0)) :
    gvsTupleIsNormalBy byteAt normal value =
      visitAll normal ((tuplePlan value (gvsGetOffsetSize value.size) value.type.members 0 value.size).verdict.or past)
        (tuplePlan value (gvsGetOffsetSize value.size) value.type.members 0 value.size).parts := by
  have backed : value.data.size = 0 ∨ value.data.isNull = false := by
    by_cases null : value.data.isNull = true
    · exact .inl (by_contra fun nonempty => present ⟨null, nonempty⟩)
    · exact .inr (by simpa using null)
  rw [gvsTupleIsNormalBy_eq, if_neg present]
  refine tupleNormalLoopBy_plan reader normal tuple (Data.size_bytes backed) known.sized (members_kinds value.type)
    (Nat.zero_le _) (Nat.le_refl _) fun fixed => ⟨rfl, ?_, rfl⟩
  exact fun item => VariantType.item_fixed tuple fixed

theorem gvsIsNormalBy_plan (reader : Reader byteAt past) (normal : Serialised → Option Bool) (known : value.Checkable) :
    gvsIsNormalBy byteAt normal value =
      visitAll normal ((checkPlan value).verdict.or past) (checkPlan value).parts := by
  unfold gvsIsNormalBy checkPlan
  cases type : value.type with
  | basic b =>
    obtain ⟨verdict, decided⟩ := basicIsNormal_some known type
    simp only [decided, Option.some_or, visitAll]
  | variant =>
    have backed := known.backed (by rw [type]; rfl)
    obtain ⟨child, found⟩ := gvsVariantGetChild_some backed
    simp only [gvsVariantIsNormal, found, some_bind]
    split
    · exact (visitAll_single normal child).symm
    · rfl
  | maybe element =>
    have backed := known.backed (by rw [type]; rfl)
    dsimp only
    split
    case isTrue fixed =>
      rw [gvsFixedSizedMaybeIsNormal]
      by_cases empty : value.size = 0
      · rw [if_neg (by omega), if_pos empty]
        rfl
      · rw [if_pos (by omega), if_neg empty]
        by_cases size : value.size = element.fixedSize
        · rw [if_neg (not_not.mpr size), if_pos size]
          exact (visitAll_single normal _).symm
        · rw [if_pos size, if_neg size]
          rfl
    case isFalse =>
      rw [gvsVariableSizedMaybeIsNormal]
      by_cases empty : value.size = 0
      · rw [if_pos empty, if_pos empty]
        rfl
      · obtain ⟨last, read⟩ := @Data.byte_inside value.data (backed.resolve_left empty) (value.size - 1)
          (by change value.size - 1 < value.size; omega)
        rw [if_neg empty, if_neg empty, read]
        simp only [some_bind, Option.some.injEq]
        by_cases zero : last = 0
        · rw [if_neg (not_not.mpr zero), if_pos zero]
          exact (visitAll_single normal _).symm
        · rw [if_pos zero, if_neg zero]
          rfl
  | array element =>
    have backed := known.backed (by rw [type]; rfl)
    dsimp only
    split
    case isTrue fixed =>
      rw [gvsFixedSizedArrayIsNormal, allNormal_eq]
      by_cases whole : value.size % element.fixedSize = 0
      · rw [if_neg (not_not.mpr whole), if_pos whole]
        rfl
      · rw [if_pos whole, if_neg whole]
        rfl
    case isFalse =>
      obtain ⟨verdict, decided⟩ := arrayCheckPlan_verdict element value
      rw [gvsVariableSizedArrayIsNormal_plan normal backed, decided, Option.some_or]
  | tuple items =>
    dsimp only
    split
    case isTrue missing =>
      rw [gvsTupleIsNormalBy_eq, if_pos missing]
      rfl
    case isFalse present =>
      have planned := gvsTupleIsNormalBy_plan reader normal known (by rw [type]; rfl) present
      rw [type] at planned
      exact planned
  | dictEntry key item =>
    dsimp only
    split
    case isTrue missing =>
      rw [gvsTupleIsNormalBy_eq, if_pos missing]
      rfl
    case isFalse present =>
      have planned := gvsTupleIsNormalBy_plan reader normal known (by rw [type]; rfl) present
      rw [type] at planned
      exact planned

end Container

/-! ## The parts of a container -/

structure Serialised.IsVisited (part value : Serialised) : Prop where
  within : part.data.Within value.data
  sized : part.type.fixedSize ≠ 0 → part.size = part.type.fixedSize
  backed : part.type.fixedSize = 0 → part.size = 0 ∨ part.data.isNull = false
  depth : part.depth = value.depth + 1

section Parts
variable {value part : Serialised}

theorem Serialised.IsVisited.checkable (visited : part.IsVisited value) (known : value.Checkable) : part.Checkable := by
  obtain ⟨within, sized, backed, -⟩ := visited
  have null : part.data.isNull = true → part.Checkable := by
    intro null
    have nothing : part.data.address = 0 ∧ part.data.bytes = [] := by
      cases data : part.data with
      | null size => exact ⟨rfl, rfl⟩
      | span address bytes => rw [data] at null; cases null
    refine ⟨sized, backed, ?_, fun _ => nothing.2⟩
    by_cases fixed : part.type.fixedSize = 0
    · rcases backed fixed with empty | present
      · rw [nothing.1, empty]
        exact Nat.zero_le _
      · rw [null] at present
        cases present
    · rw [nothing.1, Nat.zero_add, sized fixed]
      exact Nat.le_of_lt part.type.info_wellFormed.fits
  rcases within with missing | ⟨start, stop, forward, inside, data⟩
  · exact null missing
  · cases present : value.data.isNull with
    | true => exact null (by rw [data, Data.isNull_range, present])
    | false =>
      have place := Data.address_range present start stop
      have length := @Data.size_range _ start _ inside
      have placed := known.placed
      refine ⟨sized, backed, ?_, fun zero => ?_⟩
      · change part.data.address + part.data.size ≤ wordSize
        rw [data, place, length]
        change stop ≤ value.size at inside
        omega
      · rw [data, place] at zero
        have none_byte := known.present (by omega)
        rw [data]
        cases own : value.data with
        | null size => rfl
        | span address bytes =>
          rw [own] at none_byte
          change slice bytes start stop = []
          change bytes = [] at none_byte
          rw [none_byte, slice, List.drop_nil, List.take_nil]

theorem childAt_visited {type : VariantType} {start stop : Nat} (backed : value.size = 0 ∨ value.data.isNull = false)
    (forward : start ≤ stop) (inside : stop ≤ value.size) (sized : type.fixedSize ≠ 0 → stop - start = type.fixedSize) :
    (value.childAt type start stop).IsVisited value := by
  rw [Serialised.childAt]
  by_cases some_byte : start < stop
  · rw [if_pos some_byte]
    refine ⟨Data.within_range forward inside, fun fixed => ?_, fun _ => Or.inr ?_, rfl⟩
    · exact (Data.size_range inside).trans (sized fixed)
    · rw [Data.isNull_range]
      exact backed.resolve_left (by omega)
  · rw [if_neg some_byte]
    refine ⟨Data.within_null 0 _, fun fixed => ?_, fun _ => Or.inl rfl, rfl⟩
    change type.fixedSize ≠ 0 at fixed
    omega

theorem arrayPlan_visited {element : VariantType} (varies : element.fixedSize = 0)
    (backed : value.size = 0 ∨ value.data.isNull = false) {width lastEnd : Nat} (inside : lastEnd ≤ value.size)
    (count index offset : Nat) :
    ∀ part ∈ (arrayPlan element value width lastEnd count index offset).parts, part.IsVisited value := by
  induction count generalizing index offset with
  | zero => exact nofun
  | succ count ih =>
    intro part member
    unfold arrayPlan at member
    dsimp only at member
    split at member
    case isTrue room =>
      rcases List.mem_cons.mp member with rfl | later
      · exact childAt_visited backed room.1 (Nat.le_trans room.2.1 inside) fun fixed => absurd varies fixed
      · exact ih _ _ part later
    case isFalse => cases member

theorem tuplePlan_visited (known : value.Checkable) (size : value.size = value.data.bytes.length)
    (backed : value.size = 0 ∨ value.data.isNull = false) {items : List VariantType} {members : List MemberInfo}
    (kinds : members.map MemberInfo.kind = memberKinds items) {offset offsetPtr : Nat} (bounded : offsetPtr ≤ value.size) :
    ∀ part ∈ (tuplePlan value (gvsGetOffsetSize value.size) members offset offsetPtr).parts, part.IsVisited value := by
  -- member by member: an end offset is read only where the table lies inside the data
  induction items generalizing members offset offsetPtr with
  | nil =>
    obtain rfl := List.map_eq_nil_iff.mp kinds
    exact nofun
  | cons item items ih =>
    obtain ⟨member, members, rfl, kind, kinds⟩ := List.map_eq_cons_iff.mp kinds
    have type : member.type = item := congrArg (fun kind => kind.1) kind
    have info : member.typeInfo = item.info := congrArg (fun kind => kind.2.1) kind
    have ending : member.ending = memberEnding item items := congrArg (fun kind => kind.2.2) kind
    intro part among
    rw [tuplePlan] at among
    split at among
    case isFalse => cases among
    case isTrue =>
      split at among
      case isTrue => cases among
      case isFalse room =>
        obtain ⟨result, found, bound⟩ := @tupleNormalEnd_inside value size member
          (roundUp offset member.typeInfo.alignment) offsetPtr bounded
        rw [found] at among
        cases result with
        | none => cases among
        | some result =>
          obtain ⟨stop, next⟩ := result
          obtain ⟨lower, own⟩ := bound stop next rfl
          dsimp only at among
          split at among
          case isTrue => cases among
          case isFalse order =>
            rcases List.mem_cons.mp among with rfl | later
            · refine childAt_visited backed (by omega) (by omega) fun fixed => ?_
              rw [type] at fixed ⊢
              have isFixed : member.ending = .fixed := by rw [ending, memberEnding, if_pos fixed]
              obtain ⟨-, ends⟩ := own isFixed
              have fits : item.fixedSize < wordSize := item.info_wellFormed.fits
              have placed := known.placed
              rw [info] at ends order room ⊢
              change stop = (roundUp offset item.alignment + item.fixedSize) % wordSize at ends
              change ¬(stop < roundUp offset item.alignment ∨ stop > next) at order
              change stop - roundUp offset item.alignment = item.fixedSize
              rw [wordSize] at ends fits placed
              omega
            · exact ih kinds (by omega) part later

theorem variantChild_visited (found : gvsVariantGetChild value = some part)
    (backed : value.size = 0 ∨ value.data.isNull = false) : part.IsVisited value := by
  have unit_fixed : (VariantType.tuple []).fixedSize ≠ 0 := by decide
  have unit : ∀ {child}, some (unitChild value) = some child → child.IsVisited value := by
    rintro child ⟨rfl⟩
    exact ⟨Data.within_null 1 _, fun _ => rfl, fun varies => absurd varies unit_fixed, rfl⟩
  have within := variantChild_within found
  unfold gvsVariantGetChild at found
  split at found
  case isTrue => exact unit found
  case isFalse nonempty =>
    obtain ⟨position, nul, found⟩ := Option.bind_eq_some_iff.mp found
    obtain ⟨byte, -, found⟩ := Option.bind_eq_some_iff.mp found
    have below := findNul_le nul
    dsimp only at found
    split at found
    · exact unit found
    · split at found
      · obtain ⟨type, -, found⟩ := Option.bind_eq_some_iff.mp found
        split at found
        case isTrue fits =>
          cases found
          refine ⟨within, fun fixed => ?_, fun _ => ?_, rfl⟩
          · have size := fits.1.resolve_left fixed
            have some_byte : position ≠ 0 := fun zero => fixed (size.trans zero)
            rw [if_pos some_byte, size]
            refine Data.size_range ?_
            change position ≤ value.size
            omega
          · dsimp only [Serialised.size]
            split
            · right
              rw [Data.isNull_range]
              exact backed.resolve_left nonempty
            · exact Or.inl rfl
        case isFalse => exact unit found
      · exact unit found

theorem checkPlan_visited (known : value.Checkable) : ∀ part ∈ (checkPlan value).parts, part.IsVisited value := by
  have tuple : ¬(value.data.isNull = true ∧ value.size ≠ 0) →
      ∀ part ∈ (tuplePlan value (gvsGetOffsetSize value.size) value.type.members 0 value.size).parts,
        part.IsVisited value := by
    intro present
    have backed : value.data.size = 0 ∨ value.data.isNull = false := by
      by_cases null : value.data.isNull = true
      · exact .inl (by_contra fun nonempty => present ⟨null, nonempty⟩)
      · exact .inr (by simpa using null)
    exact tuplePlan_visited known (Data.size_bytes backed) backed (members_kinds value.type) (Nat.le_refl _)
  intro part member
  unfold checkPlan at member
  cases type : value.type with
  | basic b =>
    rw [type] at member
    cases member
  | variant =>
    have backed := known.backed (by rw [type]; rfl)
    rw [type] at member
    obtain ⟨child, found⟩ := gvsVariantGetChild_some backed
    rw [found] at member
    dsimp only at member
    split at member
    · obtain rfl := List.mem_singleton.mp member
      exact variantChild_visited found backed
    · cases member
  | maybe element =>
    have backed := known.backed (by rw [type]; rfl)
    rw [type] at member
    dsimp only at member
    split at member
    · cases member
    · split at member
      case isTrue fixed =>
        split at member
        case isTrue size =>
          obtain rfl := List.mem_singleton.mp member
          exact ⟨Data.within_self _, fun _ => size, fun varies => absurd varies fixed, rfl⟩
        case isFalse => cases member
      case isFalse nonempty varies =>
        split at member
        · obtain rfl := List.mem_singleton.mp member
          refine ⟨Data.within_range (Nat.zero_le _) (Nat.sub_le _ _), fun fixed => absurd fixed varies, fun _ => ?_, rfl⟩
          right
          rw [Data.isNull_range]
          exact backed.resolve_left nonempty
        · cases member
  | array element =>
    have backed := known.backed (by rw [type]; rfl)
    rw [type] at member
    dsimp only at member
    split at member
    case isTrue fixed =>
      split at member
      case isTrue whole =>
        obtain ⟨index, below, rfl⟩ := List.mem_map.mp member
        have bound : index < gvsFixedSizedArrayNChildren element value := by
          rw [gvsFixedSizedArrayNChildren, if_pos whole]
          exact List.mem_range.mp below
        have inside := fixedArray_index bound
        refine ⟨Data.within_range (Nat.le_add_right _ _) inside, fun _ => ?_, fun varies => absurd varies fixed, rfl⟩
        exact (Data.size_range inside).trans (Nat.add_sub_cancel_left _ _)
      case isFalse => cases member
    case isFalse varies =>
      unfold arrayCheckPlan at member
      dsimp only at member
      split at member
      · cases member
      · split at member
        case isTrue table =>
          exact arrayPlan_visited (not_not.mp varies) backed (Nat.le_of_lt table.1) _ _ _ part member
        case isFalse => cases member
  | tuple items =>
    rw [type] at member
    dsimp only at member
    split at member
    · cases member
    · rw [← type] at member
      exact tuple ‹_› part member
  | dictEntry key item =>
    rw [type] at member
    dsimp only at member
    split at member
    · cases member
    · rw [← type] at member
      exact tuple ‹_› part member

end Parts

end Xpl.Variant
