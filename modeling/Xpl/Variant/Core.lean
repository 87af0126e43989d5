import Xpl.Variant.TuplePosition
import Xpl.Variant.RoundTrip

/-! Instances: values in serialised form, which share a block of bytes, and values in tree
form, which hold their children.
-/

set_option autoImplicit false

namespace Xpl.Variant
open Xpl.Library
variable {value child : Serialised} {index : Nat}

/-! ## Shared bytes -/

/-- A part keeps a reference to the bytes that it lies in. -/
inductive XBytes where
  | block (address : Nat) (contents : Bytes)
  | part (address : Nat) (contents : Bytes) (whole : XBytes)

def XBytes.address : XBytes → Nat
  | .block address _ | .part address _ _ => address

def XBytes.contents : XBytes → Bytes
  | .block _ contents | .part _ contents _ => contents

def XBytes.size (bytes : XBytes) : Nat := bytes.contents.length

/-- `while (bytes->free_func == xbytes_unref) bytes = bytes->user_data`. -/
def XBytes.root : XBytes → XBytes
  | .block address contents => .block address contents
  | .part _ _ whole => whole.root

def xbytesNewFromBytes (bytes : XBytes) (offset length : Nat) : Option XBytes :=
  if offset ≤ bytes.size ∧ (offset + length) % wordSize ≤ bytes.size then
    if offset = 0 ∧ length = bytes.size then some bytes
    else
      let base := bytes.address + offset
      let root := bytes.root
      if root.address ≤ base ∧ base ≤ root.address + root.size ∧ base + length ≤ root.address + root.size ∧
          (base ≠ 0 ∨ length = 0) then
        some (.part base (slice bytes.contents offset (offset + length)) root)
      else none
  else none

/-! ## Instances -/

/-- `contents`, `state` and `depth` of an instance. The size of an instance in tree form is
computed where it is asked for. -/
inductive XVariant where
  | serialised (value : Serialised) (bytes : XBytes) (trusted : Bool)
  | tree (type : VariantType) (children : List XVariant) (trusted : Bool) (depth : Nat)

def XVariant.type : XVariant → VariantType
  | .serialised value _ _ => value.type
  | .tree type _ _ _ => type

def XVariant.depth : XVariant → Nat
  | .serialised value _ _ => value.depth
  | .tree _ _ _ depth => depth

mutual
/-- An instance as the serialiser's callback sees it. -/
def XVariant.toInstance : XVariant → Instance
  | .serialised value _ _ =>
    { type := value.type
      size := some value.size
      -- Missing data is stored as zeros.
      store := fun data buffer =>
        buffer.writeBytes data (if value.data.isNull then zeros value.size else value.data.bytes) }
  | .tree type children _ _ =>
    { type := type
      size := xvariantSerialiserNeededSize type (XVariant.toInstances children)
      store := xvariantSerialise type (xvariantSerialiserNeededSize type (XVariant.toInstances children))
        (XVariant.toInstances children) }

def XVariant.toInstances : List XVariant → List Instance
  | [] => []
  | child :: children => child.toInstance :: XVariant.toInstances children
end

def XVariant.getSize (v : XVariant) : Option Nat := v.toInstance.size

/-- The serialised form, written into a block that `malloc` returns for its size. -/
def XVariant.ensureSerialised (malloc : Nat → Nat) : XVariant → Option XVariant
  | .serialised value bytes trusted => some (.serialised value bytes trusted)
  | .tree type children trusted depth => do
    let v := XVariant.tree type children trusted depth
    let size ← v.getSize
    let buffer ← v.toInstance.store (malloc size) (Buffer.fresh (malloc size) size)
    let contents ← buffer.contents.mapM id
    return .serialised { type := type, data := Data.ofBlock (malloc size) contents, depth := depth }
      (.block (malloc size) contents) trusted

/-- `xvariant_new_from_bytes`; data that is not aligned for the type is copied to `copyAt`. -/
def XVariant.newFromBytes (type : VariantType) (bytes : XBytes) (copyAt : Nat) (trusted : Bool) : XVariant :=
  let serialised : Serialised := { type := type, data := Data.ofBlock bytes.address bytes.contents, depth := 0 }
  let kept := if xvariantSerialisedCheck serialised then bytes else .block copyAt bytes.contents
  let data := if type.fixedSize ≠ 0 ∧ kept.size ≠ type.fixedSize then .null type.fixedSize
    else Data.ofBlock kept.address kept.contents
  .serialised { type := type, data := data, depth := 0 } kept trusted

/-- `xvariant_new_tuple` without children. -/
def XVariant.unit : XVariant := .tree (.tuple []) [] true 0

def XVariant.nChildren : XVariant → Option Nat
  | .serialised value _ _ => xvariantSerialisedNChildren value
  | .tree _ children _ _ => some children.length

/-- `xvariant_type_info_query_depth (child) >= G_VARIANT_MAX_RECURSION_DEPTH - depth` on
unsigned words. -/
def nestsTooDeep (child : VariantType) (depth : Nat) : Bool :=
  decide ((maxRecursionDepth + (wordSize - depth)) % wordSize ≤ xvariantTypeInfoQueryDepth child)

/-- `none` where the program fails an assertion or returns `NULL`. -/
def XVariant.getChildValue (v : XVariant) (index : Nat) : Option XVariant := do
  let length ← v.nChildren
  if index < length ∧ v.depth < wordSize - 1 then
    match v with
    | .tree _ children _ _ => children[index]?
    | .serialised value bytes trusted => do
      let child ← xvariantSerialisedGetChild value index
      if trusted = false ∧ nestsTooDeep child.type value.depth = true then
        -- The assertion that only a variant nests too deeply.
        if value.type = .variant then return .unit else none
      else return .serialised { child with depth := value.depth + 1 } bytes trusted
  else none

inductive XVariant.Reaches (v : XVariant) : XVariant → Prop where
  | here : v.Reaches v
  | child {container child : XVariant} (index : Nat) : v.Reaches container →
      container.getChildValue index = some child → v.Reaches child

/-- The bytes of `size` from `data` on, as a part of the bytes that an instance holds. -/
def XBytes.share (bytes : XBytes) (data size : Nat) : Option XBytes :=
  if data = bytes.address ∧ size = bytes.size then some bytes
  else xbytesNewFromBytes bytes ((data + (wordSize - bytes.address)) % wordSize) size

def XVariant.getDataAsBytes (malloc : Nat → Nat) (v : XVariant) : Option XBytes := do
  match ← v.ensureSerialised malloc with
  | .serialised value bytes _ =>
    if value.data.isNull then
      -- `xassert (size == 0)`
      if value.size = 0 then bytes.share bytes.address value.size else none
    else bytes.share value.data.address value.size
  | .tree _ _ _ _ => none

/-! The bytes of an instance that was reached from untrusted data: they exist unless the
instance is a fixed-sized value without data.
-/

/-! ## Children lie in their container -/

def Data.Within (part whole : Data) : Prop :=
  part.isNull = true ∨ ∃ start stop, start ≤ stop ∧ stop ≤ whole.size ∧ part = whole.range start stop

theorem Data.within_null (size : Nat) (whole : Data) : (Data.null size).Within whole := Or.inl rfl

theorem Data.within_range {whole : Data} {start stop : Nat} (forward : start ≤ stop) (inside : stop ≤ whole.size) :
    (whole.range start stop).Within whole :=
  Or.inr ⟨start, stop, forward, inside, rfl⟩

theorem Data.within_self (data : Data) : data.Within data := by
  cases data with
  | null size => exact Or.inl rfl
  | span address bytes =>
    refine Or.inr ⟨0, bytes.length, Nat.zero_le _, Nat.le_refl _, ?_⟩
    simp [Data.range, slice_all]

theorem variableArrayChild {element : VariantType}
    (found : gvsVariableSizedArrayGetChild element value index = some child) :
    child.type = element ∧ child.data.Within value.data := by
  obtain ⟨lastEnd, -, found⟩ := Option.bind_eq_some_iff.mp found
  have placed : ∀ start stop, (if start < stop ∧ stop ≤ value.size ∧ stop ≤ lastEnd then value.data.range start stop
      else Data.null 0).Within value.data := by
    intro start stop
    split
    case isTrue placed => exact Data.within_range (Nat.le_of_lt placed.1) placed.2.1
    case isFalse => exact Data.within_null 0 _
  split at found
  case isTrue =>
    obtain ⟨previous, -, found⟩ := Option.bind_eq_some_iff.mp found
    obtain ⟨start, -, found⟩ := Option.bind_eq_some_iff.mp found
    obtain ⟨stop, -, found⟩ := Option.bind_eq_some_iff.mp found
    cases found
    exact ⟨rfl, placed start stop⟩
  case isFalse =>
    obtain ⟨start, -, found⟩ := Option.bind_eq_some_iff.mp found
    obtain ⟨stop, -, found⟩ := Option.bind_eq_some_iff.mp found
    cases found
    exact ⟨rfl, placed start stop⟩

theorem tupleChild_within (found : gvsTupleGetChild value index = some child) :
    child.data.Within value.data := by
  obtain ⟨member, entry, found⟩ := Option.bind_eq_some_iff.mp found
  obtain ⟨front, item, back, -, -, rfl⟩ := exists_memberAt entry
  have each : ∀ lastEnd, gvsTupleChild value (memberAt front item back) lastEnd = some child →
      child.data.Within value.data := by
    intro lastEnd decoded
    by_cases null : child.data.isNull = true
    · exact Or.inl null
    · obtain ⟨-, -, prevEnd, stop, -, -, forward, inside, -, -, data⟩ := gvsTupleChild_place decoded (by simpa using null)
      rw [data]
      exact Data.within_range (Nat.le_of_lt forward) inside
  split at found
  · exact each _ found
  · exact each _ found

theorem findNul_le {data : Data} {start position : Nat} (found : findNul data start = some position) :
    position ≤ start := by
  induction start with
  | zero =>
    cases found
    exact Nat.le_refl _
  | succ start ih =>
    obtain ⟨byte, -, found⟩ := Option.bind_eq_some_iff.mp found
    split at found
    · cases found
      exact Nat.le_refl _
    · exact Nat.le_succ_of_le (ih found)

theorem variantChild_within (found : gvsVariantGetChild value = some child) :
    child.data.Within value.data := by
  have unit : ∀ {child}, some (unitChild value) = some child → child.data.Within value.data := by
    rintro child ⟨rfl⟩
    exact Data.within_null 1 _
  unfold gvsVariantGetChild at found
  split at found
  case isTrue => exact unit found
  case isFalse nonempty =>
    obtain ⟨position, nul, found⟩ := Option.bind_eq_some_iff.mp found
    obtain ⟨byte, -, found⟩ := Option.bind_eq_some_iff.mp found
    have below := findNul_le nul
    dsimp only at found
    split at found
    · exact unit found
    · split at found
      · obtain ⟨type, -, found⟩ := Option.bind_eq_some_iff.mp found
        split at found
        · cases found
          split
          · refine Data.within_range (Nat.zero_le _) ?_
            change position ≤ value.size
            omega
          · exact Data.within_null 0 _
        · exact unit found
      · exact unit found

theorem fixedArray_index {element : VariantType}
    (bound : index < gvsFixedSizedArrayNChildren element value) :
    element.fixedSize * index + element.fixedSize ≤ value.size := by
  rw [gvsFixedSizedArrayNChildren] at bound
  split at bound
  case isFalse => exact absurd bound (Nat.not_lt_zero _)
  case isTrue whole =>
    have below := Nat.mul_le_mul_left element.fixedSize bound
    rw [Nat.mul_succ, Nat.mul_div_cancel' (Nat.dvd_of_mod_eq_zero whole)] at below
    exact below

theorem xvariantSerialisedGetChild_within
    (found : xvariantSerialisedGetChild value index = some child) :
    child.data.Within value.data ∧ xvariantSerialisedCheck child = true := by
  obtain ⟨length, counted, found⟩ := Option.bind_eq_some_iff.mp found
  split at found
  case isFalse => cases found
  case isTrue bound =>
    obtain ⟨decoded, got, found⟩ := Option.bind_eq_some_iff.mp found
    split at found
    case isFalse => cases found
    case isTrue sound =>
      cases found
      refine ⟨?_, sound.2⟩
      simp only [xvariantSerialisedNChildren] at counted
      split at counted
      case isFalse => cases counted
      case isTrue checked =>
        rw [gvsGetChild] at got
        cases type : value.type with
        | basic b => simp [type] at got
        | variant =>
          rw [type] at got
          exact variantChild_within got
        | maybe element =>
          rw [type] at got
          dsimp only at got
          split at got <;> cases got
          · exact Data.within_self _
          · dsimp only [gvsVariableSizedMaybeGetChild]
            split
            · exact Data.within_null 0 _
            · exact Data.within_range (Nat.zero_le _) (Nat.sub_le _ _)
        | array element =>
          rw [type] at got counted
          dsimp only at got counted
          split at got
          case isTrue fixed =>
            rw [if_pos fixed, Option.some.injEq] at counted
            subst counted
            cases got
            exact Data.within_range (Nat.le_add_right _ _) (fixedArray_index bound)
          case isFalse => exact (variableArrayChild got).2
        | tuple items =>
          rw [type] at got
          exact tupleChild_within got
        | dictEntry key item =>
          rw [type] at got
          exact tupleChild_within got

/-! ## Parts of shared bytes -/

/-- Bytes at `NULL` are empty, and a part lies in its whole. -/
def XBytes.Sound : XBytes → Prop
  | .block address contents => (address = 0 → contents = []) ∧ address + contents.length ≤ wordSize
  | .part address contents whole => (address = 0 → contents = []) ∧ whole.address ≤ address ∧
      address + contents.length ≤ whole.address + whole.size ∧ whole.Sound

variable {bytes : XBytes}

theorem XBytes.Sound.null (sound : bytes.Sound) (null : bytes.address = 0) : bytes.contents = [] := by
  cases bytes with
  | block address contents => exact sound.1 null
  | part address contents whole => exact sound.1 null

theorem XBytes.Sound.root (sound : bytes.Sound) :
    bytes.root.address ≤ bytes.address ∧ bytes.address + bytes.size ≤ bytes.root.address + bytes.root.size ∧
      bytes.root.address + bytes.root.size ≤ wordSize := by
  induction bytes with
  | block address contents => exact ⟨Nat.le_refl _, Nat.le_refl _, sound.2⟩
  | part address contents whole ih =>
    obtain ⟨-, above, below, inner⟩ := sound
    obtain ⟨first, last, placed⟩ := ih inner
    exact ⟨Nat.le_trans first above, Nat.le_trans below last, placed⟩

theorem xbytesNewFromBytes_inside (sound : bytes.Sound) {offset length : Nat}
    (inside : offset + length ≤ bytes.size) :
    ∃ part, xbytesNewFromBytes bytes offset length = some part ∧ part.size = length := by
  have wraps := Nat.mod_le (offset + length) wordSize
  obtain ⟨above, below, -⟩ := sound.root
  have null : bytes.address + offset ≠ 0 ∨ length = 0 := by
    by_cases zero : bytes.address = 0
    · have empty := sound.null zero
      rw [XBytes.size, empty, List.length_nil] at inside
      omega
    · omega
  unfold xbytesNewFromBytes
  rw [if_pos ⟨by omega, by omega⟩]
  split
  case isTrue whole => exact ⟨bytes, rfl, whole.2.symm⟩
  case isFalse =>
    rw [if_pos ⟨by omega, by omega, by omega, null⟩]
    refine ⟨_, rfl, ?_⟩
    change (slice bytes.contents offset (offset + length)).length = length
    rw [length_slice _ _ _ inside]
    omega

theorem XBytes.share_inside {bytes : XBytes} (sound : bytes.Sound) {data size : Nat} (after : bytes.address ≤ data)
    (inside : data + size ≤ bytes.address + bytes.size) : ∃ part, bytes.share data size = some part ∧ part.size = size := by
  rw [XBytes.share]
  split
  case isTrue whole => exact ⟨bytes, rfl, whole.2.symm⟩
  case isFalse =>
    obtain ⟨-, below, placed⟩ := sound.root
    have small : data - bytes.address < wordSize := by
      by_cases zero : bytes.address = 0
      · have empty := sound.null zero
        rw [XBytes.size, empty, List.length_nil] at inside
        omega
      · omega
    have offset : (data + (wordSize - bytes.address)) % wordSize = data - bytes.address := by
      rw [show data + (wordSize - bytes.address) = data - bytes.address + wordSize by omega, Nat.add_mod_right,
        Nat.mod_eq_of_lt small]
    exact xbytesNewFromBytes_inside sound (by omega)

/-! ## Reached instances -/

/-- The data of an instance in serialised form lies in the bytes that it holds; only an instance of fixed size has a
size without data. The one instance in tree form is the empty tuple. -/
def XVariant.Backed : XVariant → Prop
  | .serialised value bytes _ => bytes.Sound ∧ (value.type.fixedSize ≠ 0 → value.size = value.type.fixedSize) ∧
      (value.type.fixedSize = 0 → value.size = 0 ∨ value.data.isNull = false) ∧
      (value.data.isNull = false → bytes.address ≤ value.data.address ∧
        value.data.address + value.size ≤ bytes.address + bytes.size)
  | .tree type children _ _ => type = .tuple [] ∧ children = []

theorem ofBlock_within (base : Nat) (bytes : Bytes) :
    (Data.ofBlock base bytes).size = bytes.length ∧
      ((Data.ofBlock base bytes).isNull = false → (Data.ofBlock base bytes).address = base) := by
  rw [Data.ofBlock]
  split
  · exact ⟨rfl, by rintro ⟨⟩⟩
  · exact ⟨rfl, fun _ => rfl⟩

theorem XVariant.newFromBytes_backed {type : VariantType} (sound : bytes.Sound) {copyAt : Nat}
    (allocated : Allocated copyAt bytes.size type.alignment) (trusted : Bool) :
    (XVariant.newFromBytes type bytes copyAt trusted).Backed := by
  have copied : (XBytes.block copyAt bytes.contents).Sound :=
    ⟨fun null => List.length_eq_zero_iff.mp (allocated.null null), allocated.placed⟩
  obtain ⟨kept, which, kept_sound⟩ : ∃ kept : XBytes, (if xvariantSerialisedCheck
      { type := type, data := Data.ofBlock bytes.address bytes.contents, depth := 0 } then bytes
      else .block copyAt bytes.contents) = kept ∧ kept.Sound := by
    split
    · exact ⟨_, rfl, sound⟩
    · exact ⟨_, rfl, copied⟩
  unfold XVariant.newFromBytes
  dsimp only
  rw [which]
  obtain ⟨size, address⟩ := ofBlock_within kept.address kept.contents
  by_cases dropped : type.fixedSize ≠ 0 ∧ kept.size ≠ type.fixedSize
  · rw [if_pos dropped]
    exact ⟨kept_sound, fun _ => rfl, fun varies => absurd varies dropped.1, nofun⟩
  · rw [if_neg dropped]
    refine ⟨kept_sound, fun fixed => ?_, fun _ => ?_, fun backed => ?_⟩
    · by_contra other
      exact dropped ⟨fixed, fun same => other (size.trans same)⟩
    · by_cases null : kept.address = 0
      · left
        change (Data.ofBlock kept.address kept.contents).size = 0
        rw [size, kept_sound.null null, List.length_nil]
      · right
        dsimp only [Data.ofBlock]
        rw [if_neg null]
        rfl
    · change _ ≤ (Data.ofBlock kept.address kept.contents).address ∧
        (Data.ofBlock kept.address kept.contents).address + (Data.ofBlock kept.address kept.contents).size ≤ _
      rw [address backed, size]
      exact ⟨Nat.le_refl _, Nat.le_refl _⟩

theorem XVariant.getChildValue_backed {v child : XVariant} (backed : v.Backed)
    (found : v.getChildValue index = some child) : child.Backed := by
  obtain ⟨length, counted, found⟩ := Option.bind_eq_some_iff.mp found
  split at found
  case isFalse => cases found
  case isTrue inside =>
    cases v with
    | tree type children trusted depth =>
      obtain ⟨-, rfl⟩ := backed
      simp at found
    | serialised value bytes trusted =>
      obtain ⟨decoded, got, found⟩ := Option.bind_eq_some_iff.mp found
      obtain ⟨within, checked⟩ := xvariantSerialisedGetChild_within got
      obtain ⟨sized, present, -⟩ := (xvariantSerialisedCheck_iff decoded).mp checked
      split at found
      · split at found
        · cases found
          exact ⟨rfl, rfl⟩
        · cases found
      · cases found
        obtain ⟨sound, -, -, placed⟩ := backed
        refine ⟨sound, sized, present, fun some_data => ?_⟩
        rcases within with null | ⟨start, stop, forward, below, data⟩
        · change decoded.data.isNull = false at some_data
          rw [null] at some_data
          cases some_data
        · change decoded.data.isNull = false at some_data
          rw [data, Data.isNull_range] at some_data
          obtain ⟨first, last⟩ := placed some_data
          change _ ≤ decoded.data.address ∧ decoded.data.address + decoded.data.size ≤ _
          rw [data, Data.address_range some_data, Data.size_range below]
          change stop ≤ value.size at below
          omega

theorem XVariant.Reaches.backed {v reached : XVariant} (reaches : v.Reaches reached) (backed : v.Backed) :
    reached.Backed := by
  induction reaches with
  | here => exact backed
  | child index _ found ih => exact XVariant.getChildValue_backed ih found

theorem XVariant.unit_ensureSerialised {malloc : Nat → Nat} (placed : Allocated (malloc 1) 1 7) (trusted : Bool)
    (depth : Nat) :
    (XVariant.tree (.tuple []) [] trusted depth).getSize = some 1 ∧
      (XVariant.tree (.tuple []) [] trusted depth).ensureSerialised malloc = some (.serialised
        { type := .tuple [], data := .span (malloc 1) [0], depth := depth } (.block (malloc 1) [0]) trusted) := by
  have writable : (Value.node (.tuple []) []).Writable := ⟨by decide, by decide⟩
  have encoded : (Value.node (.tuple []) []).encode = [0] := by decide
  have nonnull : malloc 1 ≠ 0 := fun zero => absurd (placed.null zero) (by decide)
  obtain ⟨size, buffer, written, contents⟩ := @xvariantEnsureSerialised_eq _ writable (malloc 1)
    (Nat.one_dvd _) fun zero => absurd zero nonnull
  rw [encoded] at size contents
  have same : (XVariant.tree (.tuple []) [] trusted depth).toInstance = (Value.node (.tuple []) []).toInstance := rfl
  have measured : (XVariant.tree (.tuple []) [] trusted depth).getSize = some 1 := by
    exact size
  unfold XVariant.ensureSerialised
  simp only [measured, Option.bind_eq_bind, Option.bind_some]
  rw [same]
  change (Value.node (.tuple []) []).toInstance.store (malloc 1) (Buffer.fresh (malloc 1) 1) = some buffer at written
  rw [written, Option.bind_some, contents]
  simp [Data.ofBlock, nonnull]

/-- An instance of fixed size without data. -/
def XVariant.isMissing : XVariant → Bool
  | .serialised value _ _ => value.data.isNull && value.type.fixedSize != 0
  | .tree _ _ _ _ => false

def XVariant.HasBytes (malloc : Nat → Nat) (v : XVariant) : Prop :=
  ∃ size bytes, v.getSize = some size ∧ v.getDataAsBytes malloc = some bytes ∧ bytes.size = size

/-- The bytes of an instance reached from untrusted data exist unless the instance is missing. -/
theorem XVariant.hasBytes_iff {type : VariantType} {bytes : XBytes} (sound : bytes.Sound) {copyAt : Nat}
    (allocated : Allocated copyAt bytes.size type.alignment) {malloc : Nat → Nat}
    (placed : ∀ size < 2 ^ 63, Allocated (malloc size) size 7) {v : XVariant}
    (reached : (XVariant.newFromBytes type bytes copyAt false).Reaches v) :
    v.HasBytes malloc ↔ v.isMissing = false := by
  have backed := reached.backed (XVariant.newFromBytes_backed sound allocated false)
  cases v with
  | tree type children trusted depth =>
    obtain ⟨rfl, rfl⟩ := backed
    obtain ⟨size, written⟩ := @XVariant.unit_ensureSerialised malloc (placed 1 (by decide)) trusted depth
    refine ⟨fun _ => rfl, fun _ => ⟨1, .block (malloc 1) [0], size, ?_, rfl⟩⟩
    rw [XVariant.getDataAsBytes, written]
    simp [Data.isNull, Data.address, Serialised.size, Data.size, XBytes.share, XBytes.address, XBytes.size, XBytes.contents]
  | serialised value bytes trusted =>
    obtain ⟨sound, sized, present, inside⟩ := backed
    have read : (XVariant.serialised value bytes trusted).getDataAsBytes malloc =
        if value.data.isNull then if value.size = 0 then bytes.share bytes.address value.size else none
        else bytes.share value.data.address value.size := rfl
    cases null : value.data.isNull with
    | false =>
      obtain ⟨after, below⟩ := inside null
      obtain ⟨part, found, size⟩ := XBytes.share_inside sound after below
      rw [null, if_neg Bool.false_ne_true] at read
      simp only [XVariant.isMissing, null, Bool.false_and, iff_true]
      exact ⟨value.size, part, rfl, read.trans found, size⟩
    | true =>
      rw [null, if_pos rfl] at read
      by_cases fixed : value.type.fixedSize = 0
      · have empty := (present fixed).resolve_right (by simp [null])
        obtain ⟨part, found, size⟩ := @XBytes.share_inside bytes sound bytes.address value.size (Nat.le_refl _) (by omega)
        rw [if_pos empty] at read
        simp only [XVariant.isMissing, fixed, bne_self_eq_false, Bool.and_false, iff_true]
        exact ⟨value.size, part, rfl, read.trans found, size⟩
      · -- A fixed size is never zero, so that the assertion fails.
        rw [if_neg (by omega)] at read
        have missing : (XVariant.serialised value bytes trusted).isMissing = true := by
          simp [XVariant.isMissing, null, fixed]
        rw [missing]
        simp only [XVariant.HasBytes, read, Bool.true_eq_false, iff_false]
        rintro ⟨_, _, _, found, _⟩
        cases found

def oneBlock (size : Nat) : Nat := if size = 0 then 0 else 8

theorem allocated_oneBlock (size : Nat) (small : size < 2 ^ 63) : Allocated (oneBlock size) size 7 := by
  rw [oneBlock]
  split
  case isTrue empty =>
    subst empty
    exact ⟨by decide, by decide, fun _ => rfl⟩
  case isFalse =>
    refine ⟨by decide, ?_, nofun⟩
    rw [wordSize]
    omega

def numberAndString (bytes : Bytes) : XVariant :=
  .newFromBytes (.tuple [.basic .uint32, .basic .string]) (.block 8 bytes) 16 false

def firstNumber (bytes : Bytes) (data : Data) : XVariant :=
  .serialised { type := .basic .uint32, data := data, depth := 1 } (.block 8 bytes) false

theorem firstNumber_hasBytes : (firstNumber [1, 2, 3, 4, 65, 0] (.span 8 [1, 2, 3, 4])).HasBytes oneBlock := by
  have sound : (XBytes.block 8 [1, 2, 3, 4, 65, 0]).Sound := ⟨by decide, by decide⟩
  have copied : Allocated 16 6 (VariantType.tuple [.basic .uint32, .basic .string]).alignment := by
    constructor <;> decide
  have reached : (numberAndString [1, 2, 3, 4, 65, 0]).Reaches
      (firstNumber [1, 2, 3, 4, 65, 0] (.span 8 [1, 2, 3, 4])) := .child 0 .here rfl
  exact (XVariant.hasBytes_iff sound copied allocated_oneBlock reached).mpr rfl

/-- Two bytes hold no number: the assertion on its size fails. -/
theorem numberAndString_missing : ¬∀ type bytes copyAt malloc v, XBytes.Sound bytes →
    Allocated copyAt bytes.size type.alignment → (∀ size < 2 ^ 63, Allocated (malloc size) size 7) →
    (XVariant.newFromBytes type bytes copyAt false).Reaches v → v.HasBytes malloc := by
  intro claim
  have sound : (XBytes.block 8 [1, 2]).Sound := ⟨by decide, by decide⟩
  have copied : Allocated 16 2 (VariantType.tuple [.basic .uint32, .basic .string]).alignment := by
    constructor <;> decide
  have reached : (numberAndString [1, 2]).Reaches (firstNumber [1, 2] (.null 4)) := .child 0 .here rfl
  obtain ⟨size, bytes, -, found, -⟩ := claim _ _ 16 oneBlock _ sound copied allocated_oneBlock reached
  cases found

end Xpl.Variant
