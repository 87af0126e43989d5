import Xpl.Dbus.Reading

/-! When the arrays of a message that is read are framed by their lengths.

`Spells` says what stands where in a blob: it is laid out by the format, where the elements of an array fill exactly as
many bytes as the array declares, counted from the end of the padding in front of them; and no element begins in the
last bytes of its array, as many as that padding. `shortElementBlob` is laid out so and breaks the second condition.
-/

set_option autoImplicit false

namespace Xpl.Dbus
open Xpl.Library Xpl.Variant

section Format
variable (order : ByteOrder) (blob : Bytes)

/-- An array behind the padding of its length, given what its elements are. -/
inductive SpellsArray (element : Nat → Value → Nat → Prop) (depth : Nat) (type : VariantType) (position : Nat) : Value → Nat → Prop where
  | fixed {declared offset stop : Nat} {data : Bytes} : readUint32 order blob (inputPadding position 4) = .ok (declared, offset) →
      declared ≤ 2 <<< 26 → getTypeFixedSize type ≠ 0 → declared % getTypeFixedSize type = 0 → 0 < depth →
      readBytes blob declared (inputPadding offset (getTypeFixedSize type)) = .ok (data, stop) →
      SpellsArray element depth type position (fixedArray order type data) stop
  | empty {offset : Nat} : readUint32 order blob (inputPadding position 4) = .ok (0, offset) → getTypeFixedSize type = 0 →
      SpellsArray element depth type position (.node (.array type) []) (justAlign depth type offset)
  -- the elements fill their frame, and each begins, with its own padding, less than the declared length behind the length
  | filled {declared offset : Nat} {items : List Value} {starts : List Nat} : readUint32 order blob (inputPadding position 4) = .ok (declared, offset) →
      declared ≤ 2 <<< 26 → getTypeFixedSize type = 0 → declared ≠ 0 →
      Chain element offset items starts (inputPadding offset (typeAlignment type) + declared) →
      (∀ start ∈ starts, start < offset + declared) →
      SpellsArray element depth type position (.node (.array type) items) (inputPadding offset (typeAlignment type) + declared)

def SpellsFields (field : VariantType → Nat → Value → Nat → Prop) (type : VariantType) (types : List VariantType) (position : Nat)
    (v : Value) (stop : Nat) : Prop :=
  ∃ values, Follow field types (inputPadding position 8) values stop ∧ v = .node type values

/-- The value of a type that stands at a position, and where it ends. -/
def Spells : Nat → VariantType → Nat → Value → Nat → Prop
  | 0, _, _, _, _ => False
  | depth + 1, type, position, v, stop =>
    match type with
    | .basic basic => ∃ stored, readBasic order blob basic position = .ok (stored, stop) ∧ v = .leaf basic stored
    | .array element => SpellsArray order blob (Spells depth element) depth element position v stop
    | .dictEntry key value => SpellsFields (Spells depth) type [.basic key, value] position v stop
    | .tuple [] => False
    | .tuple types => SpellsFields (Spells depth) type types position v stop
    | .variant => ∃ child start value, readVariantType blob depth position = .ok (child, start) ∧ Spells depth child start value stop ∧
        v = .node .variant [value]
    | .maybe _ => False

end Format

/-! ## The reader recognises the format -/

def AllExact (read : FramedValue) : Prop := ∀ frame ∈ read.2, frame.Exact

section Recognition
variable {order : ByteOrder} {blob : Bytes} {item : Nat → Except Halt (FramedValue × Nat)} {depth position stop : Nat} {element : VariantType}
  {read : FramedValue}

theorem readBytes_stop {len : Nat} {data : Bytes} (done : readBytes blob len position = .ok (data, stop)) : stop = position + len := by
  unfold readBytes at done
  split at done
  · exact (Prod.mk.inj (Except.ok.inj done)).2.symm
  · cases done

theorem parseArray_cases (done : parseArray order blob item depth element position = .ok (read, stop)) :
    ∃ declared offset, readUint32 order blob (inputPadding position 4) = .ok (declared, offset) ∧ declared ≤ 2 <<< 26 ∧
      ((getTypeFixedSize element ≠ 0 ∧ declared % getTypeFixedSize element = 0 ∧ 0 < depth ∧
          ∃ data, readBytes blob declared (inputPadding offset (getTypeFixedSize element)) = .ok (data, stop) ∧
            read = (fixedArray order element data, [⟨inputPadding offset (getTypeFixedSize element), declared, stop⟩])) ∨
        (getTypeFixedSize element = 0 ∧ declared = 0 ∧ stop = justAlign depth element offset ∧
          read = (.node (.array element) [], [⟨stop, 0, stop⟩])) ∨
        (getTypeFixedSize element = 0 ∧ declared ≠ 0 ∧ ∃ items, readUntil item .assertion (offset + declared) declared offset = .ok (items, stop) ∧
          read = (.node (.array element) (items.map Prod.fst),
            ⟨inputPadding offset (typeAlignment element), declared, stop⟩ :: items.flatMap Prod.snd))) := by
  obtain ⟨⟨declared, offset⟩, word, next⟩ := ok_of_bind done
  refine ⟨declared, offset, word, ?_⟩
  dsimp only at next
  split at next
  · cases next
  · rename_i small
    refine ⟨Nat.not_lt.mp small, ?_⟩
    split at next
    · rename_i fixed
      split at next
      · cases next
      · rename_i whole
        split at next
        · cases next
        · rename_i deeper
          obtain ⟨⟨data, last⟩, bytes, same⟩ := ok_of_bind next
          obtain ⟨rfl, rfl⟩ := Prod.mk.inj (Except.ok.inj same)
          exact Or.inl ⟨fixed, not_not.mp whole, Nat.pos_of_ne_zero deeper, data, bytes, rfl⟩
    · rename_i variable_
      split at next
      · rename_i none
        obtain ⟨rfl, rfl⟩ := Prod.mk.inj (Except.ok.inj next)
        exact Or.inr (Or.inl ⟨not_not.mp variable_, none, rfl, rfl⟩)
      · rename_i some_byte
        obtain ⟨⟨items, last⟩, elements, same⟩ := ok_of_bind next
        obtain ⟨rfl, rfl⟩ := Prod.mk.inj (Except.ok.inj same)
        exact Or.inr (Or.inr ⟨not_not.mp variable_, some_byte, items, elements, rfl⟩)

theorem allExact_items {items : List FramedValue} {value : Value} : AllExact (value, items.flatMap Prod.snd) ↔ ∀ a ∈ items, AllExact a := by
  constructor
  · exact fun all a member frame inside => all frame (List.mem_flatMap.mpr ⟨a, member, inside⟩)
  · intro all frame inside
    obtain ⟨a, member, held⟩ := List.mem_flatMap.mp inside
    exact all a member frame held

theorem allExact_cons {frame : Frame} {frames : List Frame} {value : Value} :
    AllExact (value, frame :: frames) ↔ frame.Exact ∧ AllExact (value, frames) := List.forall_mem_cons

theorem parseArray_recognises {stands : Nat → Value → Nat → Prop} (each : Recognises item stands Prod.fst AllExact) (depth : Nat)
    (element : VariantType) :
    Recognises (parseArray order blob item depth element) (SpellsArray order blob stands depth element) Prod.fst AllExact where
  sound := by
    intro position stop read done good
    obtain ⟨declared, offset, word, small, ⟨fixed, whole, deeper, data, bytes, rfl⟩ | ⟨variable_, rfl, rfl, rfl⟩ |
      ⟨variable_, some_byte, items, elements, rfl⟩⟩ := parseArray_cases done
    · exact .fixed word small fixed whole deeper bytes
    · exact .empty word variable_
    · obtain ⟨exact_, others⟩ := allExact_cons.mp good
      obtain ⟨tiles, -⟩ := each.readUntil declared |>.sound elements (allExact_items.mp others)
      have stopped : stop = inputPadding offset (typeAlignment element) + declared := exact_
      rw [stopped] at tiles ⊢
      obtain ⟨starts, chain, early⟩ := tiles_iff.mp tiles
      exact .filled word small variable_ some_byte chain early
  agrees := by
    intro position stop last read v done stands_
    obtain ⟨declared, offset, word, small, shape⟩ := parseArray_cases done
    cases stands_ with
    | fixed word' _ fixed _ _ bytes =>
      obtain ⟨rfl, rfl⟩ := Prod.mk.inj (Except.ok.inj (word.symm.trans word'))
      obtain ⟨_, _, _, data, bytes', rfl⟩ | ⟨variable_, _⟩ | ⟨variable_, _⟩ := shape
      · obtain ⟨rfl, rfl⟩ := Prod.mk.inj (Except.ok.inj (bytes.symm.trans bytes'))
        exact ⟨rfl, rfl, allExact_cons.mpr ⟨readBytes_stop bytes, fun frame none => absurd none List.not_mem_nil⟩⟩
      · exact absurd variable_ fixed
      · exact absurd variable_ fixed
    | empty word' variable_ =>
      obtain ⟨rfl, rfl⟩ := Prod.mk.inj (Except.ok.inj (word.symm.trans word'))
      obtain ⟨fixed, _⟩ | ⟨_, _, rfl, rfl⟩ | ⟨_, some_byte, _⟩ := shape
      · exact absurd variable_ fixed
      · exact ⟨rfl, rfl, allExact_cons.mpr ⟨rfl, fun frame none => absurd none List.not_mem_nil⟩⟩
      · exact absurd rfl some_byte
    | filled word' _ variable_ some_byte chain early =>
      obtain ⟨rfl, rfl⟩ := Prod.mk.inj (Except.ok.inj (word.symm.trans word'))
      obtain ⟨fixed, _⟩ | ⟨_, none, _⟩ | ⟨_, _, items, elements, rfl⟩ := shape
      · exact absurd variable_ fixed
      · exact absurd none some_byte
      · have past : offset + declared ≤ inputPadding offset (typeAlignment element) + declared := Nat.add_le_add_right (le_roundUp _ _) _
        obtain ⟨rfl, stopped, all⟩ := each.readUntil declared |>.agrees elements ⟨tiles_iff.mpr ⟨_, chain, early⟩, past⟩
        exact ⟨rfl, stopped, allExact_cons.mpr ⟨stopped.symm, allExact_items.mpr all⟩⟩

theorem parseFields_recognises {field : VariantType → Nat → Except Halt (FramedValue × Nat)} {stands : VariantType → Nat → Value → Nat → Prop}
    (each : ∀ type, Recognises (field type) (stands type) Prod.fst AllExact) (type : VariantType) (types : List VariantType) :
    Recognises (parseFields field type types) (SpellsFields stands type types) Prod.fst AllExact where
  sound := by
    intro position stop read done good
    obtain ⟨⟨fields, last⟩, all, same⟩ := ok_of_bind done
    obtain ⟨rfl, rfl⟩ := Prod.mk.inj (Except.ok.inj same)
    exact ⟨_, (Recognises.readEach each types).sound all (allExact_items.mp good), rfl⟩
  agrees := by
    rintro position stop last read _ done ⟨values, follow, rfl⟩
    obtain ⟨⟨fields, last⟩, all, same⟩ := ok_of_bind done
    obtain ⟨rfl, rfl⟩ := Prod.mk.inj (Except.ok.inj same)
    obtain ⟨rfl, rfl, fine⟩ := (Recognises.readEach each types).agrees all follow
    exact ⟨rfl, rfl, allExact_items.mpr fine⟩

theorem parseVariant_recognises (each : ∀ type, Recognises (parseValue order blob depth type) (Spells order blob depth type) Prod.fst AllExact) :
    Recognises (parseValue order blob (depth + 1) .variant) (Spells order blob (depth + 1) .variant) Prod.fst AllExact where
  sound := by
    intro position stop read done good
    obtain ⟨⟨child, start⟩, signature, next⟩ := ok_of_bind done
    obtain ⟨⟨value, last⟩, inner, same⟩ := ok_of_bind next
    obtain ⟨rfl, rfl⟩ := Prod.mk.inj (Except.ok.inj same)
    exact ⟨child, start, value.1, signature, (each child).sound inner good, rfl⟩
  agrees := by
    rintro position stop last read _ done ⟨child', start', w, signature', inner', rfl⟩
    obtain ⟨⟨child, start⟩, signature, next⟩ := ok_of_bind done
    obtain ⟨⟨value, last⟩, inner, same⟩ := ok_of_bind next
    obtain ⟨rfl, rfl⟩ := Prod.mk.inj (Except.ok.inj same)
    obtain ⟨rfl, rfl⟩ := Prod.mk.inj (Except.ok.inj (signature.symm.trans signature'))
    obtain ⟨rfl, rfl, fine⟩ := (each child).agrees inner inner'
    exact ⟨rfl, rfl, fine⟩

theorem recognises_error {read_ : Nat → Except Halt (FramedValue × Nat)} {stands : Nat → Value → Nat → Prop} (halt : Halt)
    (fails : ∀ position, read_ position = .error halt) (nothing : ∀ position v stop, ¬stands position v stop) :
    Recognises read_ stands Prod.fst AllExact where
  sound := fun done _ => nomatch (fails _).symm.trans done
  agrees := fun _ held => absurd held (nothing _ _ _)

theorem parseValue_recognises (order : ByteOrder) (blob : Bytes) (depth : Nat) (type : VariantType) :
    Recognises (parseValue order blob depth type) (Spells order blob depth type) Prod.fst AllExact := by
  -- over the levels left, which the reader spends where a type contains another
  induction depth generalizing type with
  | zero => exact recognises_error _ (fun _ => rfl) (fun _ _ _ held => held)
  | succ depth ih =>
    cases type with
    | basic basic =>
      constructor
      · intro position stop read done good
        obtain ⟨⟨stored, last⟩, bytes, same⟩ := ok_of_bind done
        obtain ⟨rfl, rfl⟩ := Prod.mk.inj (Except.ok.inj same)
        exact ⟨stored, bytes, rfl⟩
      · rintro position stop last read _ done ⟨stored', bytes', rfl⟩
        obtain ⟨⟨stored, last⟩, bytes, same⟩ := ok_of_bind done
        obtain ⟨rfl, rfl⟩ := Prod.mk.inj (Except.ok.inj same)
        obtain ⟨rfl, rfl⟩ := Prod.mk.inj (Except.ok.inj (bytes.symm.trans bytes'))
        exact ⟨rfl, rfl, fun frame none => absurd none List.not_mem_nil⟩
    | variant => exact parseVariant_recognises ih
    | maybe element => exact recognises_error _ (fun _ => rfl) (fun _ _ _ held => held)
    | array element => exact parseArray_recognises (ih element) depth element
    | tuple types =>
      cases types with
      | nil => exact recognises_error _ (fun _ => rfl) (fun _ _ _ held => held)
      | cons type types => exact parseFields_recognises ih (.tuple (type :: types)) (type :: types)
    | dictEntry key value => exact parseFields_recognises ih (.dictEntry key value) [.basic key, value]

end Recognition

/-! ## The reader gets on -/

/-- The reader ends behind the position or with an error; no assertion fails. -/
def Advances {α : Type} (position : Nat) : Except Halt (α × Nat) → Prop := Meets (· ≠ Halt.assertion) fun read => position < read.2

section Progress
variable {α : Type} {order : ByteOrder} {blob : Bytes} {position : Nat}

theorem advances_fails (format : String) (arguments : List Argument) : Advances position (fails format arguments : Except Halt (α × Nat)) :=
  Halt.noConfusion

theorem Advances.padded {size : Nat} {x : Except Halt (α × Nat)} (advances : Advances (inputPadding position size) x) : Advances position x :=
  Meets.mono advances fun _ further => Nat.lt_of_le_of_lt (le_roundUp position (size - 1)) further

theorem readByte_advances : Advances position (readByte blob position) := by
  unfold readByte
  split
  · exact Nat.lt_succ_self position
  · exact advances_fails _ _

theorem readWord_advances (kind : String) {width : Nat} (some_byte : 0 < width) : Advances position (readWord order blob kind width position) := by
  apply Meets.ite
  · exact fun _ => Nat.lt_add_of_pos_right some_byte
  · exact fun _ => advances_fails _ _

theorem readUint32_advances : Advances position (readUint32 order blob position) :=
  (readWord_advances "uint32" (by decide)).bind fun _ further => further

theorem readString_advances {len : Nat} : Advances position (readString blob len position) := by
  unfold readString
  split
  · exact advances_fails _ _
  · apply Meets.ite
    · exact fun _ => advances_fails _ _
    · intro _
      apply Meets.ite
      · exact fun _ => advances_fails _ _
      · exact fun _ => Nat.lt_succ_of_le (Nat.le_add_right position len)

theorem readBasic_advances (basic : Basic) : Advances position (readBasic order blob basic position) := by
  cases basic with
  | boolean => exact Meets.bind (readUint32_advances.padded) fun _ further => further
  | byte => exact Meets.bind readByte_advances fun _ further => further
  | int16 | uint16 | int32 | uint32 | handle | int64 | uint64 | double => exact (readWord_advances _ (by decide)).padded
  | string =>
    apply Meets.bind (readUint32_advances.padded)
    intro len further
    apply Meets.bind readString_advances
    exact fun _ onwards => Nat.lt_trans further onwards
  | objectPath =>
    apply Meets.bind (readUint32_advances.padded)
    intro len further
    apply Meets.bind readString_advances
    intro string onwards
    apply Meets.ite
    · exact fun _ => Nat.lt_trans further onwards
    · exact fun _ => advances_fails _ _
  | signature =>
    apply Meets.bind readByte_advances
    intro len further
    apply Meets.bind readString_advances
    intro string onwards
    apply Meets.ite
    · exact fun _ => Nat.lt_trans further onwards
    · exact fun _ => advances_fails _ _

theorem le_justAlign (depth : Nat) (type : VariantType) (position : Nat) : position ≤ justAlign depth type position := by
  cases depth with
  | zero => exact Nat.le_refl position
  | succ depth => exact le_roundUp position _

theorem parseArray_advances {item : Nat → Except Halt (FramedValue × Nat)} (each : ∀ position, Advances position (item position)) (depth : Nat)
    (element : VariantType) : Advances position (parseArray order blob item depth element position) := by
  apply Meets.bind (readUint32_advances.padded)
  intro len further
  apply Meets.ite
  · exact fun _ => advances_fails _ _
  · intro _
    apply Meets.ite
    · intro _
      apply Meets.ite
      · exact fun _ => advances_fails _ _
      · intro _
        apply Meets.ite
        · exact fun _ => advances_fails _ _
        · intro _
          have bytes : Meets (· ≠ Halt.assertion) (fun data => position < data.2) (readBytes blob len.1 (inputPadding len.2 (getTypeFixedSize element))) := by
            apply Meets.ite
            · exact fun _ => Nat.lt_of_lt_of_le further (Nat.le_trans (le_roundUp _ _) (Nat.le_add_right _ _))
            · exact fun _ => advances_fails _ _
          exact bytes.bind fun _ onwards => onwards
    · intro _
      apply Meets.ite
      · exact fun _ => Nat.lt_of_lt_of_le further (le_justAlign depth element len.2)
      · intro _
        apply (readUntil_advances each (Nat.le_refl (len.2 + len.1))).bind
        exact fun _ reached => Nat.lt_of_lt_of_le further reached.1

theorem parseFields_advances {field : VariantType → Nat → Except Halt (FramedValue × Nat)} {types : List VariantType}
    (each : ∀ type position, Advances position (field type position)) (some_field : types ≠ []) (type : VariantType) :
    Advances position (parseFields field type types position) := by
  apply Advances.padded
  apply (readEach_advances (fun type _ => each type) some_field _).bind
  exact fun _ onwards => onwards

theorem readVariantType_advances (depth : Nat) : Advances position (readVariantType blob depth position) := by
  apply Meets.bind readByte_advances
  intro len further
  apply Meets.bind readString_advances
  intro signature onwards
  split
  · apply Meets.ite
    · exact fun _ => advances_fails _ _
    · intro _
      apply Meets.ite
      · exact fun _ => advances_fails _ _
      · exact fun _ => Nat.lt_trans further onwards
  · exact advances_fails _ _

/-- Array elements are never of length zero, and the loop over them ends. -/
theorem parseValue_advances (order : ByteOrder) (blob : Bytes) (depth : Nat) (type : VariantType) (position : Nat) :
    Advances position (parseValue order blob depth type position) := by
  induction depth generalizing type position with
  | zero => exact advances_fails _ _
  | succ depth ih =>
    cases type with
    | basic basic => exact Meets.bind (readBasic_advances basic) fun _ further => further
    | variant =>
      apply Meets.bind (readVariantType_advances depth)
      intro child further
      apply Meets.bind (ih child.1 child.2)
      exact fun _ onwards => Nat.lt_trans further onwards
    | maybe element => exact advances_fails _ _
    | array element => exact parseArray_advances (ih element) depth element
    | tuple types =>
      cases types with
      | nil => exact advances_fails _ _
      | cons type types => exact parseFields_advances ih (List.cons_ne_nil _ _) (.tuple (type :: types))
    | dictEntry key value => exact parseFields_advances ih (List.cons_ne_nil _ _) (.dictEntry key value)

def Asserts {α : Type} : Except Halt α → Prop := Meets (· ≠ Halt.assertion) fun _ => True

theorem Advances.asserts {x : Except Halt (α × Nat)} (advances : Advances position x) : Asserts x := Meets.mono advances fun _ _ => trivial

theorem asserts_fails (format : String) (arguments : List Argument) : Asserts (fails format arguments : Except Halt α) := Halt.noConfusion

theorem readCoreHeader_asserts (blob : Bytes) : Asserts (readCoreHeader blob) := by
  apply readByte_advances.asserts.bind
  intro endianness _
  have order : Asserts (if endianness.1 = ByteOrder.littleEndian.char then .ok .littleEndian
      else if endianness.1 = ByteOrder.bigEndian.char then .ok .bigEndian
      else fails "Invalid endianness value. Expected 0x6c (“l”) or 0x42 (“B”) but found value 0x%02x" [.number endianness.1.toNat] :
      Except Halt ByteOrder) := by
    apply Meets.ite
    · exact fun _ => trivial
    · intro _
      apply Meets.ite
      · exact fun _ => trivial
      · exact fun _ => asserts_fails _ _
  apply order.bind
  intro order _
  apply readByte_advances.asserts.bind
  intro type _
  apply readByte_advances.asserts.bind
  intro flags _
  apply readByte_advances.asserts.bind
  intro version _
  apply Meets.ite
  · exact fun _ => asserts_fails _ _
  · intro _
    apply readUint32_advances.asserts.bind
    intro bodyLen _
    apply readUint32_advances.asserts.bind
    exact fun _ _ => trivial

theorem bodyType_asserts (contents : Contents) (bodyLen : Nat) : Asserts (bodyType contents bodyLen) := by
  unfold bodyType
  split
  · apply Meets.ite
    · exact fun _ => asserts_fails _ _
    · exact fun _ => trivial
  · apply Meets.ite
    · exact fun _ => asserts_fails _ _
    · intro _
      apply Meets.ite
      · exact fun _ => trivial
      · intro _
        apply Meets.ite
        · exact fun _ => asserts_fails _ _
        · intro _
          split
          · trivial
          · exact asserts_fails _ _
  · exact asserts_fails _ _

theorem newFromBlob_asserts (blob : Bytes) : Asserts (newFromBlob blob) := by
  apply (readCoreHeader_asserts blob).bind
  intro core _
  apply (parseValue_advances core.byteOrder blob (maxTypeDepth + 2) headersType 12).asserts.bind
  intro headers _
  apply (bodyType_asserts _ core.bodyLen).bind
  intro type _
  have body : Asserts (readBody core.byteOrder blob type headers.2) := by
    cases type with
    | none => trivial
    | some type => exact (parseValue_advances core.byteOrder blob (maxTypeDepth + 1) type headers.2).asserts.bind fun _ _ => trivial
  apply body.bind
  intro body _
  split
  · exact asserts_fails _ _
  · trivial

end Progress

/-! ## Messages -/

/-- The headers stand behind the first twelve bytes, and the body, if the headers announce one, behind them. -/
def WellFramed (blob : Bytes) : Prop :=
  ∃ core headers stop, readCoreHeader blob = .ok core ∧ Spells core.byteOrder blob (maxTypeDepth + 2) headersType 12 headers stop ∧
    ∀ type, bodyType (headerContents core headers) core.bodyLen = .ok (some type) →
      ∃ body last, Spells core.byteOrder blob (maxTypeDepth + 1) type stop body last

/-- In whatever is accepted, all arrays have as many bytes as they declare. -/
def FramingEnforced (blob : Bytes) : Prop :=
  ∀ contents frames, newFromBlob blob = .ok (contents, frames) → ∀ frame ∈ frames, frame.Exact

theorem readBody_iff {order : ByteOrder} {blob : Bytes} {type : Option VariantType} {position : Nat} {body : Option Value} {frames : List Frame}
    (done : readBody order blob type position = .ok (body, frames)) :
    (∀ frame ∈ frames, frame.Exact) ↔ ∀ t, type = some t → ∃ v stop, Spells order blob (maxTypeDepth + 1) t position v stop := by
  cases type with
  | none =>
    obtain ⟨rfl, rfl⟩ := Prod.mk.inj (Except.ok.inj done)
    exact iff_of_true (fun frame none => absurd none List.not_mem_nil) nofun
  | some type =>
    obtain ⟨⟨value, stop⟩, inner, same⟩ := ok_of_bind done
    obtain ⟨rfl, rfl⟩ := Prod.mk.inj (Except.ok.inj same)
    have recognises := parseValue_recognises order blob (maxTypeDepth + 1) type
    constructor
    · rintro all t ⟨⟩
      exact ⟨_, _, recognises.sound inner all⟩
    · intro spelled
      obtain ⟨v, last, stands⟩ := spelled type rfl
      exact (recognises.agrees inner stands).2.2

theorem newFromBlob_framed {blob : Bytes} {contents : Contents} {frames : List Frame} (done : newFromBlob blob = .ok (contents, frames)) :
    (∀ frame ∈ frames, frame.Exact) ↔ WellFramed blob := by
  obtain ⟨core, started, afterCore⟩ := ok_of_bind done
  obtain ⟨⟨headers, stop⟩, fields, afterHeaders⟩ := ok_of_bind afterCore
  obtain ⟨type, announced, afterType⟩ := ok_of_bind afterHeaders
  obtain ⟨⟨body, bodyFrames⟩, inner, last⟩ := ok_of_bind afterType
  have all : frames = headers.2 ++ bodyFrames := by
    split at last
    · cases last
    · exact (Prod.mk.inj (Except.ok.inj last)).2.symm
  have recognises := parseValue_recognises core.byteOrder blob (maxTypeDepth + 2) headersType
  rw [all, List.forall_mem_append, readBody_iff inner]
  constructor
  · rintro ⟨exactHeaders, exactBody⟩
    refine ⟨core, headers.1, stop, started, recognises.sound fields exactHeaders, fun t found => ?_⟩
    exact exactBody t (Except.ok.inj (announced.symm.trans found))
  · rintro ⟨core', headers', stop', started', spelled, exactBody⟩
    obtain rfl := Except.ok.inj (started.symm.trans started')
    obtain ⟨rfl, rfl, exactHeaders⟩ := recognises.agrees fields spelled
    exact ⟨exactHeaders, fun t found => exactBody t (found ▸ announced)⟩

/-- Framing is enforced for a blob that is accepted exactly when the blob is well framed. -/
theorem framingEnforced_iff (blob : Bytes) (accepted : (newFromBlob blob).isOk = true) : FramingEnforced blob ↔ WellFramed blob := by
  cases done : newFromBlob blob with
  | error halt =>
    rw [done] at accepted
    cases accepted
  | ok result =>
    rw [← newFromBlob_framed done]
    constructor
    · exact fun enforced => enforced result.1 result.2 done
    · rintro exact_ contents frames again
      cases done.symm.trans again
      exact exact_

theorem framingEnforced_of_frames {blob : Bytes} {frames : List Frame} (found : (newFromBlob blob).toOption.map Prod.snd = some frames) :
    FramingEnforced blob ↔ ∀ frame ∈ frames, frame.Exact := by
  cases read : newFromBlob blob with
  | error halt =>
    rw [read] at found
    cases found
  | ok result =>
    rw [read] at found
    cases found
    constructor
    · exact fun enforced => enforced result.1 result.2 read
    · rintro exact_ contents frames again
      cases read.symm.trans again
      exact exact_

/-- A message whose argument is the array `[([1, 2],), ([3],)]`. -/
def plainBlob : Bytes :=
  [108, 5, 0, 1, 21, 0, 0, 0, 1, 0, 0, 0, 11, 0, 0, 0, 8, 1, 103, 0, 5, 97, 40, 97, 121, 41, 0, 0, 0, 0, 0, 0,
    13, 0, 0, 0, 0, 0, 0, 0, 2, 0, 0, 0, 1, 2, 0, 0, 1, 0, 0, 0, 3]

theorem framingEnforced_iff_plain : FramingEnforced plainBlob ∧ WellFramed plainBlob := by
  have enforced : FramingEnforced plainBlob :=
    (@framingEnforced_of_frames plainBlob [⟨16, 11, 27⟩, ⟨40, 13, 53⟩, ⟨44, 2, 46⟩, ⟨52, 1, 53⟩] (by decide +kernel)).mpr (by decide)
  exact ⟨enforced, (framingEnforced_iff plainBlob (by decide +kernel)).mp enforced⟩

/-- A blob that declares one byte of headers and has five. -/
def overrunningBlob : Bytes := [108, 5, 0, 1, 0, 0, 0, 0, 1, 0, 0, 0, 1, 0, 0, 0, 10, 1, 121, 0, 7]

/-- A message whose argument is the array `[([1, 2, 3, 4],), ([],)]`: its second element has no more bytes than the padding
before the first one. -/
def shortElementBlob : Bytes :=
  [108, 5, 0, 1, 20, 0, 0, 0, 1, 0, 0, 0, 11, 0, 0, 0, 8, 1, 103, 0, 5, 97, 40, 97, 121, 41, 0, 0, 0, 0, 0, 0,
    12, 0, 0, 0, 0, 0, 0, 0, 4, 0, 0, 0, 1, 2, 3, 4, 0, 0, 0, 0]

/-- Headers that stick out of their array are accepted, and the last element of an array is dropped. -/
theorem framing_not_enforced : ¬FramingEnforced overrunningBlob ∧ ¬FramingEnforced shortElementBlob := by
  constructor
  · rw [@framingEnforced_of_frames overrunningBlob [⟨16, 1, 21⟩] (by decide +kernel)]
    decide
  · rw [@framingEnforced_of_frames shortElementBlob [⟨16, 11, 27⟩, ⟨40, 12, 48⟩, ⟨44, 4, 48⟩] (by decide +kernel)]
    decide

end Xpl.Dbus
