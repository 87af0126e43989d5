import Xpl.Dbus.Writing
import Xpl.Library.Checked

/-! The size of a message from its first sixteen bytes. -/

set_option autoImplicit false

namespace Xpl.Dbus
open Xpl.Library Xpl.Variant

def malformedBlob : Failure := ⟨"Unable to determine message blob length - given blob is malformed", []⟩
def blobTooLong : Failure := ⟨"Blob indicates that message exceeds maximum message length (128MiB)", []⟩

def wordAt (order : ByteOrder) (blob : Bytes) (index : Nat) : Nat := order.get ((blob.drop (4 * index)).take 4)

def bytesNeededIn (order : ByteOrder) (blob : Bytes) : Except Failure Nat :=
  -- the first sum is one of 32 bits
  let ret := (12 + 4 + wordAt order blob 3) % 2 ^ 32
  let ret := 8 * ((ret + 7) / 8)
  let ret := ret + wordAt order blob 1
  if ret > 2 ^ 27 then .error blobTooLong else .ok ret

/-- `xdbus_message_bytes_needed` of a blob of at least sixteen bytes. -/
def bytesNeeded (blob : Bytes) : Except Failure Nat :=
  if blob.head? = some ByteOrder.littleEndian.char then bytesNeededIn .littleEndian blob
  else if blob.head? = some ByteOrder.bigEndian.char then bytesNeededIn .bigEndian blob
  else .error malformedBlob

/-! ## Writing only adds to the buffer -/

/-- The buffer is followed by padding and what was written. -/
def Extends (buffer : Bytes) (added : Nat) (written : Bytes) : Prop := ∃ tail, written = buffer ++ zeros added ++ tail

/-- What is written, if anything is, stands behind the buffer. -/
def Grows (buffer : Bytes) : Except Failure (Bytes × Nat) → Prop := Meets (fun _ => True) fun result => Extends buffer result.2 result.1

section Growth
variable {order : ByteOrder} {buffer written : Bytes} {added : Nat}

theorem Extends.trans {middle : Bytes} {more : Nat} (first : Extends buffer added middle) (second : Extends middle more written) :
    Extends buffer added written := by
  obtain ⟨tail, rfl⟩ := first
  obtain ⟨rest, rfl⟩ := second
  exact ⟨tail ++ zeros more ++ rest, by simp only [List.append_assoc]⟩

theorem extends_append (buffer tail : Bytes) : Extends buffer 0 (buffer ++ tail) := ⟨tail, by rw [zeros, List.replicate_zero, List.append_nil]⟩

theorem extends_refl (buffer : Bytes) : Extends buffer 0 buffer := by
  have whole := extends_append buffer []
  rwa [List.append_nil] at whole

theorem Extends.fill {old new : Bytes} (rest : Extends (buffer ++ old) added written) (same : new.length = old.length) :
    Extends buffer 0 (splice written buffer.length new) := by
  obtain ⟨tail, rfl⟩ := rest
  rw [List.append_assoc (buffer ++ old), splice_middle buffer old _ same, List.append_assoc]
  exact extends_append buffer _

theorem ensureOutputPadding_grows (buffer : Bytes) (size : Nat) : Grows buffer (.ok (ensureOutputPadding buffer size)) :=
  ⟨[], (List.append_nil _).symm⟩

theorem appendNoValue_grows (buffer : Bytes) (type : VariantType) : Grows buffer (appendNoValue buffer type) := by
  cases type with
  | basic b => exact ensureOutputPadding_grows buffer _
  | variant => exact extends_refl buffer
  | maybe element => trivial
  | array element => exact ensureOutputPadding_grows buffer 4
  | tuple items =>
    cases items with
    | nil => trivial
    | cons item items => exact ensureOutputPadding_grows buffer 8
  | dictEntry key value => exact ensureOutputPadding_grows buffer 8

theorem appendItems_grows {items : List Value} (each : ∀ item ∈ items, ∀ buffer, Grows buffer (appendValue order buffer item)) (buffer : Bytes) :
    Grows buffer (appendItems order buffer items) := by
  induction items generalizing buffer with
  | nil =>
    exact extends_refl buffer
  | cons item items ih =>
    apply (each item List.mem_cons_self buffer).bind
    intro middle first
    apply (ih (fun item member => each item (List.mem_cons_of_mem _ member)) middle.1).bind
    intro written rest
    exact first.trans rest

theorem appendElements_grows {items : Except Failure (Bytes × Nat)} (grows : Grows buffer items) (element : VariantType) (children : List Value) :
    Grows buffer (appendElements order buffer element children items) := by
  apply Meets.ite
  · exact fun _ => appendNoValue_grows buffer element
  · intro _
    apply Meets.ite
    · exact fun _ => ⟨children.flatMap fun child => order.arrange child.encode, rfl⟩
    · exact fun _ => grows

theorem appendValue_grows (order : ByteOrder) (v : Value) (buffer : Bytes) : Grows buffer (appendValue order buffer v) := by
  -- over the value; every writer appends, and a container writes its padding before its members
  induction v generalizing buffer with
  | leaf basic stored =>
    exact ⟨order.putBasic basic stored, rfl⟩
  | node type children ih =>
    have items := appendItems_grows ih
    have fields : Grows buffer (do
        let padded := ensureOutputPadding buffer 8
        let written ← appendItems order padded.1 children
        return (written.1, padded.2)) := by
      apply (items _).bind
      intro written rest
      exact Extends.trans (ensureOutputPadding_grows buffer 8) rest
    cases type with
    | basic b =>
      exact extends_refl buffer
    | variant =>
      apply (items _).bind
      intro written rest
      exact (extends_append buffer _).trans rest
    | maybe element =>
      trivial
    | array element =>
      apply (appendElements_grows (items _) element children).bind
      intro written rest
      exact Extends.trans (ensureOutputPadding_grows buffer 4) (rest.fill (by rw [order.length_put, order.length_put]))
    | tuple types =>
      cases types with
      | nil =>
        trivial
      | cons type types =>
        rw [appendValue]
        · exact fields
        · exact List.cons_ne_nil type types
    | dictEntry key value =>
      exact fields

theorem items_grow (order : ByteOrder) (buffer : Bytes) (items : List Value) : Grows buffer (appendItems order buffer items) :=
  appendItems_grows (fun item _ => appendValue_grows order item) buffer

theorem appendDictEntry_added (order : ByteOrder) (buffer : Bytes) (key : Basic) (value : VariantType) (children : List Value) :
    Meets (fun _ => True) (fun result => result.2 = paddingNeeded buffer.length 8)
      (appendValue order buffer (.node (.dictEntry key value) children)) := by
  apply (items_grow order (ensureOutputPadding buffer 8).1 children).bind
  exact fun _ _ => rfl

theorem appendItems_added {item : Value} {items : List Value} {padding : Nat}
    (first : Meets (fun _ => True) (fun result => result.2 = padding) (appendValue order buffer item)) :
    Meets (fun _ => True) (fun result => result.2 = padding) (appendItems order buffer (item :: items)) := by
  apply first.bind
  intro written added
  apply (items_grow order written.1 items).bind
  exact fun _ _ => added

end Growth

/-! ## The layout of a message -/

namespace Message

variable (m : Message)

/-- The headers start where an entry may start, so that their length counts all of their bytes. -/
theorem headers_written {core : Bytes} (twelve : core.length = 12) :
    Meets (fun _ => True) (fun result => ∃ fields, result.1 = core ++ m.byteOrder.put 4 fields.length ++ fields)
      (appendValue m.byteOrder core m.headerFields) := by
  have unpadded : (ensureOutputPadding core 4).1 = core := by
    rw [ensureOutputPadding, twelve]
    exact List.append_nil core
  have sixteen : (core ++ m.byteOrder.put 4 placeholder).length = 16 := by rw [List.length_append, twelve, ByteOrder.length_put]
  rw [headerFields, appendValue, unpadded]
  have added : Meets (fun _ => True) (fun result => result.2 = paddingNeeded (core ++ m.byteOrder.put 4 placeholder).length 8)
      (appendElements m.byteOrder (core ++ m.byteOrder.put 4 placeholder) (.dictEntry .byte .variant) (m.headers.map headerEntry)
        (appendItems m.byteOrder (core ++ m.byteOrder.put 4 placeholder) (m.headers.map headerEntry))) := by
    cases m.headers with
    | nil => rfl
    | cons header headers => exact appendItems_added (appendDictEntry_added _ _ _ _ _)
  have grows := items_grow m.byteOrder (core ++ m.byteOrder.put 4 placeholder) (m.headers.map headerEntry)
  apply (Meets.and (appendElements_grows grows (.dictEntry .byte .variant) (m.headers.map headerEntry)) added).bind
  rintro written ⟨⟨fields, whole⟩, none⟩
  rw [sixteen] at none
  have zero : written.2 = 0 := none
  refine ⟨fields, ?_⟩
  rw [zero, zeros, List.replicate_zero, List.append_nil] at whole
  rw [zero, whole, List.length_append, Nat.add_zero, Nat.add_sub_cancel_left,
    splice_middle _ _ _ (by rw [ByteOrder.length_put, ByteOrder.length_put])]

theorem appendOwnBody_written (opened : Bytes) :
    Meets (fun _ => True) (fun written => ∃ body, written = opened ++ body) (m.appendOwnBody opened) := by
  unfold appendOwnBody
  split
  · unfold appendBody
    split
    · apply (items_grow m.byteOrder opened _).bind
      rintro written ⟨tail, whole⟩
      exact ⟨zeros written.2 ++ tail, by rw [whole, List.append_assoc]⟩
    · trivial
  · exact ⟨[], (List.append_nil opened).symm⟩

/-- A message: both lengths are those of what they stand for. -/
theorem toBlob_layout : Meets (fun _ => True) (fun blob => ∃ fields body,
    blob = m.coreHeader body.length ++ m.byteOrder.put 4 fields.length ++ fields ++ zeros (paddingNeeded (16 + fields.length) 8) ++ body)
    m.toBlob := by
  have twelve : (m.coreHeader placeholder).length = 12 := by simp [coreHeader]
  apply (meets_true m.checkBefore).bind
  intro _ _
  apply (m.headers_written twelve).bind
  rintro headers ⟨fields, whole⟩
  apply (meets_true m.signatureHeader).bind
  intro signature _
  apply (meets_true (m.checkSignature signature)).bind
  intro _ _
  apply (m.appendOwnBody_written _).bind
  rintro written ⟨body, all⟩
  refine ⟨fields, body, ?_⟩
  have length : headers.1.length = 16 + fields.length := by
    rw [whole, List.length_append, List.length_append, twelve, ByteOrder.length_put]
  have filled := splice_middle [m.byteOrder.char, m.type, m.flags, 1] (m.byteOrder.put 4 placeholder)
    (m.byteOrder.put 4 m.serial.toNat ++ (m.byteOrder.put 4 fields.length ++ fields ++ zeros (paddingNeeded (16 + fields.length) 8) ++ body))
    (show (m.byteOrder.put 4 body.length).length = (m.byteOrder.put 4 placeholder).length by
      rw [ByteOrder.length_put, ByteOrder.length_put])
  have size : written.length - (ensureOutputPadding headers.1 8).1.length = body.length := by
    rw [all, List.length_append, Nat.add_sub_cancel_left]
  rw [size, all, ensureOutputPadding, length, whole, coreHeader, coreHeader]
  simp only [List.append_assoc] at filled ⊢
  exact filled

end Message

/-! ## The size that is needed -/

def announcedSize (order : ByteOrder) (blob : Bytes) : Nat := roundUp (16 + wordAt order blob 3) 7 + wordAt order blob 1

def blobOrder (blob : Bytes) : Option ByteOrder :=
  if blob.head? = some ByteOrder.littleEndian.char then some .littleEndian
  else if blob.head? = some ByteOrder.bigEndian.char then some .bigEndian
  else none

theorem bytesNeeded_eq (blob : Bytes) :
    bytesNeeded blob = match blobOrder blob with
      | some order => bytesNeededIn order blob
      | none => .error malformedBlob := by
  unfold bytesNeeded blobOrder
  split
  · rfl
  · split
    · rfl
    · rfl

theorem ByteOrder.get_lt (order : ByteOrder) (bytes : Bytes) : order.get bytes < 256 ^ bytes.length := by
  cases order with
  | bigEndian =>
    have bound := leValue_lt bytes.reverse
    rwa [List.length_reverse] at bound
  | littleEndian => exact leValue_lt bytes

theorem wordAt_lt (order : ByteOrder) (blob : Bytes) (index : Nat) : wordAt order blob index < 2 ^ 32 := by
  have bound := order.get_lt ((blob.drop (4 * index)).take 4)
  have four : ((blob.drop (4 * index)).take 4).length ≤ 4 := List.length_take_le 4 _
  exact Nat.lt_of_lt_of_le bound (Nat.pow_le_pow_right (by decide) four)

/-- The answer is an error, or what the prefix announces and not too long. -/
def Framed (blob : Bytes) : Prop :=
  (∃ error, bytesNeeded blob = .error error) ∨
    ∃ order, blobOrder blob = some order ∧ bytesNeeded blob = .ok (announcedSize order blob) ∧ announcedSize order blob ≤ 2 ^ 27

/-- The length of the headers does not overflow, or what is left of it is too long with the body. -/
def AddsUp (blob : Bytes) : Prop := ∀ order, blobOrder blob = some order →
  wordAt order blob 3 < 2 ^ 32 - 16 ∨ 2 ^ 27 < roundUp (wordAt order blob 3 - (2 ^ 32 - 16)) 7 + wordAt order blob 1

theorem framed_iff_addsUp (blob : Bytes) : Framed blob ↔ AddsUp blob := by
  unfold Framed AddsUp
  rw [bytesNeeded_eq]
  cases known : blobOrder blob with
  | none => exact iff_of_true (Or.inl ⟨_, rfl⟩) (fun order impossible => nomatch impossible)
  | some order =>
    have small := wordAt_lt order blob 3
    unfold bytesNeededIn
    simp only [Option.some.injEq, announcedSize, exists_eq_left', forall_eq', roundUp]
    by_cases fits : wordAt order blob 3 < 2 ^ 32 - 16
    · refine iff_of_true ?_ (Or.inl fits)
      have sum : (12 + 4 + wordAt order blob 3) % 2 ^ 32 = 16 + wordAt order blob 3 := by omega
      split
      · exact Or.inl ⟨_, rfl⟩
      · refine Or.inr ⟨congrArg Except.ok ?_, ?_⟩ <;> omega
    · have sum : (12 + 4 + wordAt order blob 3) % 2 ^ 32 = wordAt order blob 3 - (2 ^ 32 - 16) := by omega
      split
      · exact iff_of_true (Or.inl ⟨_, rfl⟩) (Or.inr (by omega))
      · refine iff_of_false ?_ (by omega)
        rintro (⟨error, impossible⟩ | ⟨same, bound⟩)
        · cases impossible
        · have equal := Except.ok.inj same
          omega

theorem toBlob_words {m : Message} {blob : Bytes} {fields body : Bytes} (short : blob.length ≤ 2 ^ 27)
    (whole : blob = m.coreHeader body.length ++ m.byteOrder.put 4 fields.length ++ fields ++ zeros (paddingNeeded (16 + fields.length) 8) ++ body) :
    blobOrder (blob.take 16) = some m.byteOrder ∧ wordAt m.byteOrder (blob.take 16) 1 = body.length ∧
      wordAt m.byteOrder (blob.take 16) 3 = fields.length := by
  have sizes := congrArg List.length whole
  have twelve : (m.coreHeader body.length).length = 12 := by simp [Message.coreHeader]
  simp only [List.length_append, twelve, ByteOrder.length_put, length_zeros] at sizes
  have first : blob.take 16 = m.coreHeader body.length ++ m.byteOrder.put 4 fields.length := by
    rw [whole, List.append_assoc, List.append_assoc]
    exact List.take_left' (by rw [List.length_append, twelve, ByteOrder.length_put])
  rw [first]
  refine ⟨?_, ?_, ?_⟩
  · cases order : m.byteOrder with
    | bigEndian => simp [blobOrder, Message.coreHeader, order]; decide
    | littleEndian => simp [blobOrder, Message.coreHeader, order]
  · have part : ((m.coreHeader body.length ++ m.byteOrder.put 4 fields.length).drop (4 * 1)).take 4 = m.byteOrder.put 4 body.length := by
      rw [Message.coreHeader]
      rw [List.append_assoc]
      exact List.take_left' (m.byteOrder.length_put 4 _)
    rw [wordAt, part, ByteOrder.get_put _ (by omega)]
  · have part : ((m.coreHeader body.length ++ m.byteOrder.put 4 fields.length).drop (4 * 3)).take 4 = m.byteOrder.put 4 fields.length := by
      rw [List.drop_left' twelve, List.take_of_length_le (Nat.le_of_eq (m.byteOrder.length_put 4 _))]
    rw [wordAt, part, ByteOrder.get_put _ (by omega)]

theorem bytesNeeded_toBlob {m : Message} {blob : Bytes} (written : m.toBlob = .ok blob) (short : blob.length ≤ 2 ^ 27) :
    bytesNeeded (blob.take 16) = .ok blob.length := by
  have layout := m.toBlob_layout
  rw [written] at layout
  obtain ⟨fields, body, whole⟩ := layout
  obtain ⟨order, second, fourth⟩ := toBlob_words short whole
  have sizes := congrArg List.length whole
  have twelve : (m.coreHeader body.length).length = 12 := by simp [Message.coreHeader]
  simp only [List.length_append, twelve, ByteOrder.length_put, length_zeros, paddingNeeded, roundUp] at sizes
  rw [bytesNeeded_eq, order]
  dsimp only
  rw [bytesNeededIn, second, fourth, if_neg (by omega)]
  exact congrArg Except.ok (by omega)

/-- A prefix is answered as it should be unless the length of its headers overflows; and a message that
was written always announces its size. -/
theorem bytesNeeded_iff (blob : Bytes) :
    (blob.length = 16 → (Framed blob ↔ AddsUp blob)) ∧
      ∀ m : Message, m.toBlob = .ok blob → blob.length ≤ 2 ^ 27 → bytesNeeded (blob.take 16) = .ok blob.length :=
  ⟨fun _ => framed_iff_addsUp blob, fun _ written short => bytesNeeded_toBlob written short⟩

/-- A message without headers and without a body. -/
def bareMessage : Message where
  byteOrder := .littleEndian
  type := 5
  flags := 0
  serial := 1
  headers := []
  body := none
  numFds := 0
  distinct := List.nodup_nil
  headersValid := fun _ none => nomatch none
  bodyValid := fun _ none => nomatch none

theorem bytesNeeded_iff_bare :
    Framed [108, 1, 0, 1, 8, 0, 0, 0, 1, 0, 0, 0, 20, 0, 0, 0] ∧
      bytesNeeded [108, 5, 0, 1, 0, 0, 0, 0, 1, 0, 0, 0, 0, 0, 0, 0] = .ok 16 := by
  refine ⟨((bytesNeeded_iff _).1 rfl).mpr fun order known => Or.inl ?_,
    (bytesNeeded_iff [108, 5, 0, 1, 0, 0, 0, 0, 1, 0, 0, 0, 0, 0, 0, 0]).2 bareMessage rfl (by decide)⟩
  obtain rfl : ByteOrder.littleEndian = order := Option.some.inj known
  decide

/-- The length of the headers overflows with the core header: four gigabytes are announced, and no bytes are needed. -/
theorem bytesNeeded_overflows :
    bytesNeeded [108, 1, 0, 1, 0, 0, 0, 0, 1, 0, 0, 0, 240, 255, 255, 255] = .ok 0 ∧
      announcedSize .littleEndian [108, 1, 0, 1, 0, 0, 0, 0, 1, 0, 0, 0, 240, 255, 255, 255] = 2 ^ 32 ∧
      ¬Framed [108, 1, 0, 1, 0, 0, 0, 0, 1, 0, 0, 0, 240, 255, 255, 255] := by
  refine ⟨by decide, by decide, ?_⟩
  rw [framed_iff_addsUp]
  intro adds
  have either := adds .littleEndian rfl
  exact absurd either (by decide)

end Xpl.Dbus
