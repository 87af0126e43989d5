import Xpl.Collections.Array
import Xpl.Library.Frames

/-! The string info maps of strinfo.c. A word is its four bytes in memory order, so that the maps are the same on every
machine; the bytes that a local array happens to hold are a parameter. -/

set_option autoImplicit false

namespace Xpl.Schema
open Xpl.Library Xpl.Collections

structure Word where
  b0 : UInt8
  b1 : UInt8
  b2 : UInt8
  b3 : UInt8
  deriving DecidableEq, Repr

def Word.bytes (word : Word) : Bytes := [word.b0, word.b1, word.b2, word.b3]

def toLe (value : UInt32) : Word :=
  { b0 := UInt8.ofNat (value.toNat % 256)
    b1 := UInt8.ofNat (value.toNat / 2 ^ 8 % 256)
    b2 := UInt8.ofNat (value.toNat / 2 ^ 16 % 256)
    b3 := UInt8.ofNat (value.toNat / 2 ^ 24 % 256) }

def fromLe (word : Word) : UInt32 := UInt32.ofNat (leValue word.bytes)

def toWords : Bytes → List Word
  | b0 :: b1 :: b2 :: b3 :: bytes => ⟨b0, b1, b2, b3⟩ :: toWords bytes
  | _ => []

def bytesOf (words : List Word) : Bytes := words.flatMap Word.bytes

/-- An `xuint_t` read as an `xint_t`. -/
def toXint (n : Nat) : Int := if n < 2 ^ 31 then n else n - 2 ^ 32

def maxWords : Nat := 17

def store (array : Bytes) (offset : Nat) (source : Bytes) : Except Stop Bytes :=
  if offset + source.length ≤ array.length then
    .ok (array.take offset ++ source ++ array.drop (offset + source.length))
  else .error .outside

section

variable (stack : Nat → UInt8)

def stringToWords (string : Bytes) (isAlias : Bool) : Except Stop (List Word) := do
  let size := string.length
  let nWords := max 2 ((size + 6) / 4) % 2 ^ 32
  if maxWords < nWords then .ok []
  else
    let words := (List.range (4 * maxWords)).map stack
    let words ← store words 0 [if isAlias then 0xfe else 0xff, 0, 0, 0]
    let words ← store words (4 * ((nWords + (2 ^ 32 - 1)) % 2 ^ 32)) [0, 0, 0, 0xff]
    let words ← store words 1 (string ++ [0])
    .ok (toWords (words.take (4 * nWords)))

end

/-- How many of the words are in the array, up to the first that differs. -/
def matching : List Word → List Word → Except Stop Nat
  | _, [] => .ok 0
  | [], _ :: _ => .error .outside
  | held :: array, word :: words => if held = word then (matching array words).map (· + 1) else .ok 0

def scanFrom (strinfo : List Word) (length : Nat) (words : List Word) (i : Nat) : Except Stop Int :=
  if i ≤ length - words.length then
    match matching (strinfo.drop i) words with
    | .error stop => .error stop
    | .ok j =>
      if j = words.length then .ok (toXint i)
      else scanFrom strinfo length words (i + if j = 0 then 1 else j)
  else .ok (-1)
termination_by length + 1 - i
decreasing_by split <;> omega

def strinfoScan (strinfo : List Word) (length : Nat) (words : List Word) : Except Stop Int :=
  if length < words.length then .ok (-1) else scanFrom strinfo length words 0

def strinfoFindString (stack : Nat → UInt8) (strinfo : List Word) (length : Nat) (string : Bytes) (isAlias : Bool) :
    Except Stop Int :=
  if length = 0 then .ok (-1)
  else do
    let words ← stringToWords stack string isAlias
    strinfoScan (strinfo.drop 1) (length - 1) words

def wordAt (strinfo : List Word) (i : Nat) : Except Stop Word :=
  match strinfo[i]? with
  | some word => .ok word
  | none => .error .outside

def closedBefore (strinfo : List Word) (i : Nat) : Except Stop Bool :=
  if i = 0 then .ok true else (wordAt strinfo (i - 1)).map (·.b3 = 0xff)

/-- Whether the word has the byte 0xff on either side; the one behind is read only where the one before is there. -/
def isInteger (strinfo : List Word) (i : Nat) : Except Stop Bool := do
  let before ← closedBefore strinfo i
  if before then (wordAt strinfo (i + 1)).map (·.b0 = 0xff) else .ok false

def isValue (strinfo : List Word) (value : UInt32) (i : Nat) : Except Stop Bool := do
  let held ← wordAt strinfo i
  if held = toLe value then isInteger strinfo i else .ok false

def findIntegerFrom (strinfo : List Word) (length : Nat) (value : UInt32) (i : Nat) : Except Stop Int :=
  if i < length then
    match isValue strinfo value i with
    | .error stop => .error stop
    | .ok true => .ok (toXint i)
    | .ok false => findIntegerFrom strinfo length value (i + 1)
  else .ok (-1)
termination_by length - i

def strinfoFindInteger (strinfo : List Word) (length : Nat) (value : UInt32) : Except Stop Int :=
  findIntegerFrom strinfo length value 0

def strinfoIsStringValid (stack : Nat → UInt8) (strinfo : List Word) (length : Nat) (string : Bytes) : Except Stop Bool :=
  (strinfoFindString stack strinfo length string false).map (· ≠ -1)

/-- `none` is `FALSE`. -/
def strinfoEnumFromString (stack : Nat → UInt8) (strinfo : List Word) (length : Nat) (string : Bytes) :
    Except Stop (Option UInt32) := do
  let index ← strinfoFindString stack strinfo length string false
  if index < 0 then .ok none
  else
    let word ← wordAt strinfo index.toNat
    .ok (some (fromLe word))

def cString (strinfo : List Word) (p : Nat) : Except Stop Bytes :=
  let rest := (bytesOf strinfo).drop p
  if 0 ∈ rest then .ok (rest.takeWhile (· ≠ 0)) else .error .outside

def stringBehind (index : Nat) : Nat := 4 * index + 4 + 1

def strinfoStringFromEnum (strinfo : List Word) (length : Nat) (value : UInt32) : Except Stop (Option Bytes) := do
  let index ← strinfoFindInteger strinfo length value
  if index < 0 then .ok none else (cString strinfo (stringBehind index.toNat)).map some

def strinfoStringFromAlias (stack : Nat → UInt8) (strinfo : List Word) (length : Nat) (nick : Bytes) :
    Except Stop (Option Bytes) := do
  let index ← strinfoFindString stack strinfo length nick true
  if index < 0 then .ok none
  else
    let word ← wordAt strinfo index.toNat
    (cString strinfo (4 * (fromLe word + 1).toNat + 1)).map some

/-- `memchr`, and the assertion that it finds the byte 0xff; what is returned is the distance. -/
def markerFrom (bytes : Bytes) (count : Nat) : Except Stop Nat :=
  match (bytes.take count).idxOf? 0xff with
  | some distance => .ok distance
  | none => if count ≤ bytes.length then .error .xerror else .error .outside

/-- What the string at the pointer adds to the list; aliases add nothing. -/
def addedAt (strinfo : List Word) (ptr : Nat) : Except Stop (List Bytes) :=
  match (bytesOf strinfo)[ptr]? with
  | none => .error .outside
  | some first => if first = 0xff then (cString strinfo (ptr + 1)).map ([·]) else .ok []

def enumerateFrom (strinfo : List Word) (stop ptr : Nat) : Except Stop (List Bytes) :=
  if ptr < stop then
    match addedAt strinfo ptr, markerFrom ((bytesOf strinfo).drop ptr) (stop - ptr) with
    | .error stop, _ => .error stop
    | .ok _, .error stop => .error stop
    | .ok added, .ok distance => (enumerateFrom strinfo stop (ptr + distance + 5)).map (added ++ ·)
  else .ok []
termination_by stop - ptr

def strinfoEnumerate (strinfo : List Word) (length : Nat) : Except Stop (List Bytes) :=
  enumerateFrom strinfo (4 * length % 2 ^ 32) 4

/-! ## The builder, whose string holds whole words -/

/-- `builder->len / 4` as an `xuint_t`. -/
def wordCount (builder : List Word) : Nat := builder.length % 2 ^ 32

def strinfoBuilderAppendItem (stack : Nat → UInt8) (builder : List Word) (string : Bytes) (value : UInt32) :
    Except Stop (List Word) := do
  let words ← stringToWords stack string false
  .ok (builder ++ [toLe value] ++ words)

def strinfoBuilderAppendAlias (stack : Nat → UInt8) (builder : List Word) (nick target : Bytes) :
    Except Stop (Bool × List Word) := do
  let index ← strinfoFindString stack builder (wordCount builder) target false
  if index = -1 then .ok (false, builder)
  else
    let words ← stringToWords stack nick true
    .ok (true, builder ++ [toLe (UInt32.ofInt index)] ++ words)

inductive StrinfoCall where
  | item (string : Bytes) (value : UInt32)
  | aliasOf (nick target : Bytes)
  deriving DecidableEq, Repr

def build (stack : Nat → UInt8) (builder : List Word) : List StrinfoCall → Except Stop (List Word)
  | [] => .ok builder
  | .item string value :: calls => do
    let builder ← strinfoBuilderAppendItem stack builder string value
    build stack builder calls
  | .aliasOf nick target :: calls => do
    let appended ← strinfoBuilderAppendAlias stack builder nick target
    build stack appended.2 calls

/-! The words of a string form a frame that no other string has. -/

/-! ## Words and bytes -/

theorem fromLe_toLe (value : UInt32) : fromLe (toLe value) = value := by
  have bound := value.toNat_lt
  unfold fromLe toLe Word.bytes
  apply UInt32.toNat_inj.mp
  simp only [leValue, UInt32.toNat_ofNat', UInt8.toNat_ofNat']
  omega

theorem toLe_inj {value other : UInt32} (same : toLe value = toLe other) : value = other := by
  rw [← fromLe_toLe value, same, fromLe_toLe]

theorem length_toWords : ∀ bytes : Bytes, (toWords bytes).length = bytes.length / 4
  | [] | [_] | [_, _] | [_, _, _] => by simp [toWords]
  | b0 :: b1 :: b2 :: b3 :: bytes => by
    rw [toWords, List.length_cons, length_toWords bytes]
    simp only [List.length_cons]
    omega

theorem toWords_getElem? {bytes : Bytes} {k : Nat} {word : Word} (held : (toWords bytes)[k]? = some word) :
    bytes[4 * k]? = some word.b0 ∧ bytes[4 * k + 3]? = some word.b3 := by
  induction bytes using toWords.induct generalizing k with
  | case1 b0 b1 b2 b3 bytes ih =>
    rw [toWords] at held
    rcases k with _ | k
    · rw [List.getElem?_cons_zero, Option.some_inj] at held
      subst held
      exact ⟨rfl, rfl⟩
    · rw [List.getElem?_cons_succ] at held
      exact ih held
  | case2 bytes short =>
    rw [toWords] at held
    · simp at held
    · exact short

theorem bytesOf_toWords : ∀ {bytes : Bytes}, 4 ∣ bytes.length → bytesOf (toWords bytes) = bytes
  | [], _ => rfl
  | [_], whole | [_, _], whole | [_, _, _], whole => absurd whole (by simp)
  | b0 :: b1 :: b2 :: b3 :: bytes, whole => by
    have rest : 4 ∣ bytes.length := by
      simp only [List.length_cons] at whole
      omega
    change [b0, b1, b2, b3] ++ bytesOf (toWords bytes) = _
    rw [bytesOf_toWords rest]
    rfl

theorem length_bytesOf (words : List Word) : (bytesOf words).length = 4 * words.length := by
  induction words with
  | nil => rfl
  | cons word words ih =>
    change (word.bytes ++ bytesOf words).length = _
    rw [List.length_append, ih, List.length_cons]
    change 4 + 4 * words.length = _
    omega

theorem bytesOf_append (first second : List Word) : bytesOf (first ++ second) = bytesOf first ++ bytesOf second :=
  List.flatMap_append

/-! ## Strings -/

/-- A string without the bytes that end and mark strings, short enough for the map. -/
@[ext] structure Nick where
  bytes : Bytes
  plain : ∀ b ∈ bytes, b ≠ 0 ∧ b ≠ 0xff ∧ b ≠ 0xfe
  short : bytes.length ≤ 65

def marker (isAlias : Bool) : UInt8 := if isAlias then 0xfe else 0xff

def Nick.words (nick : Nick) : Nat := max 2 ((nick.bytes.length + 6) / 4)

theorem Nick.words_bounds (nick : Nick) : 2 ≤ nick.words ∧ nick.words ≤ 17 ∧ nick.bytes.length + 3 ≤ 4 * nick.words ∧
    (nick.words = 2 ∨ 4 * nick.words ≤ nick.bytes.length + 6) := by
  have short := nick.short
  unfold Nick.words
  omega

/-- The marker, the string, at least one zero, and 0xff. -/
def formatted (isAlias : Bool) (nick : Nick) : Bytes :=
  marker isAlias :: (nick.bytes ++ (List.replicate (4 * nick.words - nick.bytes.length - 2) 0 ++ [0xff]))

theorem length_formatted (isAlias : Bool) (nick : Nick) : (formatted isAlias nick).length = 4 * nick.words := by
  have bounds := nick.words_bounds
  simp only [formatted, List.length_cons, List.length_append, List.length_replicate, List.length_nil]
  omega

def frameOf (isAlias : Bool) (nick : Nick) : List Word := toWords (formatted isAlias nick)

theorem length_frameOf (isAlias : Bool) (nick : Nick) : (frameOf isAlias nick).length = nick.words := by
  rw [frameOf, length_toWords, length_formatted, Nat.mul_div_cancel_left _ (by decide)]

theorem bytesOf_frameOf (isAlias : Bool) (nick : Nick) : bytesOf (frameOf isAlias nick) = formatted isAlias nick :=
  bytesOf_toWords (by rw [length_formatted]; exact Nat.dvd_mul_right 4 _)

theorem formatted_getElem? (isAlias : Bool) (nick : Nick) (i : Nat) :
    (formatted isAlias nick)[i]? =
      if i = 0 then some (marker isAlias)
      else if i < nick.bytes.length + 1 then nick.bytes[i - 1]?
      else if i + 1 < 4 * nick.words then some 0
      else if i + 1 = 4 * nick.words then some 0xff
      else none := by
  have bounds := nick.words_bounds
  rcases i with _ | i
  · rfl
  · rw [formatted, List.getElem?_cons_succ, if_neg (Nat.succ_ne_zero i)]
    by_cases inside : i < nick.bytes.length
    · rw [List.getElem?_append_left inside, if_pos (by omega)]
      rfl
    · rw [List.getElem?_append_right (by omega), if_neg (by omega)]
      by_cases zero : i + 1 + 1 < 4 * nick.words
      · rw [if_pos zero, List.getElem?_append_left (by rw [List.length_replicate]; omega), List.getElem?_replicate,
          if_pos (by omega)]
      · rw [if_neg zero, List.getElem?_append_right (by rw [List.length_replicate]; omega), List.length_replicate]
        by_cases last : i + 1 + 1 = 4 * nick.words
        · rw [if_pos last, show i - nick.bytes.length - (4 * nick.words - nick.bytes.length - 2) = 0 by omega]
          rfl
        · rw [if_neg last]
          exact List.getElem?_eq_none (by simp; omega)

theorem store_ok {array source : Bytes} {offset : Nat} (fits : offset + source.length ≤ array.length) :
    ∃ stored, store array offset source = .ok stored ∧ stored.length = array.length ∧
      ∀ i, stored[i]? = if offset ≤ i ∧ i < offset + source.length then source[i - offset]? else array[i]? := by
  refine ⟨_, if_pos fits, by simp; omega, fun i => ?_⟩
  have front : (array.take offset).length = offset := by
    rw [List.length_take]
    omega
  by_cases before : i < offset
  · rw [if_neg (by omega), List.append_assoc, List.getElem?_append_left (by omega), List.getElem?_take, if_pos before]
  · by_cases inside : i < offset + source.length
    · rw [if_pos ⟨by omega, inside⟩, List.append_assoc, List.getElem?_append_right (by omega), front,
        List.getElem?_append_left (by omega)]
    · rw [if_neg (by omega), List.getElem?_append_right (by simp; omega), List.length_append, front, List.getElem?_drop]
      congr 1
      omega

/-- The three stores define every byte. -/
theorem stringToWords_eq (stack : Nat → UInt8) (isAlias : Bool) (nick : Nick) :
    stringToWords stack nick.bytes isAlias = .ok (frameOf isAlias nick) := by
  have bounds := nick.words_bounds
  have words : max 2 ((nick.bytes.length + 6) / 4) % 2 ^ 32 = nick.words := Nat.mod_eq_of_lt (by omega)
  have last : (nick.words + (2 ^ 32 - 1)) % 2 ^ 32 = nick.words - 1 := by omega
  have empty : ((List.range (4 * maxWords)).map stack).length = 68 := by simp [maxWords]
  obtain ⟨first, stored₁, length₁, bytes₁⟩ := @store_ok ((List.range (4 * maxWords)).map stack)
    [if isAlias then 0xfe else 0xff, 0, 0, 0] 0 (by rw [empty]; simp)
  obtain ⟨second, stored₂, length₂, bytes₂⟩ := @store_ok first [0, 0, 0, 0xff] (4 * (nick.words - 1)) (by
    simp
    omega)
  obtain ⟨third, stored₃, length₃, bytes₃⟩ := @store_ok second (nick.bytes ++ [0]) 1 (by
    simp
    omega)
  have whole : third.take (4 * nick.words) = formatted isAlias nick := by
    apply List.ext_getElem?
    intro i
    rw [formatted_getElem?, List.getElem?_take]
    by_cases inside : i < 4 * nick.words
    · rw [if_pos inside, bytes₃, List.length_append, List.length_singleton]
      rcases Nat.lt_trichotomy i (nick.bytes.length + 1) with within | rfl | behind
      · by_cases zero : i = 0
        · subst zero
          rw [if_neg (by omega), if_pos rfl, bytes₂, if_neg (by omega), bytes₁, if_pos (by simp)]
          rfl
        · rw [if_pos (by omega), if_neg zero, if_pos within, List.getElem?_append_left (by omega)]
      · rw [if_pos (by omega), if_neg (by omega), if_neg (by omega), if_pos (by omega), Nat.add_sub_cancel,
          List.getElem?_append_right (Nat.le_refl _), Nat.sub_self]
        rfl
      · rw [if_neg (by omega), if_neg (by omega), if_neg (by omega), bytes₂]
        by_cases closing : 4 * (nick.words - 1) ≤ i
        · -- the store of the last word
          rw [if_pos ⟨closing, by simp; omega⟩]
          obtain ⟨j, rfl⟩ := Nat.exists_eq_add_of_le closing
          rw [Nat.add_sub_cancel_left]
          rcases (by omega : j = 0 ∨ j = 1 ∨ j = 2 ∨ j = 3) with rfl | rfl | rfl | rfl
          · rw [if_pos (by omega)]
            rfl
          · rw [if_pos (by omega)]
            rfl
          · rw [if_pos (by omega)]
            rfl
          · rw [if_neg (by omega), if_pos (by omega)]
            rfl
        · -- only the first word is left, and its store has cleared it
          rw [if_neg (by omega), if_pos (by omega), bytes₁, if_pos (by simp; omega)]
          rcases (by omega : i = 2 ∨ i = 3) with rfl | rfl <;> rfl
    · rw [if_neg inside, if_neg (by omega), if_neg (by omega), if_neg (by omega), if_neg (by omega)]
  unfold stringToWords
  dsimp only
  rw [words, if_neg (by unfold maxWords; omega), stored₁, last]
  change (do
    let words ← store first (4 * (nick.words - 1)) [0, 0, 0, 0xff]
    let words ← store words 1 (nick.bytes ++ [0])
    Except.ok (toWords (words.take (4 * nick.words)))) = _
  rw [stored₂]
  change (do
    let words ← store second 1 (nick.bytes ++ [0])
    Except.ok (toWords (words.take (4 * nick.words)))) = _
  rw [stored₃, frameOf, ← whole]
  rfl

/-! ## Frames -/

def opensString (word : Word) : Prop := word.b0 = 0xff ∨ word.b0 = 0xfe

def closesString (word : Word) : Prop := word.b3 = 0xff

theorem Nick.getElem?_plain (nick : Nick) {i : Nat} {b : UInt8} (held : nick.bytes[i]? = some b) :
    b ≠ 0 ∧ b ≠ 0xff ∧ b ≠ 0xfe :=
  nick.plain b (List.mem_of_getElem? held)

theorem formatted_marked {isAlias : Bool} {nick : Nick} {i : Nat} {b : UInt8} (later : i ≠ 0)
    (held : (formatted isAlias nick)[i]? = some b) (marked : b = 0xff ∨ b = 0xfe) : i + 1 = 4 * nick.words ∧ b = 0xff := by
  rw [formatted_getElem?, if_neg later] at held
  split at held
  · have plain := nick.getElem?_plain held
    exact absurd marked (not_or.mpr plain.2)
  · split at held
    · cases held
      exact absurd marked (by decide)
    · split at held
      · cases held
        exact ⟨‹_›, rfl⟩
      · cases held

theorem isFrame_frameOf (isAlias : Bool) (nick : Nick) : IsFrame opensString closesString (frameOf isAlias nick) where
  long := (length_frameOf isAlias nick).symm ▸ nick.words_bounds.1
  opens := by
    intro i word held
    have first := (toWords_getElem? held).1
    constructor
    · intro opened
      by_contra later
      have ended := formatted_marked (by omega) first opened
      omega
    · rintro rfl
      rw [formatted_getElem?, if_pos rfl, Option.some_inj] at first
      unfold opensString
      rw [← first]
      cases isAlias
      · exact .inl rfl
      · exact .inr rfl
  closes := by
    intro i word held
    have last := (toWords_getElem? held).2
    rw [length_frameOf]
    constructor
    · intro closed
      have ended := formatted_marked (by omega) last (.inl closed)
      omega
    · intro ended
      have bounds := nick.words_bounds
      rw [formatted_getElem?, if_neg (by omega), if_neg (by omega), if_neg (by omega), if_pos (by omega), Option.some_inj] at last
      exact last.symm

/-! ## Reading a string back -/

theorem takeWhile_nick (nick : Nick) (rest : Bytes) : (nick.bytes ++ 0 :: rest).takeWhile (· ≠ 0) = nick.bytes := by
  rw [List.takeWhile_append_of_pos fun b held => by simpa using (nick.plain b held).1]
  simp

/-- A zero stands behind the string. -/
theorem formatted_eq (isAlias : Bool) (nick : Nick) :
    ∃ rest, formatted isAlias nick = marker isAlias :: (nick.bytes ++ 0 :: rest) := by
  have bounds := nick.words_bounds
  obtain ⟨k, many⟩ : ∃ k, 4 * nick.words - nick.bytes.length - 2 = k + 1 := ⟨4 * nick.words - nick.bytes.length - 3, by omega⟩
  exact ⟨List.replicate k 0 ++ [0xff], by rw [formatted, many, List.replicate_succ]; rfl⟩

theorem frameOf_inj {isAlias isAlias' : Bool} {nick nick' : Nick} (same : frameOf isAlias nick = frameOf isAlias' nick') :
    isAlias = isAlias' ∧ nick = nick' := by
  have bytes := congrArg bytesOf same
  rw [bytesOf_frameOf, bytesOf_frameOf] at bytes
  obtain ⟨rest, left⟩ := formatted_eq isAlias nick
  obtain ⟨rest', right⟩ := formatted_eq isAlias' nick'
  rw [left, right, List.cons.injEq] at bytes
  constructor
  · cases isAlias <;> cases isAlias' <;> first | rfl | exact absurd bytes.1 (by decide)
  · apply Nick.ext
    rw [← takeWhile_nick nick rest, bytes.2, takeWhile_nick]

end Xpl.Schema
