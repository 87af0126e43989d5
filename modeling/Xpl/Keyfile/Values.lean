import Xpl.Keyfile.KeyFile
import Xpl.Library.Blocks

/-! The values of a key file: the escapes of strings and lists, and the setters and getters that use them. -/

set_option autoImplicit false

namespace Xpl.Keyfile
open Xpl.Library Xpl.Text

/-! ## Escapes -/

/-- `xkey_file_parse_string_as_value`; a separator is given if it is to be escaped, and `leading` is
`parsing_leading_space`. -/
def parseStringAsValue (separator : Option UInt8) (leading : Bool) : Bytes → Bytes
  | [] => []
  | c :: rest =>
    if c = space then (if leading then [backslash, 115] else [c]) ++ parseStringAsValue separator leading rest
    else if c = tab then (if leading then [backslash, 116] else [c]) ++ parseStringAsValue separator leading rest
    else if c = newline then [backslash, 110] ++ parseStringAsValue separator leading rest
    else if c = carriageReturn then [backslash, 114] ++ parseStringAsValue separator leading rest
    else if c = backslash then [backslash, backslash] ++ parseStringAsValue separator false rest
    else if separator = some c then [backslash, c] ++ parseStringAsValue separator true rest
    else [c] ++ parseStringAsValue separator false rest

/-- The loop of `xkey_file_parse_value_as_string`: the string so far, the piece that is being read, the pieces before it
with the newest first, and whether an error was set. -/
structure Unescaped where
  text : Bytes
  piece : Bytes
  pieces : List Bytes
  error : Bool
  deriving DecidableEq, Repr

namespace Unescaped

def put (done : Unescaped) (bytes : Bytes) : Unescaped :=
  { done with text := done.text ++ bytes, piece := done.piece ++ bytes }

/-- A separator ends a piece. -/
def cut (done : Unescaped) (separator : UInt8) : Unescaped :=
  { done with text := done.text ++ [separator], piece := [], pieces := done.piece :: done.pieces }

def fail (done : Unescaped) : Unescaped := { done with error := true }

/-- The character behind a backslash. -/
def escape (separator : Option UInt8) (done : Unescaped) (c : UInt8) : Unescaped :=
  if c = 115 then done.put [space]
  else if c = 110 then done.put [newline]
  else if c = 116 then done.put [tab]
  else if c = 114 then done.put [carriageReturn]
  else if c = backslash then done.put [backslash]
  else if separator = some c then done.put [c]
  else (done.put [backslash, c]).fail

end Unescaped

def parseValueAsString (separator : Option UInt8) : Unescaped → Bytes → Unescaped
  | done, [] => done
  | done, [c] =>
    if c = backslash then done.fail
    else if separator = some c then done.cut c
    else done.put [c]
  | done, c :: e :: rest =>
    if c = backslash then parseValueAsString separator (done.escape separator e) rest
    else if separator = some c then parseValueAsString separator (done.cut c) (e :: rest)
    else parseValueAsString separator (done.put [c]) (e :: rest)

/-- The pieces in their order; an empty last one is left out. -/
def Unescaped.list (done : Unescaped) : List Bytes :=
  (if done.piece.isEmpty then done.pieces else done.piece :: done.pieces).reverse

def decimal (n : Nat) : Bytes := (Nat.toDigits 10 n).map fun c => UInt8.ofNat c.toNat

/-- `"%d"` -/
def parseIntegerAsValue (value : Int32) : Bytes :=
  if value.toInt < 0 then 45 :: decimal value.toInt.natAbs else decimal value.toInt.natAbs

/-- `"true"` and `"false"` -/
def parseBooleanAsValue (value : Bool) : Bytes := if value then [116, 114, 117, 101] else [102, 97, 108, 115, 101]

namespace KeyFile

/-! ## Getters -/

/-- What is returned, and the error that is set. The string is returned next to an error about its escapes. -/
abbrev Got (α : Type) := Except Halt (Option α × Option KeyFileError)

/-- `xutf8_validate` on a value up to its end. -/
def isUtf8Value (value : Bytes) : Bool := (xutf8Validate (value ++ [0])).any (·.1)

def getString (file : KeyFile) (groupName key : Bytes) : Got Bytes :=
  match file.getValue groupName key with
  | .error halt => .error halt
  | .ok (.error error) => .ok (none, some error)
  | .ok (.ok value) =>
    if !isUtf8Value value then .ok (none, some (.notUtf8 key value))
    else
      let string := parseValueAsString none ⟨[], [], [], false⟩ value
      .ok (some string.text, if string.error then some (.uninterpretable key) else none)

def getStringList (file : KeyFile) (groupName key : Bytes) : Got (List Bytes) :=
  match file.getValue groupName key with
  | .error halt => .error halt
  | .ok (.error error) => .ok (none, some error)
  | .ok (.ok value) =>
    if !isUtf8Value value then .ok (none, some (.notUtf8 key value))
    else
      let string := parseValueAsString (some file.listSeparator) ⟨[], [], [], false⟩ value
      if string.error then .ok (none, some (.uninterpretable key)) else .ok (some string.list, none)

/-! ## Setters -/

def setString (setting : Setting) (file : KeyFile) (groupName key string : Bytes) : Except Halt KeyFile :=
  file.setValue setting groupName key (parseStringAsValue none true string)

def setStringList (setting : Setting) (file : KeyFile) (groupName key : Bytes) (list : List Bytes) : Except Halt KeyFile :=
  file.setValue setting groupName key
    (list.flatMap fun string => parseStringAsValue (some file.listSeparator) true string ++ [file.listSeparator])

def setInteger (setting : Setting) (file : KeyFile) (groupName key : Bytes) (value : Int32) : Except Halt KeyFile :=
  file.setValue setting groupName key (parseIntegerAsValue value)

def setBoolean (setting : Setting) (file : KeyFile) (groupName key : Bytes) (value : Bool) : Except Halt KeyFile :=
  file.setValue setting groupName key (parseBooleanAsValue value)

end KeyFile

/-! ## The buffer of the writer -/

/-- Write at `q`, in a block that must hold what is written. -/
def writeValue (value : Bytes) (q : Nat) (part : Bytes) : Option Bytes :=
  if q + part.length ≤ value.length then some (splice value q part) else none

/-- The loop of `xkey_file_parse_string_as_value` over its buffer. `strcpy` writes an escape with its terminator. -/
def fillValue (separator : Option UInt8) : Bool → Bytes → Bytes → Nat → Option Bytes
  | _, [], value, q => writeValue value q [0]
  | leading, c :: rest, value, q =>
    let escape (e : UInt8) (leading : Bool) : Option Bytes := do
      fillValue separator leading rest (← writeValue value q [backslash, e, 0]) (q + 2)
    let copy (leading : Bool) : Option Bytes := do
      fillValue separator leading rest (← writeValue value q [c]) (q + 1)
    if c = space then if leading then escape 115 leading else copy leading
    else if c = tab then if leading then escape 116 leading else copy leading
    else if c = newline then escape 110 leading
    else if c = carriageReturn then escape 114 leading
    else if c = backslash then escape backslash false
    else if separator = some c then escape c true
    else copy false

def valueBuffer (alloc : (n : Nat) → Vector UInt8 n) (separator : Option UInt8) (string : Bytes) : Option Bytes :=
  fillValue separator true string (alloc (2 * (string.length + 1))).toList 0

section Writer
variable {separator : Option UInt8} {front room part rest : Bytes}

theorem writeValue_eq (fits : part.length ≤ room.length) :
    writeValue (front ++ room) front.length part = some (front ++ part ++ room.drop part.length) := by
  have inside : front.length + part.length ≤ (front ++ room).length := by
    rw [List.length_append]
    omega
  rw [writeValue, if_pos inside, splice, List.take_left, ← List.drop_drop, List.drop_left]

/-- A character takes two bytes at most, and the terminator of its escape is within the room of the next one. -/
theorem fillValue_eq (separator : Option UInt8) (leading : Bool) (string : Bytes) (fits : 2 * string.length + 1 ≤ room.length) :
    ∃ junk, fillValue separator leading string (front ++ room) front.length =
      some (front ++ parseStringAsValue separator leading string ++ 0 :: junk) := by
  induction string generalizing leading front room with
  | nil =>
    refine ⟨room.drop 1, ?_⟩
    rw [fillValue, writeValue_eq (by simpa using fits), parseStringAsValue, List.append_nil, List.append_assoc]
    rfl
  | cons c rest ih =>
    rw [List.length_cons] at fits
    -- the two ways in which a turn goes on
    have escape (e : UInt8) (leading : Bool) : ∃ junk,
        ((writeValue (front ++ room) front.length [backslash, e, 0]).bind fun value =>
          fillValue separator leading rest value (front.length + 2)) =
            some (front ++ ([backslash, e] ++ parseStringAsValue separator leading rest) ++ 0 :: junk) := by
      obtain ⟨junk, filled⟩ := @ih (front ++ [backslash, e]) (0 :: room.drop 3) leading (by
        rw [List.length_cons, List.length_drop]
        omega)
      refine ⟨junk, ?_⟩
      rw [writeValue_eq (by simp only [List.length_cons, List.length_nil]; omega), Option.bind_some, ← List.append_assoc front]
      rw [List.length_append, List.append_assoc] at filled
      rw [← filled, List.append_assoc]
      rfl
    have copy (leading : Bool) : ∃ junk,
        ((writeValue (front ++ room) front.length [c]).bind fun value =>
          fillValue separator leading rest value (front.length + 1)) =
            some (front ++ ([c] ++ parseStringAsValue separator leading rest) ++ 0 :: junk) := by
      obtain ⟨junk, filled⟩ := @ih (front ++ [c]) (room.drop 1) leading (by
        rw [List.length_drop]
        omega)
      refine ⟨junk, ?_⟩
      rw [writeValue_eq (by simp only [List.length_cons, List.length_nil]; omega), Option.bind_some, ← List.append_assoc front]
      rw [List.length_append] at filled
      exact filled
    rw [fillValue, parseStringAsValue]
    split
    · cases leading with
      | true => exact escape 115 true
      | false => exact copy false
    split
    · cases leading with
      | true => exact escape 116 true
      | false => exact copy false
    split
    · exact escape 110 leading
    split
    · exact escape 114 leading
    split
    · exact escape backslash false
    split
    · exact escape c true
    · exact copy false

theorem cString_valueBuffer (alloc : (n : Nat) → Vector UInt8 n) (separator : Option UInt8) (string : Bytes) :
    ∃ value, valueBuffer alloc separator string = some value ∧
      (0 ∉ parseStringAsValue separator true string → cString value = parseStringAsValue separator true string) := by
  have room : 2 * string.length + 1 ≤ (alloc (2 * (string.length + 1))).toList.length := by
    rw [Vector.length_toList]
    omega
  obtain ⟨junk, filled⟩ := @fillValue_eq [] _ separator true string room
  exact ⟨_, filled, fun clean => cString_append clean junk⟩

end Writer

/-! ## Reading what was written -/

/-- A separator that neither blanks nor escapes are mistaken for. -/
def IsListSeparator (c : UInt8) : Prop :=
  c ≠ backslash ∧ c ≠ space ∧ c ≠ tab ∧ c ≠ newline ∧ c ≠ carriageReturn ∧ c ≠ 115 ∧ c ≠ 110 ∧ c ≠ 116 ∧ c ≠ 114

section Reader
variable {separator : Option UInt8} {c e : UInt8} {done : Unescaped} {string rest : Bytes}

theorem parseValueAsString_plain (plain : c ≠ backslash) (kept : separator ≠ some c) :
    parseValueAsString separator done (c :: rest) = parseValueAsString separator (done.put [c]) rest := by
  cases rest with
  | nil => simp only [parseValueAsString, if_neg plain, if_neg kept]
  | cons e rest => rw [parseValueAsString, if_neg plain, if_neg kept]

theorem parseValueAsString_cut (plain : c ≠ backslash) :
    parseValueAsString (some c) done (c :: rest) = parseValueAsString (some c) (done.cut c) rest := by
  cases rest with
  | nil => simp only [parseValueAsString, if_neg plain, if_true]
  | cons e rest => rw [parseValueAsString, if_neg plain, if_pos rfl]

theorem parseValueAsString_escape :
    parseValueAsString separator done (backslash :: e :: rest) = parseValueAsString separator (done.escape separator e) rest := by
  rw [parseValueAsString, if_pos rfl]

theorem put_put (first second : Bytes) : (done.put first).put second = done.put (first ++ second) := by
  simp [Unescaped.put]

theorem parseValueAsString_written (safe : ∀ c ∈ separator, IsListSeparator c) (leading : Bool) (string : Bytes) :
    parseValueAsString separator done (parseStringAsValue separator leading string ++ rest) =
      parseValueAsString separator (done.put string) rest := by
  induction string generalizing leading done with
  | nil => simp [parseStringAsValue, Unescaped.put]
  | cons c string ih =>
    have step (part : Bytes) (leading : Bool)
        (reads : ∀ more, parseValueAsString separator done (part ++ more) = parseValueAsString separator (done.put [c]) more) :
        parseValueAsString separator done (part ++ parseStringAsValue separator leading string ++ rest) =
          parseValueAsString separator (done.put (c :: string)) rest := by
      rw [List.append_assoc, reads, ih, put_put]
      rfl
    have escape (e : UInt8) (leading : Bool) (means : done.escape separator e = done.put [c]) :=
      step [backslash, e] leading fun more => by rw [← means]; exact parseValueAsString_escape
    have copy (leading : Bool) (plain : c ≠ backslash) (kept : separator ≠ some c) :=
      step [c] leading fun more => parseValueAsString_plain plain kept
    rw [parseStringAsValue]
    split
    case isTrue blank =>
      subst blank
      cases leading with
      | true => exact escape 115 true rfl
      | false => exact copy false (by decide) fun same => (safe _ same).2.1 rfl
    split
    case isFalse.isTrue blank =>
      subst blank
      cases leading with
      | true => exact escape 116 true rfl
      | false => exact copy false (by decide) fun same => (safe _ same).2.2.1 rfl
    split
    case isFalse.isFalse.isTrue line =>
      subst line
      exact escape 110 leading rfl
    split
    case isFalse.isFalse.isFalse.isTrue line =>
      subst line
      exact escape 114 leading rfl
    split
    case isFalse.isFalse.isFalse.isFalse.isTrue slash =>
      subst slash
      exact escape backslash false rfl
    split
    case isFalse.isFalse.isFalse.isFalse.isFalse.isTrue same =>
      -- an escaped separator is none of the letters
      obtain ⟨slash, -, -, -, -, s, n, t, r⟩ := safe c same
      exact escape c true (by rw [Unescaped.escape, if_neg s, if_neg n, if_neg t, if_neg r, if_neg slash, if_pos same])
    case isFalse.isFalse.isFalse.isFalse.isFalse.isFalse slash kept => exact copy false slash kept

end Reader

/-! ## Lists -/

def joinedItems (separator : UInt8) (list : List Bytes) : Bytes :=
  list.flatMap fun string => parseStringAsValue (some separator) true string ++ [separator]

theorem parseValueAsString_joined {separator : UInt8} (safe : IsListSeparator separator) (list : List Bytes) (text : Bytes)
    (pieces : List Bytes) :
    ∃ text', parseValueAsString (some separator) ⟨text, [], pieces, false⟩ (joinedItems separator list) =
      ⟨text', [], list.reverse ++ pieces, false⟩ := by
  induction list generalizing text pieces with
  | nil => exact ⟨text, by rw [joinedItems, List.flatMap_nil, parseValueAsString]; rfl⟩
  | cons string list ih =>
    obtain ⟨text', read⟩ := ih (text ++ string ++ [separator]) (string :: pieces)
    refine ⟨text', ?_⟩
    have safe' : ∀ c ∈ some separator, IsListSeparator c := fun c same => by rwa [← Option.some.inj same]
    rw [joinedItems, List.flatMap_cons, List.append_assoc, parseValueAsString_written safe', List.singleton_append,
      parseValueAsString_cut safe.1, List.reverse_cons, List.append_assoc, List.singleton_append, ← read]
    rfl

theorem not_mem_parseStringAsValue (separator : Option UInt8) (leading : Bool) {string : Bytes} (clean : 0 ∉ string) :
    0 ∉ parseStringAsValue separator leading string := by
  induction string generalizing leading with
  | nil => exact List.not_mem_nil
  | cons c string ih =>
    have nonzero : 0 ≠ c := fun zero => clean (zero ▸ List.mem_cons_self)
    have rest (leading : Bool) := ih leading fun held => clean (List.mem_cons_of_mem _ held)
    have letters : (0 : UInt8) ≠ backslash ∧ (0 : UInt8) ≠ 115 ∧ (0 : UInt8) ≠ 116 ∧ (0 : UInt8) ≠ 110 ∧ (0 : UInt8) ≠ 114 := by decide
    rw [parseStringAsValue]
    split_ifs <;> simp [rest, letters, nonzero]

def ReadsBack (alloc : (n : Nat) → Vector UInt8 n) (string : Bytes) : Prop :=
  ∃ value, valueBuffer alloc none string = some value ∧
    parseValueAsString none ⟨[], [], [], false⟩ (cString value) = ⟨string, string, [], false⟩

/-- The items are written within their buffers, and the value that they make splits into them. -/
def SplitsBack (alloc : (n : Nat) → Vector UInt8 n) (separator : UInt8) (list : List Bytes) : Prop :=
  (∀ string ∈ list, ∃ value, valueBuffer alloc (some separator) string = some value ∧
      cString value = parseStringAsValue (some separator) true string) ∧
    let done := parseValueAsString (some separator) ⟨[], [], [], false⟩ (cString (joinedItems separator list))
    done.list = list ∧ done.error = false

theorem valueEscaping_roundTrip (alloc : (n : Nat) → Vector UInt8 n) :
    (∀ string, 0 ∉ string → ReadsBack alloc string) ∧
      ∀ separator, IsListSeparator separator → separator ≠ 0 → ∀ list : List Bytes, (∀ string ∈ list, 0 ∉ string) →
        SplitsBack alloc separator list := by
  constructor
  · intro string clean
    obtain ⟨value, written, holds⟩ := cString_valueBuffer alloc none string
    refine ⟨value, written, ?_⟩
    have back := @parseValueAsString_written none ⟨[], [], [], false⟩ [] (by rintro c ⟨⟩) true string
    rw [holds (not_mem_parseStringAsValue none true clean), ← List.append_nil (parseStringAsValue _ _ _), back, parseValueAsString]
    simp [Unescaped.put]
  · intro separator safe nonzero list clean
    have clean' : 0 ∉ joinedItems separator list := by
      intro held
      obtain ⟨string, listed, inside⟩ := List.mem_flatMap.mp held
      rcases List.mem_append.mp inside with escaped | last
      · exact not_mem_parseStringAsValue _ _ (clean string listed) escaped
      · exact nonzero (List.mem_singleton.mp last).symm
    obtain ⟨text, read⟩ := parseValueAsString_joined safe list [] []
    constructor
    · intro string listed
      obtain ⟨value, written, holds⟩ := cString_valueBuffer alloc (some separator) string
      exact ⟨value, written, holds (not_mem_parseStringAsValue _ true (clean string listed))⟩
    · have whole : cString (joinedItems separator list) = joinedItems separator list := cString_clean clean'
      rw [whole, read]
      exact ⟨by simp [Unescaped.list], rfl⟩

theorem valueEscaping_roundTrip_semicolon : ReadsBack (fun n => Vector.replicate n 7) [32, 92, 59] ∧
    SplitsBack (fun n => Vector.replicate n 7) 59 [[59, 32, 92], [], [97], []] :=
  ⟨(valueEscaping_roundTrip fun n => Vector.replicate n 7).1 [32, 92, 59] (by decide),
    (valueEscaping_roundTrip fun n => Vector.replicate n 7).2 59 (by simp [IsListSeparator]; decide) (by decide)
      [[59, 32, 92], [], [97], []] (by decide)⟩

/-- With NUL as the separator the value ends behind the first item. -/
theorem nulSeparator_loses : IsListSeparator 0 ∧ ¬SplitsBack (fun n => Vector.replicate n 7) 0 [[97], [98]] := by
  refine ⟨by simp [IsListSeparator]; decide, ?_⟩
  intro splits
  exact absurd splits.2.1 (by decide)

end Xpl.Keyfile
