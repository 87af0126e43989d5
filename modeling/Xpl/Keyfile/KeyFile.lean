import Mathlib.Data.List.DropRight
import Xpl.Keyfile.Lines
import Xpl.Library.Records

/-! The key file and what is done to it: gkeyfile.c. A pointer is an address that is never used twice; the records live
in the lists that own them, so that a pointer to a record in no list dangles. The lists stand in the order of the
source's, with the newest first. -/

set_option autoImplicit false

namespace Xpl.Keyfile
open Xpl.Library Xpl.Text

abbrev Address := Nat

/-- A hash table from strings to records. -/
abbrev Index := AList fun _ : Bytes => Address

structure KeyValuePair where
  key : Option Bytes
  value : Bytes
  deriving DecidableEq, Repr

structure Group where
  name : Option Bytes
  comment : Option KeyValuePair
  keyValuePairs : List (Address × KeyValuePair)
  lookupMap : Option Index

/-- `fresh` is the next address. The two flags are the ones of `GKeyFileFlags`. -/
structure KeyFile where
  groups : List (Address × Group)
  groupHash : Option Index
  startGroup : Option Address
  currentGroup : Option Address
  parseBuffer : Bytes
  listSeparator : UInt8
  keepComments : Bool
  keepTranslations : Bool
  fresh : Address

/-- A failed assertion, or the use of a pointer to a record that is gone. -/
inductive Halt where
  | assertion | dangling
  deriving DecidableEq, Repr

inductive KeyFileErrorCode where
  | unknownEncoding | parse | notFound | keyNotFound | groupNotFound | invalidValue
  deriving DecidableEq, Repr

inductive KeyFileError where
  | notALine (line : Bytes)
  | invalidGroupName (name : Bytes)
  | noStartGroup
  | invalidKeyName (name : Bytes)
  | unsupportedEncoding (value : Bytes)
  | noGroup (name : Bytes)
  | noKey (key : Bytes) (groupName : Option Bytes)
  | notUtf8 (key value : Bytes)
  | uninterpretable (key : Bytes)
  deriving DecidableEq, Repr

def KeyFileError.code : KeyFileError → KeyFileErrorCode
  | .notALine _ | .invalidGroupName _ | .invalidKeyName _ => .parse
  | .noStartGroup | .noGroup _ => .groupNotFound
  | .unsupportedEncoding _ | .notUtf8 _ _ => .unknownEncoding
  | .noKey _ _ => .keyNotFound
  | .uninterpretable _ => .invalidValue

/-- What a function returns next to the key file: `TRUE` or `FALSE`, and the error it sets. -/
abbrev Outcome := Bool × Option KeyFileError

def succeeded : Outcome := (true, none)

def failed (error : KeyFileError) : Outcome := (false, some error)

/-! ## Records -/

/-- Follow a pointer. -/
def record {α : Type} (records : List (Address × α)) (address : Address) : Except Halt α :=
  match records.lookup address with
  | some held => .ok held
  | none => .error .dangling

namespace Group

def lookupKeyValuePair (group : Group) (key : Bytes) : Option Address := group.lookupMap.bind (·.lookup key)

def addKeyValuePair (group : Group) (address : Address) (key value : Bytes) : Group :=
  { group with
    lookupMap := group.lookupMap.map (·.insert key address)
    keyValuePairs := (address, ⟨some key, value⟩) :: group.keyValuePairs }

def setComment (group : Group) (comment : Option Bytes) : Group :=
  { group with comment := comment.map fun value => ⟨none, value⟩ }

end Group

namespace KeyFile

/-- `xkey_file_init` -/
def init (fresh : Address) : KeyFile where
  groups := [(fresh, ⟨none, none, [], none⟩)]
  groupHash := none
  startGroup := none
  currentGroup := some fresh
  parseBuffer := []
  listSeparator := 59
  keepComments := false
  keepTranslations := false
  fresh := fresh + 1

/-- `xkey_file_new` -/
def new : KeyFile := init 1

/-! ## Groups and keys -/

def lookupGroup (file : KeyFile) (groupName : Bytes) : Option Address := file.groupHash.bind (·.lookup groupName)

def lookupGroupNode (file : KeyFile) (groupName : Bytes) : Option Address :=
  (file.lookupGroup groupName).filter fun address => address ∈ file.groups.map (·.1)

def addGroup (file : KeyFile) (groupName : Bytes) : KeyFile :=
  if !isGroupName groupName then file
  else
    match file.lookupGroup groupName with
    | some group => { file with currentGroup := some group }
    | none => { file with
        groups := (file.fresh, ⟨some groupName, none, [], some ∅⟩) :: file.groups
        groupHash := some ((file.groupHash.getD ∅).insert groupName file.fresh)
        startGroup := file.startGroup.or (some file.fresh)
        currentGroup := some file.fresh
        fresh := file.fresh + 1 }

def addKey (file : KeyFile) (group : Address) (key value : Bytes) : Except Halt KeyFile := do
  let _ ← record file.groups group
  .ok { file with
    groups := updateRecord file.groups group (·.addKeyValuePair file.fresh key value)
    fresh := file.fresh + 1 }

def setValue (setting : Setting) (file : KeyFile) (groupName key value : Bytes) : Except Halt KeyFile :=
  if !isGroupName groupName || !isKeyName setting key key.length then .ok file
  else
    match file.lookupGroup groupName with
    | none =>
      let file := file.addGroup groupName
      match file.groups with
      | [] => .error .dangling
      | (group, _) :: _ => file.addKey group key value
    | some group => do
      let held ← record file.groups group
      match held.lookupKeyValuePair key with
      | none => file.addKey group key value
      | some pair => do
        let _ ← record held.keyValuePairs pair
        .ok { file with
          groups := updateRecord file.groups group fun held =>
            { held with keyValuePairs := updateRecord held.keyValuePairs pair ({ · with value }) } }

def removeKey (file : KeyFile) (groupName key : Bytes) : Except Halt (KeyFile × Outcome) :=
  match file.lookupGroup groupName with
  | none => .ok (file, failed (.noGroup groupName))
  | some group => do
    let held ← record file.groups group
    match held.lookupKeyValuePair key with
    | none => .ok (file, failed (.noKey key held.name))
    | some pair => do
      let gone ← record held.keyValuePairs pair
      .ok ({ file with
        groups := updateRecord file.groups group fun held =>
          { held with
            keyValuePairs := removeRecord held.keyValuePairs pair
            lookupMap := held.lookupMap.map fun index => (gone.key.map index.erase).getD index } }, succeeded)

/-! ## Removing a group -/

/-- The first group of the file that is not the one given and has a name: the last one of the list. -/
def nextStartGroup (file : KeyFile) (group : Address) : Option Address :=
  (file.groups.reverse.find? fun held => held.1 ≠ group ∧ held.2.name.isSome).map (·.1)

/-- A named group goes from the table, which has to be there. -/
def removeName : Option Index → Option Bytes → Except Halt (Option Index)
  | groupHash, none => .ok groupHash
  | none, some _ => .error .assertion
  | some groupHash, some name => .ok (some (groupHash.erase name))

def removeGroupNode (file : KeyFile) (group : Address) : Except Halt KeyFile := do
  let held ← record file.groups group
  let groupHash ← removeName file.groupHash held.name
  .ok { file with
    groupHash
    -- the head of the list from which the group has not been taken yet
    currentGroup := if file.currentGroup = some group then file.groups.head?.map (·.1) else file.currentGroup
    startGroup := if file.startGroup = some group then file.nextStartGroup group else file.startGroup
    groups := removeRecord file.groups group }

def removeGroup (file : KeyFile) (groupName : Bytes) : Except Halt (KeyFile × Outcome) :=
  match file.lookupGroupNode groupName with
  | none => .ok (file, failed (.noGroup groupName))
  | some group => (file.removeGroupNode group).map fun file => (file, succeeded)

/-! ## Comments -/

/-- The comment's lines, each behind a number sign. -/
def parseCommentAsValue : Bytes → Bytes
  | [] => []
  | comment => [newline].intercalate ((comment.splitOn newline).map (hash :: ·))

/-- The comments above a key are the nodes behind its own. They make way for the new one. -/
def replaceComments (key : Bytes) (comment : List (Address × KeyValuePair)) :
    List (Address × KeyValuePair) → Option (List (Address × KeyValuePair))
  | [] => none
  | held :: rest =>
    if held.2.key = some key then some (held :: (comment ++ rest.dropWhile fun held => held.2.key = none))
    else (replaceComments key comment rest).map (held :: ·)

def commentNode (file : KeyFile) (comment : Option Bytes) : List (Address × KeyValuePair) :=
  comment.toList.map fun comment => (file.fresh, ⟨none, parseCommentAsValue comment⟩)

def setKeyComment (file : KeyFile) (groupName key : Bytes) (comment : Option Bytes) : Except Halt (KeyFile × Outcome) :=
  match file.lookupGroup groupName with
  | none => .ok (file, failed (.noGroup groupName))
  | some group => do
    let held ← record file.groups group
    match replaceComments key (file.commentNode comment) held.keyValuePairs with
    | none => .ok (file, failed (.noKey key held.name))
    | some keyValuePairs =>
      .ok ({ file with
        groups := updateRecord file.groups group ({ · with keyValuePairs })
        fresh := file.fresh + 1 }, succeeded)

def setGroupComment (file : KeyFile) (groupName : Bytes) (comment : Option Bytes) : Except Halt (KeyFile × Outcome) :=
  if !isGroupName groupName then .ok (file, (false, none))
  else
    match file.lookupGroup groupName with
    | none => .ok (file, failed (.noGroup groupName))
    | some group => do
      let _ ← record file.groups group
      .ok ({ file with
        groups := updateRecord file.groups group (·.setComment (comment.map parseCommentAsValue)) }, succeeded)

def setTopComment (file : KeyFile) (comment : Option Bytes) : Except Halt (KeyFile × Outcome) :=
  match file.groups.getLast? with
  | none => .error .dangling
  | some (group, _) =>
    .ok ({ file with
      groups := updateRecord file.groups group ({ · with keyValuePairs := file.commentNode comment })
      fresh := file.fresh + 1 }, succeeded)

/-- `xkey_file_set_comment`, and `xkey_file_remove_comment` with no comment. -/
def setComment (file : KeyFile) (groupName key comment : Option Bytes) : Except Halt (KeyFile × Outcome) :=
  match groupName, key with
  | some groupName, some key => file.setKeyComment groupName key comment
  | some groupName, none => file.setGroupComment groupName comment
  | none, _ => file.setTopComment comment

/-! ## Reading -/

/-- The names of the groups; the one above the first is not listed. -/
def getGroups (file : KeyFile) : Option (List (Option Bytes)) :=
  match file.groups.reverse with
  | [] => none
  | top :: groups => if top.2.name = none then some (groups.map (·.2.name)) else none

def getKeys (file : KeyFile) (groupName : Bytes) : Except Halt (Except KeyFileError (List Bytes)) :=
  match file.lookupGroup groupName with
  | none => .ok (.error (.noGroup groupName))
  | some group => do
    let held ← record file.groups group
    .ok (.ok (held.keyValuePairs.reverse.filterMap (·.2.key)))

def hasKey (file : KeyFile) (groupName key : Bytes) : Except Halt (Except KeyFileError Bool) :=
  match file.lookupGroup groupName with
  | none => .ok (.error (.noGroup groupName))
  | some group => do
    let held ← record file.groups group
    .ok (.ok (held.lookupKeyValuePair key).isSome)

def getValue (file : KeyFile) (groupName key : Bytes) : Except Halt (Except KeyFileError Bytes) :=
  match file.lookupGroup groupName with
  | none => .ok (.error (.noGroup groupName))
  | some group => do
    let held ← record file.groups group
    match held.lookupKeyValuePair key with
    | none => .ok (.error (.noKey key (some groupName)))
    | some pair => do
      let found ← record held.keyValuePairs pair
      .ok (.ok found.value)

/-! ## Writing -/

def pairText (pair : KeyValuePair) : Bytes :=
  match pair.key with
  | some key => key ++ equals :: pair.value ++ [newline]
  | none => pair.value ++ [newline]

def appendGroup (data : Bytes) (group : Group) : Bytes :=
  let data := if 2 ≤ data.length ∧ data.getD (data.length - 2) 0 ≠ newline then data ++ [newline] else data
  let data := data ++ (group.comment.map fun comment => comment.value ++ [newline]).getD []
  let data := data ++ (group.name.map fun name => openBracket :: name ++ [closeBracket, newline]).getD []
  data ++ group.keyValuePairs.reverse.flatMap fun pair => pairText pair.2

def toData (file : KeyFile) : Bytes := (file.groups.reverse.map (·.2)).foldl appendGroup []

end KeyFile

/-! Loading a key file from memory, line by line. A line that is refused leaves the key file as it was. -/

/-- What a line makes of the key file, or the error that it sets. -/
abbrev Parsed := Except Halt (Except KeyFileError KeyFile)

/-- The next step, unless there was an error. -/
def Parsed.andThen (parsed : Parsed) (next : KeyFile → Parsed) : Parsed :=
  match parsed with
  | .error halt => .error halt
  | .ok (.error error) => .ok (.error error)
  | .ok (.ok file) => next file

namespace KeyFile

def parseComment (file : KeyFile) (line : Bytes) : Parsed :=
  if !file.keepComments then .ok (.ok file)
  else
    match file.currentGroup with
    | none => .error .dangling
    | some group => do
      let _ ← record file.groups group
      .ok (.ok { file with
        groups := updateRecord file.groups group fun held =>
          { held with keyValuePairs := (file.fresh, ⟨none, cString line⟩) :: held.keyValuePairs }
        fresh := file.fresh + 1 })

/-- What stands before the last occurrence of a byte. -/
def beforeLast (c : UInt8) (line : Bytes) : Bytes := (line.reverse.dropWhile (· ≠ c)).tail.reverse

/-- The name ends at the last bracket of the whole line, which may hold zeros. -/
def parseGroup (file : KeyFile) (line : Bytes) : Parsed :=
  let groupName := cString (beforeLast closeBracket line).tail
  if !isGroupName groupName then .ok (.error (.invalidGroupName groupName)) else .ok (.ok (file.addGroup groupName))

/-- The test of the start group's encoding. `value` goes on to the end of the line. -/
def isUtf8Encoding (value : Bytes) : Bool :=
  value.length == 5 && asciiStrncasecmp (cString value) [85, 84, 70, 45, 56] 5 == 0

def encodingKey : Bytes := [69, 110, 99, 111, 100, 105, 110, 103]

def keyOfLine (line : Bytes) : Bytes := (line.takeWhile (· ≠ equals)).rdropWhile isSpace

/-- The value: what follows the first equals sign and the space behind it. -/
def valueOfLine (line : Bytes) : Bytes := (line.dropWhile (· ≠ equals)).tail.dropWhile isSpace

def parseKeyValuePair (setting : Setting) (file : KeyFile) (line : Bytes) : Parsed :=
  match file.currentGroup with
  | none => .ok (.error .noStartGroup)
  | some group => do
    let held ← record file.groups group
    if held.name = none then .ok (.error .noStartGroup)
    else
      let key := keyOfLine line
      if !isKeyName setting (cString line) key.length then .ok (.error (.invalidKeyName key))
      else
        let value := valueOfLine line
        if file.startGroup = file.currentGroup ∧ key = encodingKey ∧ !isUtf8Encoding value then
          .ok (.error (.unsupportedEncoding value))
        else
          match keyGetLocale key with
          | some (locale, len) =>
            if localeIsInteresting setting file.keepTranslations locale len then
              (file.addKey group key (cString value)).map .ok
            else .ok (.ok file)
          | none => (file.addKey group key (cString value)).map .ok

def parseLine (setting : Setting) (file : KeyFile) (line : Bytes) : Parsed :=
  let lineStart := line.dropWhile isSpace
  if lineIsComment (cString lineStart) then file.parseComment line
  else if lineIsGroup (cString lineStart) then file.parseGroup lineStart
  else if lineIsKeyValuePair (cString lineStart) then file.parseKeyValuePair setting lineStart
  else .ok (.error (.notALine line))

def flushParseBuffer (setting : Setting) (file : KeyFile) : Parsed :=
  if file.parseBuffer.isEmpty then .ok (.ok file)
  else { file with parseBuffer := [] }.parseLine setting file.parseBuffer

/-- A newline after what the buffer holds: one carriage return before it goes. -/
def endLine (setting : Setting) (file : KeyFile) : Parsed :=
  let file :=
    if file.parseBuffer.getLast? = some carriageReturn then { file with parseBuffer := file.parseBuffer.dropLast } else file
  if file.parseBuffer.isEmpty then file.parseComment [] else file.flushParseBuffer setting

def parseData (setting : Setting) : KeyFile → Bytes → Parsed
  | file, [] => .ok (.ok file)
  | file, c :: rest =>
    if c = newline then (file.endLine setting).andThen fun file => parseData setting file rest
    else parseData setting { file with parseBuffer := file.parseBuffer ++ [c] } rest

def clearGroups : List (Address × Group) → KeyFile → Except Halt KeyFile
  | [], file => .ok file
  | (group, _) :: groups, file => do
    let file ← file.removeGroupNode group
    clearGroups groups file

def clear (file : KeyFile) : Except Halt KeyFile := do
  let file ← clearGroups file.groups { file with parseBuffer := [] }
  .ok { file with groupHash := none }

/-- The chunks are what `read` returns of a file, or all of the data at once: `xkey_file_load_from_fd` and
`xkey_file_load_from_data`. -/
def parseChunks (setting : Setting) : KeyFile → List Bytes → Parsed
  | file, [] => file.flushParseBuffer setting
  | file, chunk :: chunks => (file.parseData setting chunk).andThen fun file => parseChunks setting file chunks

def load (setting : Setting) (file : KeyFile) (chunks : List Bytes) (keepComments keepTranslations : Bool) : Parsed := do
  let cleared ← file.clear
  { init cleared.fresh with
    listSeparator := file.listSeparator
    keepComments
    keepTranslations }.parseChunks setting chunks

end KeyFile

end Xpl.Keyfile
