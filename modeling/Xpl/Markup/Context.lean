import Xpl.Markup.Unescape

/-! The parse context of gmarkup.c: its states, what each of them does with the next bytes, and the calls. A pointer into
the text is the text from there on; the callbacks are parameters. -/

set_option autoImplicit false

namespace Xpl.Markup
open Xpl.Library Xpl.Text

inductive ParseState where
  | start
  | afterOpenAngle
  | afterCloseAngle
  | afterElisionSlash
  | insideOpenTagName
  | insideAttributeName
  | afterAttributeName
  | betweenAttributes
  | afterAttributeEqualsSign
  | insideAttributeValueSq
  | insideAttributeValueDq
  | insideText
  | afterCloseTagSlash
  | insideCloseTagName
  | afterCloseTagName
  | insidePassthrough
  | error
  deriving DecidableEq, Repr

structure ParseFlags where
  treatCdataAsText : Bool
  prefixErrorPosition : Bool
  ignoreQualified : Bool
  deriving DecidableEq, Repr

inductive MarkupErrorCode where
  | badUtf8
  | empty
  | parse
  deriving DecidableEq, Repr

/-- An error of the context with its position, one of unescaping, or one of a callback with the position in front of it
where the flag asks for it. -/
inductive MarkupError (ε : Type) where
  | own (code : MarkupErrorCode) (line character : Int32) (message : String) (arguments : List Bytes)
  | unescape (line : Int32) (message : String) (text : Bytes)
  | caller (error : ε) (position : Option (Int32 × Int32))
  deriving DecidableEq, Repr

/-- A failed assertion, a read through a null pointer, or too many turns of a loop. -/
inductive Abort where
  | assertion
  | outside
  | unfinished
  deriving DecidableEq, Repr

/-- What a callback can ask the context for. -/
structure View where
  lineNumber : Int32
  charNumber : Int32
  elements : List Bytes
  deriving DecidableEq, Repr

/-- A parser together with its user data. A callback gives the state of the world behind it and its error; one at a start
tag may push a parser, and one at an end tag may pop it. -/
structure GMarkupParser (ι σ ε : Type) where
  startElement : Option (View → Bytes → List (Bytes × Bytes) → σ → σ × Option ι × Option ε)
  endElement : Option (View → Bytes → σ → σ × Bool × Option ε)
  text : Option (View → Bytes → σ → σ × Option ε)
  passthrough : Option (View → Bytes → σ → σ × Option ε)
  error : Option (View → MarkupError ε → σ → σ)

/-- Where the context is in the current text. -/
structure Cursor where
  iter : Bytes
  lineNumber : Int32
  charNumber : Int32
  deriving DecidableEq, Repr

/-- No parser is the one that ignores everything. The newest attribute is the first, and a tag is known by the number of
tags that are open with it. -/
structure ParseContext (ι σ ε : Type) where
  parser : Option ι
  flags : ParseFlags
  cursor : Cursor
  state : ParseState
  partialChunk : Option Bytes
  tagStack : List Bytes
  attributes : List (Bytes × Option Bytes)
  start : Option Bytes
  documentEmpty : Bool
  awaitingPop : Bool
  balance : Int32
  subparserStack : List (Option Nat × Option ι)
  subparserElement : Option Nat
  world : σ
  reported : Option (MarkupError ε)

/-! ## Moving on -/

def Cursor.advanceChar (cursor : Cursor) : Cursor :=
  match cursor.iter with
  | [] => cursor
  | _ :: rest =>
    if rest.head? = some (char '\n') then { iter := rest, lineNumber := cursor.lineNumber + 1, charNumber := 1 }
    else { cursor with iter := rest, charNumber := cursor.charNumber + 1 }

/-- The loop that moves on over the bytes of a kind. -/
def advanceWhile (kind : UInt8 → Bool) (lineNumber charNumber : Int32) : Bytes → Cursor
  | [] => { iter := [], lineNumber := lineNumber, charNumber := charNumber }
  | b :: rest =>
    let here : Cursor := { iter := b :: rest, lineNumber := lineNumber, charNumber := charNumber }
    if kind b then advanceWhile kind here.advanceChar.lineNumber here.advanceChar.charNumber rest else here

def Cursor.passing (cursor : Cursor) (kind : UInt8 → Bool) : Cursor :=
  advanceWhile kind cursor.lineNumber cursor.charNumber cursor.iter

def isCommonNameEndChar (c : UInt8) : Bool := c = char '=' || c = char '/' || c = char '>' || c = char ' '

def xmlIsspace (c : UInt8) : Bool := c = char ' ' || c = char '\t' || c = char '\n' || c = char '\r'

section Calls

variable {ι σ ε : Type}

namespace ParseContext

def advanceChar (context : ParseContext ι σ ε) : ParseContext ι σ ε := { context with cursor := context.cursor.advanceChar }

def passing (context : ParseContext ι σ ε) (kind : UInt8 → Bool) : ParseContext ι σ ε :=
  { context with cursor := context.cursor.passing kind }

def skipSpaces (context : ParseContext ι σ ε) : ParseContext ι σ ε := context.passing xmlIsspace

def advanceToNameEnd (context : ParseContext ι σ ε) : ParseContext ι σ ε :=
  context.passing fun c => !isCommonNameEndChar c && !xmlIsspace c

def iter (context : ParseContext ι σ ε) : Bytes := context.cursor.iter

def view (context : ParseContext ι σ ε) : View :=
  { lineNumber := context.cursor.lineNumber
    charNumber := context.cursor.charNumber
    elements := context.tagStack.map cString }

/-- `add_to_partial (context, context->start, context->iter)`. -/
def addToPartial (context : ParseContext ι σ ε) : Except Abort (ParseContext ι σ ε) :=
  match context.start with
  | none => .error .outside
  | some start =>
    .ok { context with
      partialChunk := some (context.partialChunk.getD [] ++ start.take (start.length - context.iter.length)) }

def truncatePartial (context : ParseContext ι σ ε) : ParseContext ι σ ε :=
  { context with partialChunk := context.partialChunk.map fun _ => [] }

def currentElement (context : ParseContext ι σ ε) : Except Abort Bytes :=
  match context.tagStack with
  | [] => .error .outside
  | name :: _ => .ok (cString name)

def currentAttribute (context : ParseContext ι σ ε) : Except Abort Bytes :=
  match context.attributes with
  | [] => .error .assertion
  | (name, _) :: _ => .ok (cString name)

def partialString (context : ParseContext ι σ ε) : Except Abort Bytes :=
  match context.partialChunk with
  | none => .error .outside
  | some string => .ok string

/-- `add_attribute`; there is none where there are too many. -/
def addAttribute (context : ParseContext ι σ ε) (name : Bytes) : Option (ParseContext ι σ ε) :=
  if 1001 ≤ context.attributes.length then none
  else some { context with attributes := (name, none) :: context.attributes }

end ParseContext

open ParseContext

variable (parsers : ι → GMarkupParser ι σ ε)

/-! ## Errors and subparsers -/

def parserOf : Option ι → GMarkupParser ι σ ε
  | some parser => parsers parser
  | none => { startElement := none, endElement := none, text := none, passthrough := none, error := none }

def callError (context : ParseContext ι σ ε) (error : MarkupError ε) : ParseContext ι σ ε :=
  match (parserOf parsers context.parser).error with
  | none => context
  | some call => { context with world := call context.view error context.world }

/-- `pop_subparser_stack`, with the stack in its parts. -/
def popped (context : ParseContext ι σ ε) (tracker : Option Nat × Option ι) (stack : List (Option Nat × Option ι)) :
    ParseContext ι σ ε :=
  { context with
    awaitingPop := true
    parser := tracker.2
    subparserElement := tracker.1
    subparserStack := stack }

def popSubparserStack (context : ParseContext ι σ ε) : Except Abort (ParseContext ι σ ε) :=
  match context.subparserStack with
  | [] => .error .assertion
  | tracker :: stack => .ok (popped context tracker stack)

/-- The error is reported all the way up. -/
def unwind (error : MarkupError ε) : List (Option Nat × Option ι) → ParseContext ι σ ε → ParseContext ι σ ε
  | [], context => context
  | tracker :: stack, context =>
    unwind error stack (callError parsers { popped context tracker stack with awaitingPop := false } error)

def markError (context : ParseContext ι σ ε) (error : MarkupError ε) : ParseContext ι σ ε :=
  unwind parsers error context.subparserStack (callError parsers { context with state := .error } error)

/-- `mark_error` and `g_propagate_error`: an error that is there stays. -/
def report (context : ParseContext ι σ ε) (error : MarkupError ε) : ParseContext ι σ ε :=
  { markError parsers context error with reported := context.reported.or (some error) }

def setError (context : ParseContext ι σ ε) (code : MarkupErrorCode) (message : String) (arguments : List Bytes) :
    ParseContext ι σ ε :=
  report parsers context (.own code context.cursor.lineNumber context.cursor.charNumber message arguments)

def propagateError (context : ParseContext ι σ ε) (error : ε) : ParseContext ι σ ε :=
  report parsers context (.caller error
    (if context.flags.prefixErrorPosition then some (context.cursor.lineNumber, context.cursor.charNumber) else none))

/-- The end of a callback. -/
def finish (context : ParseContext ι σ ε) : Option ε → ParseContext ι σ ε
  | none => context
  | some error => propagateError parsers context error

def push (context : ParseContext ι σ ε) (parser : Option ι) : ParseContext ι σ ε :=
  { context with
    subparserElement := some context.tagStack.length
    parser := parser
    subparserStack := (context.subparserElement, context.parser) :: context.subparserStack }

def possiblyFinishSubparser (context : ParseContext ι σ ε) : Except Abort (ParseContext ι σ ε) :=
  if context.subparserElement = some context.tagStack.length then popSubparserStack context else .ok context

def pop (context : ParseContext ι σ ε) : Except Abort (ParseContext ι σ ε) :=
  (if context.awaitingPop then .ok context else possiblyFinishSubparser context) >>= fun context =>
    if context.awaitingPop then .ok { context with awaitingPop := false } else .error .assertion

/-! ## Validation -/

section Validation

variable (xunicharIsalpha : Nat → Bool)

def isNameCharacter (common : UInt8 → Bool) (others : List UInt8) (name : Bytes) (p : Nat) (c : UInt8) : Except Abort Bool :=
  if common c then .ok true
  else if isCommonNameEndChar c then .ok false
  else if c ∈ others then .ok true
  else
    match xutf8GetChar (name ++ [0]) p with
    | none => .error .outside
    | some character => .ok (xunicharIsalpha character)

def nameStartMarks : List UInt8 := [char '_', char ':']

def nameMarks : List UInt8 := [char '.', char '-', char '_', char ':']

/-- The loop over the characters behind the first: the first byte of the one that is not allowed. -/
def nameLoop (name : Bytes) : Nat → Nat → Except Abort (Option UInt8)
  | 0, _ => .error .unfinished
  | fuel + 1, p =>
    match name[p]? with
    | none => .ok none
    | some c => do
      let allowed ← isNameCharacter xunicharIsalpha asciiIsalnum nameMarks name p c
      if allowed then nameLoop name fuel (p + utf8Skip c) else .ok (some c)

def slowNameValidate (context : ParseContext ι σ ε) (name : Bytes) : Except Abort (Bool × ParseContext ι σ ε) :=
  match xutf8Validate (name ++ [0]) with
  | none => .error .outside
  | some (false, _) =>
    .ok (false, setError parsers context .badUtf8 "Invalid UTF-8 encoded text in name — not valid “%s”" [name])
  | some (true, _) => do
    let allowed ← isNameCharacter xunicharIsalpha asciiIsalpha nameStartMarks name 0 (name.headD 0)
    if allowed then
      let odd ← nameLoop xunicharIsalpha name (name.length + 1) (utf8Skip (name.headD 0))
      match odd with
      | none => .ok (true, context)
      | some c => .ok (false, setError parsers context .parse "“%s” is not a valid name: “%c”" [name, [c]])
    else .ok (false, setError parsers context .parse "“%s” is not a valid name" [name])

def quickName : Bytes → Bool
  | [] => false
  | first :: others =>
    !isCommonNameEndChar first && (asciiIsalpha first || first = char '_' || first = char ':') &&
      others.all (fun c => asciiIsalnum c || (!isCommonNameEndChar c && nameMarks.contains c)) &&
      (first :: others).all (· < 0x80)

def nameValidate (context : ParseContext ι σ ε) (name : Bytes) : Except Abort (Bool × ParseContext ι σ ε) :=
  if quickName name then .ok (true, context) else slowNameValidate parsers xunicharIsalpha context name

/-- The length is an `xint_t`, and the validator asserts that it is not negative. -/
def textValidate (context : ParseContext ι σ ε) (text : Bytes) (length : Nat) : Except Abort (Bool × ParseContext ι σ ε) :=
  if (Int32.ofNat length).toInt < 0 then .error .assertion
  else if (xutf8ValidateLen (text.take (Int32.ofNat length).toInt.toNat)).1 then .ok (true, context)
  else
    .ok (false, setError parsers context .badUtf8 "Invalid UTF-8 encoded text in name — not valid “%s”" [cString text])

/-- `unescape_xstring_inplace` and, where the text is not ASCII, `text_validate`: the text, where both succeed. -/
def unescapeAndValidate (context : ParseContext ι σ ε) (string : Bytes) :
    Except Abort (Option Bytes × ParseContext ι σ ε) :=
  let isValue := context.state = .insideAttributeValueSq || context.state = .insideAttributeValueDq
  match unescapeXstringInplace isValue context.cursor.lineNumber string with
  | .ok (text, isAscii) =>
    if isAscii then .ok (some text, context)
    else do
      let (valid, context) ← textValidate parsers context text text.length
      .ok (if valid then some text else none, context)
  | .error (.parse line message named) => .ok (none, report parsers context (.unescape line message named))
  | .error .assertion => .error .assertion
  | .error .overrun => .error .outside
  | .error .unfinished => .error .unfinished

/-- The next character, for an error. -/
def utf8Str (utf8 : Bytes) : Bytes :=
  match xutf8GetCharValidated utf8 0 (some utf8.length) with
  | none => []
  | some c =>
    if c = malformedSequence ∨ c = partialSequence then
      "\\x".toList.map char ++ hexByte (utf8.headD 0)
    else xunicharToUtf8 c
where
  hexByte (b : UInt8) : Bytes := [hexDigit (b / 16), hexDigit (b % 16)]
  hexDigit (d : UInt8) : UInt8 := if d < 10 then char '0' + d else char 'a' + (d - 10)

/-! ## Elements -/

def emitStartElement (context : ParseContext ι σ ε) : Except Abort (ParseContext ι σ ε) := do
  let name ← context.currentElement
  if context.flags.ignoreQualified && name.contains (char ':') then .ok { push context none with attributes := [] }
  else
    let qualified (name : Bytes) := context.flags.ignoreQualified && (cString name).contains (char ':')
    let attributes ← (context.attributes.reverse.filter fun named => !qualified named.1).mapM fun named =>
      match named.2 with
      | some value => Except.ok (cString named.1, cString value)
      | none => .error Abort.outside
    let (valid, context) ← nameValidate parsers xunicharIsalpha context name
    if valid then
      match (parserOf parsers context.parser).startElement with
      | none => .ok { context with attributes := [] }
      | some call =>
        let (world, pushed, error) := call context.view name attributes context.world
        let context := { context with world := world }
        let context := match pushed with
          | some parser => push context (some parser)
          | none => context
        .ok (finish parsers { context with attributes := [] } error)
    else .ok context

def popTag (context : ParseContext ι σ ε) : ParseContext ι σ ε := { context with tagStack := context.tagStack.tail }

def finishEnd (context : ParseContext ι σ ε) (error : Option ε) : ParseContext ι σ ε :=
  let context := { context with awaitingPop := false }
  match error with
  | none => popTag context
  | some error => popTag (report parsers context (.caller error none))

def emitEndElement (context : ParseContext ι σ ε) : Except Abort (ParseContext ι σ ε) :=
  if context.tagStack = [] then .error .assertion
  else do
    let context ← possiblyFinishSubparser context
    let name ← context.currentElement
    if context.flags.ignoreQualified && name.contains (char ':') then
      let context ← pop context
      .ok (popTag context)
    else
      match (parserOf parsers context.parser).endElement with
      | none => .ok (finishEnd parsers context none)
      | some call =>
        let (world, pops, error) := call context.view name context.world
        let context := { context with world := world }
        (if pops then pop context else .ok context) >>= fun context => .ok (finishEnd parsers context error)

/-! ## The states -/

def stepStart (context : ParseContext ι σ ε) : Except Abort (ParseContext ι σ ε) :=
  if context.tagStack ≠ [] then .error .assertion
  else
    let context := context.skipSpaces
    match context.iter with
    | [] => .ok context
    | c :: _ =>
      if c = char '<' then
        let context := context.advanceChar
        .ok { context with state := .afterOpenAngle, start := some context.iter, documentEmpty := false }
      else .ok (setError parsers context .parse "Document must begin with an element (e.g. <book>)" [])

def stepAfterOpenAngle (context : ParseContext ι σ ε) (c : UInt8) : Except Abort (ParseContext ι σ ε) :=
  if c = char '?' ∨ c = char '!' then
    -- the open angle is a part of the passthrough
    .ok { context with
      partialChunk := some (context.partialChunk.getD [] ++ [char '<'])
      start := some context.iter
      balance := 1
      state := .insidePassthrough }
  else if c = char '/' then .ok { context.advanceChar with state := .afterCloseTagSlash }
  else if !isCommonNameEndChar c then .ok { context with state := .insideOpenTagName, start := some context.iter }
  else
    .ok (setError parsers context .parse
      "“%s” is not a valid character following a “<” character; it may not begin an element name" [utf8Str context.iter])

def stepAfterCloseAngle (context : ParseContext ι σ ε) : Except Abort (ParseContext ι σ ε) :=
  if context.tagStack = [] then .ok { context with start := none, state := .start }
  else .ok { context with start := some context.iter, state := .insideText }

def stepAfterElisionSlash (context : ParseContext ι σ ε) (c : UInt8) : Except Abort (ParseContext ι σ ε) := do
  if c = char '>' then emitEndElement parsers { context.advanceChar with state := .afterCloseAngle }
  else
    let element ← context.currentElement
    .ok (setError parsers context .parse
      "Odd character “%s”, expected a “>” character to end the empty-element tag “%s”" [utf8Str context.iter, element])

def stepInsideOpenTagName (context : ParseContext ι σ ε) : Except Abort (ParseContext ι σ ε) := do
  let context := context.advanceToNameEnd
  let context ← context.addToPartial
  if context.iter = [] then .ok context
  else
    let name ← context.partialString
    .ok { context with
      tagStack := name :: context.tagStack
      partialChunk := none
      state := .betweenAttributes
      start := none }

/-- `STATE_INSIDE_ATTRIBUTE_NAME` and `STATE_INSIDE_CLOSE_TAG_NAME`. -/
def stepInsideName (context : ParseContext ι σ ε) (next : ParseState) : Except Abort (ParseContext ι σ ε) := do
  let context := context.advanceToNameEnd
  let context ← context.addToPartial
  if context.iter = [] then .ok context else .ok { context with state := next }

def stepAfterAttributeName (context : ParseContext ι σ ε) : Except Abort (ParseContext ι σ ε) := do
  let context := context.skipSpaces
  match context.iter with
  | [] => .ok context
  | c :: _ =>
    let name ← context.partialString
    let (valid, context) ← nameValidate parsers xunicharIsalpha context (cString name)
    if valid then
      match context.addAttribute name with
      | none =>
        let element ← context.currentElement
        .ok (setError parsers context .parse "Too many attributes in element “%s”" [element])
      | some context =>
        let context := { context with partialChunk := none, start := none }
        if c = char '=' then .ok { context.advanceChar with state := .afterAttributeEqualsSign }
        else
          let attributeName ← context.currentAttribute
          let element ← context.currentElement
          .ok (setError parsers context .parse
            "Odd character “%s”, expected a “=” after attribute name “%s” of element “%s”"
            [utf8Str context.iter, attributeName, element])
    else .ok context

def stepBetweenAttributes (context : ParseContext ι σ ε) : Except Abort (ParseContext ι σ ε) := do
  let context := context.skipSpaces
  match context.iter with
  | [] => .ok context
  | c :: _ =>
    if c = char '/' then
      emitStartElement parsers xunicharIsalpha { context.advanceChar with state := .afterElisionSlash }
    else if c = char '>' then
      emitStartElement parsers xunicharIsalpha { context.advanceChar with state := .afterCloseAngle }
    else if !isCommonNameEndChar c then .ok { context with state := .insideAttributeName, start := some context.iter }
    else
      let element ← context.currentElement
      .ok (setError parsers context .parse
        "Odd character “%s”, expected a “>” or “/” character to end the start tag of element “%s”, or optionally an attribute; perhaps you used an invalid character in an attribute name"
        [utf8Str context.iter, element])

def stepAfterAttributeEqualsSign (context : ParseContext ι σ ε) : Except Abort (ParseContext ι σ ε) := do
  let context := context.skipSpaces
  match context.iter with
  | [] => .ok context
  | c :: _ =>
    if c = char '"' then
      let context := context.advanceChar
      .ok { context with state := .insideAttributeValueDq, start := some context.iter }
    else if c = 39 then
      let context := context.advanceChar
      .ok { context with state := .insideAttributeValueSq, start := some context.iter }
    else
      let attributeName ← context.currentAttribute
      let element ← context.currentElement
      .ok (setError parsers context .parse
        "Odd character “%s”, expected an open quote mark after the equals sign when giving value for attribute “%s” of element “%s”"
        [utf8Str context.iter, attributeName, element])

def stepInsideAttributeValue (context : ParseContext ι σ ε) (delim : UInt8) : Except Abort (ParseContext ι σ ε) := do
  let context := context.passing (· ≠ delim)
  let context ← context.addToPartial
  if context.iter = [] then .ok context
  else
    match context.attributes with
    | [] => .error .assertion
    | (name, _) :: attributes =>
      let string ← context.partialString
      let (value, context) ← unescapeAndValidate parsers context string
      match value with
      | some value =>
        .ok { context.advanceChar with
          attributes := (name, some value) :: attributes
          partialChunk := none
          state := .betweenAttributes
          start := none }
      | none => .ok context.truncatePartial

def stepInsideText (context : ParseContext ι σ ε) : Except Abort (ParseContext ι σ ε) := do
  let context := context.passing (· ≠ char '<')
  let context ← context.addToPartial
  if context.iter = [] then .ok context
  else
    let string ← context.partialString
    let (text, context) ← unescapeAndValidate parsers context string
    match text with
    | none => .ok context.truncatePartial
    | some text =>
      let (world, error) := match (parserOf parsers context.parser).text with
        | none => (context.world, none)
        | some call => call context.view text context.world
      let context := { context with world := world }
      match error with
      | none =>
        let context := context.advanceChar
        .ok ({ context with state := .afterOpenAngle, start := some context.iter }).truncatePartial
      | some error => .ok (propagateError parsers context error).truncatePartial

def stepAfterCloseTagSlash (context : ParseContext ι σ ε) (c : UInt8) : Except Abort (ParseContext ι σ ε) :=
  if !isCommonNameEndChar c then .ok { context with state := .insideCloseTagName, start := some context.iter }
  else
    .ok (setError parsers context .parse
      "“%s” is not a valid character following the characters “</”; “%s” may not begin an element name"
      [utf8Str context.iter, utf8Str context.iter])

/-- What is done behind the name in an end tag, when the chunk has been taken out of the context. -/
def closeElement (context : ParseContext ι σ ε) (closeName : Bytes) (c : UInt8) : Except Abort (ParseContext ι σ ε) :=
  if c ≠ char '>' then
    .ok (setError parsers context .parse
      "“%s” is not a valid character following the close element name “%s”; the allowed character is “>”"
      [utf8Str context.iter, cString closeName])
  else
    match context.tagStack with
    | [] => .ok (setError parsers context .parse "Element “%s” was closed, no element is currently open" [cString closeName])
    | element :: _ =>
      if cString closeName ≠ cString element then
        .ok (setError parsers context .parse "Element “%s” was closed, but the currently open element is “%s”"
          [cString closeName, cString element])
      else emitEndElement parsers { context.advanceChar with state := .afterCloseAngle, start := none }

def stepAfterCloseTagName (context : ParseContext ι σ ε) : Except Abort (ParseContext ι σ ε) :=
  let context := context.skipSpaces
  match context.iter with
  | [] => .ok context
  | c :: _ => do
    let closeName ← context.partialString
    let context ← closeElement parsers { context with partialChunk := none } closeName c
    .ok { context with partialChunk := some [] }

def passthroughEnds (string : Bytes) (balance : Int32) : Bool :=
  string[1]? = some (char '?') && string.getLast? = some (char '?') ||
    ("<!--".toList.map char).isPrefixOf string && ("--".toList.map char).isSuffixOf string ||
    ("<![CDATA[".toList.map char).isPrefixOf string && ("]]".toList.map char).isSuffixOf string ||
    ("<!DOCTYPE".toList.map char).isPrefixOf string && balance = 0

def passthroughLoop (chunk start : Bytes) (balance : Int32) (lineNumber charNumber : Int32) :
    Bytes → Bytes × Bytes × Int32 × Cursor
  | [] => (chunk, start, balance, { iter := [], lineNumber := lineNumber, charNumber := charNumber })
  | b :: rest =>
    let here : Cursor := { iter := b :: rest, lineNumber := lineNumber, charNumber := charNumber }
    let balance := if b = char '<' then balance + 1 else if b = char '>' then balance - 1 else balance
    let chunk := if b = char '>' then chunk ++ start.take (start.length - (b :: rest).length) else chunk
    let start := if b = char '>' then b :: rest else start
    if b = char '>' && passthroughEnds chunk balance then (chunk, start, balance, here)
    else passthroughLoop chunk start balance here.advanceChar.lineNumber here.advanceChar.charNumber rest

/-- The callback for a passthrough, as text where it is a CDATA section and the flag asks for it. -/
def emitPassthrough (context : ParseContext ι σ ε) (string : Bytes) : Except Abort (ParseContext ι σ ε × Option ε) :=
  let cdata := context.flags.treatCdataAsText && ("<![CDATA[".toList.map char).isPrefixOf string
  let call := if cdata then (parserOf parsers context.parser).text else (parserOf parsers context.parser).passthrough
  let content := if cdata then (string.drop 9).take (string.length - 12) else string
  let length := if cdata then string.length - 12 else string.length
  match call with
  | none => .ok (context, none)
  | some call => do
    let (valid, context) ← textValidate parsers context (if cdata then string.drop 9 else string) length
    if valid then
      let (world, error) := call context.view content context.world
      .ok ({ context with world := world }, error)
    else .ok (context, none)

def stepInsidePassthrough (context : ParseContext ι σ ε) : Except Abort (ParseContext ι σ ε) :=
  match context.start with
  | none => .error .outside
  | some start => do
    let (chunk, start, balance, cursor) := passthroughLoop (context.partialChunk.getD []) start context.balance context.cursor.lineNumber
      context.cursor.charNumber context.iter
    let context := { context with partialChunk := some chunk, start := some start, balance := balance, cursor := cursor }
    if context.iter = [] then context.addToPartial
    else
      let context := context.advanceChar
      let context ← context.addToPartial
      let string ← context.partialString
      let (context, error) ← emitPassthrough parsers context string
      let context := context.truncatePartial
      match error with
      | none => .ok { context with state := .afterCloseAngle, start := some context.iter }
      | some error => .ok (propagateError parsers context error)

/-- One turn of the loop, at a byte. -/
def step (context : ParseContext ι σ ε) (c : UInt8) : Except Abort (ParseContext ι σ ε) :=
  match context.state with
  | .start => stepStart parsers context
  | .afterOpenAngle => stepAfterOpenAngle parsers context c
  | .afterCloseAngle => stepAfterCloseAngle context
  | .afterElisionSlash => stepAfterElisionSlash parsers context c
  | .insideOpenTagName => stepInsideOpenTagName context
  | .insideAttributeName => stepInsideName context .afterAttributeName
  | .afterAttributeName => stepAfterAttributeName parsers xunicharIsalpha context
  | .betweenAttributes => stepBetweenAttributes parsers xunicharIsalpha context
  | .afterAttributeEqualsSign => stepAfterAttributeEqualsSign parsers context
  | .insideAttributeValueSq => stepInsideAttributeValue parsers context 39
  | .insideAttributeValueDq => stepInsideAttributeValue parsers context (char '"')
  | .insideText => stepInsideText parsers context
  | .afterCloseTagSlash => stepAfterCloseTagSlash parsers context c
  | .insideCloseTagName => stepInsideName context .afterCloseTagName
  | .afterCloseTagName => stepAfterCloseTagName parsers context
  | .insidePassthrough => stepInsidePassthrough parsers context
  | .error => .ok context

def parseLoop : Nat → ParseContext ι σ ε → Except Abort (ParseContext ι σ ε)
  | 0, _ => .error .unfinished
  | fuel + 1, context =>
    match context.iter with
    | [] => .ok context
    | c :: _ =>
      if context.state = .error then .ok context
      else do
        let context ← step parsers xunicharIsalpha context c
        parseLoop fuel context

/-! ## The calls of the user -/

def xmarkupParseContextNew (parser : ι) (flags : ParseFlags) (world : σ) : ParseContext ι σ ε :=
  { parser := some parser
    flags := flags
    cursor := { iter := [], lineNumber := 1, charNumber := 1 }
    state := .start
    partialChunk := none
    tagStack := []
    attributes := []
    start := none
    documentEmpty := true
    awaitingPop := false
    balance := 0
    subparserStack := []
    subparserElement := none
    world := world
    reported := none }

def xmarkupParseContextParse (context : ParseContext ι σ ε) (text : Bytes) : Except Abort (ParseContext ι σ ε × Bool) :=
  if context.state = .error then .ok (context, false)
  else if text = [] then .ok (context, true)
  else do
    let context := { context with cursor := { context.cursor with iter := text }, start := some text, reported := none }
    let context ← parseLoop parsers xunicharIsalpha (8 * text.length + 8) context
    .ok (context, context.state ≠ .error)

end Validation

end Calls

end Xpl.Markup
