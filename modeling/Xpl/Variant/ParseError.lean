import Xpl.Library.Bytes

/-! The errors of the text format, with the places that they name. -/

set_option autoImplicit false

namespace Xpl.Variant
open Xpl.Library

structure SourceRef where
  start : Int
  stop : Int
  deriving DecidableEq, Repr

/-- The codes of `GVariantParseError`, under their names without `G_VARIANT_PARSE_ERROR`. -/
inductive ParseErrorCode where
  | failed | basicTypeExpected | cannotInferType | definiteTypeExpected | inputNotAtEnd | invalidCharacter
  | invalidFormatString | invalidObjectPath | invalidSignature | invalidTypeString | noCommonType | numberOutOfRange
  | numberTooBig | typeError | unexpectedToken | unknownKeyword | unterminatedStringConstant | valueExpected | recursion
  deriving DecidableEq, Repr

/-- What `parser_set_error` is given. -/
structure ParseError where
  location : SourceRef
  other : Option SourceRef
  code : ParseErrorCode
  text : String
  deriving DecidableEq, Repr

/-- The message that `parser_set_error_va` puts together. -/
def ParseError.message (e : ParseError) : String :=
  (if e.location.start = e.location.stop then toString e.location.start
    else toString e.location.start ++ "-" ++ toString e.location.stop) ++
  (match e.other with
    | some other => "," ++ toString other.start ++ "-" ++ toString other.stop
    | none => "") ++
  ":" ++ e.text

def asciiText (s : Bytes) : String := String.ofList (s.map fun c => Char.ofNat c.toNat)

def astTypeError (location : SourceRef) (type : Bytes) : ParseError :=
  { location, other := none, code := .typeError, text := "can not parse as value of type '" ++ asciiText type ++ "'" }

end Xpl.Variant
