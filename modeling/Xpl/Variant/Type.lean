import Xpl.Library.Bytes

/-! Type strings and the trees they spell.

`TypeExpr` is the grammar of all well-formed type strings, wildcards included;
`VariantType` is its definite part, the types that a value can have.
-/

set_option autoImplicit false

namespace Xpl.Variant
open Xpl.Library

def ascii (c : Char) : UInt8 := UInt8.ofNat c.toNat

inductive Basic where
  | boolean | byte | int16 | uint16 | int32 | uint32 | int64 | uint64
  | handle | double | string | objectPath | signature
  deriving DecidableEq, Repr

def Basic.char : Basic → UInt8
  | .boolean => ascii 'b'
  | .byte => ascii 'y'
  | .int16 => ascii 'n'
  | .uint16 => ascii 'q'
  | .int32 => ascii 'i'
  | .uint32 => ascii 'u'
  | .int64 => ascii 'x'
  | .uint64 => ascii 't'
  | .handle => ascii 'h'
  | .double => ascii 'd'
  | .string => ascii 's'
  | .objectPath => ascii 'o'
  | .signature => ascii 'g'

def Basic.all : List Basic :=
  [.boolean, .byte, .int16, .uint16, .int32, .uint32, .int64, .uint64,
    .handle, .double, .string, .objectPath, .signature]

def Basic.ofChar (c : UInt8) : Option Basic := Basic.all.find? (fun b => b.char = c)

@[simp] theorem Basic.ofChar_char (b : Basic) : Basic.ofChar b.char = some b := by
  cases b <;> decide

theorem Basic.char_of_ofChar {c : UInt8} {b : Basic} (h : Basic.ofChar c = some b) : b.char = c := by
  simpa using List.find?_some h

theorem Basic.char_injective {a b : Basic} (h : a.char = b.char) : a = b := by
  have same := congrArg Basic.ofChar h
  simpa using same

/-- Every well-formed type string, as a tree. A dictionary key without a basic
type is the wildcard `?`. -/
inductive TypeExpr where
  | basic (b : Basic)
  | variant
  | any
  | anyBasic
  | anyTuple
  | maybe (element : TypeExpr)
  | array (element : TypeExpr)
  | tuple (items : List TypeExpr)
  | dictEntry (key : Option Basic) (value : TypeExpr)

inductive VariantType where
  | basic (b : Basic)
  | variant
  | maybe (element : VariantType)
  | array (element : VariantType)
  | tuple (items : List VariantType)
  | dictEntry (key : Basic) (value : VariantType)

@[induction_eliminator]
theorem TypeExpr.induction {motive : TypeExpr → Prop}
    (basic : ∀ b, motive (.basic b)) (variant : motive .variant) (any : motive .any)
    (anyBasic : motive .anyBasic) (anyTuple : motive .anyTuple)
    (maybe : ∀ element, motive element → motive (.maybe element))
    (array : ∀ element, motive element → motive (.array element))
    (tuple : ∀ items, (∀ item ∈ items, motive item) → motive (.tuple items))
    (dictEntry : ∀ key value, motive value → motive (.dictEntry key value))
    (t : TypeExpr) : motive t :=
  @TypeExpr.rec motive (fun items => ∀ item ∈ items, motive item)
    basic variant any anyBasic anyTuple maybe array tuple dictEntry
    (fun _ member => nomatch member)
    (fun _ _ first rest => List.forall_mem_cons.mpr ⟨first, rest⟩) t

@[induction_eliminator]
theorem VariantType.induction {motive : VariantType → Prop}
    (basic : ∀ b, motive (.basic b)) (variant : motive .variant)
    (maybe : ∀ element, motive element → motive (.maybe element))
    (array : ∀ element, motive element → motive (.array element))
    (tuple : ∀ items, (∀ item ∈ items, motive item) → motive (.tuple items))
    (dictEntry : ∀ key value, motive value → motive (.dictEntry key value))
    (t : VariantType) : motive t :=
  @VariantType.rec motive (fun items => ∀ item ∈ items, motive item)
    basic variant maybe array tuple dictEntry
    (fun _ member => nomatch member)
    (fun _ _ first rest => List.forall_mem_cons.mpr ⟨first, rest⟩) t

def keyChar : Option Basic → UInt8
  | some b => b.char
  | none => ascii '?'

mutual
def TypeExpr.string : TypeExpr → Bytes
  | .basic b => [b.char]
  | .variant => [ascii 'v']
  | .any => [ascii '*']
  | .anyBasic => [ascii '?']
  | .anyTuple => [ascii 'r']
  | .maybe element => ascii 'm' :: element.string
  | .array element => ascii 'a' :: element.string
  | .tuple items => ascii '(' :: (TypeExpr.strings items ++ [ascii ')'])
  | .dictEntry key value => ascii '{' :: keyChar key :: (value.string ++ [ascii '}'])

def TypeExpr.strings : List TypeExpr → Bytes
  | [] => []
  | item :: items => item.string ++ TypeExpr.strings items
end

mutual
def VariantType.toExpr : VariantType → TypeExpr
  | .basic b => .basic b
  | .variant => .variant
  | .maybe element => .maybe element.toExpr
  | .array element => .array element.toExpr
  | .tuple items => .tuple (VariantType.toExprs items)
  | .dictEntry key value => .dictEntry (some key) value.toExpr

def VariantType.toExprs : List VariantType → List TypeExpr
  | [] => []
  | item :: items => item.toExpr :: VariantType.toExprs items
end

def VariantType.string (t : VariantType) : Bytes := t.toExpr.string

theorem VariantType.toExprs_eq_map (items : List VariantType) :
    VariantType.toExprs items = items.map VariantType.toExpr := by
  induction items with
  | nil => rfl
  | cons item items ih => simp [VariantType.toExprs, ih]

end Xpl.Variant
