import Xpl.Library.Bytes
import Xpl.Library.Checked

/-! Growable arrays of elements of one size.

The bytes of an array are those of its block; a read or write that leaves the
`elt_capacity * elt_size` bytes of the block stops the computation. Indices and
lengths are unsigned integers of 32 bits, byte offsets are exact.
-/

set_option autoImplicit false

namespace Xpl.Collections
open Xpl.Library

def gMaxuint : Nat := 2 ^ 32 - 1
def gMaxsize : Nat := 2 ^ 64 - 1
def minArraySize : Nat := 16

/-- Arithmetic of `xuint_t`. -/
def wrapUint (n : Nat) : Nat := n % 2 ^ 32

/-- Arithmetic of `xint_t`. -/
def wrapXint (n : Int) : Int := n.bmod (2 ^ 32)

def subUint (a b : Nat) : Nat := (a + (2 ^ 32 - b)) % 2 ^ 32

structure Block where
  size : Nat
  byte : Nat → UInt8

/-- `data` is `none` where the source has `NULL`. A `clearFunc` changes the bytes of the
element it is given. -/
structure RealArray where
  data : Option Block
  len : Nat
  eltCapacity : Nat
  eltSize : Nat
  zeroTerminated : Bool
  clear : Bool
  refCount : Int
  clearFunc : Option ((Nat → UInt8) → Nat → UInt8)

/-- A computation stops at an `xerror` or a failed assertion, which end the program, or at
an access outside the block. -/
inductive Stop where
  | xerror
  | outside
  deriving DecidableEq, Repr

/-- What an operation finds in the process: the global `g_mem_gc_friendly`, which requests
the allocator serves, and the bytes that a new block happens to hold. -/
structure Process where
  gcFriendly : Bool
  serves : Nat → Bool
  indeterminate : Nat → UInt8

namespace RealArray

section Memory

def inside (array : RealArray) (offset size : Nat) : Bool :=
  size = 0 || (array.data.isSome && offset + size ≤ array.eltCapacity * array.eltSize)

/-- The array with the bytes `[offset, offset + size)` taken from `source`. -/
def overwrite (array : RealArray) (offset size : Nat) (source : Nat → UInt8) : RealArray :=
  { array with
    data := array.data.map fun block =>
      { block with byte := fun p => if offset ≤ p ∧ p < offset + size then source (p - offset) else block.byte p } }

def memcpy (array : RealArray) (offset : Nat) (source : Nat → UInt8) (size : Nat) : Except Stop RealArray :=
  if array.inside offset size then .ok (array.overwrite offset size source) else .error .outside

def memset (array : RealArray) (offset : Nat) (value : UInt8) (size : Nat) : Except Stop RealArray :=
  array.memcpy offset (fun _ => value) size

def byteAt (array : RealArray) (offset : Nat) : UInt8 := (array.data.map fun block => block.byte offset).getD 0

/-- Both `memmove` and a `memcpy` within the block. -/
def memmove (array : RealArray) (target source size : Nat) : Except Stop RealArray :=
  if array.inside source size then array.memcpy target (fun k => array.byteAt (source + k)) size else .error .outside

def eltLen (array : RealArray) (count : Nat) : Nat := array.eltSize * count

def eltZero (array : RealArray) (position length : Nat) : Except Stop RealArray :=
  array.memset (array.eltLen position) 0 (array.eltLen length)

def zeroTerminate (array : RealArray) : Except Stop RealArray :=
  if array.zeroTerminated then array.eltZero array.len 1 else .ok array

/-- A call of the clear function, if there is one, on the element at `index`. -/
def callClear (array : RealArray) (index : Nat) : Except Stop RealArray :=
  match array.clearFunc with
  | none => .ok array
  | some clearFunc =>
    array.memcpy (array.eltLen index) (clearFunc fun k => array.byteAt (array.eltLen index + k)) array.eltSize

end Memory

/-- A statement under a condition. -/
def doIf (array : RealArray) (condition : Prop) [Decidable condition] (x : Except Stop RealArray) : Except Stop RealArray :=
  if condition then x else .ok array

end RealArray

/-- `n |= n >> bits` -/
def smear (n bits : Nat) : Nat := n ||| n >>> bits

def gNearestPow (num : Nat) : Except Stop Nat :=
  if 0 < num ∧ num ≤ gMaxsize / 2 then
    .ok ((smear (smear (smear (smear (smear (smear (num - 1) 1) 2) 4) 8) 16) 32 + 1) % 2 ^ 64)
  else .error .xerror

/-- The bytes of the old block stay; `NULL` has none. -/
def gRealloc (process : Process) (data : Option Block) (size : Nat) : Except Stop Block :=
  if process.serves size then
    .ok { size := size
          byte := fun p =>
            match data with
            | some block => if p < block.size then block.byte p else process.indeterminate p
            | none => process.indeterminate p }
  else .error .xerror

section Operations

def gArrayMaxLen (array : RealArray) : Nat :=
  min (gMaxsize / 2 / array.eltSize) gMaxuint - array.zeroTerminated.toNat

/-- The block has `want_alloc` bytes before the new capacity is stored; here both change
together, which no access in between can see. -/
def gArrayMaybeExpand (process : Process) (array : RealArray) (len : Nat) : Except Stop RealArray :=
  if subUint (gArrayMaxLen array) array.len < len then .error .xerror
  else
    let wantLen := wrapUint (array.len + len + array.zeroTerminated.toNat)
    if array.eltCapacity < wantLen then do
      let nearest ← gNearestPow (array.eltLen wantLen)
      let wantAlloc := max nearest minArraySize
      let block ← gRealloc process array.data wantAlloc
      let expanded := { array with data := some block, eltCapacity := min (wantAlloc / array.eltSize) gMaxuint }
      if process.gcFriendly then
        expanded.memset (array.eltLen array.eltCapacity) 0 (array.eltLen (wantLen - array.eltCapacity))
      else .ok expanded
    else .ok array

/-- `none` is the `NULL` that a failed check returns. -/
def gArraySizedNew (process : Process) (zeroTerminated clear : Bool) (eltSize reservedSize : Nat) :
    Except Stop (Option RealArray) :=
  if eltSize = 0 then .ok none
  else
    let array : RealArray :=
      { data := none, len := 0, eltCapacity := 0, eltSize := eltSize, zeroTerminated := zeroTerminated
        clear := clear, refCount := 1, clearFunc := none }
    if zeroTerminated = true ∨ reservedSize ≠ 0 then do
      let array ← gArrayMaybeExpand process array reservedSize
      let array ← array.zeroTerminate
      .ok (some array)
    else .ok (some array)

def gArraySetClearFunc (array : RealArray) (clearFunc : Option ((Nat → UInt8) → Nat → UInt8)) : RealArray :=
  { array with clearFunc := clearFunc }

/-- The element data, its length, and the array that is left. -/
def gArraySteal (array : RealArray) : Option Block × Nat × RealArray :=
  (array.data, array.len, { array with data := none, len := 0, eltCapacity := 0 })

def gArrayRef (array : RealArray) : RealArray := { array with refCount := wrapXint (array.refCount + 1) }

/-- The segment that is returned, and the array where its wrapper is preserved. -/
def arrayFree (array : RealArray) (freeSegment preserveWrapper : Bool) :
    Except Stop (Option Block × Option RealArray) := do
  let cleared ← array.doIf freeSegment ((List.range array.len).foldlM RealArray.callClear array)
  let segment := if freeSegment then none else cleared.data
  .ok (segment, if preserveWrapper then some { cleared with data := none, len := 0, eltCapacity := 0 } else none)

def gArrayUnref (array : RealArray) : Except Stop (Option RealArray) :=
  let released := { array with refCount := wrapXint (array.refCount - 1) }
  if array.refCount = 1 then Prod.snd <$> arrayFree released true false else .ok (some released)

def gArrayFree (array : RealArray) (freeSegment : Bool) : Except Stop (Option Block × Option RealArray) :=
  arrayFree { array with refCount := wrapXint (array.refCount - 1) } freeSegment (array.refCount ≠ 1)

/-- `data` is the memory of the caller from the given pointer on. -/
def gArrayAppendVals (process : Process) (array : RealArray) (data : Nat → UInt8) (len : Nat) : Except Stop RealArray :=
  if len = 0 then .ok array
  else do
    let array ← gArrayMaybeExpand process array len
    let array ← array.memcpy (array.eltLen array.len) data (array.eltLen len)
    { array with len := wrapUint (array.len + len) }.zeroTerminate

def gArrayPrependVals (process : Process) (array : RealArray) (data : Nat → UInt8) (len : Nat) : Except Stop RealArray :=
  if len = 0 then .ok array
  else do
    let array ← gArrayMaybeExpand process array len
    let array ← array.memmove (array.eltLen len) (array.eltLen 0) (array.eltLen array.len)
    let array ← array.memcpy (array.eltLen 0) data (array.eltLen len)
    { array with len := wrapUint (array.len + len) }.zeroTerminate

def afterRemoval (process : Process) (array : RealArray) (length : Nat) : Except Stop RealArray :=
  if process.gcFriendly then array.eltZero array.len length else array.zeroTerminate

/-- The byte count of the `memmove` is a product of 32-bit integers. -/
def gArrayRemoveRange (process : Process) (array : RealArray) (index length : Nat) : Except Stop RealArray :=
  if array.len < index then .ok array
  else if array.len < wrapUint (index + length) then .ok array
  else do
    let array ← array.doIf array.clearFunc.isSome
      ((List.range length).foldlM (fun array i => array.callClear (wrapUint (index + i))) array)
    let array ← array.doIf (wrapUint (index + length) ≠ array.len)
      (array.memmove (array.eltLen index) (array.eltLen (wrapUint (index + length)))
        (wrapUint (subUint array.len (wrapUint (index + length)) * array.eltSize)))
    afterRemoval process { array with len := subUint array.len length } length

def makeSize (process : Process) (array : RealArray) (length : Nat) : Except Stop RealArray :=
  if array.len < length then do
    let array ← gArrayMaybeExpand process array (length - array.len)
    array.doIf array.clear (array.eltZero array.len (length - array.len))
  else if length < array.len then gArrayRemoveRange process array length (array.len - length)
  else .ok array

def gArraySetSize (process : Process) (array : RealArray) (length : Nat) : Except Stop RealArray := do
  let array ← makeSize process array length
  { array with len := length }.zeroTerminate

def gArrayInsertVals (process : Process) (array : RealArray) (index : Nat) (data : Nat → UInt8) (len : Nat) :
    Except Stop RealArray :=
  if len = 0 then .ok array
  else if array.len ≤ index then do
    let array ← gArrayMaybeExpand process array (wrapUint (index - array.len + len))
    let array ← gArraySetSize process array index
    gArrayAppendVals process array data len
  else do
    let array ← gArrayMaybeExpand process array len
    let array ← array.memmove (array.eltLen (wrapUint (len + index))) (array.eltLen index)
      (array.eltLen (array.len - index))
    let array ← array.memcpy (array.eltLen index) data (array.eltLen len)
    { array with len := wrapUint (array.len + len) }.zeroTerminate

def gArrayRemoveIndex (process : Process) (array : RealArray) (index : Nat) : Except Stop RealArray :=
  if array.len ≤ index then .ok array
  else do
    let array ← array.callClear index
    let array ← array.doIf (index ≠ array.len - 1)
      (array.memmove (array.eltLen index) (array.eltLen (index + 1)) (array.eltLen (array.len - index - 1)))
    afterRemoval process { array with len := array.len - 1 } 1

def gArrayRemoveIndexFast (process : Process) (array : RealArray) (index : Nat) : Except Stop RealArray :=
  if array.len ≤ index then .ok array
  else do
    let array ← array.callClear index
    let array ← array.doIf (index ≠ array.len - 1)
      (array.memmove (array.eltLen index) (array.eltLen (array.len - 1)) (array.eltLen 1))
    afterRemoval process { array with len := array.len - 1 } 1

end Operations

inductive ArrayCall where
  | setClearFunc (clearFunc : Option ((Nat → UInt8) → Nat → UInt8))
  | ref
  | unref
  | free (freeSegment : Bool)
  | steal
  | appendVals (data : Nat → UInt8) (len : UInt32)
  | prependVals (data : Nat → UInt8) (len : UInt32)
  | insertVals (index : UInt32) (data : Nat → UInt8) (len : UInt32)
  | setSize (length : UInt32)
  | removeIndex (index : UInt32)
  | removeIndexFast (index : UInt32)
  | removeRange (index length : UInt32)

/-- The array after a call; `none` where the wrapper is gone. -/
def ArrayCall.perform (process : Process) (array : RealArray) : ArrayCall → Except Stop (Option RealArray)
  | setClearFunc clearFunc => .ok (some (gArraySetClearFunc array clearFunc))
  | ref => .ok (some (gArrayRef array))
  | unref => gArrayUnref array
  | free freeSegment => Prod.snd <$> gArrayFree array freeSegment
  | steal => .ok (some (gArraySteal array).2.2)
  | appendVals data len => some <$> gArrayAppendVals process array data len.toNat
  | prependVals data len => some <$> gArrayPrependVals process array data len.toNat
  | insertVals index data len => some <$> gArrayInsertVals process array index.toNat data len.toNat
  | setSize length => some <$> gArraySetSize process array length.toNat
  | removeIndex index => some <$> gArrayRemoveIndex process array index.toNat
  | removeIndexFast index => some <$> gArrayRemoveIndexFast process array index.toNat
  | removeRange index length => some <$> gArrayRemoveRange process array index.toNat length.toNat

/-- Calls one after the other, until one stops or the wrapper is gone. -/
def performAll (array : Option RealArray) : List (Process × ArrayCall) → Except Stop (Option RealArray)
  | [] => .ok array
  | (process, call) :: calls =>
    match array with
    | none => .ok none
    | some array => do performAll (← call.perform process array) calls

end Xpl.Collections
