import Mathlib.Algebra.Group.Nat.Defs
import Xpl.Library.Store

/-! Hash tables with open addressing.

Keys and values are pointers of 64 bits; an array holds them as integers of 32 bits as long as
they all fit. Sizes, counts and indices are natural numbers, with the wrap of `xuint_t` where an
index or a number of bytes is computed in it. A table of more than `2 ^ 29` slots cannot be
allocated, so `nnodes * 4` stays within `xint_t`. A computation has no result where the program
would access memory outside of an array, fail an assertion or not end.
-/

set_option autoImplicit false

namespace Xpl.Collections
open Xpl.Library

/-- What a table is created with: the functions that may be `NULL`, and whether small arrays make
sense, which is not so under valgrind. -/
structure TableFuncs where
  hashFunc : Option (UInt64 → UInt32)
  keyEqualFunc : Option (UInt64 → UInt64 → Bool)
  keyDestroyFunc : Bool
  valueDestroyFunc : Bool
  small : Bool

/-- A call of a destroy function. -/
inductive Notified where
  | key (key : UInt64)
  | value (value : UInt64)
  deriving DecidableEq, Repr

namespace TableFuncs

def gDirectHash (v : UInt64) : UInt32 := v.toUInt32

def hash (funcs : TableFuncs) (key : UInt64) : UInt32 := funcs.hashFunc.getD gDirectHash key

def equal (funcs : TableFuncs) (nodeKey key : UInt64) : Bool :=
  match funcs.keyEqualFunc with
  | some keyEqualFunc => keyEqualFunc nodeKey key
  | none => nodeKey == key

def destroyKey (funcs : TableFuncs) (key : UInt64) : List Notified :=
  if funcs.keyDestroyFunc then [.key key] else []

def destroyValue (funcs : TableFuncs) (value : UInt64) : List Notified :=
  if funcs.valueDestroyFunc then [.value value] else []

end TableFuncs

section Values

def hashTableMinShift : Nat := 3

def unusedHashValue : UInt32 := 0
def tombstoneHashValue : UInt32 := 1
def hashIsUnused (h : UInt32) : Bool := h == unusedHashValue
def hashIsTombstone (h : UInt32) : Bool := h == tombstoneHashValue
def hashIsReal (h : UInt32) : Bool := 2 ≤ h

def primeMod : List Nat :=
  [1, 2, 3, 7, 13, 31, 61, 127, 251, 509, 1021, 2039, 4093, 8191, 16381, 32749, 65521, 131071, 262139, 524287, 1048573,
    2097143, 4194301, 8388593, 16777213, 33554393, 67108859, 134217689, 268435399, 536870909, 1073741789, 2147483647]

/-- `for (i = 0; n; i++) n >>= 1;` -/
def findClosestShift (n : Nat) : Nat := if n = 0 then 0 else findClosestShift (n / 2) + 1
decreasing_by omega

/-- A natural number as a `double`: 53 bits, to the nearest and to the even one of two. -/
def roundToDouble (p : Nat) : Nat :=
  let unit := 2 ^ (p.log2 - 52)
  let q := p / unit
  let r := p % unit
  if unit < 2 * r ∨ (unit = 2 * r ∧ q % 2 = 1) then (q + 1) * unit else q * unit

/-- `(xint_t) (nnodes * 1.333)`, where the constant is `6003298303284871 / 2 ^ 52` as a `double`. -/
def times1333 (nnodes : Nat) : Nat := roundToDouble (nnodes * 6003298303284871) / 2 ^ 52

end Values

/-- An array of keys or values, whose cells are `xpointer_t` or `xuint_t`. A cell is `none` until
it is written. -/
structure Column where
  big : Bool
  cells : Cells (Option UInt64)

namespace Column

def entrySize (isBig : Bool) : Nat := if isBig then 8 else 4

/-- What is read from a cell into which `v` has been written. -/
def stored (isBig : Bool) (v : UInt64) : UInt64 := if isBig then v else v.toUInt32.toUInt64

/-- The number of bytes is computed in `xuint_t`. -/
def realloc (a : Column) (size : Nat) (isBig : Bool) : Option Column :=
  if a.big = isBig then
    some { a with cells := a.cells.resize (size * entrySize isBig % 2 ^ 32 / entrySize isBig) none }
  else none

def fetch (a : Column) (index : Nat) (isBig : Bool) : Option UInt64 :=
  if a.big = isBig then (a.cells.read index).join else none

def assign (a : Column) (index : Nat) (isBig : Bool) (v : UInt64) : Option Column :=
  if a.big = isBig then (a.cells.write index (some (stored isBig v))).map fun cells => { a with cells := cells } else none

def evict (a : Column) (index : Nat) (isBig : Bool) (v : UInt64) : Option (UInt64 × Column) := do
  let r ← a.fetch index isBig
  let a ← a.assign index isBig v
  some (r, a)

/-- `memset (array, 0, size * entry size)` -/
def cleared (a : Column) : Column := { a with cells := Cells.filled a.cells.length (some 0) }

def memdup (a : Column) (size : Nat) : Column := { a with cells := a.cells.resize size none }

end Column

/-- `values` is `none` where the source has one array for keys and values. -/
structure HashTable where
  size : Nat
  mod : Nat
  mask : Nat
  nnodes : Nat
  noccupied : Nat
  haveBigKeys : Bool
  haveBigValues : Bool
  keys : Column
  hashes : Cells UInt32
  values : Option Column
  version : Nat

namespace HashTable

section Storage

variable (t : HashTable)

def isASet : Bool := t.values.isNone

def valueColumn : Column := t.values.getD t.keys

def fetchKey (i : Nat) : Option UInt64 := t.keys.fetch i t.haveBigKeys

def fetchValue (i : Nat) : Option UInt64 := t.valueColumn.fetch i t.haveBigValues

def assignKey (i : Nat) (key : UInt64) : Option HashTable :=
  (t.keys.assign i t.haveBigKeys key).map fun keys => { t with keys := keys }

def assignValue (i : Nat) (value : UInt64) : Option HashTable :=
  match t.values with
  | none => (t.keys.assign i t.haveBigValues value).map fun keys => { t with keys := keys }
  | some values => (values.assign i t.haveBigValues value).map fun values => { t with values := some values }

def setHash (i : Nat) (h : UInt32) : Option HashTable :=
  (t.hashes.write i h).map fun hashes => { t with hashes := hashes }

/-- `1 << 31` is negative, and the size a `xsize_t`. -/
def setShift (shift : Nat) : Option HashTable := do
  let size := if shift < 31 then 2 ^ shift else 2 ^ 64 - 2 ^ 31
  let mod ← primeMod[shift]?
  if size &&& (size - 1) = 0 then some { t with size := size, mod := mod, mask := (size - 1) % 2 ^ 32 } else none

def setShiftFromSize (size : Nat) : Option HashTable := t.setShift (max (findClosestShift size) hashTableMinShift)

/-- The cells of `hashes` that are new hold 0, which the caller sees to in the source. -/
def reallocArrays (isASet : Bool) : Option HashTable := do
  let hashes := t.hashes.resize t.size unusedHashValue
  let keys ← t.keys.realloc t.size t.haveBigKeys
  if isASet then some { t with hashes := hashes, keys := keys, values := none }
  else do
    let values ← t.valueColumn.realloc t.size t.haveBigValues
    some { t with hashes := hashes, keys := keys, values := some values }

end Storage

section Probing

variable (t : HashTable)

def hashToIndex (h : UInt32) : Nat := (h * 11).toNat % t.mod

/-- `node_index += step; node_index &= hash_table->mask;` -/
def nextIndex (index step : Nat) : Nat := (index + step) % 2 ^ 32 &&& t.mask

/-- The search for a key. It looks at every slot within `size` turns, so that it does not end if
it has not ended by then. -/
def lookupLoop (funcs : TableFuncs) (key : UInt64) (hashValue : UInt32) : Nat → Nat → Nat → Option Nat → Option Nat
  | 0, _, _, _ => none
  | fuel + 1, step, nodeIndex, firstTombstone => do
    let nodeHash ← t.hashes.read nodeIndex
    if hashIsUnused nodeHash then some (firstTombstone.getD nodeIndex)
    else if nodeHash = hashValue then do
      let nodeKey ← t.fetchKey nodeIndex
      if funcs.equal nodeKey key then some nodeIndex
      else lookupLoop funcs key hashValue fuel (step + 1) (t.nextIndex nodeIndex (step + 1)) firstTombstone
    else if hashIsTombstone nodeHash ∧ firstTombstone = none then
      lookupLoop funcs key hashValue fuel (step + 1) (t.nextIndex nodeIndex (step + 1)) (some nodeIndex)
    else lookupLoop funcs key hashValue fuel (step + 1) (t.nextIndex nodeIndex (step + 1)) firstTombstone

def realHash (funcs : TableFuncs) (key : UInt64) : UInt32 := if hashIsReal (funcs.hash key) then funcs.hash key else 2

def lookupNode (funcs : TableFuncs) (key : UInt64) : Option (Nat × UInt32) :=
  (t.lookupLoop funcs key (realHash funcs key) t.size 0 (t.hashToIndex (realHash funcs key)) none).map fun i =>
    (i, realHash funcs key)

end Probing

section Resizing

variable (t : HashTable)

def assignKeyval (isASet : Bool) (i : Nat) (key value : UInt64) : Option HashTable := do
  let t ← t.assignKey i key
  if isASet then some t else t.assignValue i value

/-- `EVICT_KEYVAL`, for sets and for maps; the value of a set is left as it is. -/
def evictKeyval (isASet : Bool) (i : Nat) (key value : UInt64) : Option (UInt64 × UInt64 × HashTable) := do
  let (outkey, keys) ← t.keys.evict i t.haveBigKeys key
  let t := { t with keys := keys }
  if isASet then some (outkey, value, t)
  else do
    let (outvalue, values) ← t.valueColumn.evict i t.haveBigValues value
    some (outkey, outvalue, { t with values := some values })

/-- `while (get_status_bit (reallocated_buckets_bitmap, hash_val))` -/
def seekBucket (bitmap : Cells Bool) : Nat → Nat → Nat → Option Nat
  | 0, _, _ => none
  | fuel + 1, step, hashVal => do
    let taken ← bitmap.read hashVal
    if taken then seekBucket bitmap fuel (step + 1) (t.nextIndex hashVal (step + 1)) else some hashVal

/-- The entry in hand is put into its bucket, and the one it evicts there is next. -/
def placeLoop (isASet : Bool) : Nat → HashTable → Cells Bool → UInt32 → UInt64 → UInt64 → Option (HashTable × Cells Bool)
  | 0, _, _, _, _, _ => none
  | fuel + 1, t, bitmap, nodeHash, key, value => do
    let hashVal ← t.seekBucket bitmap t.size 0 (t.hashToIndex nodeHash)
    let bitmap ← bitmap.write hashVal true
    let replacedHash ← t.hashes.read hashVal
    let t ← t.setHash hashVal nodeHash
    if hashIsReal replacedHash then do
      let (key, value, t) ← t.evictKeyval isASet hashVal key value
      placeLoop isASet fuel t bitmap replacedHash key value
    else do
      let t ← t.assignKeyval isASet hashVal key value
      some (t, bitmap)

def resizeTurn (isASet : Bool) (x : HashTable × Cells Bool) (i : Nat) : Option (HashTable × Cells Bool) := do
  let (t, bitmap) := x
  let nodeHash ← t.hashes.read i
  if hashIsReal nodeHash then do
    let relocated ← bitmap.read i
    if relocated then some (t, bitmap)
    else do
      let t ← t.setHash i unusedHashValue
      let (key, value, t) ← t.evictKeyval isASet i 0 0
      placeLoop isASet t.size t bitmap nodeHash key value
  else do
    let t ← t.setHash i unusedHashValue
    some (t, bitmap)

def resizeSlots (isASet : Bool) (oldSize : Nat) (bitmap : Cells Bool) : Option (HashTable × Cells Bool) :=
  (List.range oldSize).foldlM (resizeTurn isASet) (t, bitmap)

def reallocIf (condition isASet : Bool) : Option HashTable := if condition then t.reallocArrays isASet else some t

def resize : Option HashTable := do
  let oldSize := t.size
  let isASet := t.isASet
  let t ← t.setShiftFromSize (times1333 t.nnodes)
  let t ← t.reallocIf (oldSize < t.size) isASet
  let bitmap := Cells.filled ((max t.size oldSize + 31) / 32 * 32) false
  let (t, _) ← t.resizeSlots isASet oldSize bitmap
  let t ← t.reallocIf (t.size < oldSize) isASet
  some { t with noccupied := t.nnodes }

def wantsResize : Bool :=
  (t.nnodes * 4 < t.size && 2 ^ hashTableMinShift < t.size) || t.size ≤ t.noccupied + t.noccupied / 16

def maybeResize : Option HashTable := if t.wantsResize then t.resize else some t

end Resizing

section Nodes

variable (funcs : TableFuncs) (t : HashTable)

def entryIsBig (v : UInt64) : Bool := v >>> 32 ≠ 0

/-- Whether the array is one of pointers now, and the array. -/
def maybeMakeBigKeysOrValues (a : Column) (v : UInt64) (htSize : Nat) : Bool × Column :=
  if entryIsBig v then (true, { big := true, cells := a.cells.resize htSize none }) else (false, a)

def makeKeysBig (key : UInt64) : HashTable :=
  if t.haveBigKeys then t
  else
    let (big, keys) := maybeMakeBigKeysOrValues t.keys key t.size
    if t.isASet then { t with haveBigKeys := big, keys := keys, haveBigValues := big }
    else { t with haveBigKeys := big, keys := keys }

def makeValuesBig (value : UInt64) : HashTable :=
  match t.values with
  | none => t
  | some values =>
    if t.haveBigValues then t
    else
      let (big, values) := maybeMakeBigKeysOrValues values value t.size
      { t with haveBigValues := big, values := some values }

def splitSet (key value : UInt64) : HashTable :=
  if t.isASet ∧ key ≠ value then { t with values := some (t.keys.memdup t.size) } else t

/-- A set of pointers needs no further checks. -/
def ensureKeyvalFits (key value : UInt64) : HashTable :=
  if t.isASet ∧ t.haveBigKeys then t.splitSet key value
  else ((t.splitSet key value).makeKeysBig key).makeValuesBig value

def assignEntry (i : Nat) (key value : UInt64) : Option HashTable := do
  let t ← t.assignKey i key
  t.assignValue i value

def countNode (oldHash : UInt32) : Option HashTable :=
  let t := { t with nnodes := t.nnodes + 1 }
  if hashIsUnused oldHash then { t with noccupied := t.noccupied + 1 }.maybeResize else some t

/-- Whether the key is new, and the calls of destroy functions. -/
def insertNode (nodeIndex : Nat) (keyHash : UInt32) (newKey newValue : UInt64) (keepNewKey reusingKey : Bool) :
    Option (Bool × List Notified × HashTable) := do
  let oldHash ← t.hashes.read nodeIndex
  if hashIsReal oldHash then do
    let valueToFree ← t.fetchValue nodeIndex
    let nodeKey ← t.fetchKey nodeIndex
    let keyToFree := if keepNewKey then nodeKey else newKey
    let keyToKeep := if keepNewKey then newKey else nodeKey
    let t ← (t.ensureKeyvalFits keyToKeep newValue).assignEntry nodeIndex keyToKeep newValue
    some (false, (if reusingKey then [] else funcs.destroyKey keyToFree) ++ funcs.destroyValue valueToFree, t)
  else do
    let t ← t.setHash nodeIndex keyHash
    let t ← (t.ensureKeyvalFits newKey newValue).assignEntry nodeIndex newKey newValue
    let t ← t.countNode oldHash
    some (true, [], { t with version := t.version + 1 })

def removeNode (i : Nat) (notify : Bool) : Option (List Notified × HashTable) := do
  let key ← t.fetchKey i
  let value ← t.fetchValue i
  let t ← t.setHash i tombstoneHashValue
  let t ← t.assignEntry i 0 0
  some (if notify then funcs.destroyKey key ++ funcs.destroyValue value else [], { t with nnodes := t.nnodes - 1 })

def setupStorage : Option HashTable := do
  let t ← t.setShift hashTableMinShift
  some
    { t with
      haveBigKeys := !funcs.small
      haveBigValues := !funcs.small
      keys := { big := !funcs.small, cells := Cells.filled t.size none }
      values := none
      hashes := Cells.filled t.size unusedHashValue }

/-- The destroy functions are called for the entries of the slots in turn. -/
def destroyNodes : Option (List Notified) :=
  (List.range t.size).foldlM
    (fun log i => do
      let oldHash ← t.hashes.read i
      if hashIsReal oldHash then do
        let key ← t.fetchKey i
        let value ← t.fetchValue i
        some (log ++ funcs.destroyKey key ++ funcs.destroyValue value)
      else some log)
    []

/-- For a table that is not being destroyed. -/
def removeAllNodes (notify : Bool) : Option (List Notified × HashTable) :=
  if t.nnodes = 0 then some ([], t)
  else
    let emptied := { t with nnodes := 0, noccupied := 0 }
    if !notify || (!funcs.keyDestroyFunc && !funcs.valueDestroyFunc) then
      some
        ([], { emptied with
          hashes := Cells.filled t.hashes.length unusedHashValue
          keys := t.keys.cleared
          values := t.values.map Column.cleared })
    else do
      let emptied ← emptied.setupStorage funcs
      let log ← t.destroyNodes funcs
      some (log, emptied)

end Nodes

section Iteration

/-- The position is -1 before the first entry. -/
structure RealIter where
  position : Int
  version : Nat

variable (funcs : TableFuncs) (t : HashTable)

def iterInit : RealIter := { position := -1, version := t.version }

/-- The next position with a real hash, or the size of the table. -/
def seekReal : Nat → Nat → Option Nat
  | 0, _ => none
  | fuel + 1, position =>
    if t.size ≤ position then some position
    else do
      let h ← t.hashes.read position
      if hashIsReal h then some position else seekReal fuel (position + 1)

/-- The entry is `none` where the source returns `FALSE`. -/
def iterNext (ri : RealIter) : Option (RealIter × Option (UInt64 × UInt64)) :=
  if ri.version ≠ t.version ∨ (t.size : Int) ≤ ri.position then some (ri, none)
  else do
    let position ← t.seekReal (t.size + 1) (ri.position + 1).toNat
    if t.size ≤ position then some ({ ri with position := position }, none)
    else do
      let key ← t.fetchKey position
      let value ← t.fetchValue position
      some ({ ri with position := position }, some (key, value))

def iterRemoveOrSteal (ri : RealIter) (notify : Bool) : Option (RealIter × List Notified × HashTable) :=
  if ri.version ≠ t.version ∨ ri.position < 0 ∨ (t.size : Int) ≤ ri.position then some (ri, [], t)
  else do
    let (log, t) ← t.removeNode funcs ri.position.toNat notify
    some ({ ri with version := ri.version + 1 }, log, { t with version := t.version + 1 })

def iterReplace (ri : RealIter) (value : UInt64) : Option (RealIter × List Notified × HashTable) :=
  if ri.version ≠ t.version ∨ ri.position < 0 ∨ (t.size : Int) ≤ ri.position then some (ri, [], t)
  else do
    let nodeHash ← t.hashes.read ri.position.toNat
    let key ← t.fetchKey ri.position.toNat
    let (_, log, t) ← t.insertNode funcs ri.position.toNat nodeHash key value true true
    some ({ ri with version := ri.version + 1 }, log, { t with version := t.version + 1 })

/-- What the caller does with an entry that the iterator gives it. -/
inductive IterStep where
  | keep
  | remove
  | steal
  | replace (value : UInt64)

def iterStep (ri : RealIter) : IterStep → Option (RealIter × List Notified × HashTable)
  | .keep => some (ri, [], t)
  | .remove => t.iterRemoveOrSteal funcs ri true
  | .steal => t.iterRemoveOrSteal funcs ri false
  | .replace value => t.iterReplace funcs ri value

/-- `while (xhash_table_iter_next (&iter, &key, &value))`, with the entries and the calls of
destroy functions in their order. -/
def iterLoop (choose : UInt64 → UInt64 → IterStep) :
    Nat → HashTable → RealIter → Option (List (UInt64 × UInt64) × List Notified × HashTable)
  | 0, _, _ => none
  | fuel + 1, t, ri => do
    let (ri, entry) ← t.iterNext ri
    match entry with
    | none => some ([], [], t)
    | some (key, value) => do
      let (ri, log, t) ← t.iterStep funcs ri (choose key value)
      let (visited, logs, t) ← iterLoop choose fuel t ri
      some ((key, value) :: visited, log ++ logs, t)

/-- Every turn of the loop advances the position. -/
def iterate (choose : UInt64 → UInt64 → IterStep) : Option (List (UInt64 × UInt64) × List Notified × HashTable) :=
  iterLoop funcs choose (t.size + 1) t t.iterInit

def foreachRemoveOrStealTurn (func : UInt64 → UInt64 → Bool) (notify : Bool) (x : Nat × List Notified × HashTable) (i : Nat) :
    Option (Nat × List Notified × HashTable) := do
  let (deleted, log, t) := x
  let nodeHash ← t.hashes.read i
  if hashIsReal nodeHash then do
    let nodeKey ← t.fetchKey i
    let nodeValue ← t.fetchValue i
    if func nodeKey nodeValue then do
      let (more, t) ← t.removeNode funcs i notify
      some (deleted + 1, log ++ more, t)
    else some (deleted, log, t)
  else some (deleted, log, t)

def foreachRemoveOrSteal (func : UInt64 → UInt64 → Bool) (notify : Bool) : Option (Nat × List Notified × HashTable) := do
  let (deleted, log, t) ← (List.range t.size).foldlM (foreachRemoveOrStealTurn funcs func notify) (0, [], t)
  let t ← t.maybeResize
  some (deleted, log, { t with version := if 0 < deleted then t.version + 1 else t.version })

/-- The entries for which `xhash_table_foreach` calls its function, in their order. -/
def foreach : Option (List (UInt64 × UInt64)) :=
  (List.range t.size).foldlM
    (fun visited i => do
      let nodeHash ← t.hashes.read i
      if hashIsReal nodeHash then do
        let key ← t.fetchKey i
        let value ← t.fetchValue i
        some (visited ++ [(key, value)])
      else some visited)
    []

end Iteration

section Operations

variable (funcs : TableFuncs) (t : HashTable)

def newFull : Option HashTable :=
  HashTable.setupStorage funcs
    { size := 0, mod := 0, mask := 0, nnodes := 0, noccupied := 0, haveBigKeys := false, haveBigValues := false
      keys := { big := false, cells := Cells.filled 0 none }, hashes := Cells.filled 0 unusedHashValue, values := none
      version := 0 }

/-- The entry of an equal key. -/
def lookupExtended (key : UInt64) : Option (Option (UInt64 × UInt64)) := do
  let (nodeIndex, _) ← t.lookupNode funcs key
  let h ← t.hashes.read nodeIndex
  if hashIsReal h then do
    let origKey ← t.fetchKey nodeIndex
    let value ← t.fetchValue nodeIndex
    some (some (origKey, value))
  else some none

def lookup (key : UInt64) : Option UInt64 := do
  let (nodeIndex, _) ← t.lookupNode funcs key
  let h ← t.hashes.read nodeIndex
  if hashIsReal h then t.fetchValue nodeIndex else some 0

def contains (key : UInt64) : Option Bool := do
  let (nodeIndex, _) ← t.lookupNode funcs key
  let h ← t.hashes.read nodeIndex
  some (hashIsReal h)

def insertInternal (key value : UInt64) (keepNewKey : Bool) : Option (Bool × List Notified × HashTable) := do
  let (nodeIndex, keyHash) ← t.lookupNode funcs key
  t.insertNode funcs nodeIndex keyHash key value keepNewKey false

protected def insert (key value : UInt64) : Option (Bool × List Notified × HashTable) := t.insertInternal funcs key value false

def replace (key value : UInt64) : Option (Bool × List Notified × HashTable) := t.insertInternal funcs key value true

def add (key : UInt64) : Option (Bool × List Notified × HashTable) := t.insertInternal funcs key key true

def removeInternal (key : UInt64) (notify : Bool) : Option (Bool × List Notified × HashTable) := do
  let (nodeIndex, _) ← t.lookupNode funcs key
  let h ← t.hashes.read nodeIndex
  if hashIsReal h then do
    let (log, t) ← t.removeNode funcs nodeIndex notify
    let t ← t.maybeResize
    some (true, log, { t with version := t.version + 1 })
  else some (false, [], t)

def remove (key : UInt64) : Option (Bool × List Notified × HashTable) := t.removeInternal funcs key true

def steal (key : UInt64) : Option (Bool × List Notified × HashTable) := t.removeInternal funcs key false

/-- A key or value is taken out of its cell, if the caller has given a location for it. -/
def takeKey (i : Nat) (wanted : Bool) : Option (Option UInt64 × HashTable) :=
  if wanted then do
    let key ← t.fetchKey i
    let t ← t.assignKey i 0
    some (some key, t)
  else some (none, t)

def takeValue (i : Nat) (wanted : Bool) : Option (Option UInt64 × HashTable) :=
  if wanted then do
    let value ← t.fetchValue i
    let t ← t.assignValue i 0
    some (some value, t)
  else some (none, t)

/-- The results are `none` where the caller wants none. -/
def stealExtended (key : UInt64) (wantKey wantValue : Bool) : Option (Bool × Option UInt64 × Option UInt64 × HashTable) := do
  let (nodeIndex, _) ← t.lookupNode funcs key
  let h ← t.hashes.read nodeIndex
  if hashIsReal h then do
    let (stolenKey, t) ← t.takeKey nodeIndex wantKey
    let (stolenValue, t) ← t.takeValue nodeIndex wantValue
    let (_, t) ← t.removeNode funcs nodeIndex false
    let t ← t.maybeResize
    some (true, stolenKey, stolenValue, { t with version := t.version + 1 })
  else some (false, if wantKey then some 0 else none, if wantValue then some 0 else none, t)

def removeOrStealAll (notify : Bool) : Option (List Notified × HashTable) := do
  let t := { t with version := if t.nnodes ≠ 0 then t.version + 1 else t.version }
  let (log, t) ← t.removeAllNodes funcs notify
  let t ← t.maybeResize
  some (log, t)

def removeAll : Option (List Notified × HashTable) := t.removeOrStealAll funcs true

def stealAll : Option (List Notified × HashTable) := t.removeOrStealAll funcs false

end Operations

end HashTable

end Xpl.Collections
