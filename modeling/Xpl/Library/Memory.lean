import Mathlib.Data.List.GetD
import Xpl.Library.Bytes

/-! Memory as bytes at addresses, and the elements of one size that lie in it. -/

set_option autoImplicit false

namespace Xpl.Library

abbrev Memory := Nat → UInt8

/-- `size` bytes of memory from `offset` on. -/
def bytesOf (memory : Memory) (offset size : Nat) : Bytes := (List.range size).map fun k => memory (offset + k)

/-- The memory of a caller as `count` elements. -/
def chunks (size : Nat) (memory : Memory) (count : Nat) : List Bytes :=
  (List.range count).map fun i => bytesOf memory (size * i) size

section Lists

variable {memory other : Memory} {size offset shifted count : Nat}

@[simp] theorem length_bytesOf : (bytesOf memory offset size).length = size := by simp [bytesOf]

@[simp] theorem length_chunks : (chunks size memory count).length = count := by simp [chunks]

theorem bytesOf_eq_iff :
    bytesOf memory offset size = bytesOf other shifted size ↔ ∀ k < size, memory (offset + k) = other (shifted + k) := by
  unfold bytesOf
  rw [List.map_inj_left]
  exact forall_congr' fun k => by rw [List.mem_range]

/-- Elements are equal when all their bytes are. -/
theorem chunks_eq_iff : chunks size memory count = chunks size other count ↔ ∀ p < size * count, memory p = other p := by
  unfold chunks
  rw [List.map_inj_left]
  constructor
  · intro same p below
    have positive : 0 < size := Nat.pos_of_ne_zero fun zero => by simp [zero] at below
    have inside : p / size < count := Nat.div_lt_of_lt_mul below
    have bytes := bytesOf_eq_iff.mp (same _ (List.mem_range.mpr inside)) (p % size) (Nat.mod_lt p positive)
    rwa [Nat.div_add_mod] at bytes
  · intro same i member
    refine bytesOf_eq_iff.mpr fun k below => same _ ?_
    calc size * i + k < size * i + size := Nat.add_lt_add_left below _
      _ = size * (i + 1) := (Nat.mul_succ _ _).symm
      _ ≤ size * count := Nat.mul_le_mul_left _ (List.mem_range.mp member)

theorem chunks_add (size : Nat) (memory : Memory) (first second : Nat) :
    chunks size memory (first + second) = chunks size memory first ++ chunks size (fun p => memory (size * first + p)) second := by
  rw [chunks, List.range_add, List.map_append, List.map_map]
  congr 1
  refine List.map_congr_left fun i _ => ?_
  refine bytesOf_eq_iff.mpr fun k _ => ?_
  rw [Nat.mul_add, Nat.add_assoc]

theorem chunks_append {one two : Memory} {first second : Nat} (before : ∀ p < size * first, memory p = one p)
    (behind : ∀ p < size * second, memory (size * first + p) = two p) :
    chunks size memory (first + second) = chunks size one first ++ chunks size two second := by
  rw [chunks_add, chunks_eq_iff.mpr before, chunks_eq_iff.mpr behind]

theorem take_chunks {first : Nat} (le : first ≤ count) : (chunks size memory count).take first = chunks size memory first := by
  obtain ⟨rest, rfl⟩ := Nat.exists_eq_add_of_le le
  rw [chunks_add, List.take_append_of_le_length (by simp), List.take_of_length_le (by simp)]

theorem drop_chunks {first : Nat} (le : first ≤ count) :
    (chunks size memory count).drop first = chunks size (fun p => memory (size * first + p)) (count - first) := by
  obtain ⟨rest, rfl⟩ := Nat.exists_eq_add_of_le le
  rw [chunks_add, List.drop_append_of_le_length (by simp), List.drop_of_length_le (by simp), List.nil_append,
    Nat.add_sub_cancel_left]

end Lists

/-- `count` elements from `address` on. -/
def elementsAt (memory : Memory) (address size count : Nat) : List Bytes := chunks size (fun p => memory (address + p)) count

/-- `memcpy` between ranges that do not overlap. -/
def copyBytes (memory : Memory) (target source size : Nat) : Memory := fun p =>
  if target ≤ p ∧ p < target + size then memory (source + (p - target)) else memory p

def loadWord (memory : Memory) (address width : Nat) : Nat := leValue (bytesOf memory address width)

def storeWord (memory : Memory) (address width value : Nat) : Memory := fun p =>
  if address ≤ p ∧ p < address + width then (leBytes width value).getD (p - address) 0 else memory p

def storeBytes (memory : Memory) (address : Nat) (bytes : Bytes) : Memory := fun p =>
  if address ≤ p ∧ p < address + bytes.length then bytes.getD (p - address) 0 else memory p

section Places

variable {memory other : Memory} {address shifted size count target source width value p : Nat}

@[simp] theorem length_elementsAt : (elementsAt memory address size count).length = count := length_chunks

theorem elementsAt_zero : elementsAt memory address size 0 = [] := rfl

theorem elementsAt_one : elementsAt memory address size 1 = [bytesOf memory address size] := by
  rw [elementsAt, chunks, List.range_one, List.map_singleton, Nat.mul_zero]
  congr 1
  exact bytesOf_eq_iff.mpr fun k _ => by rw [Nat.zero_add]

theorem elementsAt_add (first second : Nat) :
    elementsAt memory address size (first + second) =
      elementsAt memory address size first ++ elementsAt memory (address + size * first) size second := by
  rw [elementsAt, chunks_add]
  congr 1
  exact chunks_eq_iff.mpr fun p _ => by rw [Nat.add_assoc]

theorem take_elementsAt (first second : Nat) :
    (elementsAt memory address size (first + second)).take first = elementsAt memory address size first := by
  rw [elementsAt_add, List.take_left' length_elementsAt]

theorem drop_elementsAt (first second : Nat) :
    (elementsAt memory address size (first + second)).drop first = elementsAt memory (address + size * first) size second := by
  rw [elementsAt_add, List.drop_left' length_elementsAt]

theorem elementsAt_succ :
    elementsAt memory address size (count + 1) =
      bytesOf memory address size :: elementsAt memory (address + size) size count := by
  rw [Nat.add_comm, elementsAt_add, elementsAt_one, Nat.mul_one]
  rfl

theorem getElem_elementsAt {i : Nat} (below : i < (elementsAt memory address size count).length) :
    (elementsAt memory address size count)[i] = bytesOf memory (address + size * i) size := by
  simp only [elementsAt, chunks, List.getElem_map, List.getElem_range]
  exact bytesOf_eq_iff.mpr fun k _ => by rw [Nat.add_assoc]

theorem elementsAt_congr (same : ∀ p < size * count, memory (address + p) = other (shifted + p)) :
    elementsAt memory address size count = elementsAt other shifted size count :=
  chunks_eq_iff.mpr same

theorem copyBytes_inside (inside : p < size) : copyBytes memory target source size (target + p) = memory (source + p) := by
  rw [copyBytes, if_pos (by omega), Nat.add_sub_cancel_left]

theorem copyBytes_outside (outside : p < target ∨ target + size ≤ p) : copyBytes memory target source size p = memory p :=
  if_neg (by omega)

theorem bytesOf_copyBytes : bytesOf (copyBytes memory target source size) target size = bytesOf memory source size :=
  bytesOf_eq_iff.mpr fun _ below => copyBytes_inside below

theorem elementsAt_copyBytes {wide : Nat} (apart : target + wide ≤ address ∨ address + size * count ≤ target) :
    elementsAt (copyBytes memory target source wide) address size count = elementsAt memory address size count :=
  elementsAt_congr fun p below => copyBytes_outside (by omega)

theorem storeWord_outside (outside : p < address ∨ address + width ≤ p) : storeWord memory address width value p = memory p :=
  if_neg (by omega)

theorem bytesOf_storeWord : bytesOf (storeWord memory address width value) address width = leBytes width value := by
  refine List.ext_getElem (by rw [length_bytesOf, length_leBytes]) fun k below inside => ?_
  rw [length_bytesOf] at below
  simp only [bytesOf, List.getElem_map, List.getElem_range, storeWord]
  rw [if_pos (by omega), Nat.add_sub_cancel_left, List.getD_eq_getElem _ _ inside]

theorem bytesOf_storeWord_apart (apart : target + size ≤ address ∨ address + width ≤ target) :
    bytesOf (storeWord memory address width value) target size = bytesOf memory target size :=
  bytesOf_eq_iff.mpr fun _ _ => storeWord_outside (by omega)

theorem bytesOf_copyBytes_apart {wide : Nat} (apart : target + wide ≤ address ∨ address + size ≤ target) :
    bytesOf (copyBytes memory target source wide) address size = bytesOf memory address size :=
  bytesOf_eq_iff.mpr fun _ _ => copyBytes_outside (by omega)

theorem loadWord_storeWord (fits : value < 256 ^ width) : loadWord (storeWord memory address width value) address width = value := by
  rw [loadWord, bytesOf_storeWord, leValue_leBytes width value fits]

theorem storeWord_loadWord : storeWord memory target width (loadWord memory source width) = copyBytes memory target source width := by
  have bytes : leBytes width (loadWord memory source width) = bytesOf memory source width := by
    have back := leBytes_leValue (bytesOf memory source width)
    rwa [length_bytesOf] at back
  funext p
  by_cases inside : target ≤ p ∧ p < target + width
  · have below : p - target < width := by omega
    rw [storeWord, copyBytes, if_pos inside, if_pos inside, bytes, bytesOf, List.getD_eq_getElem _ _ (by simpa using below),
      List.getElem_map, List.getElem_range]
  · rw [storeWord, copyBytes, if_neg inside, if_neg inside]

end Places

/-! A block of memory that is filled in any order. A cell is `none` until it is written. -/

structure Buffer where
  base : Nat
  size : Nat
  cell : Nat → Option UInt8

namespace Buffer

def fresh (base size : Nat) : Buffer := { base := base, size := size, cell := fun _ => none }

def write (buffer : Buffer) (address : Nat) (byte : UInt8) : Option Buffer :=
  if buffer.base ≤ address ∧ address < buffer.base + buffer.size then
    some { buffer with cell := Function.update buffer.cell address (some byte) }
  else none

def writeBytes (buffer : Buffer) (address : Nat) : Bytes → Option Buffer
  | [] => some buffer
  | byte :: bytes => (buffer.write address byte).bind fun next => next.writeBytes (address + 1) bytes

def contents (buffer : Buffer) : List (Option UInt8) :=
  (List.range buffer.size).map fun position => buffer.cell (buffer.base + position)

/-- The buffer with `bytes` at `address`. -/
def overlay (buffer : Buffer) (address : Nat) (bytes : Bytes) : Buffer :=
  { buffer with
    cell := fun a => (if address ≤ a then bytes[a - address]? else none).or (buffer.cell a) }

/-- The range `[address, address + length)` belongs to the buffer. -/
def Holds (buffer : Buffer) (address length : Nat) : Prop :=
  buffer.base ≤ address ∧ address + length ≤ buffer.base + buffer.size

theorem Holds.part {buffer : Buffer} {address length : Nat} (holds : buffer.Holds address length)
    (offset part : Nat) (inside : offset + part ≤ length) : buffer.Holds (address + offset) part := by
  obtain ⟨above, below⟩ := holds
  exact ⟨by omega, by omega⟩

@[simp] theorem overlay_base (buffer : Buffer) (address : Nat) (bytes : Bytes) :
    (buffer.overlay address bytes).base = buffer.base := rfl

@[simp] theorem overlay_size (buffer : Buffer) (address : Nat) (bytes : Bytes) :
    (buffer.overlay address bytes).size = buffer.size := rfl

@[simp] theorem holds_overlay (buffer : Buffer) (address : Nat) (bytes : Bytes) (start length : Nat) :
    (buffer.overlay address bytes).Holds start length ↔ buffer.Holds start length := Iff.rfl

@[simp] theorem overlay_nil (buffer : Buffer) (address : Nat) : buffer.overlay address [] = buffer := by
  simp [overlay]

theorem overlay_cons (buffer : Buffer) (address : Nat) (byte : UInt8) (bytes : Bytes) :
    buffer.overlay address (byte :: bytes) =
      { buffer with cell := Function.update buffer.cell address (some byte) }.overlay (address + 1) bytes := by
  simp only [overlay, Buffer.mk.injEq, true_and]
  funext a
  rcases Nat.lt_trichotomy a address with below | same | above
  · simp [Nat.not_le.mpr below, Nat.not_le.mpr (Nat.lt_succ_of_lt below), Function.update_of_ne below.ne]
  · simp [same]
  · obtain ⟨k, rfl⟩ := Nat.exists_eq_add_of_lt above
    have moved : address + k + 1 - (address + 1) = k := by omega
    have next : address + k + 1 - address = k + 1 := by omega
    have inside : address ≤ address + k + 1 ∧ address + 1 ≤ address + k + 1 := by omega
    rw [if_pos inside.1, if_pos inside.2, moved, next, List.getElem?_cons_succ, Function.update_of_ne above.ne']

theorem writeBytes_eq {buffer : Buffer} {address : Nat} {bytes : Bytes}
    (holds : buffer.Holds address bytes.length) :
    buffer.writeBytes address bytes = some (buffer.overlay address bytes) := by
  induction bytes generalizing buffer address with
  | nil => simp [writeBytes]
  | cons byte bytes ih =>
    obtain ⟨above, below⟩ := holds
    rw [List.length_cons] at below
    rw [writeBytes, write, if_pos ⟨above, by omega⟩, Option.bind_some, overlay_cons]
    apply ih
    exact ⟨Nat.le_succ_of_le above, by simpa [Nat.add_assoc, Nat.add_comm 1] using below⟩

theorem overlay_append (buffer : Buffer) (address : Nat) (first second : Bytes) :
    buffer.overlay address (first ++ second) =
      (buffer.overlay address first).overlay (address + first.length) second := by
  induction first generalizing buffer address with
  | nil => simp
  | cons byte first ih =>
    rw [List.cons_append, overlay_cons, overlay_cons, ih, List.length_cons, Nat.add_right_comm, Nat.add_assoc]

/-- Writes to disjoint ranges commute. -/
theorem overlay_comm (buffer : Buffer) (address other : Nat) (first second : Bytes)
    (apart : address + first.length ≤ other ∨ other + second.length ≤ address) :
    (buffer.overlay address first).overlay other second =
      (buffer.overlay other second).overlay address first := by
  simp only [overlay, Buffer.mk.injEq, true_and]
  funext a
  -- At most one of the two ranges has a byte for this address.
  have single : (if address ≤ a then first[a - address]? else none) = none ∨
      (if other ≤ a then second[a - other]? else none) = none := by
    rcases apart with before | after
    · by_cases inside : other ≤ a
      · left
        split
        · exact List.getElem?_eq_none (by omega)
        · rfl
      · right
        exact if_neg inside
    · by_cases inside : address ≤ a
      · right
        split
        · exact List.getElem?_eq_none (by omega)
        · rfl
      · left
        exact if_neg inside
  rcases single with none_first | none_second
  · simp [none_first]
  · simp [none_second]

theorem contents_overlay {buffer : Buffer} {bytes : Bytes} (size : buffer.size = bytes.length) :
    (buffer.overlay buffer.base bytes).contents = bytes.map some := by
  apply List.ext_getElem
  · simp [contents, size]
  · intro position _ bound
    simp [contents, overlay]

end Buffer

end Xpl.Library
