import Mathlib.Data.UInt
import Xpl.Collections.ArrayDiscipline
import Xpl.Library.Files

/-! The memory output stream of gmemoryoutputstream.c. Sizes are exact where the source
cannot wrap and reduced to 64 bits where it can; an offset is a signed word. -/

set_option autoImplicit false

namespace Xpl.Streams
open Xpl.Library Xpl.Collections

/-- Arithmetic of `xsize_t`, and a word read as an `xoffset_t`. -/
def wrapSize (n : Nat) : Nat := n % 2 ^ 64

def subSize (a b : Nat) : Nat := (a + (2 ^ 64 - b)) % 2 ^ 64

def toOffset (n : Nat) : Int := if wrapSize n < 2 ^ 63 then wrapSize n else wrapSize n - 2 ^ 64

/-- An `xoffset_t` as an operand of `xsize_t` arithmetic. -/
def toSize (offset : Int) : Nat := (offset % 2 ^ 64).toNat

/-- The codes of `G_IO_ERROR` that are set. -/
inductive ErrorCode where
  | noSpace | invalidArgument
  deriving DecidableEq, Repr

structure StreamError where
  code : ErrorCode
  message : String
  deriving DecidableEq, Repr

/-- A function with the semantics of `realloc`: `none` is `NULL`. -/
abbrev ReallocFunc := Option Block → Nat → Except Stop (Option Block)

/-- `g_realloc`: it frees for the size zero and stops the program when it cannot allocate. -/
def gReallocFunc (process : Process) : ReallocFunc := fun data size =>
  if size = 0 then .ok none else (gRealloc process data size).map some

structure MemoryOutputStream where
  data : Option Block
  len : Nat
  validLen : Nat
  pos : Nat
  reallocFn : Option ReallocFunc

/-- The stream after a call, and what the call returned. -/
abbrev Outcome (α : Type) := Except Stop (MemoryOutputStream × Except StreamError α)

namespace MemoryOutputStream

def new (data : Option Block) (size : Nat) (reallocFunction : Option ReallocFunc) : MemoryOutputStream :=
  { data, len := size, validLen := 0, pos := 0, reallocFn := reallocFunction }

def newResizable (process : Process) : MemoryOutputStream := new none 0 (some (gReallocFunc process))

/-- A store into the block; one that leaves it stops the computation. -/
def memcpy (data : Option Block) (offset : Nat) (source : Bytes) : Except Stop (Option Block) :=
  if source = [] then .ok data
  else
    match data with
    | none => .error .outside
    | some block =>
      if offset + source.length ≤ block.size then
        .ok (some { block with
          byte := fun p => if offset ≤ p then (source[p - offset]?).getD (block.byte p) else block.byte p })
      else .error .outside

/-- `memset (data + start, 0, stop - start)`. -/
def zeroFill (data : Option Block) (start stop : Nat) : Except Stop (Option Block) :=
  match data with
  | none => .error .outside
  | some block =>
    if stop ≤ block.size then
      .ok (some { block with byte := fun p => if start ≤ p ∧ p < stop then 0 else block.byte p })
    else .error .outside

/-- A partial write may go ahead where the buffer cannot grow. -/
def cannotResize (s : MemoryOutputStream) (allowPartial : Bool) (message : String) : Outcome Unit :=
  if allowPartial && s.pos < s.len then .ok (s, .ok ()) else .ok (s, .error ⟨.noSpace, message⟩)

def takeOver (s : MemoryOutputStream) (data : Option Block) (size : Nat) : Outcome Unit :=
  let cleared := if s.len < size then zeroFill data s.len size else .ok data
  match cleared with
  | .error stop => .error stop
  | .ok data => .ok ({ s with data, len := size, validLen := if size < s.validLen then size else s.validLen }, .ok ())

def arrayResize (s : MemoryOutputStream) (size : Nat) (allowPartial : Bool) : Outcome Unit :=
  if s.len = size then .ok (s, .ok ())
  else
    match s.reallocFn with
    | none => s.cannotResize allowPartial "Memory output stream not resizable"
    | some reallocFn =>
      match reallocFn s.data size with
      | .error stop => .error stop
      | .ok data =>
        if 0 < size && data.isNone then s.cannotResize allowPartial "Failed to resize memory output stream"
        else s.takeOver data size

def overflow (s : MemoryOutputStream) : Outcome Nat :=
  .ok (s, .error ⟨.noSpace, "Amount of memory required to process the write is larger than available address space"⟩)

/-- Copy as much as the buffer holds. -/
def store (s : MemoryOutputStream) (buffer : Bytes) : Outcome Nat :=
  let count := min buffer.length (subSize s.len s.pos)
  match memcpy s.data s.pos (buffer.take count) with
  | .error stop => .error stop
  | .ok data =>
    let pos := wrapSize (s.pos + count)
    .ok ({ s with data, pos, validLen := if s.validLen < pos then pos else s.validLen }, .ok count)

/-- Make room, and copy. -/
def growAndStore (s : MemoryOutputStream) (buffer : Bytes) : Outcome Nat :=
  match gNearestPow (wrapSize (s.pos + buffer.length)) with
  | .error stop => .error stop
  | .ok newSize =>
    if newSize = 0 then s.overflow
    else
      match s.arrayResize (max newSize minArraySize) true with
      | .error stop => .error stop
      | .ok (s, .error error) => .ok (s, .error error)
      | .ok (s, .ok ()) => s.store buffer

def write (s : MemoryOutputStream) (buffer : Bytes) : Outcome Nat :=
  if buffer.length = 0 then .ok (s, .ok 0)
  else if s.reallocFn.isSome && wrapSize (s.pos + buffer.length) < s.pos then s.overflow
  else if s.len < wrapSize (s.pos + buffer.length) then s.growAndStore buffer
  else s.store buffer

end MemoryOutputStream

inductive SeekType where
  | cur | set | fromEnd
  deriving DecidableEq, Repr

namespace MemoryOutputStream

/-- The position that an offset is relative to. -/
def seekBase (s : MemoryOutputStream) : SeekType → Nat
  | .cur => s.pos
  | .set => 0
  | .fromEnd => if s.reallocFn.isSome then s.validLen else s.len

def absolute (s : MemoryOutputStream) (offset : Int) : SeekType → Int
  | .set => offset
  | type => toOffset (s.seekBase type + toSize offset)

def seek (s : MemoryOutputStream) (offset : Int) (type : SeekType) : Outcome Unit :=
  let absolute := s.absolute offset type
  if absolute < 0 then .ok (s, .error ⟨.invalidArgument, "Requested seek before the beginning of the stream"⟩)
  else if s.reallocFn.isNone && s.len < toSize absolute then
    .ok (s, .error ⟨.invalidArgument, "Requested seek beyond the end of the stream"⟩)
  else .ok ({ s with pos := toSize absolute }, .ok ())

def truncate (s : MemoryOutputStream) (offset : Int) : Outcome Unit :=
  match s.arrayResize (toSize offset) false with
  | .error stop => .error stop
  | .ok (s, .error error) => .ok (s, .error error)
  | .ok (s, .ok ()) => .ok ({ s with validLen := toSize offset }, .ok ())

end MemoryOutputStream

inductive StreamCall where
  | write (buffer : Bytes)
  | seek (offset : Int) (type : SeekType)
  | truncate (offset : Int)
  deriving DecidableEq, Repr

/-- The result of a call as a count; seeks and truncations count as zero. -/
def MemoryOutputStream.call (s : MemoryOutputStream) : StreamCall → Outcome Nat
  | .write buffer => s.write buffer
  | .seek offset type => (s.seek offset type).map fun (s, result) => (s, result.map fun () => 0)
  | .truncate offset => (s.truncate offset).map fun (s, result) => (s, result.map fun () => 0)

/-- The stream after some calls, and what each of them returned. -/
def MemoryOutputStream.run (s : MemoryOutputStream) : List StreamCall →
    Except Stop (MemoryOutputStream × List (Except StreamError Nat))
  | [] => .ok (s, [])
  | call :: calls =>
    match s.call call with
    | .error stop => .error stop
    | .ok (s, result) => (run s calls).map fun (s, results) => (s, result :: results)

/-! A resizable memory output stream stands for a sparse file. -/

/-! ## Rounding up to a power of two -/

theorem gNearestPow_ok {num : Nat} (positive : 0 < num) (small : num < 2 ^ 63) :
    ∃ power, gNearestPow num = .ok power ∧ num ≤ power ∧ power ≤ 2 ^ 63 := by
  obtain ⟨le₁, lt₁⟩ := @smear_bounds (num - 1) 1 (by omega)
  obtain ⟨le₂, lt₂⟩ := @smear_bounds _ 2 lt₁
  obtain ⟨le₃, lt₃⟩ := @smear_bounds _ 4 lt₂
  obtain ⟨le₄, lt₄⟩ := @smear_bounds _ 8 lt₃
  obtain ⟨le₅, lt₅⟩ := @smear_bounds _ 16 lt₄
  obtain ⟨le₆, lt₆⟩ := @smear_bounds _ 32 lt₅
  refine ⟨smear (smear (smear (smear (smear (smear (num - 1) 1) 2) 4) 8) 16) 32 + 1, ?_, by omega, by omega⟩
  unfold gNearestPow
  rw [if_pos ⟨positive, by unfold gMaxsize; omega⟩, Nat.mod_eq_of_lt (by omega)]

theorem gNearestPow_stops {num : Nat} (large : 2 ^ 63 ≤ num) : gNearestPow num = .error .xerror := by
  exact if_neg fun bounded => by unfold gMaxsize at bounded; omega

/-! ## Blocks -/

/-- The block has `len` bytes, and they are these. -/
def Backs (data : Option Block) (len : Nat) (byte : Nat → UInt8) : Prop :=
  match data with
  | none => len = 0
  | some block => block.size = len ∧ ∀ p < len, block.byte p = byte p

theorem Backs.congr {data : Option Block} {len : Nat} {byte byte' : Nat → UInt8} (backs : Backs data len byte)
    (same : ∀ p < len, byte p = byte' p) : Backs data len byte' := by
  cases data with
  | none => exact backs
  | some block => exact ⟨backs.1, fun p below => (backs.2 p below).trans (same p below)⟩

section Blocks

variable {data : Option Block} {len : Nat} {byte : Nat → UInt8}

/-- `source` in place of the bytes from `offset` on. -/
def overlaid (byte : Nat → UInt8) (offset : Nat) (source : Bytes) (p : Nat) : UInt8 :=
  if offset ≤ p then (source[p - offset]?).getD (byte p) else byte p

theorem memcpy_backs (backs : Backs data len byte) {offset : Nat} {source : Bytes} (inside : offset + source.length ≤ len) :
    ∃ data', MemoryOutputStream.memcpy data offset source = .ok data' ∧ Backs data' len (overlaid byte offset source) := by
  unfold MemoryOutputStream.memcpy
  by_cases empty : source = []
  · refine ⟨data, if_pos empty, ?_⟩
    have same : overlaid byte offset source = byte := by
      funext p
      simp [overlaid, empty]
    rwa [same]
  · have positive := List.length_pos_of_ne_nil empty
    cases data with
    | none =>
      have none_held : len = 0 := backs
      omega
    | some block =>
      obtain ⟨size, bytes⟩ := backs
      refine ⟨some { block with byte := overlaid block.byte offset source }, ?_, size, fun p below => ?_⟩
      · rw [if_neg empty]
        exact if_pos (by omega)
      · simp only [overlaid, bytes p below]

theorem zeroFill_backs {start stop : Nat} (backs : Backs data len byte) (positive : start < stop) (inside : stop ≤ len) :
    ∃ data', MemoryOutputStream.zeroFill data start stop = .ok data' ∧
      Backs data' len (fun p => if start ≤ p ∧ p < stop then 0 else byte p) := by
  cases data with
  | none =>
    have none_held : len = 0 := backs
    omega
  | some block =>
    obtain ⟨size, bytes⟩ := backs
    refine ⟨_, if_pos (by omega), size, fun p below => ?_⟩
    simp only [bytes p below]

theorem gReallocFunc_backs {process : Process} {size : Nat} (serves : process.serves size = true)
    (backs : Backs data len byte) :
    ∃ (data' : Option Block) (fresh : Nat → UInt8), gReallocFunc process data size = .ok data' ∧ (data' = none ↔ size = 0) ∧
      Backs data' size (fun p => if p < len then byte p else fresh p) := by
  unfold gReallocFunc gRealloc
  by_cases zero : size = 0
  · exact ⟨none, byte, if_pos zero, iff_of_true rfl zero, zero⟩
  · rw [if_neg zero, if_pos serves]
    refine ⟨_, process.indeterminate, rfl, iff_of_false (Option.some_ne_none _) zero, rfl, fun p _ => ?_⟩
    cases data with
    | none =>
      have none_held : len = 0 := backs
      exact (if_neg (by omega)).symm
    | some block =>
      obtain ⟨same, bytes⟩ := backs
      simp only [same]
      by_cases kept : p < len
      · rw [if_pos kept, if_pos kept, bytes p kept]
      · rw [if_neg kept, if_neg kept]

end Blocks

namespace MemoryOutputStream

variable {process : Process} {s : MemoryOutputStream} {file : SparseFile UInt8}

/-- The stream stands for the file. What is allocated behind the valid bytes is zero, as the file is there. -/
structure Holds (process : Process) (s : MemoryOutputStream) (file : SparseFile UInt8) : Prop where
  realloc : s.reallocFn = some (gReallocFunc process)
  block : Backs s.data s.len file.byte
  size : s.validLen = file.size
  valid : s.validLen ≤ s.len
  len : s.len ≤ 2 ^ 63
  pos : s.pos = file.position
  position : s.pos ≤ 2 ^ 63

theorem newResizable_holds (process : Process) : (newResizable process).Holds process .empty where
  realloc := rfl
  block := rfl
  size := rfl
  valid := Nat.le_refl 0
  len := Nat.zero_le _
  pos := rfl
  position := Nat.zero_le _

theorem takeOver_ok {data : Option Block} {size : Nat} {byte fresh : Nat → UInt8}
    (backs : Backs data size (fun p => if p < s.len then byte p else fresh p)) :
    ∃ data', s.takeOver data size = .ok ({ s with data := data', len := size, validLen := min size s.validLen }, .ok ()) ∧
      Backs data' size (fun p => if p < s.len then byte p else 0) := by
  have cut : (if size < s.validLen then size else s.validLen) = min size s.validLen := by
    rw [Nat.min_def]
    split <;> split <;> omega
  unfold takeOver
  rw [cut]
  by_cases longer : s.len < size
  · obtain ⟨cleared, filled, zero⟩ := zeroFill_backs backs longer (Nat.le_refl size)
    rw [if_pos longer, filled]
    refine ⟨cleared, rfl, zero.congr fun p below => ?_⟩
    by_cases old : p < s.len
    · rw [if_neg (by omega), if_pos old, if_pos old]
    · rw [if_pos (by omega), if_neg old]
  · rw [if_neg longer]
    refine ⟨data, rfl, backs.congr fun p below => ?_⟩
    rw [if_pos (by omega), if_pos (by omega)]

theorem Holds.resize (serves : ∀ size < 2 ^ 64, process.serves size = true) (h : s.Holds process file) {size : Nat}
    (fits : size ≤ 2 ^ 63) (allowPartial : Bool) :
    ∃ data, s.arrayResize size allowPartial =
        .ok ({ s with data, len := size, validLen := min size s.validLen }, .ok ()) ∧ Backs data size file.byte := by
  have valid := h.valid
  unfold arrayResize
  by_cases same : s.len = size
  · refine ⟨s.data, ?_, same ▸ h.block⟩
    rw [if_pos same, Nat.min_eq_right (by omega), ← same]
  · obtain ⟨data, fresh, grown, null, backs⟩ := gReallocFunc_backs (serves size (by omega)) h.block
    have present : ¬(0 < size && data.isNone) = true := by
      intro missing
      rw [Bool.and_eq_true, decide_eq_true_eq, Option.isNone_iff_eq_none, null] at missing
      omega
    obtain ⟨data', taken, zero⟩ := takeOver_ok backs
    refine ⟨data', ?_, zero.congr fun p below => ?_⟩
    · rw [if_neg same, ← taken, h.realloc]
      dsimp only
      rw [grown]
      exact if_neg present
    · -- the file is zero where the block has grown
      by_cases old : p < s.len
      · exact if_pos old
      · rw [if_neg old, file.zero p (by rw [← h.size]; omega)]

end MemoryOutputStream

/-! Every call on a resizable stream acts on the file that the stream stands for. -/

/-! ## Words -/

theorem wrapSize_of_lt {n : Nat} (small : n < 2 ^ 64) : wrapSize n = n := Nat.mod_eq_of_lt small

theorem subSize_of_le {a b : Nat} (le : b ≤ a) (small : a < 2 ^ 64) : subSize a b = a - b := by
  unfold subSize
  omega

/-- A position and an offset give the sum, or a negative word where it is too large. -/
theorem toOffset_add {base : Nat} {offset : Int} (small : base ≤ 2 ^ 63) (word : -2 ^ 63 ≤ offset ∧ offset < 2 ^ 63) :
    toOffset (base + toSize offset) =
      if base + offset < 2 ^ 63 then (base : Int) + offset else base + offset - 2 ^ 64 := by
  unfold toOffset wrapSize toSize
  split <;> split <;> omega

theorem toSize_of_nonneg {offset : Int} (nonneg : 0 ≤ offset) (small : offset < 2 ^ 63) :
    toSize offset = offset.toNat := by
  unfold toSize
  rw [Int.emod_eq_of_lt nonneg (by omega)]

/-! ## The calls on a file -/

/-- Where an offset leads. -/
def fileTarget (file : SparseFile UInt8) (offset : Int) : SeekType → Int
  | .cur => file.position + offset
  | .set => offset
  | .fromEnd => file.size + offset

/-- A position is a word that is not negative. -/
def fileSeek (file : SparseFile UInt8) (target : Int) : SparseFile UInt8 × Except ErrorCode Nat :=
  if 0 ≤ target ∧ target < 2 ^ 63 then (file.seekTo target.toNat, .ok 0) else (file, .error .invalidArgument)

def fileCall (file : SparseFile UInt8) : StreamCall → SparseFile UInt8 × Except ErrorCode Nat
  | .write buffer => (file.write buffer, .ok buffer.length)
  | .seek offset type => fileSeek file (fileTarget file offset type)
  | .truncate offset => (file.truncate offset.toNat, .ok 0)

def fileRun (file : SparseFile UInt8) : List StreamCall → SparseFile UInt8 × List (Except ErrorCode Nat)
  | [] => (file, [])
  | call :: calls =>
    let after := fileCall file call
    let rest := fileRun after.1 calls
    (rest.1, after.2 :: rest.2)

/-- Counts below 2^62, offsets that are words, truncations that are not negative. -/
def StreamCall.Admissible : StreamCall → Prop
  | .write buffer => buffer.length < 2 ^ 62
  | .seek offset _ => -2 ^ 63 ≤ offset ∧ offset < 2 ^ 63
  | .truncate offset => 0 ≤ offset ∧ offset < 2 ^ 63

instance : DecidablePred StreamCall.Admissible
  | .write buffer => inferInstanceAs (Decidable (buffer.length < 2 ^ 62))
  | .seek offset _ => inferInstanceAs (Decidable (-2 ^ 63 ≤ offset ∧ offset < 2 ^ 63))
  | .truncate offset => inferInstanceAs (Decidable (0 ≤ offset ∧ offset < 2 ^ 63))

namespace MemoryOutputStream
variable {buffer : Bytes}
variable {process : Process} {s : MemoryOutputStream} {file : SparseFile UInt8}

/-- A write that has to grow the buffer ends before the byte 2^63. -/
def Fits (s : MemoryOutputStream) : StreamCall → Prop
  | .write buffer => buffer = [] ∨ s.pos + buffer.length ≤ s.len ∨ s.pos + buffer.length < 2 ^ 63
  | _ => True

instance (s : MemoryOutputStream) : DecidablePred s.Fits
  | .write buffer => inferInstanceAs (Decidable (buffer = [] ∨ s.pos + buffer.length ≤ s.len ∨ s.pos + buffer.length < 2 ^ 63))
  | .seek _ _ | .truncate _ => inferInstanceAs (Decidable True)

/-! ## Writing -/

theorem Holds.store (h : s.Holds process file) (given : buffer ≠ [])
    (inside : s.pos + buffer.length ≤ s.len) :
    ∃ s', s.store buffer = .ok (s', .ok buffer.length) ∧ s'.Holds process (file.write buffer) := by
  have bounded := h.len
  have whole : min buffer.length (subSize s.len s.pos) = buffer.length := by
    rw [subSize_of_le (by omega) (by omega)]
    omega
  obtain ⟨data, stored, backs⟩ := memcpy_backs h.block inside
  have later : (if s.validLen < s.pos + buffer.length then s.pos + buffer.length else s.validLen) =
      max s.validLen (s.pos + buffer.length) := by
    rw [Nat.max_def]
    split <;> split <;> omega
  refine ⟨{ s with data, pos := s.pos + buffer.length, validLen := max s.validLen (s.pos + buffer.length) }, ?_, ?_⟩
  · unfold MemoryOutputStream.store
    dsimp only
    rw [whole, List.take_length, stored, wrapSize_of_lt (by omega)]
    rw [later]
  · have valid := h.valid
    exact {
      realloc := h.realloc
      block := backs.congr fun p _ => by
        rw [SparseFile.byte_write given, ← h.pos]
        rfl
      size := by
        rw [SparseFile.size_write given, ← h.size, ← h.pos]
      valid := by
        dsimp only
        omega
      len := h.len
      pos := by
        rw [SparseFile.position_write given, ← h.pos]
      position := by
        dsimp only
        omega }

theorem Holds.growAndStore (serves : ∀ size < 2 ^ 64, process.serves size = true) (h : s.Holds process file)
    (given : buffer ≠ []) (fits : s.pos + buffer.length < 2 ^ 63) (longer : s.len < s.pos + buffer.length) :
    ∃ s', s.growAndStore buffer = .ok (s', .ok buffer.length) ∧ s'.Holds process (file.write buffer) := by
  obtain ⟨power, rounded, covers, small⟩ := gNearestPow_ok (by omega) fits
  have room : minArraySize ≤ 2 ^ 63 := by decide
  obtain ⟨data, resized, backs⟩ := h.resize serves (max_le small room) true
  have valid := h.valid
  have grown : ({ s with data, len := max power minArraySize, validLen := s.validLen } : MemoryOutputStream).Holds process file :=
    { realloc := h.realloc
      block := backs
      size := h.size
      valid := by
        dsimp only
        omega
      len := max_le small room
      pos := h.pos
      position := h.position }
  obtain ⟨s', stored, holds⟩ := grown.store given (by dsimp only; omega)
  refine ⟨s', ?_, holds⟩
  unfold MemoryOutputStream.growAndStore
  rw [wrapSize_of_lt (by omega), rounded]
  dsimp only
  rw [if_neg (by omega), resized, Nat.min_eq_right (by omega)]
  exact stored

theorem Holds.write (serves : ∀ size < 2 ^ 64, process.serves size = true) (h : s.Holds process file)
    (admissible : buffer.length < 2 ^ 62) (fits : s.Fits (.write buffer)) :
    ∃ s', s.write buffer = .ok (s', .ok buffer.length) ∧ s'.Holds process (file.write buffer) := by
  have position := h.position
  unfold MemoryOutputStream.write
  by_cases empty : buffer = []
  · subst empty
    exact ⟨s, rfl, h⟩
  · have counted : buffer.length ≠ 0 := fun zero => empty (List.length_eq_zero_iff.mp zero)
    rw [if_neg counted, wrapSize_of_lt (by omega), if_neg (by simp)]
    by_cases longer : s.len < s.pos + buffer.length
    · rw [if_pos longer]
      exact h.growAndStore serves empty (by rcases fits with rfl | inside | below <;> first | contradiction | omega) longer
    · rw [if_neg longer]
      exact h.store empty (by omega)

/-- The rounding is asked for more than it can answer. -/
theorem Holds.write_stops (h : s.Holds process file) (admissible : buffer.length < 2 ^ 62)
    (large : ¬s.Fits (.write buffer)) : s.write buffer = .error .xerror := by
  have position := h.position
  obtain ⟨given, outside, beyond⟩ : buffer ≠ [] ∧ ¬s.pos + buffer.length ≤ s.len ∧ ¬s.pos + buffer.length < 2 ^ 63 := by
    simpa only [Fits, not_or] using large
  have counted : buffer.length ≠ 0 := fun zero => given (List.length_eq_zero_iff.mp zero)
  unfold MemoryOutputStream.write MemoryOutputStream.growAndStore
  rw [if_neg counted, wrapSize_of_lt (by omega), if_neg (by simp), if_pos (by omega), gNearestPow_stops (by omega)]

/-! ## Seeking and truncating -/

theorem Holds.seekBase (h : s.Holds process file) (offset : Int) (type : SeekType) :
    fileTarget file offset type = s.seekBase type + offset := by
  cases type with
  | cur => exact congrArg (fun p : Nat => (p : Int) + offset) h.pos.symm
  | set => exact (Int.zero_add _).symm
  | fromEnd =>
    unfold MemoryOutputStream.seekBase fileTarget
    rw [h.realloc, h.size]
    rfl

theorem Holds.seekBase_le (h : s.Holds process file) (type : SeekType) : s.seekBase type ≤ 2 ^ 63 := by
  cases type with
  | cur => exact h.position
  | set => exact Nat.zero_le _
  | fromEnd =>
    unfold MemoryOutputStream.seekBase
    rw [h.realloc]
    exact Nat.le_trans h.valid h.len

theorem Holds.seek (h : s.Holds process file) {offset : Int} (type : SeekType) (word : -2 ^ 63 ≤ offset ∧ offset < 2 ^ 63) :
    ∃ s' result, s.seek offset type = .ok (s', result) ∧ s'.Holds process (fileSeek file (fileTarget file offset type)).1 ∧
      (result.map fun () => 0).mapError StreamError.code = (fileSeek file (fileTarget file offset type)).2 := by
  have bounded := h.seekBase_le type
  have absolute : s.absolute offset type =
      if fileTarget file offset type < 2 ^ 63 then fileTarget file offset type else fileTarget file offset type - 2 ^ 64 := by
    rw [h.seekBase]
    cases type with
    | cur => exact toOffset_add bounded word
    | fromEnd => exact toOffset_add bounded word
    | set =>
      have zero : s.seekBase .set = 0 := rfl
      rw [zero, if_pos (by omega)]
      exact (Int.zero_add _).symm
  have low : -2 ^ 63 ≤ fileTarget file offset type ∧ fileTarget file offset type < 2 ^ 64 := by
    rw [h.seekBase]
    omega
  unfold MemoryOutputStream.seek fileSeek
  rw [absolute]
  generalize fileTarget file offset type = target at low
  by_cases reached : 0 ≤ target ∧ target < 2 ^ 63
  · rw [if_pos reached.2, if_pos reached]
    refine ⟨{ s with pos := target.toNat }, .ok (), ?_, ?_, rfl⟩
    · dsimp only
      rw [if_neg (by omega), h.realloc, toSize_of_nonneg reached.1 reached.2]
      rfl
    · exact { h with pos := rfl, position := by dsimp only; omega }
  · rw [if_neg reached]
    refine ⟨s, _, if_pos ?_, h, rfl⟩
    split <;> omega

theorem Holds.truncate (serves : ∀ size < 2 ^ 64, process.serves size = true) (h : s.Holds process file) {offset : Int}
    (admissible : 0 ≤ offset ∧ offset < 2 ^ 63) :
    ∃ s', s.truncate offset = .ok (s', .ok ()) ∧ s'.Holds process (file.truncate offset.toNat) := by
  obtain ⟨data, resized, backs⟩ := h.resize serves (show offset.toNat ≤ 2 ^ 63 by omega) false
  refine ⟨{ s with data, len := offset.toNat, validLen := offset.toNat }, ?_, ?_⟩
  · unfold MemoryOutputStream.truncate
    rw [toSize_of_nonneg admissible.1 admissible.2, resized]
  · exact {
      realloc := h.realloc
      block := backs.congr fun p below => (if_pos below).symm
      size := rfl
      valid := Nat.le_refl _
      len := by dsimp only; omega
      pos := h.pos
      position := h.position }

end MemoryOutputStream

end Xpl.Streams
