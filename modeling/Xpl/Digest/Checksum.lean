import Xpl.Library.Blocks
import Xpl.Library.Bytes

/-! The buffered checksums of gchecksum.c over block functions that stay open: `transform`
takes a chaining value and a block. -/

set_option autoImplicit false

namespace Xpl.Digest
open Xpl.Library

inductive ByteOrder where
  | little | big
  deriving DecidableEq, Repr

def hostWord (order : ByteOrder) (bytes : Bytes) : UInt32 :=
  match order with
  | .little => UInt32.ofNat (leValue bytes)
  | .big => UInt32.ofNat (leValue bytes.reverse)

def hostBytes (order : ByteOrder) (word : UInt32) : Bytes :=
  match order with
  | .little => leBytes 4 word.toNat
  | .big => (leBytes 4 word.toNat).reverse

def hostWords (order : ByteOrder) : Bytes → List UInt32
  | b0 :: b1 :: b2 :: b3 :: rest => hostWord order [b0, b1, b2, b3] :: hostWords order rest
  | _ => []

/-- The first words of a buffer with their bytes in the other order. -/
def reverseWords : Nat → Bytes → Bytes
  | longs + 1, b0 :: b1 :: b2 :: b3 :: rest => b3 :: b2 :: b1 :: b0 :: reverseWords longs rest
  | _, buffer => buffer

def md5ByteReverse (order : ByteOrder) (buffer : Bytes) (length : Nat) : Bytes :=
  match order with
  | .little => buffer
  | .big => reverseWords length buffer

def shaByteReverse (order : ByteOrder) (buffer : Bytes) (length : Nat) : Bytes :=
  match order with
  | .little => reverseWords (length / 4) buffer
  | .big => buffer

/-! ## MD5 and SHA-1 -/

/-- `Md5sum` and `Sha1sum`: `bits` is kept in two words, low word first. -/
structure Sum (size : Nat) where
  buf : Vector UInt32 size
  bits0 : UInt32
  bits1 : UInt32
  data : Bytes
  digest : Bytes
  deriving DecidableEq, Repr

abbrev Md5sum := Sum 4
abbrev Sha1sum := Sum 5

namespace Sum
variable {size : Nat}

def wholeBlocks (block : Sum size → Sum size) (s : Sum size) (input : Bytes) : Sum size :=
  if 64 ≤ input.length then wholeBlocks block (block { s with data := splice s.data 0 (input.take 64) }) (input.drop 64)
  else { s with data := splice s.data 0 input }
  termination_by input.length
  decreasing_by
    rw [List.length_drop]
    omega

def count (s : Sum size) (length : Nat) : Sum size :=
  let low := s.bits0 + UInt32.ofNat length <<< 3
  let carried := if low < s.bits0 then s.bits1 + 1 else s.bits1
  { s with bits0 := low, bits1 := carried + UInt32.ofNat (length >>> 29) }

/-- `md5_sum_update` and `sha1_sum_update` but for the treatment of a full block. -/
def update (block : Sum size → Sum size) (s : Sum size) (input : Bytes) : Sum size :=
  let used := ((s.bits0 >>> 3) &&& 0x3f).toNat
  let s := s.count input.length
  if used ≠ 0 then
    let free := 64 - used
    if input.length < free then { s with data := splice s.data used input }
    else wholeBlocks block (block { s with data := splice s.data used (input.take free) }) (input.drop free)
  else wholeBlocks block s input

/-- The padding up to the last eight bytes of a block. -/
def padded (block : Sum size → Sum size) (s : Sum size) : Sum size :=
  let used := ((s.bits0 >>> 3) &&& 0x3f).toNat
  let marked := splice s.data used [0x80]
  let count := 64 - 1 - used
  if count < 8 then
    let s := block { s with data := splice marked (used + 1) (List.replicate count 0) }
    { s with data := splice s.data 0 (List.replicate (64 - 8) 0) }
  else { s with data := splice marked (used + 1) (List.replicate (count - 8) 0) }

/-- `md5_sum_close` and `sha1_sum_close` but for the last block and the order of the digest's bytes. -/
def close (block last : Sum size → Sum size) (digest : Vector UInt32 size → Bytes) (s : Sum size) : Sum size :=
  let s := last (s.padded block)
  { s with digest := digest s.buf, buf := Vector.replicate size 0, data := List.replicate 64 0 }

end Sum

section Md5

variable (order : ByteOrder) (md5Transform : Vector UInt32 4 → List UInt32 → Vector UInt32 4)

def md5SumInit (s : Md5sum) : Md5sum :=
  { s with buf := #v[0x67452301, 0xefcdab89, 0x98badcfe, 0x10325476], bits0 := 0, bits1 := 0 }

def md5Block (s : Md5sum) : Md5sum :=
  let data := md5ByteReverse order s.data 16
  { s with data, buf := md5Transform s.buf (hostWords order data) }

def md5LastBlock (s : Md5sum) : Md5sum :=
  let data := splice (md5ByteReverse order s.data 14) 56 (hostBytes order s.bits0 ++ hostBytes order s.bits1)
  { s with data, buf := md5Transform s.buf (hostWords order data) }

def md5SumUpdate (s : Md5sum) (data : Bytes) : Md5sum := s.update (md5Block order md5Transform) data

def md5SumClose (s : Md5sum) : Md5sum :=
  s.close (md5Block order md5Transform) (md5LastBlock order md5Transform)
    (fun buf => md5ByteReverse order (buf.toList.flatMap (hostBytes order)) 4)

end Md5

section Sha1

variable (order : ByteOrder) (sha1Transform : Vector UInt32 5 → List UInt32 → Vector UInt32 5)

def sha1SumInit (s : Sha1sum) : Sha1sum :=
  { s with buf := #v[0x67452301, 0xEFCDAB89, 0x98BADCFE, 0x10325476, 0xC3D2E1F0], bits0 := 0, bits1 := 0 }

def sha1Block (s : Sha1sum) : Sha1sum :=
  let data := shaByteReverse order s.data 64
  { s with data, buf := sha1Transform s.buf (hostWords order data) }

def sha1LastBlock (s : Sha1sum) : Sha1sum :=
  let data := shaByteReverse order (splice s.data 56 (hostBytes order s.bits1 ++ hostBytes order s.bits0)) 56
  { s with data, buf := sha1Transform s.buf (hostWords order data) }

def sha1SumUpdate (s : Sha1sum) (buffer : Bytes) : Sha1sum := s.update (sha1Block order sha1Transform) buffer

def sha1SumClose (s : Sha1sum) : Sha1sum :=
  s.close (sha1Block order sha1Transform) (sha1LastBlock order sha1Transform)
    (fun buf => shaByteReverse order (buf.toList.flatMap (hostBytes order)) 20)

end Sha1

/-! ## SHA-384 and SHA-512 -/

structure Sha512sum where
  H : Vector UInt64 8
  block : Bytes
  blockLen : UInt8
  dataLen0 : UInt64
  dataLen1 : UInt64
  digest : Bytes
  deriving DecidableEq, Repr

def putUint64 (n : UInt64) : Bytes :=
  [(n >>> 56).toUInt8, (n >>> 48).toUInt8, (n >>> 40).toUInt8, (n >>> 32).toUInt8,
   (n >>> 24).toUInt8, (n >>> 16).toUInt8, (n >>> 8).toUInt8, n.toUInt8]

section Sha512

variable (sha512Transform : Vector UInt64 8 → Bytes → Vector UInt64 8)

def sha384SumInit (s : Sha512sum) : Sha512sum :=
  { s with
    H := #v[0xcbbb9d5dc1059ed8, 0x629a292a367cd507, 0x9159015a3070dd17, 0x152fecd8f70e5939,
            0x67332667ffc00b31, 0x8eb44a8768581511, 0xdb0c2e0d64f98fa7, 0x47b5481dbefa4fa4]
    blockLen := 0, dataLen0 := 0, dataLen1 := 0 }

def sha512SumInit (s : Sha512sum) : Sha512sum :=
  { s with
    H := #v[0x6a09e667f3bcc908, 0xbb67ae8584caa73b, 0x3c6ef372fe94f82b, 0xa54ff53a5f1d36f1,
            0x510e527fade682d1, 0x9b05688c2b3e6c1f, 0x1f83d9abfb41bd6b, 0x5be0cd19137e2179]
    blockLen := 0, dataLen0 := 0, dataLen1 := 0 }

def sha512Complete (s : Sha512sum) (input : Bytes) : Sha512sum :=
  if 128 ≤ input.length then
    let block := splice s.block 0 (input.take 128)
    sha512Complete { s with block, H := sha512Transform s.H block } (input.drop 128)
  else if 0 < input.length then
    { s with block := splice s.block 0 input, blockLen := UInt8.ofNat input.length }
  else s
  termination_by input.length
  decreasing_by
    rw [List.length_drop]
    omega

/-- Fill the current block, as far as the input goes. -/
def sha512Fill (s : Sha512sum) (part : Bytes) : Sha512sum :=
  let s := { s with block := splice s.block s.blockLen.toNat part, blockLen := s.blockLen + UInt8.ofNat part.length }
  if s.blockLen = 128 then { s with H := sha512Transform s.H s.block, blockLen := 0 } else s

def sha512SumUpdate (s : Sha512sum) (buffer : Bytes) : Sha512sum :=
  if buffer.length = 0 then s
  else
    let low := s.dataLen0 + UInt64.ofNat buffer.length * 8
    let s := { s with dataLen0 := low, dataLen1 := if low < UInt64.ofNat buffer.length then s.dataLen1 + 1 else s.dataLen1 }
    let blockLeft := 128 - s.blockLen.toNat
    if 0 < blockLeft then
      let fillLen := min blockLeft buffer.length
      sha512Complete sha512Transform (sha512Fill sha512Transform s (buffer.take fillLen)) (buffer.drop fillLen)
    else sha512Complete sha512Transform s buffer

def sha512Zeros (blockLen : UInt8) : Nat :=
  let l : Int := blockLen.toNat * 8
  let zeros := 896 - (l + 1)
  let zeros := if zeros < 0 then zeros + 128 * 8 else zeros
  ((zeros - 7).tdiv 8).toNat

def sha512SumClose (s : Sha512sum) : Sha512sum :=
  let zeros := sha512Zeros s.blockLen
  let pad := splice (List.replicate 256 0) 0 [0x80]
  let pad := splice pad 1 (List.replicate zeros 0)
  let pad := splice pad (1 + zeros) (putUint64 s.dataLen1)
  let pad := splice pad (1 + zeros + 8) (putUint64 s.dataLen0)
  let s := sha512SumUpdate sha512Transform s (pad.take (1 + zeros + 8 + 8))
  { s with digest := s.H.toList.flatMap putUint64 }

end Sha512

/-! ## Any of them -/

inductive ChecksumType where
  | md5 | sha1 | sha384 | sha512
  deriving DecidableEq, Repr

/-- The type and the member of the union that it selects. -/
inductive ChecksumSum where
  | md5 (sum : Md5sum)
  | sha1 (sum : Sha1sum)
  | sha384 (sum : Sha512sum)
  | sha512 (sum : Sha512sum)
  deriving DecidableEq, Repr

structure Checksum where
  digestStr : Option Bytes
  sum : ChecksumSum
  deriving DecidableEq, Repr

/-- The block functions, and the byte order of the host. -/
structure Transforms where
  order : ByteOrder
  md5 : Vector UInt32 4 → List UInt32 → Vector UInt32 4
  sha1 : Vector UInt32 5 → List UInt32 → Vector UInt32 5
  sha512 : Vector UInt64 8 → Bytes → Vector UInt64 8

def hexDigits : Bytes := "0123456789abcdef".toList.map fun c => UInt8.ofNat c.toNat

def digestToString (digest : Bytes) : Bytes :=
  digest.flatMap fun (byte : UInt8) => [hexDigits.getD (byte >>> 4).toNat 0, hexDigits.getD (byte &&& 0xf).toNat 0]

def xchecksumNew (type : ChecksumType) : Checksum :=
  let zeroed (size : Nat) : Sum size :=
    { buf := Vector.replicate size 0, bits0 := 0, bits1 := 0, data := List.replicate 64 0, digest := [] }
  let zeroed512 : Sha512sum :=
    { H := Vector.replicate 8 0, block := List.replicate 128 0, blockLen := 0, dataLen0 := 0, dataLen1 := 0, digest := [] }
  { digestStr := none
    sum :=
      match type with
      | .md5 => .md5 (md5SumInit (zeroed 4))
      | .sha1 => .sha1 (sha1SumInit (zeroed 5))
      | .sha384 => .sha384 (sha384SumInit zeroed512)
      | .sha512 => .sha512 (sha512SumInit zeroed512) }

def xchecksumCopy (checksum : Checksum) : Checksum := { checksum with digestStr := checksum.digestStr }

section

variable (t : Transforms)

def ChecksumSum.update (sum : ChecksumSum) (data : Bytes) : ChecksumSum :=
  match sum with
  | .md5 s => .md5 (md5SumUpdate t.order t.md5 s data)
  | .sha1 s => .sha1 (sha1SumUpdate t.order t.sha1 s data)
  | .sha384 s => .sha384 (sha512SumUpdate t.sha512 s data)
  | .sha512 s => .sha512 (sha512SumUpdate t.sha512 s data)

def ChecksumSum.close (sum : ChecksumSum) : ChecksumSum :=
  match sum with
  | .md5 s => .md5 (md5SumClose t.order t.md5 s)
  | .sha1 s => .sha1 (sha1SumClose t.order t.sha1 s)
  | .sha384 s => .sha384 (sha512SumClose t.sha512 s)
  | .sha512 s => .sha512 (sha512SumClose t.sha512 s)

def ChecksumSum.digest : ChecksumSum → Bytes
  | .md5 s => s.digest.take 16
  | .sha1 s => s.digest.take 20
  | .sha384 s => s.digest.take 48
  | .sha512 s => s.digest.take 64

/-- A checksum that has been closed is left alone. -/
def xchecksumUpdate (checksum : Checksum) (data : Bytes) : Checksum :=
  match checksum.digestStr with
  | some _ => checksum
  | none => { checksum with sum := checksum.sum.update t data }

def xchecksumGetDigest (checksum : Checksum) : Checksum × Bytes :=
  match checksum.digestStr with
  | some _ => (checksum, checksum.sum.digest)
  | none =>
    let sum := checksum.sum.close t
    ({ digestStr := some (digestToString sum.digest), sum }, sum.digest)

end

/-! ## The chaining values of the standards -/

def md5Start : Vector UInt32 4 := #v[0x67452301, 0xefcdab89, 0x98badcfe, 0x10325476]

def sha1Start : Vector UInt32 5 := #v[0x67452301, 0xEFCDAB89, 0x98BADCFE, 0x10325476, 0xC3D2E1F0]

def sha384Start : Vector UInt64 8 :=
  #v[0xcbbb9d5dc1059ed8, 0x629a292a367cd507, 0x9159015a3070dd17, 0x152fecd8f70e5939,
     0x67332667ffc00b31, 0x8eb44a8768581511, 0xdb0c2e0d64f98fa7, 0x47b5481dbefa4fa4]

def sha512Start : Vector UInt64 8 :=
  #v[0x6a09e667f3bcc908, 0xbb67ae8584caa73b, 0x3c6ef372fe94f82b, 0xa54ff53a5f1d36f1,
     0x510e527fade682d1, 0x9b05688c2b3e6c1f, 0x1f83d9abfb41bd6b, 0x5be0cd19137e2179]

/-! What the buffered checksums keep of the bytes that they were given: the chaining value
after the whole blocks, the bytes behind them and the count. -/

namespace Sum

variable {size : Nat} {block : Sum size → Sum size} {compress : Vector UInt32 size → Bytes → Vector UInt32 size}

def bitCount (s : Sum size) : Nat := s.bits0.toNat + 2 ^ 32 * s.bits1.toNat

/-- The treatment of a full block: a compression that touches nothing but the block. -/
structure Compresses (block : Sum size → Sum size) (compress : Vector UInt32 size → Bytes → Vector UInt32 size) : Prop where
  buf : ∀ s, s.data.length = 64 → (block s).buf = compress s.buf s.data
  data : ∀ s, s.data.length = 64 → (block s).data.length = 64
  bits0 : ∀ s, (block s).bits0 = s.bits0
  bits1 : ∀ s, (block s).bits1 = s.bits1

/-- The checksum has consumed `message` on top of the chaining value `start`. -/
structure Holds (compress : Vector UInt32 size → Bytes → Vector UInt32 size) (start : Vector UInt32 size) (s : Sum size)
    (message : Bytes) : Prop where
  buf : s.buf = (absorb compress 64 start message).1
  data : s.data.length = 64
  held : s.data.take (message.length % 64) = (absorb compress 64 start message).2
  bits : s.bitCount = 8 * message.length % 2 ^ 64

theorem bitCount_count (s : Sum size) (length : Nat) :
    (s.count length).bitCount = (s.bitCount + 8 * length) % 2 ^ 64 := by
  have b0 := s.bits0.toNat_lt
  have added : (UInt32.ofNat length <<< 3).toNat = 8 * length % 2 ^ 32 := by
    rw [UInt32.toNat_shiftLeft, UInt32.toNat_ofNat', show (3 : UInt32).toNat % 32 = 3 from rfl, Nat.shiftLeft_eq]
    omega
  have low : (s.bits0 + UInt32.ofNat length <<< 3).toNat = (s.bits0.toNat + 8 * length % 2 ^ 32) % 2 ^ 32 := by
    rw [UInt32.toNat_add, added]
  have high : (UInt32.ofNat (length >>> 29)).toNat = length / 2 ^ 29 % 2 ^ 32 := by
    rw [UInt32.toNat_ofNat', Nat.shiftRight_eq_div_pow]
  have one : (1 : UInt32).toNat = 1 := rfl
  unfold bitCount count
  dsimp only
  split
  case isTrue less =>
    rw [UInt32.lt_iff_toNat_lt, low] at less
    rw [low, UInt32.toNat_add, UInt32.toNat_add, high, one]
    omega
  case isFalse more =>
    rw [UInt32.lt_iff_toNat_lt, low] at more
    rw [low, UInt32.toNat_add, high]
    omega

variable {s : Sum size}

/-- The bytes in the block are counted by the low word. -/
theorem used_eq {length : Nat} (bits : s.bitCount = 8 * length % 2 ^ 64) :
    ((s.bits0 >>> 3) &&& 0x3f).toNat = length % 64 := by
  unfold bitCount at bits
  rw [UInt32.toNat_and, UInt32.toNat_shiftRight, show (3 : UInt32).toNat % 32 = 3 from rfl,
    show (0x3f : UInt32).toNat = 2 ^ 6 - 1 from rfl, Nat.and_two_pow_sub_one_eq_mod, Nat.shiftRight_eq_div_pow]
  omega

theorem wholeBlocks_spec (compresses : Compresses block compress) (s : Sum size) (input : Bytes) (whole : s.data.length = 64) :
    (wholeBlocks block s input).buf = (absorb compress 64 s.buf input).1 ∧
      (wholeBlocks block s input).data.length = 64 ∧
      (wholeBlocks block s input).data.take (input.length % 64) = (absorb compress 64 s.buf input).2 ∧
      (wholeBlocks block s input).bitCount = s.bitCount := by
  fun_induction wholeBlocks block s input with
  | case1 s input more ih =>
    have full : (input.take 64).length = 64 := by
      rw [List.length_take]
      omega
    have filled : splice s.data 0 (input.take 64) = input.take 64 := by
      rw [splice_to_end (by omega)]
      rfl
    rw [filled] at ih ⊢
    obtain ⟨buf, length, held, bits⟩ := ih (compresses.data _ full)
    have consumed : absorb compress 64 s.buf input = absorb compress 64 (compress s.buf (input.take 64)) (input.drop 64) := by
      conv => lhs; rw [← List.take_append_drop 64 input]
      exact absorb_block (by decide) full
    have rest : (input.drop 64).length % 64 = input.length % 64 := by
      rw [List.length_drop]
      omega
    rw [compresses.buf _ full] at buf held
    rw [rest] at held
    rw [consumed]
    refine ⟨buf, length, held, bits.trans ?_⟩
    unfold bitCount
    rw [compresses.bits0, compresses.bits1]
  | case2 s input fewer =>
    have few : input.length < 64 := by omega
    rw [absorb_short few, Nat.mod_eq_of_lt few]
    have room : 0 + input.length ≤ s.data.length := by omega
    have kept := take_splice room
    rw [Nat.zero_add] at kept
    exact ⟨rfl, (length_splice room).trans whole, kept, rfl⟩

theorem holds_wholeBlocks (compresses : Compresses block compress) {start : Vector UInt32 size}
    {message rest : Bytes} (whole : s.data.length = 64)
    (consumed : absorb compress 64 start message = absorb compress 64 s.buf rest)
    (boundary : message.length % 64 = rest.length % 64) (counted : s.bitCount = 8 * message.length % 2 ^ 64) :
    (wholeBlocks block s rest).Holds compress start message := by
  obtain ⟨buf, data, held, bits⟩ := wholeBlocks_spec compresses s rest whole
  rw [← consumed] at buf held
  rw [← boundary] at held
  exact ⟨buf, data, held, bits.trans counted⟩

theorem Holds.update (compresses : Compresses block compress) {start : Vector UInt32 size} {message : Bytes}
    (h : s.Holds compress start message) (input : Bytes) :
    (s.update block input).Holds compress start (message ++ input) := by
  have used := used_eq h.bits
  have left := length_absorb compress (by decide : 0 < 64) start message
  have counted : (s.count input.length).bitCount = 8 * (message ++ input).length % 2 ^ 64 := by
    rw [bitCount_count, h.bits, List.length_append, Nat.mod_add_mod, Nat.mul_add]
  have whole : (s.count input.length).data.length = 64 := h.data
  unfold Sum.update
  dsimp only
  rw [used]
  split
  case isTrue some_held =>
    split
    case isTrue few =>
      -- the block does not fill up
      have room : message.length % 64 + input.length ≤ s.data.length := by
        rw [h.data]
        omega
      have waiting : ((absorb compress 64 start message).2 ++ input).length < 64 := by
        rw [List.length_append, left]
        omega
      have total : (message ++ input).length % 64 = message.length % 64 + input.length := by
        rw [List.length_append]
        omega
      have consumed := absorb_append compress 64 start message input
      rw [absorb_short waiting] at consumed
      refine ⟨?_, (length_splice room).trans h.data, ?_, counted⟩
      · rw [consumed]
        exact h.buf
      · rw [total, consumed, ← h.held]
        exact take_splice room
    case isFalse enough =>
      have part : (input.take (64 - message.length % 64)).length = 64 - message.length % 64 := by
        rw [List.length_take]
        omega
      have filled : splice s.data (message.length % 64) (input.take (64 - message.length % 64)) =
          (absorb compress 64 start message).2 ++ input.take (64 - message.length % 64) := by
        rw [splice_to_end (by rw [h.data]; omega), h.held]
      have full : ((absorb compress 64 start message).2 ++ input.take (64 - message.length % 64)).length = 64 := by
        rw [List.length_append, left, part]
        omega
      change (wholeBlocks block (block { s.count input.length with
        data := splice s.data (message.length % 64) (input.take (64 - message.length % 64)) }) _).Holds compress start _
      rw [filled]
      apply holds_wholeBlocks compresses
      · exact compresses.data _ full
      · rw [compresses.buf _ full]
        conv => lhs; rw [← List.take_append_drop (64 - message.length % 64) input]
        rw [absorb_append, ← List.append_assoc, absorb_block (by decide) full]
        exact congrArg (fun buf => absorb compress 64 (compress buf _) _) h.buf.symm
      · rw [List.length_append, List.length_drop]
        omega
      · unfold bitCount
        rw [compresses.bits0, compresses.bits1]
        exact counted
  case isFalse none_held =>
    have empty : (absorb compress 64 start message).2 = [] := List.eq_nil_of_length_eq_zero (by omega)
    apply holds_wholeBlocks compresses whole
    · rw [absorb_append, empty, List.nil_append]
      exact congrArg (fun buf => absorb compress 64 buf input) h.buf.symm
    · rw [List.length_append]
      omega
    · exact counted

end Sum

/-! The last blocks of MD5 and SHA-1: the padding of the standards and the order of the bytes. -/

/-- How many zeros make the length of a message, its mark and its length field a multiple of the block size. -/
def zeroCount (size field length : Nat) : Nat := (2 * size - 1 - field - length % size) % size

/-- The message as the standards pad it: a mark, zeros, and its length in bits. -/
def paddedMessage (size : Nat) (field message : Bytes) : Bytes :=
  message ++ ([0x80] ++ List.replicate (zeroCount size field.length message.length) 0 ++ field)

namespace Sum

variable {size : Nat} {block last : Sum size → Sum size} {compress : Vector UInt32 size → Bytes → Vector UInt32 size}
  {start : Vector UInt32 size} {s : Sum size} {message : Bytes}

theorem padded_spec (compresses : Compresses block compress) (h : s.Holds compress start message) :
    (s.padded block).data.length = 64 ∧ (s.padded block).bits0 = s.bits0 ∧ (s.padded block).bits1 = s.bits1 ∧
      absorb compress 64 start (message ++ ([0x80] ++ List.replicate (zeroCount 64 8 message.length) 0)) =
        ((s.padded block).buf, (s.padded block).data.take 56) := by
  have used := used_eq h.bits
  have left := length_absorb compress (by decide : 0 < 64) start message
  have small := Nat.mod_lt message.length (by decide : 0 < 64)
  have data := h.data
  have zeros : zeroCount 64 8 message.length = (119 - message.length % 64) % 64 := rfl
  have mark : (splice s.data (message.length % 64) [0x80]).length = 64 := by
    rw [length_splice (by rw [h.data]; exact small), h.data]
  have marked : (splice s.data (message.length % 64) [0x80]).take (message.length % 64 + 1) =
      (absorb compress 64 start message).2 ++ [0x80] := by
    have kept := @take_splice _ s.data [0x80] (message.length % 64) (by rw [h.data]; exact small)
    rwa [h.held] at kept
  unfold padded
  dsimp only
  rw [used]
  split
  case isTrue two_blocks =>
    have count : zeroCount 64 8 message.length = 64 - 1 - message.length % 64 + (64 - 8) := by omega
    have filled : splice (splice s.data (message.length % 64) [0x80]) (message.length % 64 + 1)
        (List.replicate (64 - 1 - message.length % 64) 0) =
        (absorb compress 64 start message).2 ++ [0x80] ++ List.replicate (64 - 1 - message.length % 64) 0 := by
      rw [splice_to_end (by rw [mark, List.length_replicate]; omega), marked]
    have full : ((absorb compress 64 start message).2 ++ [0x80] ++
        List.replicate (64 - 1 - message.length % 64) 0).length = 64 := by
      simp only [List.length_append, left, List.length_replicate, List.length_singleton]
      omega
    rw [filled]
    have consumed : absorb compress 64 start (message ++ ([0x80] ++ List.replicate (zeroCount 64 8 message.length) 0)) =
        (compress s.buf ((absorb compress 64 start message).2 ++ [0x80] ++
          List.replicate (64 - 1 - message.length % 64) 0), List.replicate (64 - 8) 0) := by
      rw [absorb_append, count, List.replicate_add, ← List.append_assoc, ← List.append_assoc,
        absorb_block (by decide) full, absorb_short (by rw [List.length_replicate]; decide), h.buf]
    rw [consumed]
    generalize (absorb compress 64 start message).2 ++ [0x80] ++ List.replicate (64 - 1 - message.length % 64) 0 = filling
      at full ⊢
    have data' := compresses.data { s with data := filling } full
    have room : 0 + (List.replicate (64 - 8) (0 : UInt8)).length ≤ (block { s with data := filling }).data.length := by
      rw [data', List.length_replicate]
      decide
    refine ⟨(length_splice room).trans data', compresses.bits0 _, compresses.bits1 _, ?_⟩
    have kept := take_splice room
    rw [List.length_replicate, Nat.zero_add] at kept
    rw [kept, compresses.buf _ full]
    rfl
  case isFalse one_block =>
    have count : zeroCount 64 8 message.length = 64 - 1 - message.length % 64 - 8 := by omega
    have room : message.length % 64 + 1 + (List.replicate (64 - 1 - message.length % 64 - 8) (0 : UInt8)).length ≤
        (splice s.data (message.length % 64) [0x80]).length := by
      rw [mark, List.length_replicate]
      omega
    refine ⟨(length_splice room).trans mark, rfl, rfl, ?_⟩
    have kept := take_splice room
    have stop : message.length % 64 + 1 + (List.replicate (64 - 1 - message.length % 64 - 8) (0 : UInt8)).length = 56 := by
      rw [List.length_replicate]
      omega
    rw [stop, marked] at kept
    have short : ((absorb compress 64 start message).2 ++
        ([0x80] ++ List.replicate (zeroCount 64 8 message.length) 0)).length < 64 := by
      simp only [List.length_append, left, List.length_replicate, List.length_singleton]
      omega
    rw [kept, absorb_append, absorb_short short, count, ← List.append_assoc, h.buf]

/-- The treatment of the last block: the count goes behind the padding. -/
def Finishes (last : Sum size → Sum size) (compress : Vector UInt32 size → Bytes → Vector UInt32 size)
    (field : Nat → Bytes) : Prop :=
  ∀ s, s.data.length = 64 → (last s).buf = compress s.buf (s.data.take 56 ++ field s.bitCount)

theorem close_digest (compresses : Compresses block compress) {field : Nat → Bytes} (finishes : Finishes last compress field)
    (width : ∀ n, (field n).length = 8) (digest : Vector UInt32 size → Bytes) (h : s.Holds compress start message)
    (fits : message.length < 2 ^ 61) :
    (s.close block last digest).digest =
      digest (absorb compress 64 start (paddedMessage 64 (field (8 * message.length)) message)).1 := by
  obtain ⟨data, bits0, bits1, consumed⟩ := padded_spec compresses h
  have bits : (s.padded block).bitCount = 8 * message.length := by
    have counted := h.bits
    unfold bitCount at counted ⊢
    rw [bits0, bits1, counted]
    exact Nat.mod_eq_of_lt (by omega)
  have full : ((s.padded block).data.take 56 ++ field (8 * message.length)).length = 64 := by
    rw [List.length_append, List.length_take, data, width]
    rfl
  unfold Sum.close paddedMessage
  dsimp only
  rw [finishes _ data, bits, width, ← List.append_assoc, absorb_append, consumed, absorb_one (by decide) full]

end Sum

end Xpl.Digest
