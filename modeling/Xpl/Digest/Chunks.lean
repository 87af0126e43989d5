import Xpl.Digest.Checksum

/-! SHA-384 and SHA-512: the block that is kept between two calls, and the last call. -/

set_option autoImplicit false

namespace Xpl.Digest
open Xpl.Library

namespace Sha512sum

variable {transform : Vector UInt64 8 → Bytes → Vector UInt64 8} {start : Vector UInt64 8} {s : Sha512sum}
  {message input : Bytes}

/-- The checksum has consumed `message` on top of the chaining value `start`. -/
structure Holds (transform : Vector UInt64 8 → Bytes → Vector UInt64 8) (start : Vector UInt64 8) (s : Sha512sum)
    (message : Bytes) : Prop where
  chain : s.H = (absorb transform 128 start message).1
  block : s.block.length = 128
  blockLen : s.blockLen.toNat = message.length % 128
  held : s.block.take s.blockLen.toNat = (absorb transform 128 start message).2

theorem complete_spec (s : Sha512sum) (input : Bytes) (whole : s.block.length = 128) (boundary : s.blockLen = 0)
    (consumed : absorb transform 128 start message = absorb transform 128 s.H input)
    (length : message.length % 128 = input.length % 128) :
    (sha512Complete transform s input).Holds transform start message := by
  fun_induction sha512Complete transform s input with
  | case1 s input more block ih =>
    have full : (input.take 128).length = 128 := by
      rw [List.length_take]
      omega
    have filled : block = input.take 128 := by
      change splice s.block 0 (input.take 128) = _
      rw [splice_to_end (by omega)]
      rfl
    have rest : input.length % 128 = (input.drop 128).length % 128 := by
      rw [List.length_drop]
      omega
    apply ih
    · rw [filled]
      exact full
    · exact boundary
    · rw [filled, consumed]
      conv => lhs; rw [← List.take_append_drop 128 input]
      exact absorb_block (by decide) full
    · exact length.trans rest
  | case2 s input fewer some =>
    have few : input.length < 128 := by omega
    have room : 0 + input.length ≤ s.block.length := by omega
    have kept := take_splice room
    have stored : (UInt8.ofNat input.length).toNat = input.length := by
      rw [UInt8.toNat_ofNat']
      omega
    rw [absorb_short few] at consumed
    rw [Nat.zero_add] at kept
    refine ⟨?_, (length_splice room).trans whole, ?_, ?_⟩
    · rw [consumed]
    · rw [length, Nat.mod_eq_of_lt few]
      exact stored
    · rw [consumed]
      rw [stored, kept]
      rfl
  | case3 s input fewer none =>
    obtain rfl : input = [] := List.eq_nil_of_length_eq_zero (by omega)
    have nothing : absorb transform 128 s.H [] = (s.H, []) := absorb_short (by decide)
    rw [nothing] at consumed
    refine ⟨by rw [consumed], whole, ?_, ?_⟩
    · rw [boundary, length]
      rfl
    · rw [consumed, boundary]
      rfl

theorem Holds.update (h : s.Holds transform start message) (input : Bytes) :
    (sha512SumUpdate transform s input).Holds transform start (message ++ input) := by
  have left := length_absorb transform (by decide : 0 < 128) start message
  have whole := h.block
  have blockLen := h.blockLen
  unfold sha512SumUpdate
  split
  case isTrue empty =>
    obtain rfl : input = [] := List.eq_nil_of_length_eq_zero empty
    rw [List.append_nil]
    exact h
  case isFalse some =>
    dsimp only
    rw [if_pos (by omega)]
    generalize fill : min (128 - s.blockLen.toNat) input.length = fillLen
    have part : (input.take fillLen).length = fillLen := by
      rw [List.length_take]
      omega
    have room : s.blockLen.toNat + (input.take fillLen).length ≤ s.block.length := by omega
    have kept := take_splice room
    have added : (s.blockLen + UInt8.ofNat (input.take fillLen).length).toNat = s.blockLen.toNat + fillLen := by
      rw [UInt8.toNat_add, part, UInt8.toNat_ofNat']
      omega
    have split_input : input = input.take fillLen ++ input.drop fillLen := (List.take_append_drop _ input).symm
    rw [part, h.held] at kept
    unfold sha512Fill
    dsimp only
    split
    case isTrue full =>
      rw [← UInt8.toNat_inj, added] at full
      have reaches : s.blockLen.toNat + fillLen = 128 := full
      have filled : ((absorb transform 128 start message).2 ++ input.take fillLen).length = 128 := by
        rw [List.length_append, left, part]
        omega
      have block : splice s.block s.blockLen.toNat (input.take fillLen) =
          (absorb transform 128 start message).2 ++ input.take fillLen := by
        rw [splice_to_end (by omega), h.held]
      rw [block]
      apply complete_spec
      · exact filled
      · rfl
      · conv => lhs; rw [split_input]
        rw [absorb_append, ← List.append_assoc, absorb_block (by decide) filled, h.chain]
      · rw [List.length_append, List.length_drop]
        omega
    case isFalse partly =>
      have short : s.blockLen.toNat + fillLen ≠ 128 := by
        intro reaches
        apply partly
        rw [← UInt8.toNat_inj, added, reaches]
        rfl
      -- the input ends inside of the block
      have all : fillLen = input.length := by omega
      have none_left : input.drop fillLen = [] := by
        rw [all]
        exact List.drop_length
      have taken : input.take fillLen = input := by
        rw [all]
        exact List.take_length
      have waiting : ((absorb transform 128 start message).2 ++ input).length < 128 := by
        rw [List.length_append, left]
        omega
      have consumed := absorb_append transform 128 start message input
      rw [absorb_short waiting] at consumed
      rw [none_left, sha512Complete, if_neg (by decide), if_neg (by decide)]
      rw [taken] at kept added room ⊢
      refine ⟨?_, (length_splice room).trans whole, ?_, ?_⟩
      · rw [consumed]
        exact h.chain
      · rw [added, List.length_append]
        omega
      · rw [consumed, added]
        exact kept

theorem complete_counts (s : Sha512sum) (input : Bytes) :
    (sha512Complete transform s input).dataLen0 = s.dataLen0 ∧ (sha512Complete transform s input).dataLen1 = s.dataLen1 := by
  fun_induction sha512Complete transform s input with
  | case1 s input more block ih => exact ih
  | case2 s input fewer some => exact ⟨rfl, rfl⟩
  | case3 s input fewer none => exact ⟨rfl, rfl⟩

theorem fill_counts (s : Sha512sum) (part : Bytes) :
    (sha512Fill transform s part).dataLen0 = s.dataLen0 ∧ (sha512Fill transform s part).dataLen1 = s.dataLen1 := by
  unfold sha512Fill
  dsimp only
  split <;> exact ⟨rfl, rfl⟩

theorem update_counts (transform : Vector UInt64 8 → Bytes → Vector UInt64 8) {length : Nat}
    (low : s.dataLen0.toNat = 8 * length) (high : s.dataLen1 = 0) (fits : length + input.length < 2 ^ 61) :
    (sha512SumUpdate transform s input).dataLen0.toNat = 8 * (length + input.length) ∧
      (sha512SumUpdate transform s input).dataLen1 = 0 := by
  have size : (UInt64.ofNat input.length).toNat = input.length := by
    rw [UInt64.toNat_ofNat']
    omega
  have sum : (s.dataLen0 + UInt64.ofNat input.length * 8).toNat = 8 * (length + input.length) := by
    rw [UInt64.toNat_add, UInt64.toNat_mul, size, low, show (8 : UInt64).toNat = 8 from rfl]
    omega
  have no_carry : ¬s.dataLen0 + UInt64.ofNat input.length * 8 < UInt64.ofNat input.length := by
    rw [UInt64.lt_iff_toNat_lt, sum, size]
    omega
  unfold sha512SumUpdate
  split
  case isTrue empty =>
    rw [empty]
    exact ⟨low, high⟩
  case isFalse some =>
    dsimp only
    split
    · rw [(complete_counts _ _).1, (complete_counts _ _).2, (fill_counts _ _).1, (fill_counts _ _).2]
      exact ⟨sum, high⟩
    · rw [(complete_counts _ _).1, (complete_counts _ _).2]
      exact ⟨sum, high⟩

end Sha512sum

theorem putUint64_eq (n : UInt64) : putUint64 n = beBytes 8 n.toNat := by
  have byte (shift : UInt64) (k : Nat) (amount : shift.toNat % 64 = 8 * k) :
      (n >>> shift).toUInt8 = UInt8.ofNat (n.toNat / 256 ^ k % 256) := by
    apply UInt8.toNat_inj.mp
    rw [UInt64.toNat_toUInt8, UInt64.toNat_shiftRight, amount, Nat.shiftRight_eq_div_pow, Nat.pow_mul, UInt8.toNat_ofNat',
      show (2 : Nat) ^ 8 = 256 from rfl]
    omega
  have last : n.toUInt8 = UInt8.ofNat (n.toNat % 256) := by
    apply UInt8.toNat_inj.mp
    rw [UInt64.toNat_toUInt8, UInt8.toNat_ofNat']
    omega
  simp only [putUint64, beBytes, leBytes, Nat.div_div_eq_div_mul, byte 56 7 rfl, byte 48 6 rfl, byte 40 5 rfl,
    byte 32 4 rfl, byte 24 3 rfl, byte 16 2 rfl, byte 8 1 rfl, last]
  rfl

theorem sha512Zeros_eq {blockLen : UInt8} {length : Nat} (same : blockLen.toNat = length % 128) :
    sha512Zeros blockLen = zeroCount 128 16 length := by
  have count : zeroCount 128 16 length = (239 - length % 128) % 128 := rfl
  unfold sha512Zeros
  rw [count, same]
  dsimp only
  split
  · rw [Int.tdiv_eq_ediv_of_nonneg (by omega)]
    omega
  · by_cases last : length % 128 = 111
    · rw [last]
      decide
    · rw [Int.tdiv_eq_ediv_of_nonneg (by omega)]
      omega

/-- The padding is put together in a buffer of zeros. -/
theorem sha512_pad (zeros : Nat) {high low : Bytes} (eight : high.length = 8) (eight' : low.length = 8) :
    (splice (splice (splice (splice (List.replicate 256 (0 : UInt8)) 0 [0x80]) 1 (List.replicate zeros 0)) (1 + zeros) high)
      (1 + zeros + 8) low).take (1 + zeros + 8 + 8) = [0x80] ++ List.replicate zeros 0 ++ (high ++ low) := by
  have one : splice (List.replicate 256 (0 : UInt8)) 0 [0x80] = [0x80] ++ List.replicate 255 0 :=
    splice_replicate [] [0x80] 0 256
  have two : splice ([0x80] ++ List.replicate 255 (0 : UInt8)) 1 (List.replicate zeros 0) =
      [0x80] ++ List.replicate zeros 0 ++ List.replicate (255 - zeros) 0 := by
    have written := splice_replicate [0x80] (List.replicate zeros 0) (0 : UInt8) 255
    rwa [List.length_replicate] at written
  have length : ([0x80] ++ List.replicate zeros (0 : UInt8)).length = 1 + zeros := by
    rw [List.length_append, List.length_replicate]
    rfl
  have three : splice ([0x80] ++ List.replicate zeros 0 ++ List.replicate (255 - zeros) 0) (1 + zeros) high =
      [0x80] ++ List.replicate zeros 0 ++ high ++ List.replicate (255 - zeros - 8) 0 := by
    have written := splice_replicate ([0x80] ++ List.replicate zeros (0 : UInt8)) high 0 (255 - zeros)
    rwa [length, eight] at written
  have length' : ([0x80] ++ List.replicate zeros (0 : UInt8) ++ high).length = 1 + zeros + 8 := by
    rw [List.length_append, length, eight]
  have four : splice ([0x80] ++ List.replicate zeros 0 ++ high ++ List.replicate (255 - zeros - 8) 0) (1 + zeros + 8) low =
      [0x80] ++ List.replicate zeros 0 ++ high ++ low ++ List.replicate (255 - zeros - 8 - 8) 0 := by
    have written := splice_replicate ([0x80] ++ List.replicate zeros (0 : UInt8) ++ high) low 0 (255 - zeros - 8)
    rwa [length', eight'] at written
  rw [one, two, three, four, ← List.append_assoc]
  apply List.take_left'
  rw [List.length_append, length', eight']

namespace Sha512sum

variable {transform : Vector UInt64 8 → Bytes → Vector UInt64 8} {start : Vector UInt64 8} {s : Sha512sum}
  {message : Bytes}

theorem close_digest (h : s.Holds transform start message) (low : s.dataLen0.toNat = 8 * message.length)
    (high : s.dataLen1 = 0) :
    (sha512SumClose transform s).digest =
      (absorb transform 128 start (paddedMessage 128 (beBytes 16 (8 * message.length)) message)).1.toList.flatMap
        (fun word => beBytes 8 word.toNat) := by
  have bound := s.dataLen0.toNat_lt
  have zeros := sha512Zeros_eq h.blockLen
  have few : zeroCount 128 16 message.length < 128 := Nat.mod_lt _ (by decide)
  have field : beBytes 16 (8 * message.length) = putUint64 s.dataLen1 ++ putUint64 s.dataLen0 := by
    have none_above : 8 * message.length / 256 ^ 8 = 0 := Nat.div_eq_of_lt (by omega)
    rw [putUint64_eq, putUint64_eq, low, high, beBytes, leBytes_add _ 8 8, List.reverse_append, none_above]
    rfl
  have pad := @sha512_pad (zeroCount 128 16 message.length) (putUint64 s.dataLen1) (putUint64 s.dataLen0) rfl rfl
  have consumed := (h.update ([0x80] ++ List.replicate (zeroCount 128 16 message.length) 0 ++
    (putUint64 s.dataLen1 ++ putUint64 s.dataLen0))).chain
  have width : (beBytes 16 (8 * message.length)).length = 16 := length_beBytes _ _
  unfold sha512SumClose paddedMessage
  dsimp only
  rw [zeros, pad, width, field, consumed]
  exact congrArg (List.flatMap · _) (funext putUint64_eq)

end Sha512sum

/-! On either kind of host MD5 reads its blocks as little-endian words and SHA-1 as
big-endian ones, and both put their counts and digests out in the same order. -/

section Words
variable {n : Nat} {front : Bytes}
variable {order : ByteOrder}
variable {bytes : Bytes}

theorem hostWord_hostBytes (order : ByteOrder) (word : UInt32) : hostWord order (hostBytes order word) = word := by
  have value : leValue (leBytes 4 word.toNat) = word.toNat := leValue_leBytes 4 word.toNat word.toNat_lt
  cases order <;> simp [hostWord, hostBytes, value]

theorem length_hostBytes (order : ByteOrder) (word : UInt32) : (hostBytes order word).length = 4 * 1 := by
  cases order <;> simp [hostBytes]

theorem four_bytes (four : bytes.length = 4) : ∃ b0 b1 b2 b3, bytes = [b0, b1, b2, b3] := by
  match bytes, four with
  | [b0, b1, b2, b3], _ => exact ⟨b0, b1, b2, b3, rfl⟩

theorem hostWords_hostBytes (order : ByteOrder) (word : UInt32) : hostWords order (hostBytes order word) = [word] := by
  have same := hostWord_hostBytes order word
  obtain ⟨b0, b1, b2, b3, shape⟩ := four_bytes (length_hostBytes order word)
  rw [shape] at same ⊢
  simp [hostWords, same]

theorem hostWords_append (aligned : front.length = 4 * n) (back : Bytes) :
    hostWords order (front ++ back) = hostWords order front ++ hostWords order back := by
  induction n generalizing front with
  | zero =>
    obtain rfl : front = [] := List.eq_nil_of_length_eq_zero aligned
    rfl
  | succ n ih =>
    match front, aligned with
    | b0 :: b1 :: b2 :: b3 :: front, aligned =>
      have shorter : front.length = 4 * n := by
        simp only [List.length_cons] at aligned
        omega
      simp [hostWords, ih shorter]

theorem reverseWords_word (n : Nat) (b0 b1 b2 b3 : UInt8) (rest : Bytes) :
    reverseWords (n + 1) (b0 :: b1 :: b2 :: b3 :: rest) = b3 :: b2 :: b1 :: b0 :: reverseWords n rest := rfl

theorem reverseWords_append (aligned : front.length = 4 * n) (back : Bytes) :
    reverseWords n (front ++ back) = reverseWords n front ++ back := by
  induction n generalizing front with
  | zero =>
    obtain rfl : front = [] := List.eq_nil_of_length_eq_zero aligned
    rfl
  | succ n ih =>
    match front, aligned with
    | b0 :: b1 :: b2 :: b3 :: front, aligned =>
      have shorter : front.length = 4 * n := by
        simp only [List.length_cons] at aligned
        omega
      simp [reverseWords_word, ih shorter]

theorem length_reverseWords (n : Nat) (bytes : Bytes) : (reverseWords n bytes).length = bytes.length := by
  fun_induction reverseWords n bytes with
  | case1 n b0 b1 b2 b3 rest ih => simp [ih]
  | case2 => rfl

theorem hostWords_reverse (aligned : bytes.length = 4 * n) :
    hostWords .big (reverseWords n bytes) = hostWords .little bytes ∧
      hostWords .little (reverseWords n bytes) = hostWords .big bytes := by
  induction n generalizing bytes with
  | zero =>
    obtain rfl : bytes = [] := List.eq_nil_of_length_eq_zero aligned
    exact ⟨rfl, rfl⟩
  | succ n ih =>
    match bytes, aligned with
    | b0 :: b1 :: b2 :: b3 :: rest, aligned =>
      have shorter : rest.length = 4 * n := by
        simp only [List.length_cons] at aligned
        omega
      obtain ⟨big, little⟩ := ih shorter
      exact ⟨congrArg₂ List.cons rfl big, congrArg₂ List.cons rfl little⟩

theorem reverseWords_hostBytes (words : List UInt32) :
    reverseWords words.length (words.flatMap (hostBytes .big)) = words.flatMap (hostBytes .little) ∧
      reverseWords words.length (words.flatMap (hostBytes .little)) = words.flatMap (hostBytes .big) := by
  induction words with
  | nil => exact ⟨rfl, rfl⟩
  | cons word words ih =>
    obtain ⟨b0, b1, b2, b3, shape⟩ := four_bytes (length_hostBytes .little word)
    have other : hostBytes .big word = [b3, b2, b1, b0] := by
      change (leBytes 4 word.toNat).reverse = _
      rw [show leBytes 4 word.toNat = [b0, b1, b2, b3] from shape]
      rfl
    simp only [List.flatMap_cons, List.length_cons, shape, other, List.cons_append, List.nil_append, reverseWords_word, ih.1, ih.2,
      and_self]

theorem md5ByteReverse_words (aligned : bytes.length = 4 * n) :
    hostWords order (md5ByteReverse order bytes n) = hostWords .little bytes := by
  cases order
  · rfl
  · exact (hostWords_reverse aligned).1

theorem shaByteReverse_words {n : Nat} {bytes : Bytes} (aligned : bytes.length = 4 * n) :
    hostWords order (shaByteReverse order bytes (4 * n)) = hostWords .big bytes := by
  cases order
  · unfold shaByteReverse
    rw [Nat.mul_div_cancel_left n (by decide)]
    exact (hostWords_reverse aligned).2
  · rfl

theorem md5ByteReverse_append (aligned : front.length = 4 * n) (back : Bytes) :
    md5ByteReverse order (front ++ back) n = md5ByteReverse order front n ++ back := by
  cases order
  · rfl
  · exact reverseWords_append aligned back

theorem shaByteReverse_append (aligned : front.length = 4 * n) (back : Bytes) :
    shaByteReverse order (front ++ back) (4 * n) = shaByteReverse order front (4 * n) ++ back := by
  cases order
  · unfold shaByteReverse
    rw [Nat.mul_div_cancel_left n (by decide)]
    exact reverseWords_append aligned back
  · rfl

theorem length_md5ByteReverse (n : Nat) (bytes : Bytes) : (md5ByteReverse order bytes n).length = bytes.length := by
  cases order
  · rfl
  · exact length_reverseWords n bytes

theorem length_shaByteReverse (n : Nat) (bytes : Bytes) : (shaByteReverse order bytes n).length = bytes.length := by
  cases order
  · exact length_reverseWords (n / 4) bytes
  · rfl

theorem leBytes_words (low high : UInt32) :
    hostBytes .little low ++ hostBytes .little high = leBytes 8 (low.toNat + 2 ^ 32 * high.toNat) := by
  have small := low.toNat_lt
  have upper : (low.toNat + 2 ^ 32 * high.toNat) / 256 ^ 4 = high.toNat := by omega
  rw [leBytes_add _ 4 4, upper, show (2 : Nat) ^ 32 = 256 ^ 4 from rfl, leBytes_add_mul]
  rfl

end Words

section Md5

variable (order : ByteOrder) (md5Transform : Vector UInt32 4 → List UInt32 → Vector UInt32 4)

def md5Compress (h : Vector UInt32 4) (block : Bytes) : Vector UInt32 4 := md5Transform h (hostWords .little block)

theorem md5Block_compresses : Sum.Compresses (md5Block order md5Transform) (md5Compress md5Transform) where
  buf s whole := congrArg (md5Transform s.buf) (md5ByteReverse_words whole)
  data s whole := (length_md5ByteReverse 16 s.data).trans whole
  bits0 _ := rfl
  bits1 _ := rfl

theorem md5LastBlock_finishes :
    Sum.Finishes (md5LastBlock order md5Transform) (md5Compress md5Transform) (leBytes 8) := by
  intro s whole
  have front : (s.data.take 56).length = 4 * 14 := by
    rw [List.length_take, whole]
    rfl
  have reversed : (md5ByteReverse order s.data 14).take 56 = md5ByteReverse order (s.data.take 56) 14 := by
    conv => lhs; rw [← List.take_append_drop 56 s.data]
    rw [md5ByteReverse_append front]
    apply List.take_left'
    rw [length_md5ByteReverse, front]
  have field : (hostBytes order s.bits0 ++ hostBytes order s.bits1).length = 8 := by
    rw [List.length_append, length_hostBytes, length_hostBytes]
  have aligned : (md5ByteReverse order (s.data.take 56) 14).length = 4 * 14 := by
    rw [length_md5ByteReverse, front]
  change md5Transform s.buf (hostWords order (splice (md5ByteReverse order s.data 14) 56 _)) =
    md5Transform s.buf (hostWords .little _)
  rw [splice_to_end (by rw [field, length_md5ByteReverse, whole]), reversed, hostWords_append aligned,
    hostWords_append (length_hostBytes order s.bits0), hostWords_hostBytes, hostWords_hostBytes,
    md5ByteReverse_words front, hostWords_append front, Sum.bitCount, ← leBytes_words,
    hostWords_append (length_hostBytes .little s.bits0), hostWords_hostBytes, hostWords_hostBytes]

end Md5

section Sha1

variable (order : ByteOrder) (sha1Transform : Vector UInt32 5 → List UInt32 → Vector UInt32 5)

def sha1Compress (h : Vector UInt32 5) (block : Bytes) : Vector UInt32 5 := sha1Transform h (hostWords .big block)

theorem sha1Block_compresses : Sum.Compresses (sha1Block order sha1Transform) (sha1Compress sha1Transform) where
  buf s whole := congrArg (sha1Transform s.buf) (@shaByteReverse_words order 16 s.data whole)
  data s whole := (length_shaByteReverse 64 s.data).trans whole
  bits0 _ := rfl
  bits1 _ := rfl

theorem sha1LastBlock_finishes :
    Sum.Finishes (sha1LastBlock order sha1Transform) (sha1Compress sha1Transform) (beBytes 8) := by
  intro s whole
  have front : (s.data.take 56).length = 4 * 14 := by
    rw [List.length_take, whole]
    rfl
  have field : (hostBytes order s.bits1 ++ hostBytes order s.bits0).length = 8 := by
    rw [List.length_append, length_hostBytes, length_hostBytes]
  have reversed : beBytes 8 s.bitCount = hostBytes .big s.bits1 ++ hostBytes .big s.bits0 := by
    rw [Sum.bitCount, beBytes, ← leBytes_words, List.reverse_append]
    rfl
  have aligned : (shaByteReverse order (s.data.take 56) 56).length = 4 * 14 := by
    rw [length_shaByteReverse, front]
  change sha1Transform s.buf (hostWords order (shaByteReverse order (splice s.data 56 _) 56)) =
    sha1Transform s.buf (hostWords .big _)
  rw [splice_to_end (by rw [field, whole]), show 56 = 4 * 14 from rfl, shaByteReverse_append front,
    hostWords_append aligned, hostWords_append (length_hostBytes order s.bits1), hostWords_hostBytes, hostWords_hostBytes,
    shaByteReverse_words front, hostWords_append front, reversed, hostWords_append (length_hostBytes .big s.bits1),
    hostWords_hostBytes, hostWords_hostBytes]

end Sha1

/-! A checksum depends on the bytes that it was given, however they were cut, and on no
copy that was taken in between: it is the digest of the standards. -/

/-- The chaining value after all blocks of the padded message. -/
def md5Chain (t : Transforms) (message : Bytes) : Vector UInt32 4 :=
  (absorb (md5Compress t.md5) 64 md5Start (paddedMessage 64 (leBytes 8 (8 * message.length)) message)).1

def sha1Chain (t : Transforms) (message : Bytes) : Vector UInt32 5 :=
  (absorb (sha1Compress t.sha1) 64 sha1Start (paddedMessage 64 (beBytes 8 (8 * message.length)) message)).1

def sha512Chain (t : Transforms) (start : Vector UInt64 8) (message : Bytes) : Vector UInt64 8 :=
  (absorb t.sha512 128 start (paddedMessage 128 (beBytes 16 (8 * message.length)) message)).1

def standardDigest (t : Transforms) (type : ChecksumType) (message : Bytes) : Bytes :=
  match type with
  | .md5 => (md5Chain t message).toList.flatMap fun word => leBytes 4 word.toNat
  | .sha1 => (sha1Chain t message).toList.flatMap fun word => beBytes 4 word.toNat
  | .sha384 => ((sha512Chain t sha384Start message).toList.flatMap fun word => beBytes 8 word.toNat).take 48
  | .sha512 => (sha512Chain t sha512Start message).toList.flatMap fun word => beBytes 8 word.toNat

def ChecksumSum.Holds (t : Transforms) (message : Bytes) : ChecksumSum → ChecksumType → Prop
  | .md5 s, .md5 => s.Holds (md5Compress t.md5) md5Start message
  | .sha1 s, .sha1 => s.Holds (sha1Compress t.sha1) sha1Start message
  | .sha384 s, .sha384 =>
    s.Holds t.sha512 sha384Start message ∧ (message.length < 2 ^ 61 → s.dataLen0.toNat = 8 * message.length ∧ s.dataLen1 = 0)
  | .sha512 s, .sha512 =>
    s.Holds t.sha512 sha512Start message ∧ (message.length < 2 ^ 61 → s.dataLen0.toNat = 8 * message.length ∧ s.dataLen1 = 0)
  | _, _ => False

variable {t : Transforms} {type : ChecksumType} {message : Bytes}

theorem xchecksumNew_holds (t : Transforms) (type : ChecksumType) : (xchecksumNew type).sum.Holds t [] type := by
  have short (n : Nat) (positive : 0 < n) {σ : Type} (compress : σ → Bytes → σ) (start : σ) :
      absorb compress n start [] = (start, []) := absorb_short positive
  cases type
  · exact ⟨by rw [short 64 (by decide)]; rfl, rfl, by rw [short 64 (by decide)]; rfl, rfl⟩
  · exact ⟨by rw [short 64 (by decide)]; rfl, rfl, by rw [short 64 (by decide)]; rfl, rfl⟩
  · exact ⟨⟨by rw [short 128 (by decide)]; rfl, rfl, rfl, by rw [short 128 (by decide)]; rfl⟩, fun _ => ⟨rfl, rfl⟩⟩
  · exact ⟨⟨by rw [short 128 (by decide)]; rfl, rfl, rfl, by rw [short 128 (by decide)]; rfl⟩, fun _ => ⟨rfl, rfl⟩⟩

theorem sha512_update_holds {s : Sha512sum} {start : Vector UInt64 8}
    (holds : s.Holds t.sha512 start message ∧
      (message.length < 2 ^ 61 → s.dataLen0.toNat = 8 * message.length ∧ s.dataLen1 = 0)) (data : Bytes) :
    (sha512SumUpdate t.sha512 s data).Holds t.sha512 start (message ++ data) ∧
      ((message ++ data).length < 2 ^ 61 →
        (sha512SumUpdate t.sha512 s data).dataLen0.toNat = 8 * (message ++ data).length ∧
          (sha512SumUpdate t.sha512 s data).dataLen1 = 0) := by
  refine ⟨holds.1.update data, fun fits => ?_⟩
  rw [List.length_append] at fits ⊢
  obtain ⟨low, high⟩ := holds.2 (by omega)
  exact Sha512sum.update_counts t.sha512 low high fits

theorem ChecksumSum.Holds.update {sum : ChecksumSum} (holds : sum.Holds t message type) (data : Bytes) :
    (sum.update t data).Holds t (message ++ data) type := by
  cases sum <;> cases type <;> try exact holds.elim
  · exact Sum.Holds.update (md5Block_compresses t.order t.md5) holds data
  · exact Sum.Holds.update (sha1Block_compresses t.order t.sha1) holds data
  · exact sha512_update_holds holds data
  · exact sha512_update_holds holds data

theorem length_flatMap_words {n width : Nat} {α : Type} (bytes : α → Bytes) (each : ∀ a, (bytes a).length = width)
    (words : Vector α n) : (words.toList.flatMap bytes).length = n * width := by
  simp [List.length_flatMap, each]

theorem ChecksumSum.Holds.digest {sum : ChecksumSum} (holds : sum.Holds t message type) (fits : message.length < 2 ^ 61) :
    (sum.close t).digest = standardDigest t type message := by
  cases sum <;> cases type <;> try exact holds.elim
  case md5.md5 s =>
    have closed := Sum.close_digest (md5Block_compresses t.order t.md5) (md5LastBlock_finishes t.order t.md5)
      (length_leBytes 8) (fun buf => md5ByteReverse t.order (buf.toList.flatMap (hostBytes t.order)) 4) holds fits
    have words (buf : Vector UInt32 4) : md5ByteReverse t.order (buf.toList.flatMap (hostBytes t.order)) 4 =
        buf.toList.flatMap (hostBytes .little) := by
      cases t.order
      · rfl
      · have reversed := (reverseWords_hostBytes buf.toList).1
        rwa [Vector.length_toList] at reversed
    change (s.close _ _ _).digest.take 16 = _
    rw [closed, words]
    exact List.take_of_length_le (Nat.le_of_eq (length_flatMap_words _ (length_hostBytes .little) _))
  case sha1.sha1 s =>
    have closed := Sum.close_digest (sha1Block_compresses t.order t.sha1) (sha1LastBlock_finishes t.order t.sha1)
      (length_beBytes 8) (fun buf => shaByteReverse t.order (buf.toList.flatMap (hostBytes t.order)) 20) holds fits
    have words (buf : Vector UInt32 5) : shaByteReverse t.order (buf.toList.flatMap (hostBytes t.order)) 20 =
        buf.toList.flatMap (hostBytes .big) := by
      cases t.order
      · have reversed := (reverseWords_hostBytes buf.toList).2
        rwa [Vector.length_toList] at reversed
      · rfl
    change (s.close _ _ _).digest.take 20 = _
    rw [closed, words]
    exact List.take_of_length_le (Nat.le_of_eq (length_flatMap_words _ (length_hostBytes .big) _))
  case sha384.sha384 s =>
    obtain ⟨low, high⟩ := holds.2 fits
    exact congrArg (List.take 48) (Sha512sum.close_digest holds.1 low high)
  case sha512.sha512 s =>
    obtain ⟨low, high⟩ := holds.2 fits
    change (sha512SumClose t.sha512 s).digest.take 64 = _
    rw [Sha512sum.close_digest holds.1 low high]
    exact List.take_of_length_le
      (Nat.le_of_eq (length_flatMap_words _ (fun word : UInt64 => length_beBytes 8 word.toNat) _))

/-- A checksum that was given some chunks, one after the other. -/
def fed (t : Transforms) (checksum : Checksum) (chunks : List Bytes) : Checksum := chunks.foldl (xchecksumUpdate t) checksum

theorem fed_holds {checksum : Checksum} (opened : checksum.digestStr = none) (holds : checksum.sum.Holds t message type)
    (chunks : List Bytes) :
    (fed t checksum chunks).digestStr = none ∧ (fed t checksum chunks).sum.Holds t (message ++ chunks.flatten) type := by
  induction chunks generalizing checksum message with
  | nil => exact ⟨opened, by rw [List.flatten_nil, List.append_nil]; exact holds⟩
  | cons chunk chunks ih =>
    have updated : xchecksumUpdate t checksum chunk = { checksum with sum := checksum.sum.update t chunk } := by
      unfold xchecksumUpdate
      rw [opened]
    have later := @ih _ (xchecksumUpdate t checksum chunk) (by rw [updated]; exact opened)
      (by rw [updated]; exact holds.update chunk)
    rw [List.flatten_cons, ← List.append_assoc]
    exact later

theorem xchecksumGetDigest_of_holds {checksum : Checksum} (opened : checksum.digestStr = none)
    (holds : checksum.sum.Holds t message type) (fits : message.length < 2 ^ 61) :
    (xchecksumGetDigest t checksum).2 = standardDigest t type message := by
  unfold xchecksumGetDigest
  rw [opened]
  exact holds.digest fits

/-- Whatever the block functions do: the digest of a message in chunks is the standard one,
also when a copy takes over in between. -/
theorem checksum_chunks (t : Transforms) (type : ChecksumType) (before after : List Bytes)
    (fits : (before ++ after).flatten.length < 2 ^ 61) :
    (xchecksumGetDigest t (fed t (xchecksumNew type) (before ++ after))).2 =
        standardDigest t type (before ++ after).flatten ∧
      (xchecksumGetDigest t (fed t (xchecksumCopy (fed t (xchecksumNew type) before)) after)).2 =
        standardDigest t type (before ++ after).flatten := by
  obtain ⟨opened, holds⟩ := fed_holds (by cases type <;> rfl) (xchecksumNew_holds t type) (before ++ after)
  have copied : fed t (xchecksumCopy (fed t (xchecksumNew type) before)) after = fed t (xchecksumNew type) (before ++ after) :=
    List.foldl_append.symm
  rw [copied]
  exact ⟨xchecksumGetDigest_of_holds opened holds fits, xchecksumGetDigest_of_holds opened holds fits⟩

/-- Block functions that add the first word of the block to every word. -/
def adding : Transforms where
  order := .little
  md5 := fun h block => h.map (· + block.headD 0)
  sha1 := fun h block => h.map (· + block.headD 0)
  sha512 := fun h block => h.map (· + UInt64.ofNat (block.headD 0).toNat)

/-- A copy takes over in the second of three blocks. -/
theorem checksum_chunks_sample :
    (xchecksumGetDigest adding (fed adding (xchecksumCopy (fed adding (xchecksumNew .sha1) [List.replicate 60 1, List.replicate 30 2]))
      [[], List.replicate 50 3])).2 =
      standardDigest adding .sha1 (List.replicate 60 1 ++ List.replicate 30 2 ++ List.replicate 50 3) :=
  (checksum_chunks adding .sha1 [List.replicate 60 1, List.replicate 30 2] [[], List.replicate 50 3] (by simp)).2

end Xpl.Digest
