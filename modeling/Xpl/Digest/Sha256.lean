import Xpl.Digest.Checksum

/-! SHA-256: the bytes are counted in two words, and the last call pads by further updates. -/

set_option autoImplicit false

namespace Xpl.Digest
open Xpl.Library

/-- `bits` counts bytes, in two words, low word first. -/
structure Sha256sum where
  buf : Vector UInt32 8
  bits0 : UInt32
  bits1 : UInt32
  data : Bytes
  digest : Bytes
  deriving DecidableEq, Repr

def putUint32 (n : UInt32) : Bytes := [(n >>> 24).toUInt8, (n >>> 16).toUInt8, (n >>> 8).toUInt8, n.toUInt8]

def sha256SumInit (s : Sha256sum) : Sha256sum :=
  { s with
    buf := #v[0x6a09e667, 0xbb67ae85, 0x3c6ef372, 0xa54ff53a, 0x510e527f, 0x9b05688c, 0x1f83d9ab, 0x5be0cd19]
    bits0 := 0, bits1 := 0 }

/-- The counters. The low word is compared with the whole length, which may have more than 32 bits. -/
def Sha256sum.count (s : Sha256sum) (length : Nat) : Sha256sum :=
  let low := UInt32.ofNat (s.bits0.toNat + length) &&& 0xFFFFFFFF
  { s with bits0 := low, bits1 := if low.toNat < length then s.bits1 + 1 else s.bits1 }

section Sha256

variable (sha256Transform : Vector UInt32 8 → Bytes → Vector UInt32 8)

/-- Compress the blocks where they stand in the input, and keep the bytes behind them from `left` on. -/
def sha256Blocks (s : Sha256sum) (left : Nat) (input : Bytes) : Sha256sum :=
  if 64 ≤ input.length then sha256Blocks { s with buf := sha256Transform s.buf (input.take 64) } left (input.drop 64)
  else if input.length ≠ 0 then { s with data := splice s.data left input }
  else s
  termination_by input.length
  decreasing_by
    rw [List.length_drop]
    omega

def sha256SumUpdate (s : Sha256sum) (buffer : Bytes) : Sha256sum :=
  if buffer.length = 0 then s
  else
    let left := (s.bits0 &&& 0x3F).toNat
    let fill := 64 - left
    let s := s.count buffer.length
    if 0 < left ∧ fill ≤ buffer.length then
      let data := splice s.data left (buffer.take fill)
      sha256Blocks sha256Transform { s with data, buf := sha256Transform s.buf data } 0 (buffer.drop fill)
    else sha256Blocks sha256Transform s left buffer

def sha256Padding : Bytes := 0x80 :: List.replicate 63 0

def sha256SumClose (s : Sha256sum) : Sha256sum :=
  let high := (s.bits0 >>> 29) ||| (s.bits1 <<< 3)
  let low := s.bits0 <<< 3
  let msglen := putUint32 high ++ putUint32 low
  let last := s.bits0 &&& 0x3F
  let padn := if last < 56 then 56 - last else 120 - last
  let s := sha256SumUpdate sha256Transform s (sha256Padding.take padn.toNat)
  let s := sha256SumUpdate sha256Transform s msglen
  { s with digest := s.buf.toList.flatMap putUint32 }

end Sha256

namespace Sha256sum

variable {transform : Vector UInt32 8 → Bytes → Vector UInt32 8} {start : Vector UInt32 8} {s : Sha256sum}
  {message input : Bytes}

/-! ## The blocks -/

/-- The checksum has consumed `message` on top of the chaining value `start`. -/
structure Holds (transform : Vector UInt32 8 → Bytes → Vector UInt32 8) (start : Vector UInt32 8) (s : Sha256sum)
    (message : Bytes) : Prop where
  buf : s.buf = (absorb transform 64 start message).1
  data : s.data.length = 64
  held : s.data.take (message.length % 64) = (absorb transform 64 start message).2
  low : s.bits0.toNat = message.length % 2 ^ 32

theorem sha256Blocks_eq (s : Sha256sum) (left : Nat) (input : Bytes) :
    sha256Blocks transform s left input =
      { s with
        buf := (absorb transform 64 s.buf input).1
        data := splice s.data left (absorb transform 64 s.buf input).2 } := by
  fun_induction sha256Blocks transform s left input with
  | case1 s input more ih =>
    have full : (input.take 64).length = 64 := by
      rw [List.length_take]
      omega
    have consumed : absorb transform 64 s.buf input = absorb transform 64 (transform s.buf (input.take 64)) (input.drop 64) := by
      conv => lhs; rw [← List.take_append_drop 64 input]
      exact absorb_block (by decide) full
    rw [ih, consumed]
  | case2 s input fewer some =>
    have few : input.length < 64 := by omega
    rw [absorb_short few]
  | case3 s input fewer none =>
    obtain rfl : input = [] := List.eq_nil_of_length_eq_zero (by omega)
    rw [absorb_short (by decide), splice_nil]

theorem count_low (s : Sha256sum) (length : Nat) : (s.count length).bits0.toNat = (s.bits0.toNat + length) % 2 ^ 32 := by
  unfold count
  rw [UInt32.toNat_and, UInt32.toNat_ofNat', show (0xFFFFFFFF : UInt32).toNat = 2 ^ 32 - 1 from rfl,
    Nat.and_two_pow_sub_one_eq_mod, Nat.mod_mod]

theorem left_eq (h : s.Holds transform start message) : (s.bits0 &&& 0x3F).toNat = message.length % 64 := by
  rw [UInt32.toNat_and, h.low, show (0x3F : UInt32).toNat = 2 ^ 6 - 1 from rfl, Nat.and_two_pow_sub_one_eq_mod]
  omega

theorem Holds.update (h : s.Holds transform start message) (input : Bytes) :
    (sha256SumUpdate transform s input).Holds transform start (message ++ input) := by
  have left := length_absorb transform (by decide : 0 < 64) start message
  have whole := h.data
  have consumed := absorb_append transform 64 start message input
  have rest := length_absorb transform (by decide : 0 < 64) start (message ++ input)
  have low : (s.count input.length).bits0.toNat = (message ++ input).length % 2 ^ 32 := by
    rw [count_low, h.low, List.length_append, Nat.mod_add_mod]
  unfold sha256SumUpdate
  split
  case isTrue empty =>
    obtain rfl : input = [] := List.eq_nil_of_length_eq_zero empty
    rw [List.append_nil]
    exact h
  case isFalse =>
    dsimp only
    rw [left_eq h]
    -- what is left over is written over the front of the block, or behind the bytes that are held
    have stored : ∀ data : Bytes, data.length = 64 → ∀ used ≤ (absorb transform 64 start (message ++ input)).2.length,
        ∀ part, data.take used ++ part = (absorb transform 64 start (message ++ input)).2 →
          (splice data used part).length = 64 ∧
            (splice data used part).take ((message ++ input).length % 64) = (absorb transform 64 start (message ++ input)).2 := by
      intro data full used inside part same
      have total : (message ++ input).length % 64 = used + part.length := by
        rw [← rest, ← same, List.length_append, List.length_take, Nat.min_eq_left (by omega)]
      have room : used + part.length ≤ data.length := by omega
      refine ⟨(length_splice room).trans full, ?_⟩
      rw [total, take_splice room, same]
    split
    case isTrue filling =>
      have part : (input.take (64 - message.length % 64)).length = 64 - message.length % 64 := by
        rw [List.length_take]
        omega
      have filled : splice s.data (message.length % 64) (input.take (64 - message.length % 64)) =
          (absorb transform 64 start message).2 ++ input.take (64 - message.length % 64) := by
        rw [splice_to_end (by omega), h.held]
      have full : ((absorb transform 64 start message).2 ++ input.take (64 - message.length % 64)).length = 64 := by
        rw [List.length_append, left, part]
        omega
      have after : absorb transform 64 start (message ++ input) =
          absorb transform 64 (transform s.buf ((absorb transform 64 start message).2 ++ input.take (64 - message.length % 64)))
            (input.drop (64 - message.length % 64)) := by
        rw [consumed]
        conv => lhs; rw [← List.take_append_drop (64 - message.length % 64) input]
        rw [← List.append_assoc, absorb_block (by decide) full, h.buf]
      change (sha256Blocks transform { s.count input.length with
        buf := transform s.buf (splice s.data (message.length % 64) (input.take (64 - message.length % 64)))
        data := splice s.data (message.length % 64) (input.take (64 - message.length % 64)) } 0 _).Holds transform start _
      rw [sha256Blocks_eq, filled]
      rw [← after]
      obtain ⟨length, held⟩ := stored _ full 0 (Nat.zero_le _) _ rfl
      exact ⟨rfl, length, held, low⟩
    case isFalse not_filling =>
      rw [sha256Blocks_eq]
      by_cases none_held : message.length % 64 = 0
      · have nothing : (absorb transform 64 start message).2 = [] := List.eq_nil_of_length_eq_zero (by omega)
        rw [nothing, List.nil_append, ← h.buf] at consumed
        change Holds transform start { s.count input.length with
          buf := (absorb transform 64 s.buf input).1
          data := splice s.data _ (absorb transform 64 s.buf input).2 } _
        rw [none_held, ← consumed]
        obtain ⟨length, held⟩ := stored _ whole 0 (Nat.zero_le _) _ rfl
        exact ⟨rfl, length, held, low⟩
      · -- the block does not fill up
        have waiting : ((absorb transform 64 start message).2 ++ input).length < 64 := by
          rw [List.length_append, left]
          omega
        rw [absorb_short waiting, ← h.buf] at consumed
        change Holds transform start { s.count input.length with
          buf := (absorb transform 64 s.buf input).1
          data := splice s.data _ (absorb transform 64 s.buf input).2 } _
        rw [absorb_short (by omega)]
        obtain ⟨length, held⟩ := stored s.data whole (message.length % 64) (by rw [consumed, List.length_append, left]; omega)
          input (by rw [consumed, h.held])
        exact ⟨by rw [consumed], length, held, low⟩

/-! ## The counters -/

theorem count_high (s : Sha256sum) (length : Nat) :
    (s.count length).bits1 = if (s.bits0.toNat + length) % 2 ^ 32 < length then s.bits1 + 1 else s.bits1 := by
  rw [← count_low]
  rfl

theorem update_high (transform : Vector UInt32 8 → Bytes → Vector UInt32 8) (s : Sha256sum) (input : Bytes) :
    (sha256SumUpdate transform s input).bits1 = (s.count input.length).bits1 := by
  unfold sha256SumUpdate
  split
  case isTrue empty => simp [count, empty]
  case isFalse =>
    dsimp only
    split
    · rw [sha256Blocks_eq]
    · rw [sha256Blocks_eq]

/-- How often the high word is raised by the chunks, after a number of bytes. -/
def carries : Nat → List Bytes → Nat
  | _, [] => 0
  | before, chunk :: chunks =>
    (if (before + chunk.length) % 2 ^ 32 < chunk.length then 1 else 0) + carries (before + chunk.length) chunks

theorem Holds.fed (h : s.Holds transform start message) (chunks : List Bytes) :
    (chunks.foldl (sha256SumUpdate transform) s).Holds transform start (message ++ chunks.flatten) ∧
      (chunks.foldl (sha256SumUpdate transform) s).bits1 = s.bits1 + UInt32.ofNat (carries message.length chunks) := by
  induction chunks generalizing s message with
  | nil => simpa [carries] using h
  | cons chunk chunks ih =>
    obtain ⟨holds, high⟩ := ih (h.update chunk)
    rw [List.foldl_cons, List.flatten_cons, ← List.append_assoc]
    refine ⟨holds, ?_⟩
    rw [high, update_high, count_high, h.low, Nat.mod_add_mod, List.length_append, carries]
    split
    · rw [UInt32.ofNat_add, UInt32.add_assoc]
      rfl
    · rw [Nat.zero_add]

/-- No chunk takes the low word over 2^32 more than once. -/
def CarriesOnce : Nat → List Bytes → Prop
  | _, [] => True
  | before, chunk :: chunks =>
    before % 2 ^ 32 + chunk.length < 2 ^ 33 ∧ CarriesOnce (before + chunk.length) chunks

/-- The high word counts too little, unless every chunk raises it by what it should. -/
theorem carries_le (before : Nat) (chunks : List Bytes) :
    before / 2 ^ 32 + carries before chunks ≤ (before + chunks.flatten.length) / 2 ^ 32 ∧
      (before / 2 ^ 32 + carries before chunks = (before + chunks.flatten.length) / 2 ^ 32 ↔ CarriesOnce before chunks) := by
  induction chunks generalizing before with
  | nil => simp [carries, CarriesOnce]
  | cons chunk chunks ih =>
    obtain ⟨bounded, exactly⟩ := ih (before + chunk.length)
    rw [List.flatten_cons, List.length_append, ← Nat.add_assoc, carries, CarriesOnce, ← exactly]
    split <;> omega

/-! ## The last call -/

theorem putUint32_eq (n : UInt32) : putUint32 n = beBytes 4 n.toNat := by
  have byte (shift : UInt32) (k : Nat) (amount : shift.toNat % 32 = 8 * k) :
      (n >>> shift).toUInt8 = UInt8.ofNat (n.toNat / 256 ^ k % 256) := by
    apply UInt8.toNat_inj.mp
    rw [UInt32.toNat_toUInt8, UInt32.toNat_shiftRight, amount, Nat.shiftRight_eq_div_pow, Nat.pow_mul, UInt8.toNat_ofNat',
      show (2 : Nat) ^ 8 = 256 from rfl]
    omega
  have last : n.toUInt8 = UInt8.ofNat (n.toNat % 256) := by
    apply UInt8.toNat_inj.mp
    rw [UInt32.toNat_toUInt8, UInt8.toNat_ofNat']
    omega
  simp only [putUint32, beBytes, leBytes, Nat.div_div_eq_div_mul, byte 24 3 rfl, byte 16 2 rfl, byte 8 1 rfl, last]
  rfl

def byteCount (s : Sha256sum) : Nat := s.bits0.toNat + 2 ^ 32 * s.bits1.toNat

theorem msglen_eq (s : Sha256sum) :
    putUint32 ((s.bits0 >>> 29) ||| (s.bits1 <<< 3)) ++ putUint32 (s.bits0 <<< 3) = beBytes 8 (8 * s.byteCount) := by
  have b0 := s.bits0.toNat_lt
  have low : (s.bits0 <<< 3).toNat = 8 * s.byteCount % 2 ^ 32 := by
    rw [UInt32.toNat_shiftLeft, show (3 : UInt32).toNat % 32 = 3 from rfl, Nat.shiftLeft_eq, byteCount]
    omega
  have high : ((s.bits0 >>> 29) ||| (s.bits1 <<< 3)).toNat = 8 * s.byteCount / 2 ^ 32 % 2 ^ 32 := by
    have shifted : s.bits1.toNat <<< 3 % 2 ^ 32 = (s.bits1.toNat % 2 ^ 29) <<< 3 := by
      omega
    have small : s.bits0.toNat >>> 29 < 2 ^ 3 := by
      omega
    rw [UInt32.toNat_or, UInt32.toNat_shiftRight, UInt32.toNat_shiftLeft, show (29 : UInt32).toNat % 32 = 29 from rfl,
      show (3 : UInt32).toNat % 32 = 3 from rfl, shifted, Nat.or_comm, ← Nat.shiftLeft_add_eq_or_of_lt small, Nat.shiftLeft_eq,
      Nat.shiftRight_eq_div_pow, byteCount]
    omega
  have four (n : Nat) : leBytes 4 (n % 2 ^ 32) = leBytes 4 n := by
    have split := leBytes_add_mul (n % 2 ^ 32) (n / 2 ^ 32) 4
    rwa [show 256 ^ 4 = 2 ^ 32 from rfl, Nat.mod_add_div, eq_comm] at split
  have whole := leBytes_add (8 * s.byteCount) 4 4
  rw [show 256 ^ 4 = 2 ^ 32 from rfl] at whole
  rw [putUint32_eq, putUint32_eq, low, high, beBytes, beBytes, beBytes, four, four, ← List.reverse_append, ← whole]

theorem padn_eq (h : s.Holds transform start message) :
    sha256Padding.take (if s.bits0 &&& 0x3F < 56 then 56 - (s.bits0 &&& 0x3F) else 120 - (s.bits0 &&& 0x3F)).toNat =
      [0x80] ++ List.replicate (zeroCount 64 8 message.length) 0 := by
  have last := left_eq h
  have zeros : zeroCount 64 8 message.length = (119 - message.length % 64) % 64 := rfl
  have padn : (if s.bits0 &&& 0x3F < 56 then 56 - (s.bits0 &&& 0x3F) else 120 - (s.bits0 &&& 0x3F)).toNat =
      zeroCount 64 8 message.length + 1 := by
    have codes : (56 : UInt32).toNat = 56 ∧ (120 : UInt32).toNat = 120 := by decide
    split
    case isTrue low =>
      rw [UInt32.lt_iff_toNat_lt, last, codes.1] at low
      rw [UInt32.toNat_sub, last, codes.1]
      omega
    case isFalse high =>
      rw [UInt32.lt_iff_toNat_lt, last, codes.1] at high
      rw [UInt32.toNat_sub, last, codes.2]
      omega
  rw [padn, sha256Padding, List.take_succ_cons, List.take_replicate, Nat.min_eq_left (by omega)]
  rfl

theorem close_buf (h : s.Holds transform start message) :
    (sha256SumClose transform s).buf =
      (absorb transform 64 start (paddedMessage 64 (beBytes 8 (8 * s.byteCount)) message)).1 := by
  unfold sha256SumClose paddedMessage
  dsimp only
  rw [padn_eq h, msglen_eq, length_beBytes, ← List.append_assoc, ← List.append_assoc, List.append_assoc message]
  exact ((h.update _).update _).buf

theorem close_digest (s : Sha256sum) :
    (sha256SumClose transform s).digest = (sha256SumClose transform s).buf.toList.flatMap (fun word => beBytes 4 word.toNat) :=
  congrArg (List.flatMap · _) (funext putUint32_eq)

end Sha256sum

/-! ## Any way of cutting the message -/

/-- What a message is compressed to: the fold over the padded message, with its exact length. -/
def sha256Folded (transform : Vector UInt32 8 → Bytes → Vector UInt32 8) (start : Vector UInt32 8) (message : Bytes) :
    Vector UInt32 8 :=
  (absorb transform 64 start (paddedMessage 64 (beBytes 8 (8 * message.length)) message)).1

/-- The chunks are compressed to what the message is, whatever the compression is. -/
def Sha256Exact (s : Sha256sum) (chunks : List Bytes) : Prop :=
  ∀ transform, let closed := sha256SumClose transform (chunks.foldl (sha256SumUpdate transform) (sha256SumInit s))
    closed.buf = sha256Folded transform (sha256SumInit s).buf chunks.flatten ∧
      closed.digest = (sha256Folded transform (sha256SumInit s).buf chunks.flatten).toList.flatMap fun word => beBytes 4 word.toNat

def lastBytes (_ : Vector UInt32 8) (block : Bytes) : Vector UInt32 8 :=
  Vector.ofFn fun i => (block.getD (56 + i.val) 0).toUInt32

theorem absorb_padded (transform : Vector UInt32 8 → Bytes → Vector UInt32 8) (start : Vector UInt32 8) (message field : Bytes)
    (width : field.length = 8) :
    ∃ buf front, front.length = 56 ∧
      (absorb transform 64 start (paddedMessage 64 field message)).1 = transform buf (front ++ field) := by
  have zeros : zeroCount 64 8 message.length = (119 - message.length % 64) % 64 := rfl
  have left := length_absorb transform (by decide : 0 < 64) start
    (message ++ ([0x80] ++ List.replicate (zeroCount 64 8 message.length) 0))
  simp only [List.length_append, List.length_replicate, List.length_singleton] at left
  unfold paddedMessage
  rw [width, ← List.append_assoc message, absorb_append]
  refine ⟨(absorb transform 64 start (message ++ ([0x80] ++ List.replicate (zeroCount 64 8 message.length) 0))).1,
    (absorb transform 64 start (message ++ ([0x80] ++ List.replicate (zeroCount 64 8 message.length) 0))).2, ?_, ?_⟩
  · omega
  · rw [absorb_one (by decide) (by rw [List.length_append]; omega)]

theorem lastBytes_inj {buf buf' : Vector UInt32 8} {front front' field field' : Bytes} (long : front.length = 56)
    (long' : front'.length = 56) (width : field.length = 8) (width' : field'.length = 8)
    (same : lastBytes buf (front ++ field) = lastBytes buf' (front' ++ field')) : field = field' := by
  apply List.ext_getElem (width.trans width'.symm)
  intro i inside inside'
  have word := congrArg (fun words : Vector UInt32 8 => words[i]) same
  simp only [lastBytes, Vector.getElem_ofFn, List.getD_eq_getElem?_getD] at word
  rw [← long, List.getElem?_append_right (Nat.le_add_right _ _), long, ← long',
    List.getElem?_append_right (Nat.le_add_right _ _)] at word
  simp only [Nat.add_sub_cancel_left, List.getElem?_eq_getElem inside, List.getElem?_eq_getElem inside'] at word
  have bytes := congrArg UInt32.toNat word
  exact UInt8.toNat_inj.mp bytes

/-- Chunks are compressed to what the message is exactly if none of them raises the count by more than one carry. -/
theorem sha256_chunks_iff (s : Sha256sum) (chunks : List Bytes) (whole : s.data.length = 64)
    (short : chunks.flatten.length < 2 ^ 61) : Sha256Exact s chunks ↔ Sha256sum.CarriesOnce 0 chunks := by
  have holds (transform : Vector UInt32 8 → Bytes → Vector UInt32 8) :
      (sha256SumInit s).Holds transform (sha256SumInit s).buf [] :=
    ⟨by rw [absorb_short (by decide)], whole, by rw [absorb_short (by decide)]; rfl, rfl⟩
  obtain ⟨bounded, exactly⟩ := Sha256sum.carries_le 0 chunks
  simp only [Nat.zero_div, Nat.zero_add] at bounded exactly
  -- the state before the last call, and the count in it
  have fed (transform : Vector UInt32 8 → Bytes → Vector UInt32 8) :
      (chunks.foldl (sha256SumUpdate transform) (sha256SumInit s)).Holds transform (sha256SumInit s).buf chunks.flatten ∧
        (chunks.foldl (sha256SumUpdate transform) (sha256SumInit s)).byteCount =
          chunks.flatten.length % 2 ^ 32 + 2 ^ 32 * Sha256sum.carries 0 chunks := by
    obtain ⟨after, high⟩ := (holds transform).fed chunks
    rw [List.nil_append] at after
    refine ⟨after, ?_⟩
    have raised : (sha256SumInit s).bits1 = 0 := rfl
    rw [Sha256sum.byteCount, after.low, high, raised, UInt32.zero_add, UInt32.toNat_ofNat', List.length_nil,
      Nat.mod_eq_of_lt (show Sha256sum.carries 0 chunks < 2 ^ 32 by omega)]
  constructor
  · intro exact_fold
    have folded := (exact_fold lastBytes).1
    obtain ⟨after, count⟩ := fed lastBytes
    obtain ⟨buf, front, long, last⟩ := absorb_padded lastBytes (sha256SumInit s).buf chunks.flatten
      (beBytes 8 (8 * (chunks.foldl (sha256SumUpdate lastBytes) (sha256SumInit s)).byteCount)) (length_beBytes _ _)
    obtain ⟨buf', front', long', last'⟩ := absorb_padded lastBytes (sha256SumInit s).buf chunks.flatten
      (beBytes 8 (8 * chunks.flatten.length)) (length_beBytes _ _)
    rw [Sha256sum.close_buf after, sha256Folded, last, last'] at folded
    have fields := lastBytes_inj long long' (length_beBytes _ _) (length_beBytes _ _) folded
    have values := congrArg leValue (List.reverse_injective fields)
    rw [leValue_leBytes _ _ (show _ < 2 ^ 64 by omega), leValue_leBytes _ _ (show _ < 2 ^ 64 by omega)] at values
    exact exactly.mp (by omega)
  · intro once transform
    obtain ⟨after, count⟩ := fed transform
    have counted : (chunks.foldl (sha256SumUpdate transform) (sha256SumInit s)).byteCount = chunks.flatten.length := by
      rw [count, exactly.mpr once]
      omega
    have buf := Sha256sum.close_buf after
    rw [counted] at buf
    exact ⟨buf, by rw [Sha256sum.close_digest, buf]; rfl⟩

/-- A new checksum. -/
def blankSha256 : Sha256sum :=
  { buf := Vector.replicate 8 0, bits0 := 0, bits1 := 0, data := List.replicate 64 0, digest := [] }

/-- Two blocks and three bytes in three chunks. -/
theorem sha256_chunks_iff_abc : Sha256Exact blankSha256 [List.replicate 100 0x61, [], List.replicate 31 0x62] :=
  (sha256_chunks_iff blankSha256 [List.replicate 100 0x61, [], List.replicate 31 0x62] (by decide) (by simp)).mpr
    (by simp [Sha256sum.CarriesOnce])

/-- One chunk of 2^33 bytes is counted as 2^32 bytes. -/
theorem sha256_large_chunk : (List.replicate (2 ^ 33) (0 : UInt8)).length < 2 ^ 61 ∧
    ¬Sha256Exact blankSha256 [List.replicate (2 ^ 33) 0] := by
  have size : (List.replicate (2 ^ 33) (0 : UInt8)).length = 2 ^ 33 := List.length_replicate
  have flat : [List.replicate (2 ^ 33) (0 : UInt8)].flatten.length = 2 ^ 33 := by
    rw [List.flatten_singleton, size]
  refine ⟨by rw [size]; decide, ?_⟩
  rw [sha256_chunks_iff blankSha256 _ (by decide) (by rw [flat]; decide)]
  intro once
  have sum := once.1
  rw [size] at sum
  exact absurd sum (by decide)

end Xpl.Digest
