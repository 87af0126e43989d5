import Xpl.Text.Base64

/-! Decoding what was encoded gives the bytes back, for all ways to cut the bytes and the text. -/

set_option autoImplicit false

namespace Xpl.Text

open Xpl.Library

variable {breakLines : Bool} {already : Int} {c1 c2 c3 : UInt8}

theorem base64Char_rank : ∀ k < 64, rankOf (base64Char k) = UInt8.ofNat k ∧ base64Char k ≠ padding ∧ base64Char k ≠ 0 := by
  decide +kernel

/-- The bits that a character of the given rank leaves behind. -/
theorem toNat_next (v : UInt32) {k : Nat} (small : k < 64) :
    (v <<< 6 ||| (UInt8.ofNat k).toUInt32).toNat = (v.toNat * 64 + k) % 2 ^ 32 := by
  have rank : (UInt8.ofNat k).toUInt32.toNat = k := by
    simp only [UInt8.toNat_toUInt32, UInt8.toNat_ofNat']
    omega
  have shifted : (v <<< 6).toNat = (v.toNat % 2 ^ 26) <<< 6 := by
    simp
    omega
  rw [UInt32.toNat_or, rank, shifted, ← Nat.shiftLeft_add_eq_or_of_lt small, Nat.shiftLeft_eq]
  omega

/-- A character of the alphabet or padding, as the decoder reads it. -/
def Ranked (c : UInt8) (k : Nat) : Prop := rankOf c = UInt8.ofNat k ∧ k < 64

theorem ranked_char {k : Nat} (small : k < 64) : Ranked (base64Char k) k := ⟨(base64Char_rank k small).1, small⟩

theorem ranked_padding : Ranked padding 0 := ⟨by decide, by decide⟩

theorem Ranked.counted {c : UInt8} {k : Nat} (ranked : Ranked c k) : rankOf c ≠ 0xff := by
  rw [ranked.1]
  intro none
  have value := congrArg UInt8.toNat none
  have small := ranked.2
  simp at value
  omega

/-- The decoder after four characters: which bytes it writes depends on the last two. -/
theorem decode_four (v : UInt32) {d1 d2 d3 d4 : UInt8} {k1 k2 k3 k4 : Nat} (r1 : Ranked d1 k1) (r2 : Ranked d2 k2)
    (r3 : Ranked d3 k3) (r4 : Ranked d4 k4) :
    ∃ w : UInt32, w.toNat % 2 ^ 24 = k1 * 2 ^ 18 + k2 * 2 ^ 12 + k3 * 2 ^ 6 + k4 ∧
      Transducer.run decodeNext { v := v, i := 0, pad := false } [d1, d2, d3, d4] =
        ({ v := w, i := 0, pad := false },
          [(w >>> 16).toUInt8] ++ (if d3 = padding then [] else [(w >>> 8).toUInt8]) ++
            (if d4 = padding then [] else [w.toUInt8])) := by
  refine ⟨(((v <<< 6 ||| (rankOf d1).toUInt32) <<< 6 ||| (rankOf d2).toUInt32) <<< 6 ||| (rankOf d3).toUInt32) <<< 6 |||
    (rankOf d4).toUInt32, ?_, ?_⟩
  · obtain ⟨small1, small2, small3, small4⟩ := And.intro r1.2 (And.intro r2.2 (And.intro r3.2 r4.2))
    rw [r1.1, r2.1, r3.1, r4.1, toNat_next _ small4, toNat_next _ small3, toNat_next _ small2, toNat_next _ small1]
    omega
  · simp [Transducer.run_cons, decodeNext, r1.counted, r2.counted, r3.counted, r4.counted]

theorem toUInt8_shiftRight (w : UInt32) (c : UInt8) (shift : UInt32)
    (value : w.toNat / 2 ^ (shift.toNat % 32) % 256 = c.toNat) : (w >>> shift).toUInt8 = c := by
  apply UInt8.toNat_inj.mp
  rw [UInt32.toNat_toUInt8, UInt32.toNat_shiftRight, Nat.shiftRight_eq_div_pow]
  exact value

theorem toUInt8_low (w : UInt32) (c : UInt8) (value : w.toNat % 256 = c.toNat) : w.toUInt8 = c := by
  apply UInt8.toNat_inj.mp
  exact value

theorem high_bits (c : UInt8) : c.toNat >>> 2 = c.toNat / 4 := by
  rw [Nat.shiftRight_eq_div_pow]

theorem middle_bits {a b : Nat} (small : b < 256) : b >>> 4 ||| (a &&& 0x3) <<< 4 = a % 4 * 16 + b / 16 := by
  have low : b / 16 < 2 ^ 4 := by omega
  have mask : a &&& 0x3 = a % 4 := Nat.and_two_pow_sub_one_eq_mod a 2
  rw [mask, Nat.shiftRight_eq_div_pow, Nat.or_comm, ← Nat.shiftLeft_add_eq_or_of_lt low, Nat.shiftLeft_eq]

theorem last_bits {a b : Nat} (small : b < 256) : (a &&& 0x0f) <<< 2 ||| b >>> 6 = a % 16 * 4 + b / 64 := by
  have low : b / 64 < 2 ^ 2 := by omega
  have mask : a &&& 0x0f = a % 16 := Nat.and_two_pow_sub_one_eq_mod a 4
  rw [mask, Nat.shiftRight_eq_div_pow, ← Nat.shiftLeft_add_eq_or_of_lt low, Nat.shiftLeft_eq]

theorem rank_bits (c : UInt8) : c.toNat &&& 0x3f = c.toNat % 64 := Nat.and_two_pow_sub_one_eq_mod _ 6

theorem kept_bits (c : UInt8) : (c.toNat &&& 0x0f) <<< 2 = c.toNat % 16 * 4 := by
  have mask : c.toNat &&& 0x0f = c.toNat % 16 := Nat.and_two_pow_sub_one_eq_mod _ 4
  rw [mask, Nat.shiftLeft_eq]

theorem encodeQuad_eq (c1 c2 c3 : UInt8) :
    encodeQuad c1 c2 c3 =
      [base64Char (c1.toNat / 4), base64Char (c1.toNat % 4 * 16 + c2.toNat / 16),
        base64Char (c2.toNat % 16 * 4 + c3.toNat / 64), base64Char (c3.toNat % 64)] := by
  rw [encodeQuad, high_bits, middle_bits c2.toNat_lt, last_bits c3.toNat_lt, rank_bits]

theorem decode_quad (v : UInt32) (c1 c2 c3 : UInt8) :
    ∃ w : UInt32, Transducer.run decodeNext { v := v, i := 0, pad := false } (encodeQuad c1 c2 c3) =
      ({ v := w, i := 0, pad := false }, [c1, c2, c3]) := by
  obtain ⟨low1, low2, low3⟩ := And.intro c1.toNat_lt (And.intro c2.toNat_lt c3.toNat_lt)
  have third := base64Char_rank (c2.toNat % 16 * 4 + c3.toNat / 64) (by omega)
  have fourth := base64Char_rank (c3.toNat % 64) (by omega)
  obtain ⟨w, value, decoded⟩ := decode_four v (ranked_char (show c1.toNat / 4 < 64 by omega))
    (ranked_char (show c1.toNat % 4 * 16 + c2.toNat / 16 < 64 by omega))
    (ranked_char (show c2.toNat % 16 * 4 + c3.toNat / 64 < 64 by omega)) (ranked_char (show c3.toNat % 64 < 64 by omega))
  refine ⟨w, ?_⟩
  rw [encodeQuad_eq, decoded, if_neg third.2.1, if_neg fourth.2.1,
    toUInt8_shiftRight w c1 16 (by simp; omega), toUInt8_shiftRight w c2 8 (by simp; omega), toUInt8_low w c3 (by omega)]
  rfl

/-- What the encoder writes when it is closed with these bytes waiting. -/
def closing (breakLines : Bool) (pending : List UInt8) : List UInt8 :=
  let tail :=
    match pending with
    | [c1] => [base64Char (c1.toNat / 4), base64Char (c1.toNat % 4 * 16), padding, padding]
    | [c1, c2] =>
      [base64Char (c1.toNat / 4), base64Char (c1.toNat % 4 * 16 + c2.toNat / 16), base64Char (c2.toNat % 16 * 4), padding]
    | _ => []
  if breakLines then tail ++ [newline] else tail

theorem base64EncodeClose_spec {save : EncodeSave} {pending : List UInt8} (holds : save.Holds pending) :
    base64EncodeClose breakLines save = some (closing breakLines pending) := by
  unfold EncodeSave.Holds at holds
  split at holds
  · simp [base64EncodeClose, closing, holds]
  · rename_i c1
    obtain ⟨count, rfl⟩ := holds
    have second := middle_bits (a := save.first.toNat) (show 0 < 256 by decide)
    simp only [base64EncodeClose, closing, count, second, high_bits]
    simp
  · rename_i c1 c2
    obtain ⟨count, rfl, rfl⟩ := holds
    have second := middle_bits (a := save.first.toNat) save.second.toNat_lt
    have third := (base64Char_rank (save.second.toNat % 16 * 4) (by omega)).2.2
    simp only [base64EncodeClose, closing, count, second, high_bits, kept_bits, third]
    simp
  · exact holds.elim

theorem decode_newline (m : DecodePoint) : decodeNext m newline = (m, []) := rfl

theorem decode_break (m : DecodePoint) : Transducer.run decodeNext m (breakLine breakLines already).2 = (m, []) := by
  unfold breakLine
  split
  · split
    · rfl
    · rfl
  · rfl

theorem decode_closing_one (v : UInt32) (c1 : UInt8) :
    (Transducer.run decodeNext { v := v, i := 0, pad := false } (closing breakLines [c1])).2 = [c1] := by
  have low1 := c1.toNat_lt
  obtain ⟨w, value, decoded⟩ := decode_four v (ranked_char (show c1.toNat / 4 < 64 by omega))
    (ranked_char (show c1.toNat % 4 * 16 < 64 by omega)) ranked_padding ranked_padding
  have tail : (w >>> 16).toUInt8 = c1 := toUInt8_shiftRight w c1 16 (by simp; omega)
  cases breakLines with
  | false => simp [closing, decoded, tail]
  | true => simp only [closing, if_true, Transducer.run_append, decoded, tail, Transducer.run_cons, decode_newline]; rfl

theorem decode_closing_two (v : UInt32) (c1 c2 : UInt8) :
    (Transducer.run decodeNext { v := v, i := 0, pad := false } (closing breakLines [c1, c2])).2 = [c1, c2] := by
  obtain ⟨low1, low2⟩ := And.intro c1.toNat_lt c2.toNat_lt
  have third := base64Char_rank (c2.toNat % 16 * 4) (by omega)
  obtain ⟨w, value, decoded⟩ := decode_four v (ranked_char (show c1.toNat / 4 < 64 by omega))
    (ranked_char (show c1.toNat % 4 * 16 + c2.toNat / 16 < 64 by omega))
    (ranked_char (show c2.toNat % 16 * 4 < 64 by omega)) ranked_padding
  have first : (w >>> 16).toUInt8 = c1 := toUInt8_shiftRight w c1 16 (by simp; omega)
  have second : (w >>> 8).toUInt8 = c2 := toUInt8_shiftRight w c2 8 (by simp; omega)
  cases breakLines with
  | false => simp [closing, decoded, first, second, third.2.1]
  | true =>
    simp only [closing, if_true, Transducer.run_append, decoded, first, second, third.2.1, Transducer.run_cons, decode_newline]
    rfl

theorem decode_encode (v : UInt32) (already : Int) (data : List UInt8) :
    (Transducer.run decodeNext { v := v, i := 0, pad := false }
      (((encodeByte breakLines).run ([], already) data).2 ++
        closing breakLines ((encodeByte breakLines).run ([], already) data).1.1)).2 = data :=
  match data with
  | [] => by cases breakLines <;> rfl
  | [c1] => decode_closing_one v c1
  | [c1, c2] => decode_closing_two v c1 c2
  | c1 :: c2 :: c3 :: rest => by
    obtain ⟨w, decoded⟩ := decode_quad v c1 c2 c3
    have later := decode_encode w (breakLine breakLines already).1 rest
    rw [run_triple]
    simp only [List.append_assoc, Transducer.run_append decodeNext _ (encodeQuad c1 c2 c3), decoded,
      Transducer.run_append decodeNext _ (breakLine breakLines already).2, decode_break, later]
    rfl

/-- The text that the encoder makes of some bytes, in however many calls. -/
theorem encodeChunks_eq (breakLines : Bool) (chunks : List (List UInt8)) :
    encodeChunks breakLines chunks =
      some (((encodeByte breakLines).run ([], 0) chunks.flatten).2 ++
        closing breakLines ((encodeByte breakLines).run ([], 0) chunks.flatten).1.1) := by
  obtain ⟨s, fed, counter, holds⟩ := (encodeFeed_simulates breakLines).feedChunks (t := (0, EncodeSave.zero)) (s := ([], 0))
    chunks ⟨rfl, rfl⟩
  simp only [encodeChunks, fed, base64EncodeClose_spec holds, some_bind, Option.pure_def]

theorem decodeChunks_eq (chunks : List (List UInt8)) :
    decodeChunks chunks = some (Transducer.run decodeNext { v := 0, i := 0, pad := false } chunks.flatten).2 := by
  obtain ⟨s, fed, stands⟩ := decodeFeed_simulates.feedChunks (t := (0, 0)) (s := { v := 0, i := 0, pad := false })
    chunks ⟨rfl, le_refl 0, rfl⟩
  simp only [decodeChunks, fed, Option.map_some]

/-- However the bytes and the text are cut, decoding gives the bytes back; and neither
output depends on the cuts. -/
theorem base64_chunks (breakLines : Bool) (chunks : List (List UInt8)) :
    (∃ text, encodeChunks breakLines chunks = some text ∧ encodeChunks breakLines [chunks.flatten] = some text ∧
      ∀ texts : List (List UInt8), texts.flatten = text → decodeChunks texts = some chunks.flatten) ∧
    ∀ texts : List (List UInt8), decodeChunks texts = decodeChunks [texts.flatten] ∧ (decodeChunks texts).isSome := by
  refine ⟨⟨_, encodeChunks_eq breakLines chunks, ?_, fun texts whole => ?_⟩, fun texts => ⟨?_, ?_⟩⟩
  · rw [encodeChunks_eq, List.flatten_singleton]
  · rw [decodeChunks_eq, whole, decode_encode]
  · rw [decodeChunks_eq, decodeChunks_eq, List.flatten_singleton]
  · rw [decodeChunks_eq]
    rfl

/-! How much the Base64 calls write. The calls that take a whole text at once keep lengths and
offsets in an int, and the decoder may write over the text that it reads. -/

open Xpl.Library

variable {breakLines : Bool} {already : Int}

section Encoder

/-- The size that the comment of `g_base64_encode_step` asks for. -/
def encodeBound (breakLines : Bool) (len : Nat) : Nat :=
  (len / 3 + 1) * 4 + 4 + if breakLines then ((len / 3 + 1) * 4 + 4) / 76 + 1 else 0

def InLine (already : Int) : Prop := 0 ≤ already ∧ already ≤ 18

theorem breakLine_counts (inLine : InLine already) :
    ∃ lines : Nat, (breakLine breakLines already).2.length = lines ∧ InLine (breakLine breakLines already).1 ∧
      if breakLines then already + 1 = 19 * lines + (breakLine breakLines already).1 else lines = 0 := by
  obtain ⟨lower, upper⟩ := inLine
  unfold breakLine
  cases breakLines with
  | false => exact ⟨0, rfl, ⟨lower, upper⟩, rfl⟩
  | true =>
    simp only [if_true]
    by_cases full : already + 1 ≥ 19
    · rw [if_pos full]
      exact ⟨1, rfl, ⟨by decide, by decide⟩, by dsimp only; omega⟩
    · rw [if_neg full]
      exact ⟨0, rfl, ⟨by dsimp only; omega, by dsimp only; omega⟩, by dsimp only; omega⟩

theorem encodeByte_waits {pending : List UInt8} {c : UInt8} (short : pending.length < 2) :
    encodeByte breakLines (pending, already) c = ((pending ++ [c], already), []) := by
  rcases pending with _ | ⟨c1, _ | ⟨c2, rest⟩⟩
  · rfl
  · rfl
  · simp only [List.length_cons] at short
    omega

theorem run_counts (input : List UInt8) {pending : List UInt8} (few : pending.length ≤ 2) (inLine : InLine already) :
    ∃ lines : Nat, ((encodeByte breakLines).run (pending, already) input).2.length =
        4 * ((pending.length + input.length) / 3) + lines ∧
      ((encodeByte breakLines).run (pending, already) input).1.1.length = (pending.length + input.length) % 3 ∧
      InLine ((encodeByte breakLines).run (pending, already) input).1.2 ∧
      if breakLines then already + ((pending.length + input.length) / 3 : Nat) =
          19 * lines + ((encodeByte breakLines).run (pending, already) input).1.2 else lines = 0 := by
  induction input generalizing pending already with
  | nil =>
    have none : pending.length / 3 = 0 := by omega
    have all : pending.length % 3 = pending.length := Nat.mod_eq_of_lt (by omega)
    simp only [Transducer.run_nil, List.length_nil, Nat.add_zero, none, all]
    exact ⟨0, rfl, trivial, inLine, by split <;> omega⟩
  | cons c input ih =>
    rcases Nat.lt_or_ge pending.length 2 with short | complete
    · have more : (pending ++ [c]).length + input.length = pending.length + (c :: input).length := by
        simp only [List.length_append, List.length_cons, List.length_nil]
        omega
      have later := @ih already (pending ++ [c]) (by rw [List.length_append, List.length_singleton]; omega) inLine
      rw [more] at later
      rw [Transducer.run_cons, encodeByte_waits short, List.nil_append]
      exact later
    · obtain ⟨c1, c2, rfl⟩ := List.length_eq_two.mp (show pending.length = 2 by omega)
      obtain ⟨broken, length, inLine', counted⟩ := @breakLine_counts breakLines already inLine
      obtain ⟨lines, length', waits, inLine'', counted'⟩ := @ih (breakLine breakLines already).1 [] (Nat.zero_le 2) inLine'
      have quad : (encodeQuad c1 c2 c).length = 4 := rfl
      have step : encodeByte breakLines ([c1, c2], already) c =
          (([], (breakLine breakLines already).1), encodeQuad c1 c2 c ++ (breakLine breakLines already).2) := rfl
      rw [Transducer.run_cons, step]
      simp only [List.length_append, List.length_cons, List.length_nil, Nat.zero_add] at *
      refine ⟨broken + lines, by omega, by omega, inLine'', ?_⟩
      cases breakLines with
      | true =>
        simp only [if_true] at counted counted' ⊢
        omega
      | false =>
        simp only [Bool.false_eq_true, if_false] at counted counted' ⊢
        omega

theorem length_closing {pending : List UInt8} (few : pending.length ≤ 2) :
    (closing breakLines pending).length = (if pending = [] then 0 else 4) + if breakLines then 1 else 0 := by
  rcases pending with _ | ⟨c1, _ | ⟨c2, _ | ⟨c3, rest⟩⟩⟩
  · cases breakLines <;> rfl
  · cases breakLines <;> rfl
  · cases breakLines <;> rfl
  · simp at few

/-- The caller's state after some calls. -/
def EncodeReached (breakLines : Bool) (s : EncodeState) : Prop :=
  ∃ before out, feedChunks (encodeFeed breakLines) (0, EncodeSave.zero) before = some (s, out)

theorem EncodeReached.stands {s : EncodeState} (reached : EncodeReached breakLines s) :
    ∃ m : Pending, EncodeStands s m ∧ m.1.length ≤ 2 ∧ InLine m.2 := by
  obtain ⟨before, out, fed⟩ := reached
  obtain ⟨s', fed', stands⟩ := (encodeFeed_simulates breakLines).feedChunks (t := (0, EncodeSave.zero)) (s := ([], 0))
    before ⟨rfl, rfl⟩
  obtain ⟨rfl, -⟩ := Prod.mk.inj (Option.some.inj (fed.symm.trans fed'))
  obtain ⟨lines, -, waits, inLine, -⟩ := @run_counts breakLines 0 before.flatten [] (Nat.zero_le 2) ⟨le_refl 0, by decide⟩
  exact ⟨_, stands, by rw [waits]; omega, inLine⟩

theorem encodeBound_le (len lines : Nat) (few : breakLines = true → 19 * lines ≤ len / 3 + 19) (plain : breakLines = false → lines = 0) :
    4 * (len / 3 + 1) + 4 + lines ≤ encodeBound breakLines len := by
  unfold encodeBound
  cases breakLines with
  | true =>
    have few := few rfl
    simp only [if_true]
    omega
  | false =>
    rw [plain rfl]
    omega

theorem encode_call {s : EncodeState} (reached : EncodeReached breakLines s) (chunk : List UInt8) :
    ∃ s' out, encodeFeed breakLines s chunk = some (s', out) ∧ out.length ≤ encodeBound breakLines chunk.length ∧
      ∃ tail, base64EncodeClose breakLines s.2 = some tail ∧ tail.length ≤ if breakLines then 5 else 4 := by
  obtain ⟨⟨pending, already⟩, stands, few, inLine⟩ := reached.stands
  dsimp only at few inLine
  obtain ⟨s', fed, -⟩ := encodeFeed_simulates breakLines s (pending, already) chunk stands
  obtain ⟨lines, length, -, inLine', counted⟩ := @run_counts breakLines already chunk pending few inLine
  obtain ⟨⟨-, upper⟩, ⟨nonneg, -⟩⟩ := And.intro inLine inLine'
  refine ⟨s', _, fed, ?_, _, base64EncodeClose_spec stands.2, ?_⟩
  · have bound := @encodeBound_le breakLines chunk.length lines
      (fun broken => by rw [if_pos broken] at counted; omega) (fun plain => by rw [plain] at counted; exact counted)
    omega
  · rw [length_closing few]
    split <;> split <;> omega

/-- All calls together. -/
theorem encode_total (breakLines : Bool) (chunks : List (List UInt8)) :
    ∃ text, encodeChunks breakLines chunks = some text ∧ text.length ≤ encodeBound breakLines chunks.flatten.length := by
  refine ⟨_, encodeChunks_eq breakLines chunks, ?_⟩
  obtain ⟨lines, length, waits, ⟨nonneg, -⟩, counted⟩ :=
    @run_counts breakLines 0 chunks.flatten [] (Nat.zero_le 2) ⟨le_refl 0, by decide⟩
  rw [List.length_append, length, length_closing (by rw [waits]; omega)]
  rw [List.length_nil, Nat.zero_add] at *
  have bound := @encodeBound_le breakLines chunks.flatten.length (lines + if breakLines then 1 else 0)
    (fun broken => by rw [if_pos broken] at counted ⊢; omega)
    (fun plain => by rw [plain] at counted ⊢; simp only [Bool.false_eq_true, if_false] at counted ⊢; omega)
  split <;> omega

end Encoder

section Encode

/-- The offsets are the lengths of what was written. -/
def EncodedText.Exact (r : EncodedText) : Prop := r.closeAt = r.text.length ∧ r.outlen = (r.text ++ r.tail).length

def EncodedText.Inside (r : EncodedText) : Prop :=
  r.text.length ≤ r.size ∧ 0 ≤ r.closeAt ∧ r.closeAt + r.tail.length ≤ r.size ∧ 0 ≤ r.outlen ∧ r.outlen < r.size

theorem base64Encode_lengths {data : List UInt8} (short : data.length < ((2 ^ 64 - 1 - 1) / 4 - 1) * 3) :
    ∃ r, base64Encode data = some r ∧ r.size = (data.length / 3 + 1) * 4 + 1 ∧ r.text.length = 4 * (data.length / 3) ∧
      r.tail.length = (if data.length % 3 = 0 then 0 else 4) ∧ r.closeAt = wrapTo (2 ^ 31) r.text.length ∧
      r.outlen = wrapTo (2 ^ 31) (r.text ++ r.tail).length := by
  obtain ⟨⟨state, save⟩, fed, stands⟩ :=
    encodeFeed_simulates false (0, EncodeSave.zero) ([], 0) data ⟨rfl, rfl⟩
  obtain ⟨lines, length, waits, -, counted⟩ := @run_counts false 0 data [] (Nat.zero_le 2) ⟨le_refl 0, by decide⟩
  simp only [Bool.false_eq_true, if_false] at counted
  rw [List.length_nil, Nat.zero_add] at length waits
  have step : base64EncodeStep false 0 EncodeSave.zero data = some (state, save, ((encodeByte false).run ([], 0) data).2) := by
    unfold encodeFeed at fed
    simp only [Option.bind_eq_bind, Option.bind_eq_some_iff, Option.pure_def, Option.some.injEq, Prod.mk.injEq] at fed
    obtain ⟨⟨state', save', out⟩, step, ⟨rfl, rfl⟩, rfl⟩ := fed
    exact step
  unfold base64Encode
  rw [if_pos short, step]
  simp only [some_bind, base64EncodeClose_spec stands.2, Option.pure_def]
  refine ⟨_, rfl, rfl, by dsimp only; omega, ?_, rfl, ?_⟩
  · have empty : ((encodeByte false).run ([], 0) data).1.1 = [] ↔ data.length % 3 = 0 := by
      rw [← List.length_eq_zero_iff, waits]
    rw [length_closing (by omega)]
    simp only [empty, Bool.false_eq_true, if_false, Nat.add_zero]
  · dsimp only
    rw [List.length_append, Int.add_comm, wrapTo_add_wrapTo, Int.add_comm]
    rfl

theorem base64Encode_iff {data : List UInt8} (short : data.length < ((2 ^ 64 - 1 - 1) / 4 - 1) * 3) :
    ∃ r, base64Encode data = some r ∧ (r.Exact → r.Inside) ∧ (r.Exact ↔ (data.length + 2) / 3 * 4 < 2 ^ 31) := by
  obtain ⟨r, run, size, text, tail, closeAt, outlen⟩ := base64Encode_lengths short
  have total : (r.text ++ r.tail).length = (data.length + 2) / 3 * 4 := by
    rw [List.length_append, text, tail]
    split <;> omega
  refine ⟨r, run, ?_, ?_, fun small => ⟨?_, ?_⟩⟩
  · rintro ⟨first, second⟩
    rw [List.length_append] at second total
    unfold EncodedText.Inside
    omega
  · rintro ⟨-, second⟩
    rw [outlen, wrapTo_eq_iff (by decide), total] at second
    have upper := second.2
    omega
  · rw [closeAt]
    refine wrapTo_of_fits ⟨by omega, ?_⟩
    omega
  · rw [outlen, total]
    exact wrapTo_of_fits ⟨by omega, by omega⟩

end Encode

section Decoder

/-- The counter between two calls. -/
def InQuadruple (state : Int) : Prop := -3 ≤ state ∧ state ≤ 3

/-- At most three bytes are written for each complete quadruple. -/
theorem decodeRun_counts (text : List UInt8) {s : DecodeLoop} (open_ : 0 ≤ s.i ∧ s.i ≤ 3) :
    ∃ quads : Nat, (Transducer.run decodeChar s text).2.length ≤ 3 * quads ∧
      4 * quads + (Transducer.run decodeChar s text).1.i ≤ s.i + text.length ∧
      0 ≤ (Transducer.run decodeChar s text).1.i ∧ (Transducer.run decodeChar s text).1.i ≤ 3 := by
  induction text generalizing s with
  | nil => exact ⟨0, Nat.le_refl 0, by simp, open_⟩
  | cons c text ih =>
    have step : ∃ quad : Nat, (decodeChar s c).2.length ≤ 3 * quad ∧ 4 * quad + (decodeChar s c).1.i ≤ s.i + 1 ∧
        0 ≤ (decodeChar s c).1.i ∧ (decodeChar s c).1.i ≤ 3 := by
      unfold decodeChar
      by_cases counted : rankOf c ≠ 0xff
      · rw [if_pos counted]
        by_cases full : s.i + 1 = 4
        · rw [if_pos full]
          refine ⟨1, ?_, by dsimp only; omega, Int.le_refl 0, (by decide : (0 : Int) ≤ 3)⟩
          split <;> split <;> simp
        · rw [if_neg full]
          exact ⟨0, Nat.le_refl 0, by dsimp only; omega, by dsimp only; omega, by dsimp only; omega⟩
      · rw [if_neg counted]
        exact ⟨0, Nat.le_refl 0, by dsimp only; omega, open_⟩
    obtain ⟨quad, few, count, open'⟩ := step
    obtain ⟨quads, few', count', open''⟩ := ih open'
    rw [Transducer.run_cons, List.length_append, List.length_cons]
    exact ⟨quad + quads, by omega, by dsimp only; omega, open''⟩

theorem decodeStep_counts {state : Int} (inQuadruple : InQuadruple state) (save : UInt32) (chunk : List UInt8) :
    InQuadruple (base64DecodeStep state save chunk).1 ∧
      (base64DecodeStep state save chunk).2.2.length ≤ chunk.length / 4 * 3 + 3 := by
  obtain ⟨lower, upper⟩ := inQuadruple
  unfold base64DecodeStep
  split
  · exact ⟨⟨lower, upper⟩, Nat.zero_le _⟩
  · dsimp only
    have bounds : ∀ s : DecodeLoop, 0 ≤ s.i ∧ s.i ≤ 3 →
        InQuadruple (if (Transducer.run decodeChar s chunk).1.last0 = padding then -(Transducer.run decodeChar s chunk).1.i
          else (Transducer.run decodeChar s chunk).1.i) ∧
        (Transducer.run decodeChar s chunk).2.length ≤ chunk.length / 4 * 3 + 3 := by
      intro s open_
      obtain ⟨quads, few, count, nonneg, most⟩ := decodeRun_counts chunk open_
      unfold InQuadruple
      split <;> omega
    split
    · exact bounds _ ⟨by dsimp only; omega, by dsimp only; omega⟩
    · exact bounds _ ⟨by dsimp only; omega, by dsimp only; omega⟩

theorem decode_call {s : Int × UInt32} {before : List (List UInt8)} {out : List UInt8}
    (reached : feedChunks decodeFeed (0, 0) before = some (s, out)) (chunk : List UInt8) :
    (base64DecodeStep s.1 s.2 chunk).2.2.length ≤ chunk.length / 4 * 3 + 3 := by
  have open_ : InQuadruple s.1 := by
    refine feedChunks_keeps (fun s => InQuadruple s.1) ?_ ⟨by decide, by decide⟩ reached
    rintro t chunk t' out inQuadruple fed
    obtain ⟨rfl, -⟩ := Prod.mk.inj (Option.some.inj fed)
    exact (decodeStep_counts inQuadruple t.2 chunk).1
  exact (decodeStep_counts open_ s.2 chunk).2

end Decoder

section InPlace

def decodeStart : DecodeLoop := { v := 0, i := 0, last0 := 0, last1 := 0 }

/-- The bytes that the decoder has written after some characters. -/
def decodedAfter (text : List UInt8) (k : Nat) : List UInt8 := (Transducer.run decodeChar decodeStart (text.take k)).2

theorem base64Decode_eq (text : List UInt8) : base64Decode text = decodedAfter text text.length := by
  unfold base64Decode decodedAfter base64DecodeStep
  rw [List.take_length]
  cases text with
  | nil => rfl
  | cons c text => rfl

/-- There are never more bytes written than characters read. -/
theorem length_decodedAfter (text : List UInt8) (k : Nat) : (decodedAfter text k).length ≤ k := by
  obtain ⟨quads, few, count, nonneg, -⟩ := decodeRun_counts (text.take k) (s := decodeStart) ⟨le_refl 0, by decide⟩
  have start : decodeStart.i = 0 := rfl
  rw [List.length_take] at count
  unfold decodedAfter
  omega

theorem aliasedTurns_spec (text : List UInt8) (k : Nat) (inside : k ≤ text.length) :
    (aliasedTurns (textMemory text) k).loop = (Transducer.run decodeChar decodeStart (text.take k)).1 ∧
      (aliasedTurns (textMemory text) k).outptr = (decodedAfter text k).length ∧
      ∀ p, (aliasedTurns (textMemory text) k).memory p =
        if p < (decodedAfter text k).length then (decodedAfter text k).getD p 0 else textMemory text p := by
  induction k with
  | zero => exact ⟨rfl, rfl, fun p => (if_neg (Nat.not_lt_zero p)).symm⟩
  | succ k ih =>
    obtain ⟨loop, outptr, memory⟩ := ih (by omega)
    have behind := length_decodedAfter text k
    have unread : (aliasedTurns (textMemory text) k).memory k = text[k] := by
      rw [memory, if_neg (by omega)]
      exact List.getD_eq_getElem _ _ inside
    have next : decodedAfter text (k + 1) =
        decodedAfter text k ++ (decodeChar (Transducer.run decodeChar decodeStart (text.take k)).1 text[k]).2 := by
      unfold decodedAfter
      rw [List.take_succ_eq_append_getElem inside, Transducer.run_append, Transducer.run_cons, Transducer.run_nil, List.append_nil]
    have turn : aliasedTurns (textMemory text) (k + 1) = aliasedChar k (aliasedTurns (textMemory text) k) := rfl
    rw [turn, next]
    unfold aliasedChar
    rw [unread, loop, outptr]
    refine ⟨?_, (List.length_append).symm, fun p => ?_⟩
    · rw [List.take_succ_eq_append_getElem inside, Transducer.run_append, Transducer.run_cons, Transducer.run_nil]
    · dsimp only
      unfold storeBytes
      rw [List.length_append]
      by_cases old : p < (decodedAfter text k).length
      · rw [if_neg (by omega), if_pos (by omega), memory, if_pos old, List.getD_append _ _ _ _ old]
      · by_cases new : p < (decodedAfter text k).length +
            (decodeChar (Transducer.run decodeChar decodeStart (text.take k)).1 text[k]).2.length
        · rw [if_pos (by omega), if_pos new, List.getD_append_right _ _ _ _ (by omega)]
        · rw [if_neg (by omega), if_neg new, memory, if_neg old]

theorem base64DecodeInplace_eq {text : List UInt8} (some_ : 1 < text.length) (short : text.length < 2 ^ 31) :
    base64DecodeInplace text = some (base64Decode text) := by
  have exact_ : wrapTo (2 ^ 31) (text.length : Int) = text.length := wrapTo_of_fits ⟨by omega, by omega⟩
  obtain ⟨-, outptr, memory⟩ := aliasedTurns_spec text text.length (Nat.le_refl _)
  have bytes : bytesOf (aliasedTurns (textMemory text) text.length).memory 0 (decodedAfter text text.length).length =
      decodedAfter text text.length := by
    apply List.ext_getElem
    · simp [bytesOf]
    · intro p inside inside'
      simp only [bytesOf, List.getElem_map, List.getElem_range, Nat.zero_add, memory]
      rw [if_pos inside', List.getD_eq_getElem _ _ inside']
  unfold base64DecodeInplace
  rw [exact_]
  dsimp only
  rw [if_pos (by omega), Int.toNat_natCast, outptr, base64Decode_eq, bytes]

theorem base64DecodeInplace_refuses {text : List UInt8} (short : text.length ≤ 1) : base64DecodeInplace text = none := by
  have exact_ : wrapTo (2 ^ 31) (text.length : Int) = text.length := wrapTo_of_fits ⟨by omega, by omega⟩
  unfold base64DecodeInplace
  exact if_neg (by omega)

end InPlace

/-- What the calls write, and where. -/
theorem base64_bounds :
    (∀ (breakLines : Bool) (chunks : List (List UInt8)), ∃ text, encodeChunks breakLines chunks = some text ∧
      text.length ≤ encodeBound breakLines chunks.flatten.length) ∧
    (∀ (breakLines : Bool) (s : EncodeState) (chunk : List UInt8), EncodeReached breakLines s →
      ∃ s' out, encodeFeed breakLines s chunk = some (s', out) ∧ out.length ≤ encodeBound breakLines chunk.length ∧
        ∃ tail, base64EncodeClose breakLines s.2 = some tail ∧ tail.length ≤ if breakLines then 5 else 4) ∧
    (∀ data : List UInt8, (data.length + 2) / 3 * 4 < 2 ^ 31 →
      ∃ r, base64Encode data = some r ∧ r.Exact ∧ r.Inside) ∧
    (∀ (before : List (List UInt8)) (s : Int × UInt32) (out chunk : List UInt8),
      feedChunks decodeFeed (0, 0) before = some (s, out) →
      (base64DecodeStep s.1 s.2 chunk).2.2.length ≤ chunk.length / 4 * 3 + 3) ∧
    ∀ text : List UInt8, (text.length ≤ 1 → base64DecodeInplace text = none) ∧
      (1 < text.length → text.length < 2 ^ 31 →
        base64DecodeInplace text = some (base64Decode text) ∧
          ∀ k ≤ text.length, (aliasedTurns (textMemory text) k).outptr ≤ k) := by
  refine ⟨encode_total, fun _ _ chunk reached => encode_call reached chunk, fun data small => ?_,
    fun _ _ _ chunk reached => decode_call reached chunk, fun text => ⟨base64DecodeInplace_refuses, fun some_ short =>
      ⟨base64DecodeInplace_eq some_ short, fun k inside => ?_⟩⟩⟩
  · obtain ⟨r, run, inside, exact_⟩ := @base64Encode_iff data (by omega)
    exact ⟨r, run, exact_.mpr small, inside (exact_.mpr small)⟩
  · rw [(aliasedTurns_spec text k inside).2.1]
    exact length_decodedAfter text k

theorem base64_bounds_quad : base64DecodeInplace [84, 87, 70, 117] = some (base64Decode [84, 87, 70, 117]) :=
  ((base64_bounds.2.2.2.2 [84, 87, 70, 117]).2 (by decide) (by decide)).1

/-- A text of one character is refused in place only; and the length of a text of 2 ^ 31 characters is no int. -/
theorem base64_refused :
    base64Decode [65] = [] ∧ base64DecodeInplace [65] = none ∧
      ∃ r, base64Encode (List.replicate 1610612736 0) = some r ∧ r.outlen = -2147483648 := by
  refine ⟨by decide, by decide, ?_⟩
  have length : (List.replicate 1610612736 (0 : UInt8)).length = 1610612736 := List.length_replicate
  obtain ⟨r, run, -, text, tail, -, outlen⟩ := @base64Encode_lengths (List.replicate 1610612736 0) (by rw [length]; decide)
  refine ⟨r, run, ?_⟩
  rw [outlen, List.length_append, text, tail, length]
  decide

end Xpl.Text
