import Xpl.Library.Memory
import Xpl.Library.Signed
import Xpl.Library.Transducer

/-! The incremental Base64 encoder and decoder of gbase64.c. What a call writes to
its output buffer is returned as a byte string; none stands for a failed assertion. -/

set_option autoImplicit false

namespace Xpl.Text

open Xpl.Library

def base64Alphabet : List UInt8 :=
  "ABCDEFGHIJKLMNOPQRSTUVWXYZabcdefghijklmnopqrstuvwxyz0123456789+/".toList.map fun c => UInt8.ofNat c.toNat

/-- Reading `base64_alphabet[k]`; the indices that the encoder computes are below 64. -/
def base64Char (k : Nat) : UInt8 := base64Alphabet.getD k 0

def newline : UInt8 := 10
def padding : UInt8 := 61

/-- The four bytes of the int behind `save`: how many bytes are kept, and the bytes. -/
structure EncodeSave where
  count : UInt8
  first : UInt8
  second : UInt8
  third : UInt8
  deriving DecidableEq, Repr

def EncodeSave.zero : EncodeSave := { count := 0, first := 0, second := 0, third := 0 }

/-- Writing through a pointer into the four bytes. -/
def EncodeSave.store (save : EncodeSave) (slot : Nat) (c : UInt8) : Option EncodeSave :=
  match slot with
  | 0 => some { save with count := c }
  | 1 => some { save with first := c }
  | 2 => some { save with second := c }
  | 3 => some { save with third := c }
  | _ => none

/-- The four characters of one turn of the encoder's loop. -/
def encodeQuad (c1 c2 c3 : UInt8) : List UInt8 :=
  [base64Char (c1.toNat >>> 2),
   base64Char (c2.toNat >>> 4 ||| (c1.toNat &&& 0x3) <<< 4),
   base64Char ((c2.toNat &&& 0x0f) <<< 2 ||| c3.toNat >>> 6),
   base64Char (c3.toNat &&& 0x3f)]

/-- `++already` is evaluated only when lines are broken. -/
def breakLine (breakLines : Bool) (already : Int) : Int × List UInt8 :=
  if breakLines then
    if already + 1 ≥ 19 then (0, [newline]) else (already + 1, [])
  else (already, [])

/-- The loop from its head: it takes three bytes as long as three are left, and
returns the line counter, the output and the bytes it did not take. -/
def encodeLoop (breakLines : Bool) (already : Int) : List UInt8 → Int × List UInt8 × List UInt8
  | c1 :: c2 :: c3 :: rest =>
    let line := breakLine breakLines already
    let later := encodeLoop breakLines line.1 rest
    (later.1, encodeQuad c1 c2 c3 ++ line.2 ++ later.2.1, later.2.2)
  | rest => (already, [], rest)

/-- The loop entered in its middle, with `c1`, `c2` and `c3` already there. -/
def encodeEntered (breakLines : Bool) (already : Int) (c1 c2 c3 : UInt8) (rest : List UInt8) :
    Int × List UInt8 × List UInt8 :=
  let line := breakLine breakLines already
  let later := encodeLoop breakLines line.1 rest
  (later.1, encodeQuad c1 c2 c3 ++ line.2 ++ later.2.1, later.2.2)

/-- The switch that jumps into the loop, taken when three bytes are there. -/
def encodeTriples (breakLines : Bool) (already : Int) (save : EncodeSave) (input : List UInt8) :
    Option (Int × List UInt8 × List UInt8) :=
  if save.count = 1 then
    match input with
    | c2 :: c3 :: rest => some (encodeEntered breakLines already save.first c2 c3 rest)
    | _ => none
  else if save.count = 2 then
    match input with
    | c3 :: rest => some (encodeEntered breakLines already save.first save.second c3 rest)
    | _ => none
  else some (encodeLoop breakLines already input)

/-- The bytes that are left over are kept behind the ones kept before; the assertion
is that there are at most two. -/
def keepBytes (save : EncodeSave) (rest : List UInt8) : Option EncodeSave :=
  match rest with
  | [] => some save
  | [c] => do
    let save ← save.store (1 + save.count.toNat) c
    return { save with count := save.count + 1 }
  | [c, d] => do
    let stored ← save.store (1 + save.count.toNat) c
    let stored ← stored.store (1 + save.count.toNat + 1) d
    return { stored with count := save.count + 2 }
  | _ => none

def base64EncodeStep (breakLines : Bool) (state : Int) (save : EncodeSave) (input : List UInt8) :
    Option (Int × EncodeSave × List UInt8) :=
  if input.length = 0 then some (state, save, [])
  else if input.length + save.count.toNat > 2 then do
    let (already, out, rest) ← encodeTriples breakLines state save input
    let save ← keepBytes { save with count := 0 } rest
    return (already, save, out)
  else do
    let save ← keepBytes save input
    return (state, save, [])

/-- The last characters: `c2` counts as zero where only one byte is kept. -/
def base64EncodeClose (breakLines : Bool) (save : EncodeSave) : Option (List UInt8) := do
  let c1 := save.first.toNat
  let tail ←
    if save.count = 2 then
      let c2 := save.second.toNat
      let third := base64Char ((c2 &&& 0x0f) <<< 2)
      if third = 0 then none
      else some [base64Char (c1 >>> 2), base64Char (c2 >>> 4 ||| (c1 &&& 0x3) <<< 4), third, padding]
    else if save.count = 1 then
      let c2 := 0
      some [base64Char (c1 >>> 2), base64Char (c2 >>> 4 ||| (c1 &&& 0x3) <<< 4), padding, padding]
    else some []
  return if breakLines then tail ++ [newline] else tail

abbrev EncodeState := Int × EncodeSave

def encodeFeed (breakLines : Bool) (s : EncodeState) (chunk : List UInt8) : Option (EncodeState × List UInt8) := do
  let (state, save, out) ← base64EncodeStep breakLines s.1 s.2 chunk
  return ((state, save), out)

def encodeChunks (breakLines : Bool) (chunks : List (List UInt8)) : Option (List UInt8) := do
  let (s, out) ← feedChunks (encodeFeed breakLines) (0, EncodeSave.zero) chunks
  let tail ← base64EncodeClose breakLines s.2
  return out ++ tail

/-- What `g_base64_encode` does with its allocation: the text is written at its start, the end of the
text at `closeAt`, and the terminator at `outlen`. -/
structure EncodedText where
  size : Nat
  text : List UInt8
  closeAt : Int
  tail : List UInt8
  outlen : Int
  deriving DecidableEq, Repr

/-- `outlen` is an int. -/
def base64Encode (data : List UInt8) : Option EncodedText :=
  if data.length < ((2 ^ 64 - 1 - 1) / 4 - 1) * 3 then do
    let (_, save, text) ← base64EncodeStep false 0 EncodeSave.zero data
    let closeAt := wrapTo (2 ^ 31) text.length
    let tail ← base64EncodeClose false save
    return { size := (data.length / 3 + 1) * 4 + 1, text, closeAt, tail, outlen := wrapTo (2 ^ 31) (closeAt + tail.length) }
  else none

def mimeBase64Rank : List UInt8 := [
  255,255,255,255,255,255,255,255,255,255,255,255,255,255,255,255,
  255,255,255,255,255,255,255,255,255,255,255,255,255,255,255,255,
  255,255,255,255,255,255,255,255,255,255,255, 62,255,255,255, 63,
   52, 53, 54, 55, 56, 57, 58, 59, 60, 61,255,255,255,  0,255,255,
  255,  0,  1,  2,  3,  4,  5,  6,  7,  8,  9, 10, 11, 12, 13, 14,
   15, 16, 17, 18, 19, 20, 21, 22, 23, 24, 25,255,255,255,255,255,
  255, 26, 27, 28, 29, 30, 31, 32, 33, 34, 35, 36, 37, 38, 39, 40,
   41, 42, 43, 44, 45, 46, 47, 48, 49, 50, 51,255,255,255,255,255,
  255,255,255,255,255,255,255,255,255,255,255,255,255,255,255,255,
  255,255,255,255,255,255,255,255,255,255,255,255,255,255,255,255,
  255,255,255,255,255,255,255,255,255,255,255,255,255,255,255,255,
  255,255,255,255,255,255,255,255,255,255,255,255,255,255,255,255,
  255,255,255,255,255,255,255,255,255,255,255,255,255,255,255,255,
  255,255,255,255,255,255,255,255,255,255,255,255,255,255,255,255,
  255,255,255,255,255,255,255,255,255,255,255,255,255,255,255,255,
  255,255,255,255,255,255,255,255,255,255,255,255,255,255,255,255]

def rankOf (c : UInt8) : UInt8 := mimeBase64Rank.getD c.toNat 255

structure DecodeLoop where
  v : UInt32
  i : Int
  last0 : UInt8
  last1 : UInt8
  deriving DecidableEq, Repr

/-- One character of the text; the bytes of `v` are written with all but their last
eight bits cut off. -/
def decodeChar (s : DecodeLoop) (c : UInt8) : DecodeLoop × List UInt8 :=
  let rank := rankOf c
  if rank ≠ 0xff then
    let last1 := s.last0
    let last0 := c
    let v := s.v <<< 6 ||| rank.toUInt32
    let i := s.i + 1
    if i = 4 then
      ({ v := v, i := 0, last0 := last0, last1 := last1 },
        [(v >>> 16).toUInt8] ++ (if last1 ≠ padding then [(v >>> 8).toUInt8] else []) ++
          (if last0 ≠ padding then [v.toUInt8] else []))
    else ({ v := v, i := i, last0 := last0, last1 := last1 }, [])
  else (s, [])

/-- `state` is negative where the last character of the chunk before was padding. -/
def base64DecodeStep (state : Int) (save : UInt32) (input : List UInt8) : Int × UInt32 × List UInt8 :=
  if input.length = 0 then (state, save, [])
  else
    let start : DecodeLoop :=
      if state < 0 then { v := save, i := -state, last0 := padding, last1 := 0 }
      else { v := save, i := state, last0 := 0, last1 := 0 }
    let (s, out) := Transducer.run decodeChar start input
    (if s.last0 = padding then -s.i else s.i, s.v, out)

def decodeFeed (s : Int × UInt32) (chunk : List UInt8) : Option ((Int × UInt32) × List UInt8) :=
  let (state, save, out) := base64DecodeStep s.1 s.2 chunk
  some ((state, save), out)

def decodeChunks (chunks : List (List UInt8)) : Option (List UInt8) :=
  (feedChunks decodeFeed (0, 0) chunks).map Prod.snd

/-- The decoded bytes; the buffer for them has a size of its own. -/
def base64Decode (text : List UInt8) : List UInt8 := (base64DecodeStep 0 0 text).2.2

/-- The decoder's loop with its output over its input: the next byte to write, and the memory. -/
structure AliasedDecode where
  loop : DecodeLoop
  outptr : Nat
  memory : Memory

/-- A turn of the loop reads the character at `inptr` before it writes. -/
def aliasedChar (inptr : Nat) (s : AliasedDecode) : AliasedDecode :=
  let (loop, bytes) := decodeChar s.loop (s.memory inptr)
  { loop, outptr := s.outptr + bytes.length, memory := storeBytes s.memory s.outptr bytes }

def aliasedTurns (memory : Memory) : Nat → AliasedDecode
  | 0 => { loop := { v := 0, i := 0, last0 := 0, last1 := 0 }, outptr := 0, memory }
  | turns + 1 => aliasedChar turns (aliasedTurns memory turns)

def textMemory (text : List UInt8) : Memory := fun p => text.getD p 0

/-- `input_length` is an int. -/
def base64DecodeInplace (text : List UInt8) : Option (List UInt8) :=
  let inputLength := wrapTo (2 ^ 31) text.length
  if inputLength > 1 then
    let done := aliasedTurns (textMemory text) inputLength.toNat
    some (bytesOf done.memory 0 done.outptr)
  else none

/-! The Base64 codec as two machines that read one byte at a time. The calls simulate
the machines, which is why chunks do not matter, and the second machine undoes the first. -/

open Xpl.Library

variable {breakLines : Bool} {already : Int} {c1 c2 c3 : UInt8}

/-- The bytes waiting for their triple to be complete, and the line counter. -/
abbrev Pending := List UInt8 × Int

def encodeByte (breakLines : Bool) : Transducer Pending UInt8 UInt8
  | ([c1, c2], already), c3 =>
    (([], (breakLine breakLines already).1), encodeQuad c1 c2 c3 ++ (breakLine breakLines already).2)
  | (pending, already), c => ((pending ++ [c], already), [])

theorem run_triple (rest : List UInt8) :
    (encodeByte breakLines).run ([], already) (c1 :: c2 :: c3 :: rest) =
      let later := (encodeByte breakLines).run ([], (breakLine breakLines already).1) rest
      (later.1, encodeQuad c1 c2 c3 ++ (breakLine breakLines already).2 ++ later.2) := by
  simp [Transducer.run_cons, encodeByte]

theorem encodeLoop_run (already : Int) (input : List UInt8) :
    encodeLoop breakLines already input =
      (((encodeByte breakLines).run ([], already) input).1.2, ((encodeByte breakLines).run ([], already) input).2,
        ((encodeByte breakLines).run ([], already) input).1.1) := by
  fun_induction encodeLoop breakLines already input with
  | case1 already c1 c2 c3 rest line later ih => simp only [run_triple, later, ih, line]
  | case2 already rest short =>
    rcases rest with _ | ⟨c1, _ | ⟨c2, _ | ⟨c3, rest⟩⟩⟩
    · rfl
    · rfl
    · rfl
    · exact absurd rfl (short c1 c2 c3 rest)

theorem encodeEntered_run (rest : List UInt8) :
    encodeEntered breakLines already c1 c2 c3 rest =
      (((encodeByte breakLines).run ([c1, c2], already) (c3 :: rest)).1.2,
        ((encodeByte breakLines).run ([c1, c2], already) (c3 :: rest)).2,
        ((encodeByte breakLines).run ([c1, c2], already) (c3 :: rest)).1.1) := by
  simp only [encodeEntered, encodeLoop_run, Transducer.run_cons, encodeByte]

/-- The bytes that the four bytes of `save` hold. -/
def EncodeSave.Holds (save : EncodeSave) : List UInt8 → Prop
  | [] => save.count = 0
  | [c1] => save.count = 1 ∧ save.first = c1
  | [c1, c2] => save.count = 2 ∧ save.first = c1 ∧ save.second = c2
  | _ => False

/-- The caller's state between two calls stands for a state of the machine. -/
def EncodeStands (s : EncodeState) (m : Pending) : Prop := s.1 = m.2 ∧ s.2.Holds m.1

theorem holds_length {save : EncodeSave} {pending : List UInt8} (holds : save.Holds pending) :
    save.count.toNat = pending.length ∧ pending.length ≤ 2 := by
  unfold EncodeSave.Holds at holds
  split at holds
  · simp [holds]
  · simp [holds.1]
  · simp [holds.1]
  · exact holds.elim

theorem keepBytes_spec {save : EncodeSave} {pending rest : List UInt8} (holds : save.Holds pending)
    (few : pending.length + rest.length ≤ 2) :
    ∃ save', keepBytes save rest = some save' ∧ save'.Holds (pending ++ rest) := by
  unfold EncodeSave.Holds at holds
  split at holds
  · rcases rest with _ | ⟨c, _ | ⟨d, _ | ⟨e, rest⟩⟩⟩
    · exact ⟨save, rfl, holds⟩
    · exact ⟨{ save with first := c, count := 1 }, by simp [keepBytes, holds, EncodeSave.store], rfl, rfl⟩
    · exact ⟨{ save with first := c, second := d, count := 2 }, by simp [keepBytes, holds, EncodeSave.store], rfl, rfl, rfl⟩
    · simp at few
  · rename_i c
    obtain ⟨count, rfl⟩ := holds
    rcases rest with _ | ⟨d, _ | ⟨e, rest⟩⟩
    · exact ⟨save, rfl, count, rfl⟩
    · exact ⟨{ save with second := d, count := 2 }, by simp [keepBytes, count, EncodeSave.store], rfl, rfl, rfl⟩
    · simp only [List.length_cons] at few
      omega
  · rename_i c d
    obtain rfl : rest = [] := List.eq_nil_of_length_eq_zero (by simp only [List.length_cons, List.length_nil] at few; omega)
    exact ⟨save, rfl, holds⟩
  · exact holds.elim

theorem encodeByte_few (m : Pending) (c : UInt8) (few : m.1.length ≤ 2) : (encodeByte breakLines m c).1.1.length ≤ 2 := by
  obtain ⟨pending, already⟩ := m
  rcases pending with _ | ⟨c1, _ | ⟨c2, _ | ⟨c3, rest⟩⟩⟩
  · simp [encodeByte]
  · simp [encodeByte]
  · simp [encodeByte]
  · simp at few

/-- Fewer than three bytes wait and nothing is put out. -/
theorem run_waits {pending : List UInt8} (chunk : List UInt8) (few : pending.length + chunk.length ≤ 2) :
    (encodeByte breakLines).run (pending, already) chunk = ((pending ++ chunk, already), []) := by
  induction chunk generalizing pending with
  | nil => simp
  | cons c chunk ih =>
    have waits : encodeByte breakLines (pending, already) c = ((pending ++ [c], already), []) := by
      rcases pending with _ | ⟨c1, _ | ⟨c2, pending⟩⟩
      · rfl
      · rfl
      · simp only [List.length_cons] at few
        omega
    have later := @ih (pending ++ [c]) (by simp at few ⊢; omega)
    simp [Transducer.run_cons, waits, later]

theorem encodeTriples_spec {save : EncodeSave} {pending : List UInt8} (holds : save.Holds pending) (input : List UInt8)
    (enough : 2 < input.length + pending.length) :
    encodeTriples breakLines already save input =
      some (((encodeByte breakLines).run (pending, already) input).1.2,
        ((encodeByte breakLines).run (pending, already) input).2,
        ((encodeByte breakLines).run (pending, already) input).1.1) := by
  unfold EncodeSave.Holds at holds
  split at holds
  · simp [encodeTriples, holds, encodeLoop_run]
  · obtain ⟨count, rfl⟩ := holds
    rcases input with _ | ⟨c2, _ | ⟨c3, rest⟩⟩
    · simp at enough
    · simp at enough
    · simp [encodeTriples, count, encodeEntered_run, Transducer.run_cons, encodeByte]
  · obtain ⟨count, rfl, rfl⟩ := holds
    rcases input with _ | ⟨c3, rest⟩
    · simp at enough
    · simp [encodeTriples, count, encodeEntered_run]
  · exact holds.elim

theorem encodeFeed_simulates (breakLines : Bool) :
    Simulates (encodeFeed breakLines) (encodeByte breakLines) EncodeStands := by
  rintro ⟨state, save⟩ ⟨pending, already⟩ chunk ⟨counter, holds⟩
  obtain rfl : state = already := counter
  obtain ⟨count, few⟩ := holds_length holds
  by_cases empty : chunk = []
  · subst empty
    exact ⟨(state, save), by simp [encodeFeed, base64EncodeStep], rfl, holds⟩
  have length : chunk.length ≠ 0 := fun none => empty (List.eq_nil_of_length_eq_zero none)
  by_cases enough : 2 < chunk.length + pending.length
  · have kept := Transducer.run_keeps (encodeByte breakLines) (fun m => m.1.length ≤ 2) encodeByte_few
      (pending, state) chunk few
    obtain ⟨save', kept', holds'⟩ := @keepBytes_spec { save with count := 0 }
      [] _ rfl (by simpa using kept)
    have triples := @encodeTriples_spec breakLines state _ _ holds chunk enough
    refine ⟨(_, save'), ?_, rfl, holds'⟩
    simp [encodeFeed, base64EncodeStep, length, count, enough, triples, kept']
  · have waits := @run_waits breakLines state pending chunk (by omega)
    obtain ⟨save', kept, holds'⟩ := @keepBytes_spec _ pending chunk holds (by omega)
    rw [waits]
    refine ⟨(state, save'), ?_, rfl, holds'⟩
    simp [encodeFeed, base64EncodeStep, length, count, enough, kept]

/-- Where the decoder is: the bits so far, the characters of the open quadruple, and
whether the last of them was padding. -/
structure DecodePoint where
  v : UInt32
  i : Int
  pad : Bool
  deriving DecidableEq, Repr

/-- The decoder, one character at a time; after a quadruple it has forgotten the padding. -/
def decodeNext (m : DecodePoint) (c : UInt8) : DecodePoint × List UInt8 :=
  if rankOf c ≠ 0xff then
    let v := m.v <<< 6 ||| (rankOf c).toUInt32
    if m.i + 1 = 4 then
      ({ v := v, i := 0, pad := false },
        [(v >>> 16).toUInt8] ++ (if m.pad then [] else [(v >>> 8).toUInt8]) ++ (if c = padding then [] else [v.toUInt8]))
    else ({ v := v, i := m.i + 1, pad := c == padding }, [])
  else (m, [])

/-- The loop's variables stand for a point; before a quadruple nothing depends on `last0`. -/
def LoopStands (s : DecodeLoop) (m : DecodePoint) : Prop :=
  s.v = m.v ∧ s.i = m.i ∧ 0 ≤ m.i ∧ (m.i ≠ 0 → (s.last0 = padding ↔ m.pad = true))

theorem decodeChar_stands {s : DecodeLoop} {m : DecodePoint} (stands : LoopStands s m) (c : UInt8) :
    (decodeChar s c).2 = (decodeNext m c).2 ∧ LoopStands (decodeChar s c).1 (decodeNext m c).1 := by
  obtain ⟨bits, count, started, last⟩ := stands
  by_cases counted : rankOf c = 0xff
  · simp only [decodeChar, decodeNext, counted, ne_eq, not_true_eq_false, if_false]
    exact ⟨trivial, bits, count, started, last⟩
  · by_cases full : m.i + 1 = 4
    · have last := last (by omega)
      simp only [decodeChar, decodeNext, counted, full, bits, count, ne_eq, not_false_eq_true, if_true]
      refine ⟨?_, rfl, rfl, le_refl 0, fun open_ => absurd rfl open_⟩
      by_cases pad : m.pad = true
      · simp [pad, last.mpr pad]
      · simp [pad, mt last.mp pad]
    · simp only [decodeChar, decodeNext, counted, full, bits, count, ne_eq, not_false_eq_true, if_true, if_false]
      exact ⟨trivial, rfl, rfl, by dsimp only; omega, fun _ => by simp⟩

theorem run_stands {s : DecodeLoop} {m : DecodePoint} (stands : LoopStands s m) (text : List UInt8) :
    (Transducer.run decodeChar s text).2 = (Transducer.run decodeNext m text).2 ∧
      LoopStands (Transducer.run decodeChar s text).1 (Transducer.run decodeNext m text).1 := by
  induction text generalizing s m with
  | nil => exact ⟨rfl, stands⟩
  | cons c text ih =>
    obtain ⟨same, stands'⟩ := decodeChar_stands stands c
    obtain ⟨later, stands''⟩ := ih stands'
    simp only [Transducer.run_cons]
    exact ⟨by rw [same, later], stands''⟩

/-- Between two calls the sign of the state is the padding of the point. -/
def DecodeStands (s : Int × UInt32) (m : DecodePoint) : Prop :=
  s.2 = m.v ∧ 0 ≤ m.i ∧ s.1 = if m.pad then -m.i else m.i

theorem decodeFeed_simulates : Simulates decodeFeed decodeNext DecodeStands := by
  rintro ⟨state, save⟩ m chunk ⟨bits, started, sign⟩
  obtain rfl : save = m.v := bits
  by_cases empty : chunk = []
  · subst empty
    exact ⟨(state, m.v), by simp [decodeFeed, base64DecodeStep], rfl, started, sign⟩
  have length : chunk.length ≠ 0 := fun none => empty (List.eq_nil_of_length_eq_zero none)
  have finish : ∀ s, LoopStands s m →
      base64DecodeStep state m.v chunk =
        (if (Transducer.run decodeChar s chunk).1.last0 = padding then -(Transducer.run decodeChar s chunk).1.i
          else (Transducer.run decodeChar s chunk).1.i, (Transducer.run decodeChar s chunk).1.v,
          (Transducer.run decodeChar s chunk).2) →
      ∃ t, decodeFeed (state, m.v) chunk = some (t, (Transducer.run decodeNext m chunk).2) ∧
        DecodeStands t (Transducer.run decodeNext m chunk).1 := by
    intro s stands step
    obtain ⟨same, bits, count, started, last⟩ := run_stands stands chunk
    refine ⟨_, by simp only [decodeFeed, step, same]; rfl, bits, started, ?_⟩
    by_cases none : (Transducer.run decodeNext m chunk).1.i = 0
    · simp [count, none]
    · simp only [count, last none]
  by_cases negative : state < 0
  · have pad : m.pad = true := by
      by_contra off
      rw [if_neg off] at sign
      omega
    refine finish { v := m.v, i := -state, last0 := padding, last1 := 0 } ⟨rfl, by dsimp only; omega, started, fun _ => ?_⟩ ?_
    · simp [pad]
    · simp only [base64DecodeStep, length, negative, if_true, if_false]
  · have point : state = m.i := by split at sign <;> omega
    refine finish { v := m.v, i := state, last0 := 0, last1 := 0 } ⟨rfl, point, started, fun open_ => ?_⟩ ?_
    · have pad : m.pad = false := by
        by_contra on
        rw [if_pos (by simpa using on)] at sign
        omega
      simp [pad, padding]
    · simp only [base64DecodeStep, length, negative, if_false]

end Xpl.Text
