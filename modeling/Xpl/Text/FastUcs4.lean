import Xpl.Text.ExtendedCharacters

/-! The decoder to UCS-4 that does not check its input.

It reads a string at positions. It has no result where it reads outside of the string, or
where the program ends because the block it asks for has no positive size.
-/

set_option autoImplicit false

namespace Xpl.Text
open Xpl.Library

section Functions
variable (string : Bytes)

/-- The pass that counts characters by the sizes that their first bytes give. -/
def skipScan (len : Option Nat) : Nat → Nat → Int → Option Int
  | 0, _, _ => none
  | fuel + 1, p, nChars =>
    if len.any (· ≤ p) then some nChars
    else do
      let first ← string[p]?
      if first = 0 then return nChars
      skipScan len fuel (p + utf8Skip first) (wrapInt (nChars + 1))

def contByteFast (p : Nat) : Option Nat := string[p]?.map fun byte => (byte &&& 0x3f).toNat

/-- `while ((wc & mask) != 0)`, for a number of turns: `wc`, `mask` and `p`. -/
def maskLoop : Nat → Nat → Nat → Nat → Option (Nat × Nat × Nat)
  | 0, _, _, _ => none
  | turns + 1, wc, mask, p =>
    if wc &&& mask ≠ 0 then do
      let byte ← contByteFast string p
      maskLoop turns (wc <<< 6 % 2 ^ 32 ||| byte) (mask <<< 5 % 2 ^ 32) (p + 1)
    else some (wc, mask, p)

/-- The character at a position, and the position behind it. The mask has left its 32 bits after three turns. -/
def fastCharacter (p : Nat) : Option (Nat × Nat) := do
  let first ← string[p]?
  if first < 0xc0 then return (first.toNat, p + 1)
  else
    let c1 ← contByteFast string (p + 1)
    if first < 0xe0 then return ((first &&& 0x1f).toNat <<< 6 ||| c1, p + 2)
    else
      let c2 ← contByteFast string (p + 2)
      if first < 0xf0 then return ((first &&& 0x0f).toNat <<< 12 ||| c1 <<< 6 ||| c2, p + 3)
      else
        let c3 ← contByteFast string (p + 3)
        let wc := (first &&& 0x07).toNat <<< 18 ||| c1 <<< 12 ||| c2 <<< 6 ||| c3
        if 0xf8 ≤ first then
          let (wc, mask, p) ← maskLoop string 4 wc (1 <<< 20) (p + 4)
          return (wc &&& (mask + (2 ^ 32 - 1)) % 2 ^ 32, p)
        else return (wc, p + 4)

def fastWrite : Nat → Nat → Option (List Nat)
  | 0, _ => some []
  | count + 1, p => do
    let (wc, p) ← fastCharacter string p
    let result ← fastWrite count p
    return wc :: result

/-- The units that were written, the terminator included, and `items_written`. -/
def xutf8ToUcs4Fast (len : Option Nat) : Option (List Nat × Nat) := do
  let nChars ← skipScan string len (string.length + 1) 0 0
  if 0 < wrapInt (nChars + 1) then
    let result ← fastWrite string nChars.toNat 0
    return (result ++ [0], nChars.toNat)
  else none

end Functions

section Characters
variable {string character : Bytes} {p c : Nat}

theorem contByteFast_of {b : UInt8} (here : string[p]? = some b) : contByteFast string p = some (b.toNat % 64) := by
  rw [contByteFast, here, Option.map_some, and_3f]

theorem or_low {a low : Nat} (small : low < 64) : a * 64 ||| low = a * 64 + low := by
  have joined := @shift_or a low 6 small
  rwa [Nat.shiftLeft_eq] at joined

theorem bit_clear {wc i : Nat} (clear : wc / 2 ^ i % 2 = 0) : wc &&& 2 ^ i = 0 := by
  rw [Nat.and_two_pow, Nat.testBit_eq_decide_div_mod_eq, clear]
  exact Nat.zero_mul _

theorem bit_set {wc i : Nat} (held : wc / 2 ^ i % 2 = 1) : wc &&& 2 ^ i ≠ 0 := by
  rw [Nat.and_two_pow, Nat.testBit_eq_decide_div_mod_eq, held]
  exact Nat.ne_of_gt (Nat.mul_pos Nat.one_pos (Nat.two_pow_pos i))

/-- The six bits of each byte. -/
theorem combined (x : Nat) {c1 c2 c3 : Nat} (one : c1 < 64) (two : c2 < 64) (three : c3 < 64) :
    x <<< 6 ||| c1 = x * 64 + c1 ∧ x <<< 12 ||| c1 <<< 6 ||| c2 = (x * 64 + c1) * 64 + c2 ∧
      x <<< 18 ||| c1 <<< 12 ||| c2 <<< 6 ||| c3 = ((x * 64 + c1) * 64 + c2) * 64 + c3 := by
  have first : x <<< 6 ||| c1 = x * 64 + c1 := shift_or 6 one
  have second : x <<< 12 ||| c1 <<< 6 = (x * 64 + c1) * 64 := by
    rw [Nat.shiftLeft_eq c1, shift_or 12 (by omega)]
    omega
  have third : x <<< 18 ||| c1 <<< 12 ||| c2 <<< 6 = ((x * 64 + c1) * 64 + c2) * 64 := by
    rw [Nat.shiftLeft_eq c1, shift_or 18 (by omega), Nat.shiftLeft_eq c2,
      show x * 2 ^ 18 + c1 * 2 ^ 12 = (x * 64 + c1) * 64 * 64 by omega]
    have joined := @shift_or (x * 64 + c1) (c2 * 2 ^ 6) 12 (by omega)
    rw [Nat.shiftLeft_eq] at joined
    rw [show (x * 64 + c1) * 64 * 64 = (x * 64 + c1) * 2 ^ 12 by omega, joined]
    omega
  exact ⟨first, by rw [second, or_low two], by rw [third, or_low three]⟩

/-- The first byte of four announces no more. -/
theorem maskLoop_stops {turns wc : Nat} (clear : wc < 2 ^ 20) : maskLoop string (turns + 1) wc (1 <<< 20) p = some (wc, 2 ^ 20, p) := by
  rw [maskLoop, show (1 <<< 20 : Nat) = 2 ^ 20 from rfl, bit_clear (by omega)]
  exact if_neg (not_not_intro rfl)

/-- Of six bytes one more is taken. -/
theorem maskLoop_goes {turns wc : Nat} {b : UInt8} (here : string[p]? = some b) (above : 2 ^ 20 ≤ wc) (below : wc < 2 ^ 20 + 2 ^ 19) :
    maskLoop string (turns + 2) wc (1 <<< 20) p = some (wc * 64 + b.toNat % 64, 2 ^ 25, p + 1) := by
  have small : b.toNat % 64 < 64 := Nat.mod_lt _ (by decide)
  have shifted : wc <<< 6 % 2 ^ 32 ||| b.toNat % 64 = wc * 64 + b.toNat % 64 := by
    rw [Nat.shiftLeft_eq, Nat.mod_eq_of_lt (by omega)]
    exact or_low small
  rw [maskLoop, show (1 <<< 20 : Nat) = 2 ^ 20 from rfl, if_pos (bit_set (by omega)), contByteFast_of here, Option.bind_eq_bind,
    Option.bind_some, shifted, maskLoop, show 2 ^ 20 <<< 5 % 2 ^ 32 = 2 ^ 25 from rfl, bit_clear (by omega)]
  exact if_neg (not_not_intro rfl)

theorem low_bits_byte (b : UInt8) :
    (b &&& 0x1f).toNat = b.toNat % 32 ∧ (b &&& 0x0f).toNat = b.toNat % 16 ∧ (b &&& 0x07).toNat = b.toNat % 8 := by
  exact ⟨Nat.and_two_pow_sub_one_eq_mod _ 5, Nat.and_two_pow_sub_one_eq_mod _ 4, Nat.and_two_pow_sub_one_eq_mod _ 3⟩

theorem byte_lt_c0 (b : UInt8) : b < 0xc0 ↔ b.toNat < 0xc0 := UInt8.lt_iff_toNat_lt
theorem byte_f8_le (b : UInt8) : 0xf8 ≤ b ↔ 0xf8 ≤ b.toNat := UInt8.le_iff_toNat_le

theorem leadClass_cases {n length wc minCode : Nat} (announced : leadClass n = some (length, wc, minCode)) :
    (n < 0xe0 ∧ length = 2 ∧ wc = n % 32) ∨ (0xe0 ≤ n ∧ n < 0xf0 ∧ length = 3 ∧ wc = n % 16) ∨
      (0xf0 ≤ n ∧ n < 0xf8 ∧ length = 4 ∧ wc = n % 8) ∨ (0xf8 ≤ n ∧ n < 0xfc ∧ length = 5 ∧ wc = n % 4) ∨
        (0xfc ≤ n ∧ n < 0xfe ∧ length = 6 ∧ wc = n % 2) := by
  unfold leadClass at announced
  split_ifs at announced <;> cases announced <;> omega

theorem fastCharacter_four {a b c d : UInt8} (here : string[p]? = some a) (large : 0xf0 ≤ a.toNat) (one : string[p + 1]? = some b)
    (two : string[p + 2]? = some c) (three : string[p + 3]? = some d) :
    fastCharacter string p =
      if 0xf8 ≤ a then do
        let (wc, mask, p) ← maskLoop string 4
          (((a.toNat % 8 * 64 + b.toNat % 64) * 64 + c.toNat % 64) * 64 + d.toNat % 64) (1 <<< 20) (p + 4)
        return (wc &&& (mask + (2 ^ 32 - 1)) % 2 ^ 32, p)
      else some (((a.toNat % 8 * 64 + b.toNat % 64) * 64 + c.toNat % 64) * 64 + d.toNat % 64, p + 4) := by
  have bounds : ∀ x : Nat, x % 64 < 64 := fun x => Nat.mod_lt x (by decide)
  rw [fastCharacter, here, some_bind, if_neg (by rw [byte_lt_c0]; omega), contByteFast_of one, Option.bind_eq_bind,
    Option.bind_some, if_neg (by rw [byte_lt_e0]; omega), contByteFast_of two, Option.bind_eq_bind, Option.bind_some,
    if_neg (by rw [byte_lt_f0]; omega), contByteFast_of three, Option.bind_some, (low_bits_byte a).2.2,
    (combined _ (bounds _) (bounds _) (bounds _)).2.2]
  rfl

/-- The mask stops the loop too early: a character of five or six bytes loses its last byte, and with it six bits. -/
theorem fastCharacter_encoded (encoded : Encoded c character) (reads : Reads string p character) :
    if character.length ≤ 4 then fastCharacter string p = some (c, p + character.length)
    else ∃ next, fastCharacter string p = some (c / 64, next) := by
  have bounds : ∀ x : Nat, x % 64 < 64 := fun x => Nat.mod_lt x (by decide)
  cases encoded with
  | @single a nonzero small =>
    have here : string[p]? = some a := reads 0 Nat.one_pos
    rw [if_pos (show [a].length ≤ 4 from Nat.one_le_ofNat), fastCharacter, here, some_bind,
      if_pos (by rw [byte_lt_c0]; omega)]
    rfl
  | @multiple a tail wc minCode announced continued least =>
    obtain ⟨large, _⟩ := leadClass_facts announced
    obtain ⟨here, rest⟩ := tail_reads reads
    rcases leadClass_cases announced with ⟨high, two, rfl⟩ | ⟨low, high, three, rfl⟩ | ⟨low, high, four, rfl⟩ | ⟨low, high, five, rfl⟩ |
      ⟨low, high, six, rfl⟩
    · obtain ⟨b, rfl⟩ := List.length_eq_one_iff.mp (by omega : tail.length = 1)
      have second : string[p + 1]? = some b := rest 0 (by simp)
      rw [if_pos (show [a, b].length ≤ 4 by simp), fastCharacter, here, some_bind,
        if_neg (by rw [byte_lt_c0]; omega), contByteFast_of second, some_bind,
        if_pos (by rw [byte_lt_e0]; omega), (low_bits_byte a).1, (combined _ (bounds _) (bounds 0) (bounds 0)).1]
      rfl
    · obtain ⟨b, d, rfl⟩ := List.length_eq_two.mp (by omega : tail.length = 2)
      have second : string[p + 1]? = some b := rest 0 (by simp)
      have third : string[p + 2]? = some d := rest 1 (by simp)
      rw [if_pos (show [a, b, d].length ≤ 4 by simp), fastCharacter, here, some_bind,
        if_neg (by rw [byte_lt_c0]; omega), contByteFast_of second, some_bind,
        if_neg (by rw [byte_lt_e0]; omega), contByteFast_of third, some_bind,
        if_pos (by rw [byte_lt_f0]; omega), (low_bits_byte a).2.1, (combined _ (bounds _) (bounds _) (bounds 0)).2.1]
      rfl
    · obtain ⟨b, d, e, rfl⟩ := List.length_eq_three.mp (by omega : tail.length = 3)
      rw [if_pos (show [a, b, d, e].length ≤ 4 by simp), fastCharacter_four here low (rest 0 (by simp))
        (rest 1 (by simp)) (rest 2 (by simp)), if_neg (by rw [byte_f8_le]; omega)]
      rfl
    · obtain ⟨b, d, e, f, rfl⟩ : ∃ b d e f, tail = [b, d, e, f] := by
        exact List.length_eq_four.mp (by omega : tail.length = 4)
      have value : payload (a.toNat % 4) [b, d, e, f] / 64 =
          ((a.toNat % 8 * 64 + b.toNat % 64) * 64 + d.toNat % 64) * 64 + e.toNat % 64 := by
        simp only [payload, List.foldl_cons, List.foldl_nil]
        omega
      rw [if_neg (show ¬[a, b, d, e, f].length ≤ 4 by simp), fastCharacter_four here (by omega) (rest 0 (by simp))
        (rest 1 (by simp)) (rest 2 (by simp)), if_pos (by rw [byte_f8_le]; omega), ← value]
      have small : payload (a.toNat % 4) [b, d, e, f] / 64 < 2 ^ 20 := by omega
      rw [maskLoop_stops small, some_bind]
      refine ⟨p + 4, congrArg some (Prod.ext ?_ rfl)⟩
      exact (Nat.and_two_pow_sub_one_eq_mod _ 20).trans (Nat.mod_eq_of_lt small)
    · obtain ⟨b, d, e, f, g, rfl⟩ : ∃ b d e f g, tail = [b, d, e, f, g] := by
        obtain ⟨b, others, rfl⟩ := List.exists_cons_of_length_pos (by omega : 0 < tail.length)
        rw [List.length_cons] at six
        obtain ⟨d, e, f, g, rfl⟩ := List.length_eq_four.mp (by omega : others.length = 4)
        exact ⟨b, d, e, f, g, rfl⟩
      have value : payload (a.toNat % 2) [b, d, e, f, g] / 64 + 2 ^ 26 =
          (((a.toNat % 8 * 64 + b.toNat % 64) * 64 + d.toNat % 64) * 64 + e.toNat % 64) * 64 + f.toNat % 64 := by
        simp only [payload, List.foldl_cons, List.foldl_nil]
        omega
      rw [if_neg (show ¬[a, b, d, e, f, g].length ≤ 4 by simp), fastCharacter_four here (by omega) (rest 0 (by simp))
        (rest 1 (by simp)) (rest 2 (by simp)), if_pos (by rw [byte_f8_le]; omega),
        maskLoop_goes (rest 3 (by simp)) (by omega) (by omega), some_bind, ← value]
      refine ⟨p + 5, congrArg some (Prod.ext ?_ rfl)⟩
      refine (Nat.and_two_pow_sub_one_eq_mod _ 25).trans ?_
      omega

end Characters

section Passes
variable {string tail : Bytes} {p : Nat} {chars : List (Nat × Bytes)}

theorem skipScan_succ {a : UInt8} (here : string[p]? = some a) (fuel : Nat) (count : Int) :
    skipScan string none (fuel + 1) p count =
      if a = 0 then some count else skipScan string none fuel (p + utf8Skip a) (wrapInt (count + 1)) := by
  rw [skipScan, here]
  rfl

theorem skipScan_spell (all : AllEncoded chars) (reads : Reads string p (spell chars)) (fuel : Nat) (k : Int) :
    skipScan string none (fuel + chars.length) p (wrapInt k) =
      skipScan string none fuel (p + (spell chars).length) (wrapInt (k + chars.length)) := by
  induction chars generalizing p k with
  | nil =>
    change skipScan string none fuel p (wrapInt k) = skipScan string none fuel p (wrapInt (k + 0))
    rw [Int.add_zero]
  | cons char chars ih =>
    rw [spell_cons] at reads ⊢
    obtain ⟨a, rest, shape, nonzero, skip, _⟩ := all.head.lead
    have here : string[p]? = some a := by
      have read := reads.left 0 all.head.length_pos
      rwa [shape] at read
    have next := ih all.tail reads.right (k + 1)
    rw [List.length_cons, ← Nat.add_assoc, skipScan_succ here, if_neg nonzero, skip, show wrapInt (wrapInt k + 1) = wrapInt (k + 1) from wrapInt_add k 1, next, List.length_append, Nat.add_assoc]
    congr 2
    omega

/-- The counting pass ends at the terminator, or it jumps over it where a character has been cut off. -/
theorem skipScan_terminated (ends : tail = [] ∨ Truncated tail) (reads : Reads string p (tail ++ [0]))
    (size : string.length = p + tail.length + 1) (noNul : 0 ∉ tail) (fuel : Nat) (count : Int) :
    skipScan string none (fuel + 2) p count = if tail = [] then some count else none := by
  rcases ends with rfl | ⟨a, rest, length, wc, minCode, rfl, announced, continued, short⟩
  · have here : string[p]? = some 0 := reads 0 Nat.one_pos
    rw [skipScan_succ here]
    rfl
  · have here : string[p]? = some a := reads.left 0 (Nat.succ_pos _)
    have nonzero : a ≠ 0 := fun zero => noNul (zero ▸ List.mem_cons_self)
    have beyond : string[p + utf8Skip a]? = none := by
      rw [(leadClass_facts announced).2.1]
      exact List.getElem?_eq_none (by omega)
    rw [skipScan_succ here, if_neg nonzero, skipScan, beyond, if_neg (List.cons_ne_nil a rest)]
    rfl

/-- The writing pass gives the values of the characters as long as these take no more than four bytes. -/
theorem fastWrite_iff (all : AllEncoded chars) (reads : Reads string p (spell chars)) :
    fastWrite string chars.length p = some (codes chars) ↔ ∀ char ∈ chars, char.2.length ≤ 4 := by
  induction chars generalizing p with
  | nil => exact ⟨fun _ char none => absurd none List.not_mem_nil, fun _ => rfl⟩
  | cons char chars ih =>
    have first := fastCharacter_encoded all.head reads.left
    rw [List.forall_mem_cons, List.length_cons, fastWrite]
    by_cases short : char.2.length ≤ 4
    · rw [if_pos short] at first
      rw [first, some_bind, ← ih all.tail reads.right]
      constructor
      · intro wrote
        obtain ⟨result, found, joined⟩ := Option.bind_eq_some_iff.mp wrote
        refine ⟨short, found.trans ?_⟩
        exact congrArg some (List.cons.inj (Option.some.inj joined)).2
      · rintro ⟨_, found⟩
        dsimp only
        rw [found]
        rfl
    · rw [if_neg short] at first
      obtain ⟨next, found⟩ := first
      rw [found, some_bind]
      refine ⟨fun wrote => ?_, fun ⟨held, _⟩ => absurd held short⟩
      obtain ⟨result, _, joined⟩ := Option.bind_eq_some_iff.mp wrote
      have value : char.1 / 64 = char.1 := (List.cons.inj (Option.some.inj joined)).1
      have positive := all.head.bounds.1
      omega

end Passes

section Agreement
variable {alloc : Nat → Bool} {string tail : Bytes} {chars : List (Nat × Bytes)} {wantsRead : Bool} {units : List Nat} {read written : Nat}

theorem total_one (text : List Nat) : total (fun _ => 1) text = text.length := by
  rw [total, List.map_const', List.sum_replicate_nat, Nat.mul_one]

theorem reads_terminated (split : string = spell chars ++ tail) : Reads (string ++ [0]) 0 (spell chars ++ (tail ++ [0])) := by
  intro k below
  rw [Nat.zero_add, split, List.append_assoc]

/-- A block for so many characters is only served when the count has not become negative. -/
theorem wrapInt_served {n : Nat} (served : tryMallocN alloc (wrapInt (wrapInt n + 1)) 4 = true) :
    wrapInt n = (n % 2 ^ 32 : Nat) ∧ n % 2 ^ 32 + 1 < 2 ^ 31 ∧ wrapInt (wrapInt n + 1) = (n % 2 ^ 32 + 1 : Nat) := by
  have first := wrapInt_cases n
  have second := wrapInt_cases (wrapInt n + 1)
  simp only [tryMallocN, Bool.and_eq_true, decide_eq_true_eq] at served
  omega

/-- The characters that the checked decoder accepts, and what it makes of them. -/
theorem xutf8ToUcs4_written (noNul : 0 ∉ string) (split : string = spell chars ++ tail) (all : AllEncoded chars)
    (ends : tail = [] ∨ Truncated tail ∨ Broken tail)
    (accepted : xutf8ToUcs4 alloc (string ++ [0]) none wantsRead = some (.written units read written)) :
    (tail = [] ∨ Truncated tail) ∧ written = chars.length % 2 ^ 32 ∧ written + 1 < 2 ^ 31 ∧
      wrapInt chars.length = (written : Int) ∧ units = codes (chars.take written) ++ [0] := by
  have noNulTail : 0 ∉ tail := fun held => noNul (split ▸ List.mem_append_right _ held)
  have start := reads_terminated split
  have fewer := length_le_spell all
  have size := congrArg List.length split
  rw [List.length_append] at size
  obtain ⟨fuel, enough⟩ : ∃ fuel, (string ++ [0]).length + 1 = fuel + 1 + chars.length :=
    ⟨(string ++ [0]).length - chars.length, by rw [List.length_append]; omega⟩
  have scanned := utf8Scan_spell (fun _ => .ok 1) wantsRead (fun _ => 1) all (fun _ _ => rfl) start.left
    (fun n (impossible : (none : Option Nat) = some n) => (nomatch impossible)) (fuel + 1) 0
  rw [← enough, wrapInt_zero, total_one, codes, List.length_map, Int.zero_add] at scanned
  obtain ⟨cut, isCut, outcome⟩ := utf8Scan_terminated (fun _ => .ok 1) wantsRead noNulTail ends start.right fuel
    (wrapInt chars.length)
  rw [outcome] at scanned
  rw [xutf8ToUcs4, convertUtf8, scanned, some_bind] at accepted
  split at accepted
  · cases accepted
  · next count stop result =>
    obtain ⟨fine, rfl⟩ := Prod.mk.inj result
    obtain ⟨ended, same⟩ := scanOutcome_ok fine
    rw [same] at accepted
    by_cases served : tryMallocN alloc (wrapInt (wrapInt chars.length + 1)) 4 = true
    · obtain ⟨count, fits, block⟩ := wrapInt_served served
      obtain ⟨m, few⟩ : ∃ m, chars.length % 2 ^ 32 = m := ⟨_, rfl⟩
      rw [few] at count fits block
      have le : m ≤ chars.length := few ▸ Nat.mod_le _ _
      have front : (chars.take m).length = m := List.length_take_of_le le
      have allFront : AllEncoded (chars.take m) := fun char member => all char (List.mem_of_mem_take member)
      have readsFront : Reads (string ++ [0]) 0 (spell (chars.take m)) := by
        have reads := start.left
        rw [← List.take_append_drop m chars, spell_append] at reads
        exact reads.left
      have length : ((codes (chars.take m)).flatMap fun wc => [wc]).length = m := by
        rw [List.flatMap_singleton', codes, List.length_map, front]
      have counts : (m : Int) = (0 : Nat) + ((codes (chars.take m)).flatMap fun wc => [wc]).length := by
        omega
      have capacity : 0 + ((codes (chars.take m)).flatMap fun wc => [wc]).length < m + 1 := by omega
      have turns : (chars.take m).length < (string ++ [0]).length + 1 := by
        omega
      have wrote := utf8Write_spell (fun wc => [wc]) (fun c => List.cons_ne_nil c []) allFront readsFront counts capacity turns
      rw [if_pos served, block, count, Int.toNat_natCast, wrote, List.flatMap_singleton'] at accepted
      cases accepted
      refine ⟨ended.imp_right isCut.mp, ?_, ?_, ?_, ?_⟩
      · exact (Int.toNat_natCast m).trans few.symm
      · rwa [Int.toNat_natCast]
      · exact count
      · rw [Int.toNat_natCast]
    · rw [if_neg served] at accepted
      cases accepted

/-- The fast decoder on characters, up to a place where they end or break off. -/
theorem xutf8ToUcs4Fast_spell (noNul : 0 ∉ string) (split : string = spell chars ++ tail) (all : AllEncoded chars)
    (ends : tail = [] ∨ Truncated tail) (few : written = chars.length % 2 ^ 32) (fits : written + 1 < 2 ^ 31)
    (count : wrapInt chars.length = written) (result : units = codes (chars.take written) ++ [0]) :
    xutf8ToUcs4Fast (string ++ [0]) none = some (units, written) ↔ tail = [] ∧ ∀ char ∈ chars.take written, char.2.length ≤ 4 := by
  have start := reads_terminated split
  have noNulTail : 0 ∉ tail := fun held => noNul (split ▸ List.mem_append_right _ held)
  have fewer := length_le_spell all
  have size : (string ++ [0]).length = 0 + (spell chars).length + tail.length + 1 := by
    rw [split, List.length_append, List.length_append, Nat.zero_add]
    rfl
  obtain ⟨fuel, enough⟩ : ∃ fuel, (string ++ [0]).length + 1 = fuel + 2 + chars.length := ⟨(string ++ [0]).length - chars.length - 1, by omega⟩
  have counted := skipScan_spell all start.left (fuel + 2) 0
  rw [← enough, wrapInt_zero, Int.zero_add, skipScan_terminated ends start.right size noNulTail, count] at counted
  rw [xutf8ToUcs4Fast, counted]
  by_cases done : tail = []
  · have le : written ≤ chars.length := few ▸ Nat.mod_le _ _
    have front : (chars.take written).length = written := List.length_take_of_le le
    have allFront : AllEncoded (chars.take written) := fun char member => all char (List.mem_of_mem_take member)
    have readsFront : Reads (string ++ [0]) 0 (spell (chars.take written)) := by
      have reads := start.left
      rw [← List.take_append_drop written chars, spell_append] at reads
      exact reads.left
    have block : 0 < wrapInt ((written : Int) + 1) := by
      have cases := wrapInt_cases ((written : Int) + 1)
      omega
    have writes := fastWrite_iff allFront readsFront
    rw [front] at writes
    rw [if_pos done, some_bind, if_pos block, Int.toNat_natCast, result, ← writes]
    constructor
    · intro wrote
      obtain ⟨list, found, joined⟩ := Option.bind_eq_some_iff.mp wrote
      have same := (Prod.mk.inj (Option.some.inj joined)).1
      exact ⟨done, found.trans (congrArg some (List.append_cancel_right same))⟩
    · rintro ⟨_, found⟩
      rw [found]
      rfl
  · rw [if_neg done]
    exact ⟨nofun, fun ⟨empty, _⟩ => absurd empty done⟩

/-- The decoders agree on the strings of complete characters of which none that is converted takes five or six bytes. -/
theorem xutf8ToUcs4Fast_agrees_iff (alloc : Nat → Bool) (string : Bytes) (wantsRead : Bool) (units : List Nat) (read written : Nat)
    (noNul : 0 ∉ string) (accepted : xutf8ToUcs4 alloc (string ++ [0]) none wantsRead = some (.written units read written)) :
    xutf8ToUcs4Fast (string ++ [0]) none = some (units, written) ↔
      ∃ chars, AllEncoded chars ∧ string = spell chars ∧ ∀ char ∈ chars.take (chars.length % 2 ^ 32), char.2.length ≤ 4 := by
  constructor
  · intro agrees
    obtain ⟨chars, tail, split, all, ends⟩ := exists_characters string
    obtain ⟨ended, few, fits, count, result⟩ := xutf8ToUcs4_written noNul split all ends accepted
    obtain ⟨done, short⟩ := (xutf8ToUcs4Fast_spell noNul split all ended few fits count result).mp agrees
    rw [few] at short
    exact ⟨chars, all, by rw [split, done, List.append_nil], short⟩
  · rintro ⟨chars, all, split, short⟩
    have whole : string = spell chars ++ [] := by rw [split, List.append_nil]
    obtain ⟨ended, few, fits, count, result⟩ := xutf8ToUcs4_written noNul whole all (Or.inl rfl) accepted
    rw [← few] at short
    exact (xutf8ToUcs4Fast_spell noNul whole all ended few fits count result).mpr ⟨rfl, short⟩

/-- Characters of one, two, three and four bytes. -/
theorem xutf8ToUcs4Fast_agrees_iff_witness :
    ∃ chars, AllEncoded chars ∧ [0x61, 0xc3, 0xa9, 0xe2, 0x82, 0xac, 0xf0, 0x9f, 0x98, 0x80] = spell chars ∧
      ∀ char ∈ chars.take (chars.length % 2 ^ 32), char.2.length ≤ 4 :=
  (xutf8ToUcs4Fast_agrees_iff (fun _ => true) [0x61, 0xc3, 0xa9, 0xe2, 0x82, 0xac, 0xf0, 0x9f, 0x98, 0x80] false
    [0x61, 0xe9, 0x20ac, 0x1f600, 0] 10 4 (by decide) (by decide +kernel)).mp (by decide +kernel)

/-- A character of five bytes, which the checked decoder takes for 0x200000. -/
theorem xutf8ToUcs4Fast_five_bytes : ¬∀ (alloc : Nat → Bool) (string : Bytes) (wantsRead : Bool) (units : List Nat) (read written : Nat),
    0 ∉ string → xutf8ToUcs4 alloc (string ++ [0]) none wantsRead = some (.written units read written) →
      xutf8ToUcs4Fast (string ++ [0]) none = some (units, written) := by
  intro agrees
  have fast := agrees (fun _ => true) [0xf8, 0x88, 0x80, 0x80, 0x80] false [0x200000, 0] 5 1 (by decide) (by decide +kernel)
  exact absurd fast (by decide +kernel)

end Agreement

end Xpl.Text
