import Mathlib.Data.Nat.Bitwise
import Xpl.Library.Bytes

/-! Unicode scalar values and their encodings in bytes and in 16-bit units. -/

set_option autoImplicit false

namespace Xpl.Library
variable {c : Nat}

def IsScalar (c : Nat) : Prop := c < 0xd800 ∨ 0xe000 ≤ c ∧ c < 0x110000

instance (c : Nat) : Decidable (IsScalar c) := inferInstanceAs (Decidable (_ ∨ _))

/-- The shortest form of a character in bytes. -/
def utf8 (c : Nat) : Bytes :=
  if c < 0x80 then [UInt8.ofNat c]
  else if c < 0x800 then [UInt8.ofNat (0xc0 + c / 64), UInt8.ofNat (0x80 + c % 64)]
  else if c < 0x10000 then
    [UInt8.ofNat (0xe0 + c / 4096), UInt8.ofNat (0x80 + c / 64 % 64), UInt8.ofNat (0x80 + c % 64)]
  else
    [UInt8.ofNat (0xf0 + c / 262144), UInt8.ofNat (0x80 + c / 4096 % 64), UInt8.ofNat (0x80 + c / 64 % 64),
      UInt8.ofNat (0x80 + c % 64)]

/-- A character as one unit, or as a high and a low surrogate. -/
def utf16 (c : Nat) : List Nat :=
  if c < 0x10000 then [c] else [0xd800 + (c - 0x10000) / 0x400, 0xdc00 + (c - 0x10000) % 0x400]

/-- Characters that a NUL-terminated string can hold. -/
def IsText (text : List Nat) : Prop := ∀ c ∈ text, IsScalar c ∧ c ≠ 0

/-- The byte strings that encode a text. -/
def IsUtf8 (bytes : Bytes) : Prop := ∃ text, IsText text ∧ bytes = text.flatMap utf8

theorem IsScalar.lt (scalar : IsScalar c) : c < 0x110000 := by
  unfold IsScalar at scalar
  omega

theorem IsText.head {text : List Nat} (valid : IsText (c :: text)) : IsScalar c ∧ c ≠ 0 :=
  valid c List.mem_cons_self

theorem IsText.tail {text : List Nat} (valid : IsText (c :: text)) : IsText text :=
  fun other member => valid other (List.mem_cons_of_mem _ member)

theorem IsText.append_left {front back : List Nat} (valid : IsText (front ++ back)) : IsText front :=
  fun c member => valid c (List.mem_append_left _ member)

theorem IsText.append_right {front back : List Nat} (valid : IsText (front ++ back)) : IsText back :=
  fun c member => valid c (List.mem_append_right _ member)

theorem utf8_ne_nil (c : Nat) : utf8 c ≠ [] := by
  unfold utf8
  split
  · simp
  · split
    · simp
    · split <;> simp

/-! ## Bytes as numbers -/

theorem toNat_byte {n : Nat} (small : n < 256) : (UInt8.ofNat n).toNat = n := by
  exact Nat.mod_eq_of_lt small

/-- Appending the payload of a byte to the bits that were read before it. -/
theorem shift_or {high low : Nat} (width : Nat) (small : low < 2 ^ width) :
    high <<< width ||| low = high * 2 ^ width + low := by
  rw [← Nat.shiftLeft_add_eq_or_of_lt small, Nat.shiftLeft_eq]

/-! ## Shapes of the encoded characters -/

theorem utf8_one (small : c < 0x80) : utf8 c = [UInt8.ofNat c] := if_pos small

theorem utf8_two (above : 0x80 ≤ c) (below : c < 0x800) :
    utf8 c = [UInt8.ofNat (0xc0 + c / 64), UInt8.ofNat (0x80 + c % 64)] := by
  rw [utf8, if_neg (by omega), if_pos below]

theorem utf8_three (above : 0x800 ≤ c) (below : c < 0x10000) :
    utf8 c = [UInt8.ofNat (0xe0 + c / 4096), UInt8.ofNat (0x80 + c / 64 % 64), UInt8.ofNat (0x80 + c % 64)] := by
  rw [utf8, if_neg (by omega), if_neg (by omega), if_pos below]

theorem utf8_four (above : 0x10000 ≤ c) :
    utf8 c = [UInt8.ofNat (0xf0 + c / 262144), UInt8.ofNat (0x80 + c / 4096 % 64), UInt8.ofNat (0x80 + c / 64 % 64),
      UInt8.ofNat (0x80 + c % 64)] := by
  rw [utf8, if_neg (by omega), if_neg (by omega), if_neg (by omega)]

theorem utf8_byte (scalar : IsScalar c) (nonzero : c ≠ 0) {b : UInt8} (held : b ∈ utf8 c) :
    0 < b.toNat ∧ b.toNat < 0xf5 := by
  have bound := scalar.lt
  rcases (by omega : c < 0x80 ∨ (0x80 ≤ c ∧ c < 0x800) ∨ (0x800 ≤ c ∧ c < 0x10000) ∨ 0x10000 ≤ c) with
    one | two | three | four
  · rw [utf8_one one, List.mem_singleton] at held
    rw [held, toNat_byte (by omega)]
    omega
  · rw [utf8_two two.1 two.2] at held
    simp only [List.mem_cons, List.not_mem_nil, or_false] at held
    rcases held with rfl | rfl <;> rw [toNat_byte (by omega)] <;> omega
  · rw [utf8_three three.1 three.2] at held
    simp only [List.mem_cons, List.not_mem_nil, or_false] at held
    rcases held with rfl | rfl | rfl <;> rw [toNat_byte (by omega)] <;> omega
  · rw [utf8_four four] at held
    simp only [List.mem_cons, List.not_mem_nil, or_false] at held
    rcases held with rfl | rfl | rfl | rfl <;> rw [toNat_byte (by omega)] <;> omega

theorem IsUtf8.no_zero {bytes : Bytes} (valid : IsUtf8 bytes) : ∀ b ∈ bytes, b ≠ 0 := by
  obtain ⟨text, is_text, rfl⟩ := valid
  intro b member zero
  obtain ⟨c, within, held⟩ := List.mem_flatMap.mp member
  have positive := (utf8_byte (is_text c within).1 (is_text c within).2 held).1
  rw [zero] at positive
  exact absurd positive (by decide)

theorem isUtf8_of_ascii {bytes : Bytes} (ascii : ∀ b ∈ bytes, 0 < b.toNat ∧ b.toNat < 0x80) : IsUtf8 bytes := by
  refine ⟨bytes.map UInt8.toNat, ?_, ?_⟩
  · intro c given
    obtain ⟨b, held, rfl⟩ := List.mem_map.mp given
    have range := ascii b held
    exact ⟨.inl (by omega), by omega⟩
  · induction bytes with
    | nil => rfl
    | cons b bytes ih =>
      obtain ⟨first, others⟩ := List.forall_mem_cons.mp ascii
      rw [List.map_cons, List.flatMap_cons, utf8_one first.2, ← ih others, UInt8.ofNat_toNat]
      rfl

/-! ## Reassembled characters -/

theorem utf8_of_two {a b : UInt8} (first : 0xc2 ≤ a.toNat ∧ a.toNat < 0xe0) (second : 0x80 ≤ b.toNat ∧ b.toNat < 0xc0) :
    utf8 ((a.toNat - 0xc0) * 64 + (b.toNat - 0x80)) = [a, b] := by
  rw [utf8_two (by omega) (by omega)]
  have high : 0xc0 + ((a.toNat - 0xc0) * 64 + (b.toNat - 0x80)) / 64 = a.toNat := by omega
  have low : 0x80 + ((a.toNat - 0xc0) * 64 + (b.toNat - 0x80)) % 64 = b.toNat := by omega
  rw [high, low, UInt8.ofNat_toNat, UInt8.ofNat_toNat]

theorem utf8_of_three {a b c : UInt8} (first : 0xe0 ≤ a.toNat ∧ a.toNat < 0xf0)
    (second : 0x80 ≤ b.toNat ∧ b.toNat < 0xc0) (third : 0x80 ≤ c.toNat ∧ c.toNat < 0xc0)
    (shortest : a.toNat = 0xe0 → 0xa0 ≤ b.toNat) :
    utf8 ((a.toNat - 0xe0) * 4096 + (b.toNat - 0x80) * 64 + (c.toNat - 0x80)) = [a, b, c] := by
  rw [utf8_three (by omega) (by omega)]
  have high : 0xe0 + ((a.toNat - 0xe0) * 4096 + (b.toNat - 0x80) * 64 + (c.toNat - 0x80)) / 4096 = a.toNat := by omega
  have middle : 0x80 + ((a.toNat - 0xe0) * 4096 + (b.toNat - 0x80) * 64 + (c.toNat - 0x80)) / 64 % 64 = b.toNat := by
    omega
  have low : 0x80 + ((a.toNat - 0xe0) * 4096 + (b.toNat - 0x80) * 64 + (c.toNat - 0x80)) % 64 = c.toNat := by omega
  rw [high, middle, low, UInt8.ofNat_toNat, UInt8.ofNat_toNat, UInt8.ofNat_toNat]

theorem utf8_of_four {a b c d : UInt8} (first : 0xf0 ≤ a.toNat ∧ a.toNat < 0xf8)
    (second : 0x80 ≤ b.toNat ∧ b.toNat < 0xc0) (third : 0x80 ≤ c.toNat ∧ c.toNat < 0xc0)
    (fourth : 0x80 ≤ d.toNat ∧ d.toNat < 0xc0) (shortest : a.toNat = 0xf0 → 0x90 ≤ b.toNat) :
    utf8 ((a.toNat - 0xf0) * 262144 + (b.toNat - 0x80) * 4096 + (c.toNat - 0x80) * 64 + (d.toNat - 0x80)) =
      [a, b, c, d] := by
  rw [utf8_four (by omega)]
  have high : 0xf0 + ((a.toNat - 0xf0) * 262144 + (b.toNat - 0x80) * 4096 + (c.toNat - 0x80) * 64 +
      (d.toNat - 0x80)) / 262144 = a.toNat := by omega
  have second : 0x80 + ((a.toNat - 0xf0) * 262144 + (b.toNat - 0x80) * 4096 + (c.toNat - 0x80) * 64 +
      (d.toNat - 0x80)) / 4096 % 64 = b.toNat := by omega
  have third : 0x80 + ((a.toNat - 0xf0) * 262144 + (b.toNat - 0x80) * 4096 + (c.toNat - 0x80) * 64 +
      (d.toNat - 0x80)) / 64 % 64 = c.toNat := by omega
  have low : 0x80 + ((a.toNat - 0xf0) * 262144 + (b.toNat - 0x80) * 4096 + (c.toNat - 0x80) * 64 +
      (d.toNat - 0x80)) % 64 = d.toNat := by omega
  rw [high, second, third, low, UInt8.ofNat_toNat, UInt8.ofNat_toNat, UInt8.ofNat_toNat, UInt8.ofNat_toNat]

end Xpl.Library
