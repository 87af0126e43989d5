import Mathlib.Data.List.Basic
import Mathlib.Data.List.TakeWhile
import Mathlib.Tactic.Ring

/-! Byte strings: little-endian words of a given width, and the half-open ranges
`[start, stop)` that the readers of a format cut out of them. -/

set_option autoImplicit false

namespace Xpl.Library

abbrev Bytes := List UInt8

def leBytes : Nat → Nat → Bytes
  | 0, _ => []
  | width + 1, value => UInt8.ofNat (value % 256) :: leBytes width (value / 256)

def leValue : Bytes → Nat
  | [] => 0
  | b :: bs => b.toNat + 256 * leValue bs

def beBytes (width value : Nat) : Bytes := (leBytes width value).reverse

@[simp] theorem length_leBytes (width value : Nat) : (leBytes width value).length = width := by
  induction width generalizing value with
  | zero => rfl
  | succ width ih => simp [leBytes, ih]

@[simp] theorem length_beBytes (width value : Nat) : (beBytes width value).length = width := by
  simp [beBytes]

theorem leValue_leBytes (width value : Nat) (fits : value < 256 ^ width) :
    leValue (leBytes width value) = value := by
  induction width generalizing value with
  | zero =>
    simp only [leBytes, leValue]
    omega
  | succ width ih =>
    have rest : value / 256 < 256 ^ width := by
      apply (Nat.div_lt_iff_lt_mul (by decide : 0 < 256)).2
      simpa [Nat.pow_succ] using fits
    have low : (UInt8.ofNat (value % 256)).toNat = value % 256 := by simp
    simp only [leBytes, leValue, ih _ rest, low]
    exact Nat.mod_add_div value 256

theorem leBytes_leValue (bytes : Bytes) : leBytes bytes.length (leValue bytes) = bytes := by
  induction bytes with
  | nil => rfl
  | cons b bs ih =>
    have bound := b.toNat_lt
    have low : (b.toNat + 256 * leValue bs) % 256 = b.toNat := by omega
    have rest : (b.toNat + 256 * leValue bs) / 256 = leValue bs := by omega
    simp only [List.length_cons, leValue, leBytes, low, rest, ih, UInt8.ofNat_toNat]

theorem leValue_lt (bytes : Bytes) : leValue bytes < 256 ^ bytes.length := by
  induction bytes with
  | nil => simp [leValue]
  | cons b bs ih =>
    have bound := b.toNat_lt
    simp only [leValue, List.length_cons, Nat.pow_succ]
    omega

theorem leBytes_add (n width more : Nat) : leBytes (width + more) n = leBytes width n ++ leBytes more (n / 256 ^ width) := by
  induction width generalizing n with
  | zero => simp [leBytes]
  | succ width ih =>
    rw [Nat.succ_add, leBytes, leBytes, ih (n / 256), Nat.div_div_eq_div_mul, Nat.pow_succ, Nat.mul_comm 256]
    rfl

theorem leBytes_add_mul (n high width : Nat) : leBytes width (n + 256 ^ width * high) = leBytes width n := by
  induction width generalizing n high with
  | zero => rfl
  | succ width ih =>
    have power : 256 ^ (width + 1) * high = 256 * (256 ^ width * high) := by
      ring
    have rest : (n + 256 ^ (width + 1) * high) / 256 = n / 256 + 256 ^ width * high := by omega
    have first : (n + 256 ^ (width + 1) * high) % 256 = n % 256 := by omega
    rw [leBytes, leBytes, first, rest, ih]

/-- The bytes of the half-open range `[start, stop)`. -/
def slice (bytes : Bytes) (start stop : Nat) : Bytes :=
  (bytes.drop start).take (stop - start)

theorem length_slice (bytes : Bytes) (start stop : Nat) (bounded : stop ≤ bytes.length) :
    (slice bytes start stop).length = stop - start := by
  simp only [slice, List.length_take, List.length_drop]
  omega

theorem slice_append_left (front back : Bytes) (start stop : Nat) (bounded : stop ≤ front.length) :
    slice (front ++ back) start stop = slice front start stop := by
  by_cases inside : start ≤ front.length
  · simp only [slice, List.drop_append_of_le_length inside]
    exact List.take_append_of_le_length (by simp only [List.length_drop]; omega)
  · have empty : stop - start = 0 := by omega
    simp [slice, empty]

theorem slice_append_right (front back : Bytes) (start stop : Nat) :
    slice (front ++ back) (front.length + start) (front.length + stop) = slice back start stop := by
  have width : front.length + stop - (front.length + start) = stop - start := by omega
  rw [slice, width, ← List.drop_drop, List.drop_left]
  rfl

theorem slice_middle (front part back : Bytes) :
    slice (front ++ (part ++ back)) front.length (front.length + part.length) = part := by
  simp [slice]

theorem slice_join (bytes : Bytes) (start middle stop : Nat) (ordered : start ≤ middle)
    (onward : middle ≤ stop) :
    slice bytes start middle ++ slice bytes middle stop = slice bytes start stop := by
  obtain ⟨first, rfl⟩ := Nat.exists_eq_add_of_le ordered
  obtain ⟨second, rfl⟩ := Nat.exists_eq_add_of_le onward
  have widths : start + first - start = first ∧ start + first + second - (start + first) = second ∧
      start + first + second - start = first + second := by omega
  simp only [slice, widths]
  rw [← List.drop_drop, List.take_add]

/-- The two parts of a range. -/
theorem slice_split {bytes front back : Bytes} {start stop : Nat} (ordered : start ≤ stop)
    (bounded : stop ≤ bytes.length) (whole : slice bytes start stop = front ++ back) :
    slice bytes start (start + front.length) = front ∧ slice bytes (start + front.length) stop = back := by
  have length := congrArg List.length whole
  rw [length_slice bytes start stop bounded, List.length_append] at length
  have joined := slice_join bytes start (start + front.length) stop (by omega) (by omega)
  rw [whole] at joined
  apply List.append_inj joined
  rw [length_slice bytes _ _ (by omega)]
  omega

theorem slice_all (bytes : Bytes) : slice bytes 0 bytes.length = bytes := by
  simp [slice]

/-! Strings that end at a NUL, and the classes of ASCII characters. -/

def cString (buffer : Bytes) : Bytes := buffer.takeWhile (· ≠ 0)

/-- `strchr (string, c) != NULL`: the terminator is found too. -/
def strchr (string : Bytes) (c : UInt8) : Bool := c = 0 || (cString string).contains c

theorem cString_append {string : Bytes} (clean : 0 ∉ string) (after : Bytes) : cString (string ++ 0 :: after) = string := by
  induction string with
  | nil => rfl
  | cons c string ih =>
    have nonzero : c ≠ 0 := fun zero => clean (zero ▸ List.mem_cons_self)
    have rest := ih fun held => clean (List.mem_cons_of_mem _ held)
    rw [cString] at rest
    rw [cString, List.cons_append, List.takeWhile_cons, if_pos (decide_eq_true nonzero), rest]

theorem not_mem_cString (buffer : Bytes) : 0 ∉ cString buffer := by
  intro held
  have nonzero := List.all_eq_true.mp List.all_takeWhile 0 held
  exact of_decide_eq_true nonzero rfl

theorem cString_clean {string : Bytes} (clean : 0 ∉ string) : cString string = string :=
  List.takeWhile_eq_self_iff.mpr fun _ held => decide_eq_true fun zero => clean (zero ▸ held)

theorem exists_terminated (buffer : Bytes) : ∃ junk, buffer ++ [0] = cString buffer ++ 0 :: junk := by
  induction buffer with
  | nil => exact ⟨[], rfl⟩
  | cons c buffer ih =>
    by_cases zero : c = 0
    · exact ⟨buffer ++ [0], by simp [cString, zero]⟩
    · obtain ⟨junk, split⟩ := ih
      refine ⟨junk, ?_⟩
      rw [cString, List.takeWhile_cons, if_pos (decide_eq_true zero), List.cons_append, split]
      rfl

/-! ## Characters -/

def asciiIsdigit (c : UInt8) : Bool := 48 ≤ c && c ≤ 57
def asciiIsupper (c : UInt8) : Bool := 65 ≤ c && c ≤ 90
def asciiIslower (c : UInt8) : Bool := 97 ≤ c && c ≤ 122
def asciiIsalpha (c : UInt8) : Bool := asciiIsupper c || asciiIslower c
def asciiIsalnum (c : UInt8) : Bool := asciiIsalpha c || asciiIsdigit c
def asciiIsxdigit (c : UInt8) : Bool := asciiIsdigit c || 65 ≤ c && c ≤ 70 || 97 ≤ c && c ≤ 102
def asciiIsgraph (c : UInt8) : Bool := 33 ≤ c && c ≤ 126
def asciiIsspace (c : UInt8) : Bool := c = 32 || 9 ≤ c && c ≤ 13 && c ≠ 11
def asciiToupper (c : UInt8) : UInt8 := if asciiIslower c then c - 32 else c
end Xpl.Library
