import Mathlib.Data.Nat.Bits
import Xpl.Library.Blocks
import Xpl.Library.Bytes

/-! Rounding up to a power of two that is given in "one less" form, as a mask. -/

set_option autoImplicit false

namespace Xpl.Library
variable {mask offset word : Nat}

/-- `mask + 1` is a power of two no larger than a machine word. -/
def IsMask (mask : Nat) : Prop := ∃ bits, bits ≤ 64 ∧ mask + 1 = 2 ^ bits

def roundUp (offset mask : Nat) : Nat := (offset + mask) / (mask + 1) * (mask + 1)

/-- `offset + ((-offset) & mask)` on 64-bit words, without the wrap of the sum. -/
def alignUp (offset mask : Nat) : Nat := offset + ((2 ^ 64 - offset % 2 ^ 64) &&& mask)

theorem IsMask.and_eq_mod (h : IsMask mask) (n : Nat) : n &&& mask = n % (mask + 1) := by
  obtain ⟨bits, _, same⟩ := h
  have form : mask = 2 ^ bits - 1 := by omega
  rw [same, form]
  exact Nat.and_two_pow_sub_one_eq_mod n bits

theorem IsMask.dvd_word (h : IsMask mask) : mask + 1 ∣ 2 ^ 64 := by
  obtain ⟨bits, small, same⟩ := h
  rw [same]
  exact Nat.pow_dvd_pow 2 small

theorem IsMask.dvd_of_le {other : Nat} (h : IsMask mask) (g : IsMask other) (le : mask ≤ other) :
    mask + 1 ∣ other + 1 := by
  obtain ⟨bits, _, same⟩ := h
  obtain ⟨more, _, equal⟩ := g
  rw [same, equal]
  apply Nat.pow_dvd_pow
  apply (Nat.pow_le_pow_iff_right (by decide : 1 < 2)).mp
  omega

theorem isMask_zero : IsMask 0 := ⟨0, by decide, by decide⟩
theorem isMask_one : IsMask 1 := ⟨1, by decide, by decide⟩
theorem isMask_three : IsMask 3 := ⟨2, by decide, by decide⟩
theorem isMask_seven : IsMask 7 := ⟨3, by decide, by decide⟩

theorem dvd_roundUp (offset mask : Nat) : mask + 1 ∣ roundUp offset mask := ⟨_, Nat.mul_comm _ _⟩

theorem le_roundUp (offset mask : Nat) : offset ≤ roundUp offset mask := by
  have split := Nat.div_add_mod (offset + mask) (mask + 1)
  have small := Nat.mod_lt (offset + mask) (Nat.add_one_pos mask)
  rw [roundUp, Nat.mul_comm]
  omega

theorem roundUp_le (offset mask : Nat) : roundUp offset mask ≤ offset + mask := Nat.div_mul_le_self _ _

theorem roundUp_le_of_dvd {bound : Nat} (multiple : mask + 1 ∣ bound) (above : offset ≤ bound) :
    roundUp offset mask ≤ bound := by
  obtain ⟨k, rfl⟩ := multiple
  have quotient : (offset + mask) / (mask + 1) < k + 1 := by
    rw [Nat.div_lt_iff_lt_mul (Nat.add_one_pos mask), Nat.add_mul, Nat.mul_comm k]
    omega
  rw [roundUp, Nat.mul_comm]
  exact Nat.mul_le_mul_left _ (Nat.lt_succ_iff.mp quotient)

theorem roundUp_of_dvd (multiple : mask + 1 ∣ offset) : roundUp offset mask = offset :=
  Nat.le_antisymm (roundUp_le_of_dvd multiple (Nat.le_refl _)) (le_roundUp offset mask)

theorem roundUp_mono {first second : Nat} (le : first ≤ second) :
    roundUp first mask ≤ roundUp second mask :=
  roundUp_le_of_dvd (dvd_roundUp second mask) (Nat.le_trans le (le_roundUp second mask))

theorem roundUp_succ (between : ¬mask + 1 ∣ offset) :
    roundUp (offset + 1) mask = roundUp offset mask := by
  apply Nat.le_antisymm
  · apply roundUp_le_of_dvd (dvd_roundUp offset mask)
    apply Nat.lt_of_le_of_ne (le_roundUp offset mask)
    intro same
    exact between (same ▸ dvd_roundUp offset mask)
  · exact roundUp_mono (Nat.le_succ offset)

theorem roundUp_add_of_dvd {base : Nat} (multiple : mask + 1 ∣ base) :
    roundUp (base + offset) mask = base + roundUp offset mask := by
  obtain ⟨k, rfl⟩ := multiple
  rw [roundUp, roundUp, Nat.add_assoc, Nat.mul_add_div (Nat.add_one_pos mask), Nat.add_mul, Nat.mul_comm k]

theorem roundUp_roundUp {other : Nat} (divides : mask + 1 ∣ other + 1) :
    roundUp (roundUp offset mask) other = roundUp offset other := by
  apply Nat.le_antisymm
  · apply roundUp_le_of_dvd (dvd_roundUp offset other)
    exact roundUp_le_of_dvd (Nat.dvd_trans divides (dvd_roundUp offset other)) (le_roundUp offset other)
  · exact roundUp_mono (le_roundUp offset mask)

theorem roundUp_mod (divides : mask + 1 ∣ word) (offset : Nat) :
    roundUp (offset % word) mask % word = roundUp offset mask % word := by
  have split := Nat.div_add_mod offset word
  have whole : roundUp offset mask = word * (offset / word) + roundUp (offset % word) mask := by
    rw [← roundUp_add_of_dvd (Nat.dvd_mul_right_of_dvd divides _), split]
  rw [whole, Nat.mul_add_mod]

theorem alignUp_eq_roundUp (h : IsMask mask) (offset : Nat) :
    alignUp offset mask = roundUp offset mask := by
  have word := Nat.div_add_mod offset (2 ^ 64)
  rw [alignUp, h.and_eq_mod]
  have low := Nat.mod_lt (2 ^ 64 - offset % 2 ^ 64) (Nat.add_one_pos mask)
  have quotient := Nat.div_add_mod (2 ^ 64 - offset % 2 ^ 64) (mask + 1)
  -- The padded offset is a multiple because the word size is one.
  have multiple : mask + 1 ∣ offset + (2 ^ 64 - offset % 2 ^ 64) % (mask + 1) := by
    have whole : mask + 1 ∣ 2 ^ 64 * (offset / 2 ^ 64) + 2 ^ 64 :=
      Nat.dvd_add (Nat.dvd_mul_right_of_dvd h.dvd_word _) h.dvd_word
    have pieces : 2 ^ 64 * (offset / 2 ^ 64) + 2 ^ 64 =
        offset + (2 ^ 64 - offset % 2 ^ 64) % (mask + 1) +
          (mask + 1) * ((2 ^ 64 - offset % 2 ^ 64) / (mask + 1)) := by omega
    rw [pieces] at whole
    exact (Nat.dvd_add_iff_left (Nat.dvd_mul_right _ _)).mpr whole
  apply Nat.le_antisymm
  · have rounded := le_roundUp offset mask
    obtain ⟨a, ha⟩ := multiple
    obtain ⟨b, hb⟩ := dvd_roundUp offset mask
    rw [ha, hb]
    apply Nat.mul_le_mul_left
    by_contra more
    have : (mask + 1) * (b + 1) ≤ (mask + 1) * a := Nat.mul_le_mul_left _ (by omega)
    rw [Nat.mul_add, ← hb, ← ha] at this
    omega
  · exact roundUp_le_of_dvd multiple (Nat.le_add_right _ _)

theorem IsMask.and_compl (h : IsMask mask) (fits : word < 2 ^ 64) :
    word &&& (2 ^ 64 - (mask + 1)) = word / (mask + 1) * (mask + 1) := by
  obtain ⟨bits, small, same⟩ := h
  have high : 2 ^ 64 - 2 ^ bits = (2 ^ (64 - bits) - 1) <<< bits := by
    rw [Nat.shiftLeft_eq, Nat.sub_mul, ← Nat.pow_add, Nat.sub_add_cancel small, Nat.one_mul]
  rw [same, high, ← Nat.shiftRight_eq_div_pow, ← Nat.shiftLeft_eq]
  apply Nat.eq_of_testBit_eq
  intro position
  rw [Nat.testBit_and, Nat.testBit_shiftLeft, Nat.testBit_shiftLeft, Nat.testBit_shiftRight,
    Nat.testBit_two_pow_sub_one]
  by_cases above : bits ≤ position
  · rw [Nat.add_sub_cancel' above]
    by_cases inside : position < 64
    · simp [above, show position - bits < 64 - bits by omega]
    · have clear : word.testBit position = false :=
        Nat.testBit_lt_two_pow (Nat.lt_of_lt_of_le fits (Nat.pow_le_pow_right (by decide) (by omega)))
      simp [clear]
  · simp [above]

theorem IsMask.or_eq_add (h : IsMask mask) {base low : Nat} (multiple : mask + 1 ∣ base)
    (small : low ≤ mask) : base ||| low = base + low := by
  obtain ⟨bits, _, same⟩ := h
  obtain ⟨k, rfl⟩ := multiple
  rw [same]
  exact (Nat.two_pow_add_eq_or_of_lt (by omega) k).symm

/-- Rounding down commutes with the wrap of a word. -/
theorem mod_div_mul {step : Nat} (divides : step ∣ word) (n : Nat) :
    n % word / step * step = n / step * step % word := by
  obtain ⟨k, rfl⟩ := divides
  rw [Nat.mod_mul_right_div_self, Nat.mul_comm step k, Nat.mul_mod_mul_right]

theorem mod_add_of_dvd {step base low : Nat} (divides : step ∣ word) (multiple : step ∣ base)
    (small : low < step) : (base + low) % word = base % word + low := by
  obtain ⟨k, rfl⟩ := divides
  obtain ⟨m, rfl⟩ := multiple
  rcases Nat.eq_zero_or_pos k with rfl | positive
  · simp
  · have remainder := Nat.mod_lt m positive
    have room : step * (m % k) + low < step * k := by
      calc step * (m % k) + low < step * (m % k) + step := by omega
        _ = step * (m % k + 1) := by rw [Nat.mul_add, Nat.mul_one]
        _ ≤ step * k := Nat.mul_le_mul_left _ remainder
    have pieces : step * m + low = step * k * (m / k) + (step * (m % k) + low) := by
      have split := Nat.div_add_mod m k
      calc step * m + low = step * (k * (m / k) + m % k) + low := by rw [split]
        _ = step * k * (m / k) + (step * (m % k) + low) := by ring
    rw [pieces, Nat.mul_add_mod, Nat.mod_eq_of_lt room, Nat.mul_mod_mul_left]

/-! Parts laid one after the other, each at the next multiple of its alignment, and
tables of little-endian words.

A part is a mask and the bytes to place. Layouts start at an offset, so that a layout
of `front ++ back` continues the one of `front`.
-/

abbrev Part := Nat × Bytes

def zeros (count : Nat) : Bytes := List.replicate count 0

@[simp] theorem length_zeros (count : Nat) : (zeros count).length = count := List.length_replicate

theorem zeros_succ (count : Nat) : zeros (count + 1) = 0 :: zeros count := List.replicate_succ

/-- Where a part that follows `offset` ends. -/
def Part.stop (offset : Nat) (part : Part) : Nat := roundUp offset part.1 + part.2.length

def Part.spaced (offset : Nat) (part : Part) : Bytes := zeros (roundUp offset part.1 - offset) ++ part.2

theorem Part.length_spaced (offset : Nat) (part : Part) :
    offset + (part.spaced offset).length = part.stop offset := by
  have rounded := le_roundUp offset part.1
  rw [spaced, List.length_append, length_zeros, stop]
  omega

def layoutEnd (offset : Nat) (parts : List Part) : Nat := parts.foldl Part.stop offset

def layout (offset : Nat) : List Part → Bytes
  | [] => []
  | part :: parts => part.spaced offset ++ layout (part.stop offset) parts

/-- The end of every part. -/
def layoutEnds (offset : Nat) : List Part → List Nat
  | [] => []
  | part :: parts => part.stop offset :: layoutEnds (part.stop offset) parts

theorem layout_cons (offset : Nat) (part : Part) (parts : List Part) :
    layout offset (part :: parts) = part.spaced offset ++ layout (part.stop offset) parts := rfl

theorem layoutEnds_cons (offset : Nat) (part : Part) (parts : List Part) :
    layoutEnds offset (part :: parts) = part.stop offset :: layoutEnds (part.stop offset) parts := rfl

theorem Part.le_stop (offset : Nat) (part : Part) : offset ≤ part.stop offset :=
  Nat.le_trans (le_roundUp offset part.1) (Nat.le_add_right _ _)

@[simp] theorem layoutEnd_nil (offset : Nat) : layoutEnd offset [] = offset := rfl

@[simp] theorem layoutEnd_cons (offset : Nat) (part : Part) (parts : List Part) :
    layoutEnd offset (part :: parts) = layoutEnd (part.stop offset) parts := rfl

theorem layoutEnd_append (offset : Nat) (front back : List Part) :
    layoutEnd offset (front ++ back) = layoutEnd (layoutEnd offset front) back := List.foldl_append

theorem le_layoutEnd (offset : Nat) (parts : List Part) : offset ≤ layoutEnd offset parts := by
  induction parts generalizing offset with
  | nil => exact Nat.le_refl _
  | cons part parts ih => exact Nat.le_trans (part.le_stop offset) (ih _)

theorem length_layout (offset : Nat) (parts : List Part) :
    offset + (layout offset parts).length = layoutEnd offset parts := by
  induction parts generalizing offset with
  | nil => rfl
  | cons part parts ih =>
    rw [layoutEnd_cons, ← ih, layout_cons, List.length_append, ← part.length_spaced, Nat.add_assoc]

theorem layout_append (offset : Nat) (front back : List Part) :
    layout offset (front ++ back) = layout offset front ++ layout (layoutEnd offset front) back := by
  induction front generalizing offset with
  | nil => rfl
  | cons part front ih => simp [layout_cons, ih]

@[simp] theorem length_layoutEnds (offset : Nat) (parts : List Part) :
    (layoutEnds offset parts).length = parts.length := by
  induction parts generalizing offset with
  | nil => rfl
  | cons part parts ih => simp [layoutEnds_cons, ih]

theorem layoutEnds_append (offset : Nat) (front back : List Part) :
    layoutEnds offset (front ++ back) = layoutEnds offset front ++ layoutEnds (layoutEnd offset front) back := by
  induction front generalizing offset with
  | nil => rfl
  | cons part front ih => simp [layoutEnds_cons, ih]

theorem stop_le_layoutEnd {parts front back : List Part} {part : Part} (shape : parts = front ++ part :: back)
    (offset : Nat) : part.stop (layoutEnd offset front) ≤ layoutEnd offset parts := by
  rw [shape, layoutEnd_append]
  exact le_layoutEnd _ _

theorem length_le_layoutEnd {offset : Nat} {parts : List Part} {part : Part} (member : part ∈ parts) :
    part.2.length ≤ layoutEnd offset parts := by
  obtain ⟨front, back, rfl⟩ := List.append_of_mem member
  rw [layoutEnd_append, layoutEnd_cons]
  exact Nat.le_trans (Nat.le_add_left _ _) (le_layoutEnd _ _)

theorem slice_layout (front : List Part) (part : Part) (back : List Part) (tail : Bytes) :
    slice (layout 0 (front ++ part :: back) ++ tail) (roundUp (layoutEnd 0 front) part.1)
      (part.stop (layoutEnd 0 front)) = part.2 := by
  have rounded := le_roundUp (layoutEnd 0 front) part.1
  have place := length_layout 0 front
  have before : (layout 0 front ++ zeros (roundUp (layoutEnd 0 front) part.1 - layoutEnd 0 front)).length =
      roundUp (layoutEnd 0 front) part.1 := by
    rw [List.length_append, length_zeros]
    omega
  have whole := slice_middle
    (layout 0 front ++ zeros (roundUp (layoutEnd 0 front) part.1 - layoutEnd 0 front)) part.2
    (layout (part.stop (layoutEnd 0 front)) back ++ tail)
  rw [before] at whole
  rw [layout_append, layout_cons, Part.spaced]
  simpa [Part.stop] using whole

theorem splice_layout (front : List Part) (part : Part) (back : List Part) (tail : Bytes) {new : Bytes}
    (same : new.length = part.2.length) :
    splice (layout 0 (front ++ part :: back) ++ tail) (roundUp (layoutEnd 0 front) part.1) new =
      layout 0 (front ++ (part.1, new) :: back) ++ tail := by
  have rounded := le_roundUp (layoutEnd 0 front) part.1
  have place := length_layout 0 front
  have before : (layout 0 front ++ zeros (roundUp (layoutEnd 0 front) part.1 - layoutEnd 0 front)).length =
      roundUp (layoutEnd 0 front) part.1 := by
    rw [List.length_append, length_zeros]
    omega
  have whole := splice_middle
    (layout 0 front ++ zeros (roundUp (layoutEnd 0 front) part.1 - layoutEnd 0 front)) part.2
    (layout (part.stop (layoutEnd 0 front)) back ++ tail) same
  rw [before] at whole
  have stop : Part.stop (layoutEnd 0 front) (part.1, new) = part.stop (layoutEnd 0 front) := by
    rw [Part.stop, Part.stop, same]
  rw [layout_append, layout_append, layout_cons, layout_cons, Part.spaced, Part.spaced, stop]
  simpa using whole

/-- The alignment and the length of a part, which are all that its place depends on. -/
def Part.shape (part : Part) : Nat × Nat := (part.1, part.2.length)

theorem Part.stop_congr {part other : Part} (same : part.shape = other.shape) (offset : Nat) :
    part.stop offset = other.stop offset := by
  obtain ⟨alignment, length⟩ := Prod.mk.inj same
  rw [stop, stop, alignment, length]

theorem layoutEnds_congr {parts others : List Part} (same : parts.map Part.shape = others.map Part.shape) (offset : Nat) :
    layoutEnds offset parts = layoutEnds offset others ∧ layoutEnd offset parts = layoutEnd offset others := by
  induction parts generalizing others offset with
  | nil =>
    obtain rfl := List.map_eq_nil_iff.mp same.symm
    exact ⟨rfl, rfl⟩
  | cons part parts ih =>
    obtain ⟨other, others, rfl, first, rest⟩ := List.map_eq_cons_iff.mp same.symm
    obtain ⟨ends, last⟩ := ih rest.symm (part.stop offset)
    rw [layoutEnds_cons, layoutEnds_cons, layoutEnd_cons, layoutEnd_cons, ← Part.stop_congr first.symm offset]
    exact ⟨congrArg _ ends, last⟩

theorem getElem?_layout {parts others : List Part} (same : parts.map Part.shape = others.map Part.shape)
    (offset position : Nat) :
    (layout offset parts)[position]? = (layout offset others)[position]? ∨
      ∃ front part back before other after place, parts = front ++ part :: back ∧ others = before ++ other :: after ∧
        front.length = before.length ∧ place < part.2.length ∧
        offset + position = roundUp (layoutEnd offset front) part.1 + place ∧
        (layout offset parts)[position]? = part.2[place]? ∧ (layout offset others)[position]? = other.2[place]? := by
  -- the position lies in the padding of the first part, in its bytes or behind it
  induction parts generalizing others offset position with
  | nil =>
    obtain rfl := List.map_eq_nil_iff.mp same.symm
    exact Or.inl rfl
  | cons part parts ih =>
    obtain ⟨other, others, rfl, first, rest⟩ := List.map_eq_cons_iff.mp same.symm
    obtain ⟨alignment, length⟩ := Prod.mk.inj first
    have stop := Part.stop_congr first offset
    have size := part.length_spaced offset
    have otherSize := other.length_spaced offset
    have rounded := le_roundUp offset part.1
    rw [layout_cons, layout_cons]
    rcases Nat.lt_or_ge position (part.spaced offset).length with inside | behind
    · rw [List.getElem?_append_left inside, List.getElem?_append_left (by omega), Part.spaced, Part.spaced, alignment]
      rcases Nat.lt_or_ge position (zeros (roundUp offset part.1 - offset)).length with padding | data
      · rw [List.getElem?_append_left padding, List.getElem?_append_left padding]
        exact Or.inl rfl
      · rw [List.getElem?_append_right data, List.getElem?_append_right data]
        rw [length_zeros] at data ⊢
        refine Or.inr ⟨[], part, parts, [], other, others, _, rfl, rfl, rfl, ?_, ?_, rfl, rfl⟩
        · rw [Part.stop] at size
          omega
        · rw [layoutEnd_nil]
          omega
    · rw [List.getElem?_append_right behind, List.getElem?_append_right (by omega),
        show (other.spaced offset).length = (part.spaced offset).length by omega, stop]
      rcases ih rest.symm (part.stop offset) (position - (part.spaced offset).length) with equal | found
      · exact Or.inl equal
      · obtain ⟨front, part', back, before, other', after, place, rfl, rfl, count, below, where_, own, their⟩ := found
        refine Or.inr ⟨part :: front, part', back, other :: before, other', after, place, rfl, rfl,
          congrArg Nat.succ count, below, ?_, own, their⟩
        rw [layoutEnd_cons]
        omega

theorem slice_eq_zeros {bytes : Bytes} {start stop : Nat}
    (zero : ∀ position, start ≤ position → position < stop → bytes[position]? = some 0) :
    slice bytes start stop = zeros (stop - start) := by
  apply List.ext_getElem?
  intro index
  rw [slice, List.getElem?_take]
  split
  case isTrue inside =>
    rw [List.getElem?_drop, zero (start + index) (by omega) (by omega), zeros, List.getElem?_replicate, if_pos inside]
  case isFalse outside => rw [zeros, List.getElem?_replicate, if_neg outside]

theorem getElem?_of_slice_zeros {bytes : Bytes} {start stop : Nat} (padding : slice bytes start stop = zeros (stop - start))
    {position : Nat} (above : start ≤ position) (below : position < stop) : bytes[position]? = some 0 := by
  have entry := congrArg (·[position - start]?) padding
  have place : start + (position - start) = position := by omega
  simp only [slice, zeros, List.getElem?_take, List.getElem?_drop, List.getElem?_replicate,
    if_pos (by omega : position - start < stop - start), place] at entry
  exact entry

/-! ## Tables -/

/-- Words of one width, one after the other. -/
def table (width : Nat) (entries : List Nat) : Bytes := entries.flatMap (leBytes width)

theorem table_cons (width : Nat) (entry : Nat) (entries : List Nat) :
    table width (entry :: entries) = leBytes width entry ++ table width entries := rfl

theorem table_append (width : Nat) (front back : List Nat) :
    table width (front ++ back) = table width front ++ table width back := List.flatMap_append

@[simp] theorem length_table (width : Nat) (entries : List Nat) :
    (table width entries).length = width * entries.length := by
  induction entries with
  | nil => rfl
  | cons entry entries ih =>
    rw [table_cons, List.length_append, length_leBytes, ih, List.length_cons, Nat.mul_succ, Nat.add_comm]

theorem slice_table (before : Bytes) (width : Nat) (front : List Nat) (entry : Nat) (back : List Nat)
    (start : Nat) (place : start = before.length + width * front.length) :
    slice (before ++ table width (front ++ entry :: back)) start (start + width) = leBytes width entry := by
  have length : (before ++ table width front).length = start := by simp [place]
  have whole := slice_middle (before ++ table width front) (leBytes width entry) (table width back)
  rw [length, length_leBytes] at whole
  rw [table_append, table_cons]
  simpa using whole

end Xpl.Library
