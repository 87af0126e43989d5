import Xpl.Library.Bisection
import Xpl.Collections.ArrayElements

/-! The binary search in a growable array. -/

set_option autoImplicit false

namespace Xpl.Collections
open Xpl.Library RealArray

/-- The bytes that the comparison function finds behind a pointer; they have to be those of elements. -/
def readElement (array : RealArray) (offset : Nat) : Except Stop (List UInt8) :=
  if offset + array.eltSize ≤ array.eltSize * array.len then .ok (bytesOf array.byteAt offset array.eltSize)
  else .error .outside

/-- `found` comes with `*out_match_index`; `endless` is a loop that has run out of turns. -/
inductive Search where
  | found (matchIndex : Nat)
  | absent
  | endless
  deriving DecidableEq, Repr

/-- The offset of the element in the middle is a product of 32-bit integers. -/
def binarySearchLoop (array : RealArray) (target : List UInt8) (compareFunc : List UInt8 → List UInt8 → Int) :
    Nat → Nat → Nat → Except Stop Search
  | 0, _, _ => .ok .endless
  | turns + 1, left, right =>
    if left ≤ right then do
      let middle := wrapUint (left + subUint right left / 2)
      let element ← readElement array (wrapUint (array.eltSize * middle))
      let val := compareFunc element target
      if val = 0 then .ok (.found middle)
      else if val < 0 then binarySearchLoop array target compareFunc turns (wrapUint (middle + 1)) right
      else if 0 < middle then binarySearchLoop array target compareFunc turns left (middle - 1)
      else .ok .absent
    else .ok .absent

def gArrayBinarySearch (array : RealArray) (target : List UInt8) (compareFunc : List UInt8 → List UInt8 → Int) :
    Except Stop Search :=
  if array.len ≠ 0 then binarySearchLoop array target compareFunc (array.len + 1) 0 (array.len - 1) else .ok .absent

def readCompare (array : RealArray) (target : List UInt8) (compareFunc : List UInt8 → List UInt8 → Int) (i : Nat) : Int :=
  compareFunc (bytesOf array.byteAt (wrapUint (array.eltSize * i)) array.eltSize) target

def indexCompare (array : RealArray) (target : List UInt8) (compareFunc : List UInt8 → List UInt8 → Int) (i : Nat) : Int :=
  compareFunc (array.element i) target

/-- The result for an array in which bisection finds an index, or none. -/
def Search.ofOption : Option Nat → Search
  | some i => .found i
  | none => .absent

section Loop

variable {array : RealArray} {target : List UInt8} {compareFunc : List UInt8 → List UInt8 → Int}

theorem readElement_eq {offset i : Nat} (below : i < array.len) (le : offset ≤ array.eltSize * i) :
    readElement array offset = .ok (bytesOf array.byteAt offset array.eltSize) := by
  refine if_pos ?_
  calc offset + array.eltSize ≤ array.eltSize * i + array.eltSize := Nat.add_le_add_right le _
    _ = array.eltSize * (i + 1) := (Nat.mul_succ _ _).symm
    _ ≤ array.eltSize * array.len := Nat.mul_le_mul_left _ below

theorem binarySearchLoop_eq (small : array.len < 2 ^ 32) {turns left right : Nat} (inside : right < array.len)
    (low : left ≤ right + 1) (enough : right + 1 - left < turns) :
    binarySearchLoop array target compareFunc turns left right =
      .ok (.ofOption (bisect (readCompare array target compareFunc) left right)) := by
  -- on the turns: the window shrinks in each, and `right - 1` does not wrap because `bisect` stops there too
  induction turns generalizing left right with
  | zero => omega
  | succ turns ih =>
    rw [binarySearchLoop, bisect]
    by_cases ordered : left ≤ right
    · have middle : wrapUint (left + subUint right left / 2) = midpoint left right := by
        have difference : subUint right left = right - left := by
          rw [subUint, show right + (2 ^ 32 - left) = right - left + 2 ^ 32 by omega, Nat.add_mod_right, Nat.mod_eq_of_lt (by omega)]
        rw [difference, Library.midpoint, wrapUint, Nat.mod_eq_of_lt (by omega)]
      have first := left_le_midpoint left right
      have last := midpoint_le_right ordered
      have next : wrapUint (midpoint left right + 1) = midpoint left right + 1 := Nat.mod_eq_of_lt (by omega)
      have read := @readElement_eq array (wrapUint (array.eltSize * midpoint left right)) _ (Nat.lt_of_le_of_lt last inside)
        (Nat.mod_le _ _)
      rw [if_pos ordered, if_pos ordered, middle]
      have value : compareFunc (bytesOf array.byteAt (wrapUint (array.eltSize * midpoint left right)) array.eltSize) target =
          readCompare array target compareFunc (midpoint left right) := rfl
      simp only [read, bind, Except.bind, value]
      by_cases equal : readCompare array target compareFunc (midpoint left right) = 0
      · rw [if_pos equal, if_pos equal]
        rfl
      · rw [if_neg equal, if_neg equal]
        by_cases less : readCompare array target compareFunc (midpoint left right) < 0
        · rw [if_pos less, if_pos less, next]
          exact ih inside (by omega) (by omega)
        · rw [if_neg less, if_neg less]
          by_cases positive : 0 < midpoint left right
          · rw [if_pos positive, if_pos positive]
            exact ih (by omega) (by omega) (by omega)
          · rw [if_neg positive, if_neg positive]
            rfl
    · rw [if_neg ordered, if_neg ordered]
      rfl

end Loop

/-- What the documentation says of the result: the index of the first equal element, or that there is none. -/
structure Documented (array : RealArray) (target : List UInt8) (compareFunc : List UInt8 → List UInt8 → Int) : Prop where
  terminates : ∃ result, gArrayBinarySearch array target compareFunc = .ok result ∧ result ≠ .endless
  found_iff : (∃ i, gArrayBinarySearch array target compareFunc = .ok (.found i)) ↔
    ∃ element ∈ array.elements, compareFunc element target = 0
  first : ∀ i, gArrayBinarySearch array target compareFunc = .ok (.found i) →
    FirstEqual (indexCompare array target compareFunc) array.len i

structure Orders (compareFunc : List UInt8 → List UInt8 → Int) : Prop where
  antisymm : ∀ a b, compareFunc a b < 0 ↔ 0 < compareFunc b a
  trans : ∀ a b c, compareFunc a b ≤ 0 → compareFunc b c ≤ 0 → compareFunc a c ≤ 0

section Searching

variable {array : RealArray} {target : List UInt8} {compareFunc : List UInt8 → List UInt8 → Int}

theorem gArrayBinarySearch_eq (small : array.len < 2 ^ 32) (some : array.len ≠ 0) :
    gArrayBinarySearch array target compareFunc =
      .ok (.ofOption (bisect (readCompare array target compareFunc) 0 (array.len - 1))) := by
  rw [gArrayBinarySearch, if_pos some]
  exact binarySearchLoop_eq small (by omega) (Nat.zero_le _) (by omega)

theorem gArrayBinarySearch_found_iff (small : array.len < 2 ^ 32) {i : Nat} :
    gArrayBinarySearch array target compareFunc = .ok (.found i) ↔
      i < array.len ∧ Leads (readCompare array target compareFunc) 0 (array.len - 1) i := by
  by_cases some : array.len = 0
  · rw [gArrayBinarySearch, if_neg (not_not_intro some), some]
    exact ⟨(fun found => nomatch found), fun found => absurd found.1 (Nat.not_lt_zero _)⟩
  · rw [gArrayBinarySearch_eq small some]
    have bisected := @bisect_eq_some_iff (readCompare array target compareFunc) 0 (array.len - 1) i
    cases result : bisect (readCompare array target compareFunc) 0 (array.len - 1) with
    | none =>
      rw [result] at bisected
      refine ⟨(fun found => nomatch found), fun found => ?_⟩
      exact nomatch bisected.mpr ⟨Nat.zero_le _, by omega, found.2⟩
    | some j =>
      rw [result] at bisected
      constructor
      · rintro ⟨⟩
        obtain ⟨-, below, leads⟩ := bisected.mp rfl
        exact ⟨by omega, leads⟩
      · rintro ⟨below, leads⟩
        cases bisected.mpr ⟨Nat.zero_le _, by omega, leads⟩
        rfl

theorem gArrayBinarySearch_terminates (small : array.len < 2 ^ 32) :
    ∃ result, gArrayBinarySearch array target compareFunc = .ok result ∧ result ≠ .endless := by
  by_cases some : array.len = 0
  · exact ⟨.absent, if_neg (not_not_intro some), nofun⟩
  · refine ⟨_, gArrayBinarySearch_eq small some, ?_⟩
    cases bisect (readCompare array target compareFunc) 0 (array.len - 1) <;> nofun

theorem exists_equal_iff :
    (∃ element ∈ array.elements, compareFunc element target = 0) ↔
      ∃ i, FirstEqual (indexCompare array target compareFunc) array.len i := by
  constructor
  · rintro ⟨element, member, equal⟩
    obtain ⟨i, below, rfl⟩ := List.getElem_of_mem member
    rw [getElem_elements] at equal
    rw [length_elements] at below
    exact exists_firstEqual below equal
  · rintro ⟨i, first⟩
    refine ⟨array.element i, ?_, first.equal⟩
    exact List.mem_map_of_mem (List.mem_range.mpr first.below)

theorem ascending_of_sorted (orders : Orders compareFunc) (sorted : array.elements.Pairwise fun a b => compareFunc a b ≤ 0) :
    Ascending (indexCompare array target compareFunc) array.len := by
  have ordered : ∀ i j, i < j → j < array.len → compareFunc (array.element i) (array.element j) ≤ 0 := by
    intro i j less below
    have pair := List.pairwise_iff_getElem.mp sorted i j (by simp; omega) (by simpa using below) less
    rwa [getElem_elements, getElem_elements] at pair
  refine ⟨fun i j le below negative => ?_, fun i j le below positive => ?_⟩
  · rcases Nat.lt_or_eq_of_le le with less | rfl
    · by_contra notNegative
      have before : compareFunc target (array.element i) ≤ 0 := Int.not_lt.mp (mt (orders.antisymm _ _).mpr notNegative)
      have through := orders.trans _ _ _ before (ordered i j less below)
      exact absurd ((orders.antisymm _ _).mp negative) (Int.not_lt.mpr through)
    · exact negative
  · rcases Nat.lt_or_eq_of_le le with less | rfl
    · by_contra notPositive
      exact absurd positive (Int.not_lt.mpr (orders.trans _ _ _ (ordered i j less below) (Int.not_lt.mp notPositive)))
    · exact positive

/-- What the search finds in terms of the comparisons that it makes. -/
theorem documented_iff_leads (small : array.len < 2 ^ 32) :
    Documented array target compareFunc ↔
      (∀ i, FirstEqual (indexCompare array target compareFunc) array.len i →
        Leads (readCompare array target compareFunc) 0 (array.len - 1) i) ∧
      ((∀ i, ¬FirstEqual (indexCompare array target compareFunc) array.len i) →
        ∀ i < array.len, ¬Leads (readCompare array target compareFunc) 0 (array.len - 1) i) := by
  constructor
  · rintro ⟨-, found, first⟩
    refine ⟨fun i firstEqual => ?_, fun none i below leads => ?_⟩
    · obtain ⟨j, result⟩ := found.mpr (exists_equal_iff.mpr ⟨i, firstEqual⟩)
      obtain rfl := (first j result).unique firstEqual
      exact ((gArrayBinarySearch_found_iff small).mp result).2
    · exact none i (first i ((gArrayBinarySearch_found_iff small).mpr ⟨below, leads⟩))
  · rintro ⟨leads, none⟩
    have only : ∀ i, gArrayBinarySearch array target compareFunc = .ok (.found i) →
        FirstEqual (indexCompare array target compareFunc) array.len i := by
      intro i result
      by_contra notFirst
      by_cases equal : ∃ f, FirstEqual (indexCompare array target compareFunc) array.len f
      · obtain ⟨f, firstEqual⟩ := equal
        rw [(gArrayBinarySearch_found_iff small).mpr ⟨firstEqual.below, leads f firstEqual⟩] at result
        cases result
        exact notFirst firstEqual
      · obtain ⟨below, led⟩ := (gArrayBinarySearch_found_iff small).mp result
        exact none (not_exists.mp equal) i below led
    refine ⟨gArrayBinarySearch_terminates small, ?_, only⟩
    rw [exists_equal_iff]
    constructor
    · rintro ⟨i, result⟩
      exact ⟨i, only i result⟩
    · rintro ⟨i, firstEqual⟩
      exact ⟨i, (gArrayBinarySearch_found_iff small).mpr ⟨firstEqual.below, leads i firstEqual⟩⟩

theorem readCompare_eq (short : array.eltSize * (array.len - 1) < 2 ^ 32) {i : Nat} (below : i < array.len) :
    readCompare array target compareFunc i = indexCompare array target compareFunc i := by
  have offset : array.eltSize * i < 2 ^ 32 := Nat.lt_of_le_of_lt (Nat.mul_le_mul_left _ (by omega)) short
  rw [readCompare, wrapUint, Nat.mod_eq_of_lt offset]
  rfl

theorem gArrayBinarySearch_documented_iff (bounded : array.Bounded) (orders : Orders compareFunc)
    (sorted : array.elements.Pairwise fun a b => compareFunc a b ≤ 0) :
    (Documented array target compareFunc ↔
      (∀ i, FirstEqual (indexCompare array target compareFunc) array.len i →
        Leads (readCompare array target compareFunc) 0 (array.len - 1) i) ∧
      ((∀ i, ¬FirstEqual (indexCompare array target compareFunc) array.len i) →
        ∀ i < array.len, ¬Leads (readCompare array target compareFunc) 0 (array.len - 1) i)) ∧
    (array.eltSize * (array.len - 1) < 2 ^ 32 →
      (Documented array target compareFunc ↔
        ∀ i, FirstEqual (indexCompare array target compareFunc) array.len i →
          ∀ m ∈ passed i 0 (array.len - 1), compareFunc (array.element m) target ≠ 0)) := by
  have small : array.len < 2 ^ 32 := Nat.lt_of_le_of_lt bounded.len_le bounded.capacity_lt
  refine ⟨documented_iff_leads small, fun short => ?_⟩
  have same : ∀ i < array.len, (Leads (readCompare array target compareFunc) 0 (array.len - 1) i ↔
      Leads (indexCompare array target compareFunc) 0 (array.len - 1) i) := by
    intro i below
    refine Leads.congr (Nat.zero_le _) (by omega) fun m _ within => ?_
    exact readCompare_eq short (by omega)
  rw [documented_iff_leads small]
  constructor
  · rintro ⟨leads, -⟩ i first
    exact (first.leads_iff (ascending_of_sorted orders sorted)).mp ((same i first.below).mp (leads i first))
  · intro free
    refine ⟨fun i first => ?_, fun none i below leads => ?_⟩
    · exact (same i first.below).mpr ((first.leads_iff (ascending_of_sorted orders sorted)).mpr (free i first))
    · obtain ⟨f, first⟩ := exists_firstEqual below ((same i below).mp leads).equal
      exact none f first

def threeBytes (byte : Nat → UInt8) : RealArray :=
  { data := some { size := 16, byte := byte }, len := 3, eltCapacity := 16, eltSize := 1, zeroTerminated := false
    clear := false, refCount := 1, clearFunc := none }

def compareBytes (a b : List UInt8) : Int := (a.headD 0).toNat - (b.headD 0).toNat

theorem orders_compareBytes : Orders compareBytes := by
  constructor
  · intro a b
    unfold compareBytes
    omega
  · intro a b c
    unfold compareBytes
    omega

theorem threeBytes_bounded (byte : Nat → UInt8) : (threeBytes byte).Bounded := by
  constructor <;> simp [threeBytes, gArrayMaxLen, gMaxsize, gMaxuint]

theorem gArrayBinarySearch_documented_ascending :
    (Documented (threeBytes fun p => p.toUInt8) [1] compareBytes ↔
      ∀ i, FirstEqual (indexCompare (threeBytes fun p => p.toUInt8) [1] compareBytes) 3 i →
        ∀ m ∈ passed i 0 2, compareBytes ((threeBytes fun p => p.toUInt8).element m) [1] ≠ 0) :=
  (gArrayBinarySearch_documented_iff (threeBytes_bounded _) orders_compareBytes (by decide)).2 (by decide)

/-- Of three equal elements the second one is found. -/
theorem gArrayBinarySearch_equal :
    (threeBytes fun _ => 7).Bounded ∧ Orders compareBytes ∧
      ((threeBytes fun _ => 7).elements.Pairwise fun a b => compareBytes a b ≤ 0) ∧
      gArrayBinarySearch (threeBytes fun _ => 7) [7] compareBytes = .ok (.found 1) ∧
      ¬Documented (threeBytes fun _ => 7) [7] compareBytes := by
  have result : gArrayBinarySearch (threeBytes fun _ => 7) [7] compareBytes = .ok (.found 1) := by decide
  refine ⟨threeBytes_bounded _, orders_compareBytes, by decide, result, fun documented => ?_⟩
  exact (documented.first 1 result).first 0 Nat.one_pos (by decide)

end Searching

end Xpl.Collections
