import Mathlib.Data.List.DropRight
import Mathlib.Tactic.IntervalCases
import Xpl.Variant.TypeInfo

/-! The constants that find a member of a tuple, in the words that the program keeps them
in: `b` and `c` are stored in a signed byte and extended again where they are used. -/

set_option autoImplicit false

namespace Xpl.Variant
open Xpl.Library

/-- `i`, `a`, `b` and `c` of a member. -/
structure MemberWords where
  i : UInt64
  a : UInt64
  b : Int8
  c : Int8
  deriving DecidableEq, Repr

def storeByte (word : UInt64) : Int8 := word.toUInt8.toInt8
def loadByte (byte : Int8) : UInt64 := byte.toInt64.toUInt64

def MemberWords.start (m : MemberWords) (prevEnd : UInt64) : UInt64 :=
  ((prevEnd + m.a) &&& loadByte m.b) ||| loadByte m.c

/-- The loop variables of `tuple_generate_table`, as words. -/
structure TableWords where
  i : UInt64
  a : UInt64
  b : UInt64
  c : UInt64

namespace TableWords

def tupleAlign (offset alignment : UInt64) : UInt64 := offset + (-offset &&& alignment)

def align (s : TableWords) (d : UInt64) : TableWords :=
  if d ≤ s.b then { s with c := tupleAlign s.c d }
  else { s with a := s.a + tupleAlign s.c s.b, b := d, c := 0 }

def advance (s : TableWords) (e : UInt64) : TableWords :=
  if e = 0 then { i := s.i + 1, a := 0, b := 0, c := 0 } else { s with c := s.c + e }

def tupleTableAppend (s : TableWords) : MemberWords :=
  { i := s.i, a := s.a + (~~~s.b &&& s.c) + s.b, b := storeByte (~~~s.b), c := storeByte (s.c &&& s.b) }

def tupleGetItem (info : TypeInfo) : UInt64 × UInt64 := (UInt64.ofNat info.alignment, UInt64.ofNat info.fixedSize)

def pass (s : TableWords) (info : TypeInfo) : TableWords := (s.align (tupleGetItem info).1).advance (tupleGetItem info).2

def tupleGenerateTable : TableWords → List TypeInfo → List MemberWords
  | _, [] => []
  | s, info :: infos => tupleTableAppend (s.align (tupleGetItem info).1) :: tupleGenerateTable (s.pass info) infos

def initial : TableWords := { i := -1, a := 0, b := 0, c := 0 }

structure Holds (w : TableWords) (s : TableState) : Prop where
  index : ∃ count : Nat, s.i + 1 = count ∧ w.i + 1 = UInt64.ofNat count
  a : w.a.toNat = s.a % 2 ^ 64
  b : w.b.toNat = s.b
  c : w.c.toNat = s.c % 2 ^ 64
  mask : IsAlignment s.b

theorem holds_initial : Holds initial .initial :=
  ⟨⟨0, rfl, rfl⟩, rfl, rfl, rfl, Or.inl rfl⟩

theorem tupleAlign_toNat {offset alignment : UInt64} {n mask : Nat} (place : offset.toNat = n % 2 ^ 64)
    (same : alignment.toNat = mask) (admitted : IsAlignment mask) :
    (tupleAlign offset alignment).toNat = Variant.tupleAlign n mask % 2 ^ 64 := by
  have padding : (-offset &&& alignment).toNat = (2 ^ 64 - n % 2 ^ 64) &&& mask := by
    rw [UInt64.toNat_and, UInt64.toNat_neg, same, place, admitted.isMask.and_eq_mod, admitted.isMask.and_eq_mod]
    exact Nat.mod_mod_of_dvd _ admitted.isMask.dvd_word
  unfold tupleAlign Variant.tupleAlign alignUp
  rw [UInt64.toNat_add, padding, place, Nat.mod_add_mod]

variable {w : TableWords} {s : TableState}

theorem Holds.align (h : w.Holds s) {mask : Nat} (admitted : IsAlignment mask) :
    (w.align (UInt64.ofNat mask)).Holds (s.align mask) := by
  have small : mask < 2 ^ 64 := by
    unfold IsAlignment at admitted
    omega
  have same : (UInt64.ofNat mask).toNat = mask := by
    exact Nat.mod_eq_of_lt small
  have compare : UInt64.ofNat mask ≤ w.b ↔ mask ≤ s.b := by
    rw [UInt64.le_iff_toNat_le, same, h.b]
  unfold TableWords.align TableState.align
  by_cases below : mask ≤ s.b
  · rw [if_pos below, if_pos (compare.mpr below)]
    exact ⟨h.index, h.a, h.b, tupleAlign_toNat h.c same admitted, h.mask⟩
  · rw [if_neg below, if_neg (fun le => below (compare.mp le))]
    have moved : (w.a + tupleAlign w.c w.b).toNat = (s.a + Variant.tupleAlign s.c s.b) % 2 ^ 64 := by
      rw [UInt64.toNat_add, h.a, tupleAlign_toNat h.c h.b h.mask, ← Nat.add_mod]
    exact ⟨h.index, moved, same, rfl, admitted⟩

theorem Holds.advance (h : w.Holds s) {size : Nat} (fits : size < 2 ^ 64) :
    (w.advance (UInt64.ofNat size)).Holds (s.advance size) := by
  have same : (UInt64.ofNat size).toNat = size := by
    exact Nat.mod_eq_of_lt fits
  have zero : UInt64.ofNat size = 0 ↔ size = 0 := by
    rw [← UInt64.toNat_inj, same]
    rfl
  unfold TableWords.advance TableState.advance
  by_cases varies : size = 0
  · obtain ⟨count, states, words⟩ := h.index
    rw [if_pos varies, if_pos (zero.mpr varies)]
    refine ⟨⟨count + 1, ?_, ?_⟩, rfl, rfl, rfl, Or.inl rfl⟩
    · push_cast
      rw [← states]
    · rw [words, UInt64.ofNat_add]
      rfl
  · rw [if_neg varies, if_neg (fun none => varies (zero.mp none))]
    have moved : (w.c + UInt64.ofNat size).toNat = (s.c + size) % 2 ^ 64 := by
      rw [UInt64.toNat_add, h.c, same, Nat.mod_add_mod]
    exact ⟨h.index, h.a, h.b, moved, h.mask⟩

theorem Holds.pass (h : w.Holds s) {info : TypeInfo} (formed : info.WellFormed) : (w.pass info).Holds (s.pass info) :=
  (h.align formed.mask).advance formed.fits

theorem Holds.passes (h : w.Holds s) {infos : List TypeInfo} (formed : ∀ info ∈ infos, info.WellFormed) :
    (infos.foldl TableWords.pass w).Holds (infos.foldl TableState.pass s) := by
  induction infos generalizing w s with
  | nil => exact h
  | cons info infos ih =>
    have first := h.pass (formed info List.mem_cons_self)
    exact ih first fun other member => formed other (List.mem_cons_of_mem _ member)

theorem load_complement (admitted : IsAlignment s.b) (same : w.b.toNat = s.b) :
    loadByte (storeByte (~~~w.b)) = ~~~w.b := by
  obtain mask : w.b = 0 ∨ w.b = 1 ∨ w.b = 3 ∨ w.b = 7 := by
    simp only [← UInt64.toNat_inj, same]
    exact admitted
  rcases mask with mask | mask | mask | mask <;> rw [mask] <;> decide

theorem load_small {word : UInt64} (small : word.toNat ≤ 7) : loadByte (storeByte word) = word := by
  obtain ⟨n, bound, rfl⟩ : ∃ n, n ≤ 7 ∧ word = UInt64.ofNat n := ⟨word.toNat, small, UInt64.ofNat_toNat.symm⟩
  interval_cases n <;> decide

theorem Holds.start (h : w.Holds s) (item : MemberInfo) (prevEnd : UInt64) :
    (w.tupleTableAppend.start prevEnd).toNat = (Variant.tupleTableAppend item s).start prevEnd.toNat := by
  have mask := h.mask.isMask
  have divides := mask.dvd_word
  have low : (w.c &&& w.b).toNat = s.c &&& s.b := by
    rw [UInt64.toNat_and, h.c, h.b, mask.and_eq_mod, mask.and_eq_mod, Nat.mod_mod_of_dvd _ divides]
  have few : s.b ≤ 7 := by
    rcases h.mask with mask | mask | mask | mask <;> omega
  have small : s.c &&& s.b ≤ 7 := Nat.le_trans Nat.and_le_right few
  have complement : (~~~w.b).toNat = 2 ^ 64 - (s.b + 1) := by
    rw [UInt64.toNat_not, h.b]
    exact Nat.sub_sub _ 1 s.b ▸ congrArg (2 ^ 64 - ·) (Nat.add_comm 1 s.b)
  -- the aligned part of `c`
  have high : (~~~w.b &&& w.c).toNat = (s.c - (s.c &&& s.b)) % 2 ^ 64 := by
    have split := Nat.div_add_mod s.c (s.b + 1)
    have rest : s.c - (s.c &&& s.b) = s.c / (s.b + 1) * (s.b + 1) := by
      rw [mask.and_eq_mod, Nat.mul_comm]
      omega
    rw [UInt64.toNat_and, complement, Nat.and_comm, h.c, mask.and_compl (Nat.mod_lt _ (by decide)), mod_div_mul divides,
      rest]
  have constant : w.tupleTableAppend.a.toNat = (Variant.tupleTableAppend item s).a % 2 ^ 64 := by
    simp only [tupleTableAppend, Variant.tupleTableAppend, UInt64.toNat_add, h.a, h.b, high, Nat.add_mod, Nat.mod_mod]
  have b : loadByte w.tupleTableAppend.b = ~~~w.b := load_complement h.mask h.b
  have c : loadByte w.tupleTableAppend.c = w.c &&& w.b := load_small (by rw [low]; exact small)
  unfold MemberWords.start MemberInfo.start
  rw [b, c, UInt64.toNat_or, UInt64.toNat_and, UInt64.toNat_add, constant, complement, low, Nat.add_mod_mod]
  simp only [Variant.tupleTableAppend, signExtend_complement h.mask]

theorem tupleGenerateTable_getElem? (w : TableWords) (front back : List TypeInfo) (info : TypeInfo) :
    (tupleGenerateTable w (front ++ info :: back))[front.length]? =
      some ((front.foldl TableWords.pass w).align (tupleGetItem info).1).tupleTableAppend := by
  induction front generalizing w with
  | nil => rfl
  | cons first front ih => exact ih (w.pass first)

end TableWords

/-- The constants of all members, as they are stored. -/
def VariantType.memberWords (t : VariantType) : List MemberWords :=
  TableWords.tupleGenerateTable .initial (t.items.map VariantType.info)

/-- The members right before an index that are all of a fixed size. -/
def fixedRun (front : List VariantType) : List VariantType := front.rtakeWhile fun item => item.fixedSize ≠ 0

/-- The position of a member: from the end of the last variable-sized member before it, pass
each fixed-sized member at its alignment, and align. -/
def walkTo (prevEnd : Nat) (front : List VariantType) (item : VariantType) : Nat :=
  roundUp (fixedEnd prevEnd (fixedRun front)) item.alignment

theorem fixedRun_append (front : List VariantType) (item : VariantType) :
    fixedRun (front ++ [item]) = if item.fixedSize ≠ 0 then fixedRun front ++ [item] else [] := by
  simp [fixedRun, List.rtakeWhile_concat]

theorem stateAfter_tracks (front : List VariantType) (prevEnd : Nat) :
    (stateAfter front).Tracks prevEnd (fixedEnd prevEnd (fixedRun front)) := by
  induction front using List.reverseRecOn with
  | nil => exact TableState.tracks_run (-1) prevEnd
  | append_singleton front item ih =>
    have passed : stateAfter (front ++ [item]) = (stateAfter front).pass item.info := by
      simp [stateAfter]
    rw [passed, fixedRun_append]
    by_cases fixed : item.fixedSize = 0
    · rw [if_neg (not_not.mpr fixed), TableState.pass, show item.info.fixedSize = 0 from fixed]
      exact .advance_variable _ prevEnd
    · rw [if_pos fixed, fixedEnd_append]
      exact (ih.align item.alignment_isAlignment).advance fixed

theorem VariantType.holds_after (front : List VariantType) :
    ((front.map VariantType.info).foldl TableWords.pass .initial).Holds (stateAfter front) := by
  have after : stateAfter front = (front.map VariantType.info).foldl TableState.pass .initial := by
    rw [stateAfter, List.foldl_map]
  rw [after]
  apply TableWords.holds_initial.passes
  intro info member
  obtain ⟨item, -, rfl⟩ := List.mem_map.mp member
  exact item.info_wellFormed

theorem memberWords_at {t : VariantType} {front back : List VariantType} {item : VariantType}
    (shape : t.items = front ++ item :: back) :
    ∃ w : TableWords, t.memberWords[front.length]? = some w.tupleTableAppend ∧
      w.Holds ((stateAfter front).align item.alignment) := by
  have found := TableWords.tupleGenerateTable_getElem? .initial (front.map VariantType.info)
    (back.map VariantType.info) item.info
  rw [List.length_map] at found
  refine ⟨_, ?_, (VariantType.holds_after front).align item.alignment_isAlignment⟩
  rw [VariantType.memberWords, shape, List.map_append, List.map_cons, found]
  rfl

/-- The stored index, counted from one: how many ends are stored before the member. -/
theorem memberWords_i {w : TableWords} {front : List VariantType} {d : Nat} (h : w.Holds ((stateAfter front).align d)) :
    w.i + 1 = UInt64.ofNat (variableCount front) := by
  obtain ⟨count, states, words⟩ := h.index
  have kept : ((stateAfter front).align d).i = (stateAfter front).i := by
    unfold TableState.align
    split <;> rfl
  have counted := memberAt_i front [] (.basic .byte)
  have same : (memberAt front (.basic .byte) []).i = (stateAfter front).i := by
    simp only [memberAt, tupleTableAppend, TableState.align]
    split <;> rfl
  have number : count = variableCount front := by omega
  rw [words, number]

/-- The stored constants of a member lead from the end of the last variable-sized member before
it to the place where the walk over the members between them arrives, and the stored index is
that of this end. -/
theorem memberWords_locate (t : VariantType) (index : Nat) (inside : index < t.items.length) (prevEnd : UInt64)
    (fits : walkTo prevEnd.toNat (t.items.take index) t.items[index] < 2 ^ 64) :
    ∃ m, t.memberWords[index]? = some m ∧
      (m.start prevEnd).toNat = walkTo prevEnd.toNat (t.items.take index) t.items[index] ∧
      (variableCount (t.items.take index) = 0 → m.i = -1) ∧
      ∀ before last run, t.items.take index = before ++ last :: run → last.fixedSize = 0 →
        (∀ item ∈ run, item.fixedSize ≠ 0) → m.i = UInt64.ofNat (variableCount before) := by
  have shape : t.items = t.items.take index ++ t.items[index] :: t.items.drop (index + 1) := by
    rw [List.getElem_cons_drop, List.take_append_drop]
  have place : (t.items.take index).length = index := by
    rw [List.length_take]
    omega
  obtain ⟨w, found, holds⟩ := memberWords_at shape
  rw [place] at found
  have count := memberWords_i holds
  refine ⟨_, found, ?_, ?_, ?_⟩
  · have tracks := (stateAfter_tracks (t.items.take index) prevEnd.toNat).align t.items[index].alignment_isAlignment
    have walked := tracks.start (memberAt [] t.items[index] [])
    rw [holds.start (memberAt [] t.items[index] []), walked]
    exact Nat.mod_eq_of_lt fits
  · intro none
    rw [none] at count
    exact (UInt64.add_left_inj 1).mp count
  · intro before last run split varies fixed
    have none : variableCount run = 0 := variableCount_eq_zero.mpr fixed
    have one_more : variableCount (t.items.take index) = variableCount before + 1 := by
      rw [split, variableCount, List.countP_append, List.countP_cons, decide_eq_true varies]
      change variableCount before + (variableCount run + _) = _
      rw [none]
      rfl
    rw [one_more, UInt64.ofNat_add] at count
    exact (UInt64.add_left_inj 1).mp count

/-- The last item of `(isis)`, behind the string that ends at 9. -/
theorem memberWords_locate_sample :
    ∃ m, (VariantType.tuple [.basic .int32, .basic .string, .basic .int32, .basic .string]).memberWords[3]? = some m ∧
      (m.start 9).toNat = 16 ∧ m.i = 0 := by
  obtain ⟨m, found, start, -, index⟩ := memberWords_locate
    (.tuple [.basic .int32, .basic .string, .basic .int32, .basic .string]) 3 (by decide) 9 (by decide)
  exact ⟨m, found, start, index [.basic .int32] (.basic .string) [.basic .int32] rfl rfl (by decide)⟩

end Xpl.Variant
