import Xpl.Library.Sorting
import Xpl.Library.Memory

/-! The merge sort behind `g_qsort_with_data`.

Memory is one array of bytes; a comparison function reads it at the two addresses it is
given. Pointers and `unsigned long` have eight bytes, the least significant one first.
-/

set_option autoImplicit false

namespace Xpl.Collections
open Xpl.Library

def sizeofLong : Nat := 8
def sizeofVoid : Nat := 8

structure MsortParam where
  s : Nat
  var : Nat
  cmp : Memory → Nat → Nat → Int
  t : Nat

/-- `while (tmpl < tmp) *tmpl++ = *bl++;` -/
def moveLongs (memory : Memory) (tmpl tmp bl : Nat) : Memory :=
  if tmpl < tmp then
    moveLongs (storeWord memory tmpl sizeofLong (loadWord memory bl sizeofLong)) (tmpl + sizeofLong) tmp (bl + sizeofLong)
  else memory
termination_by tmp - tmpl
decreasing_by
  unfold sizeofLong
  omega

def moveElement (p : MsortParam) (memory : Memory) (tmp b : Nat) : Memory :=
  match p.var with
  | 0 => storeWord memory tmp 4 (loadWord memory b 4)
  | 1 => storeWord memory tmp 8 (loadWord memory b 8)
  | 2 => moveLongs memory tmp (tmp + p.s) b
  | 3 => storeWord memory tmp sizeofVoid (loadWord memory b sizeofVoid)
  | _ => copyBytes memory tmp b p.s

/-- How far the pointers move on. -/
def stride (p : MsortParam) : Nat :=
  match p.var with
  | 0 => 4
  | 1 => 8
  | 3 => sizeofVoid
  | _ => p.s

/-- With indirect sorting the elements are pointers to what is compared. -/
def callCompare (p : MsortParam) (memory : Memory) (b1 b2 : Nat) : Int :=
  match p.var with
  | 3 => p.cmp memory (loadWord memory b1 sizeofVoid) (loadWord memory b2 sizeofVoid)
  | _ => p.cmp memory b1 b2

structure Merge where
  memory : Memory
  b1 : Nat
  n1 : Nat
  b2 : Nat
  n2 : Nat
  tmp : Nat

def mergeLoop (p : MsortParam) (now : Merge) : Merge :=
  if 0 < now.n1 ∧ 0 < now.n2 then
    if callCompare p now.memory now.b1 now.b2 ≤ 0 then
      mergeLoop p { now with
        memory := moveElement p now.memory now.tmp now.b1
        b1 := now.b1 + stride p
        n1 := now.n1 - 1
        tmp := now.tmp + stride p }
    else
      mergeLoop p { now with
        memory := moveElement p now.memory now.tmp now.b2
        b2 := now.b2 + stride p
        n2 := now.n2 - 1
        tmp := now.tmp + stride p }
  else now
termination_by now.n1 + now.n2

def msortWithTmp (p : MsortParam) (memory : Memory) (b n : Nat) : Memory :=
  if n ≤ 1 then memory
  else
    let n1 := n / 2
    let n2 := n - n1
    let b2 := b + n1 * p.s
    let memory := msortWithTmp p memory b n1
    let memory := msortWithTmp p memory b2 n2
    let merged := mergeLoop p { memory := memory, b1 := b, n1 := n1, b2 := b2, n2 := n2, tmp := p.t }
    let memory :=
      if 0 < merged.n1 then copyBytes merged.memory merged.tmp merged.b1 (merged.n1 * p.s) else merged.memory
    copyBytes memory b p.t ((n - merged.n2) * p.s)
termination_by n

/-- The pointers to the elements, in order: `t` runs up to the storage of one element. -/
def fillPointers (memory : Memory) (t ip s : Nat) : Nat → Memory
  | 0 => memory
  | n + 1 => fillPointers (storeWord memory t sizeofVoid ip) (t + sizeofVoid) (ip + s) s n

/-- The inner loop goes through one cycle, given more turns than that has pointers; the memory comes with `j` and `jp`. -/
def cycleLoop (b s tp ip : Nat) : Nat → Memory → Nat → Nat → Nat → Option (Memory × Nat × Nat)
  | 0, _, _, _, _ => none
  | turns + 1, memory, j, jp, kp =>
    let k := (kp - b) / s
    let memory := storeWord memory (tp + sizeofVoid * j) sizeofVoid jp
    let memory := copyBytes memory jp kp s
    let next := loadWord memory (tp + sizeofVoid * k) sizeofVoid
    if next ≠ ip then cycleLoop b s tp ip turns memory k kp next else some (memory, k, kp)

/-- The body of the loop over the entries of the original array. -/
def copyAround (b n s tp tmpStorage : Nat) (memory : Memory) (i : Nat) : Option Memory :=
  let ip := b + i * s
  let kp := loadWord memory (tp + sizeofVoid * i) sizeofVoid
  if kp ≠ ip then do
    let memory := copyBytes memory tmpStorage ip s
    let (memory, j, jp) ← cycleLoop b s tp ip (n + 1) memory i ip kp
    let memory := storeWord memory (tp + sizeofVoid * j) sizeofVoid jp
    some (copyBytes memory jp tmpStorage s)
  else some memory

def msortSize (n s : Nat) : Nat := if 32 < s then 2 * n * sizeofVoid + s else n * s

/-- The way in which elements of a size are moved. -/
def msortVar (b s : Nat) : Nat :=
  if s % 4 = 0 ∧ b % 4 = 0 then
    if s = 4 then 0
    else if s = 8 ∧ b % 8 = 0 then 1
    else if s % sizeofLong = 0 ∧ b % 8 = 0 then 2
    else 4
  else 4

/-- Indirect sorting, for large elements. `t` is the temporary array, from the stack or the heap. -/
def msortIndirect (memory : Memory) (b n s : Nat) (cmp : Memory → Nat → Nat → Int) (t : Nat) : Option Memory :=
  let tp := t + n * sizeofVoid
  let tmpStorage := tp + n * sizeofVoid
  let memory := fillPointers memory tp b s n
  let memory := msortWithTmp { s := sizeofVoid, var := 3, cmp := cmp, t := t } memory tp n
  (List.range n).foldlM (copyAround b n s tp tmpStorage) memory

def msortR (memory : Memory) (b n s : Nat) (cmp : Memory → Nat → Nat → Int) (t : Nat) : Option Memory :=
  if 32 < s then msortIndirect memory b n s cmp t
  else some (msortWithTmp { s := s, var := msortVar b s, cmp := cmp, t := t } memory b n)

def gQsortWithData (memory : Memory) (pbase totalElems size : Nat) (compareFunc : Memory → Nat → Nat → Int) (t : Nat) :
    Option Memory :=
  msortR memory pbase totalElems size compareFunc t

/-! The merge sort orders the elements whichever way they are moved. -/

/-- The way of moving suits the size of the elements. -/
structure MsortParam.Fits (p : MsortParam) : Prop where
  word : p.var = 0 → p.s = 4
  double : p.var = 1 → p.s = 8
  longs : p.var = 2 → sizeofLong ∣ p.s
  pointer : p.var = 3 → p.s = sizeofVoid

section Moving

variable {p : MsortParam} {memory : Memory} {tmp b : Nat}

theorem moveLongs_eq {count : Nat} (apart : tmp + sizeofLong * count ≤ b ∨ b + sizeofLong * count ≤ tmp) :
    moveLongs memory tmp (tmp + sizeofLong * count) b = copyBytes memory tmp b (sizeofLong * count) := by
  induction count generalizing memory tmp b with
  | zero =>
    rw [moveLongs, if_neg (by omega)]
    funext q
    exact (copyBytes_outside (by omega)).symm
  | succ count ih =>
    have more : sizeofLong * (count + 1) = sizeofLong + sizeofLong * count := by rw [Nat.mul_succ, Nat.add_comm]
    have positive : 0 < sizeofLong := by decide
    rw [more] at apart ⊢
    rw [moveLongs, if_pos (by omega), storeWord_loadWord, ← Nat.add_assoc, ih (by omega)]
    funext q
    by_cases first : tmp ≤ q ∧ q < tmp + sizeofLong
    · rw [copyBytes_outside (by omega), copyBytes, copyBytes, if_pos first, if_pos (by omega)]
    · by_cases rest : tmp + sizeofLong ≤ q ∧ q < tmp + sizeofLong + sizeofLong * count
      · rw [copyBytes, if_pos rest, copyBytes_outside (by omega), copyBytes, if_pos (by omega)]
        congr 1
        omega
      · rw [copyBytes_outside (by omega), copyBytes_outside (by omega), copyBytes_outside (by omega)]

theorem moveElement_eq (fits : p.Fits) (apart : tmp + p.s ≤ b ∨ b + p.s ≤ tmp) :
    moveElement p memory tmp b = copyBytes memory tmp b p.s := by
  unfold moveElement
  split
  · next var => rw [storeWord_loadWord, fits.word var]
  · next var => rw [storeWord_loadWord, fits.double var]
  · next var =>
    obtain ⟨count, size⟩ := fits.longs var
    rw [size] at apart ⊢
    exact moveLongs_eq apart
  · next var => rw [storeWord_loadWord, fits.pointer var]
  · rfl

theorem stride_eq (fits : p.Fits) : stride p = p.s := by
  unfold stride
  split
  · next var => exact (fits.word var).symm
  · next var => exact (fits.double var).symm
  · next var => exact (fits.pointer var).symm
  · rfl

end Moving

/-- The comparison function orders the elements in question by `le`, as long as nothing changes outside of `area`. -/
def Compares (p : MsortParam) (le : Bytes → Bytes → Bool) (good : Bytes → Prop) (area : Nat → Prop) (base : Memory) : Prop :=
  ∀ memory : Memory, (∀ q, ¬area q → memory q = base q) → ∀ b1 b2,
    good (bytesOf memory b1 p.s) → good (bytesOf memory b2 p.s) →
      (callCompare p memory b1 b2 ≤ 0 ↔ le (bytesOf memory b1 p.s) (bytesOf memory b2 p.s) = true)

section Merging
variable {memory : Memory} {b1 n1 b2 n2 tmp : Nat}
variable {p : MsortParam} {le : Bytes → Bytes → Bool} {good : Bytes → Prop} {area : Nat → Prop} {base : Memory}
variable {c1 c2 : Nat}

/-- What the merge finds: two runs, and a place for both that lies apart from them. -/
structure Ready (p : MsortParam) (good : Bytes → Prop) (area : Nat → Prop) (base : Memory) (now : Merge) : Prop where
  apart1 : now.tmp + p.s * (now.n1 + now.n2) ≤ now.b1 ∨ now.b1 + p.s * now.n1 ≤ now.tmp
  apart2 : now.tmp + p.s * (now.n1 + now.n2) ≤ now.b2 ∨ now.b2 + p.s * now.n2 ≤ now.tmp
  covered : ∀ q, now.tmp ≤ q → q < now.tmp + p.s * (now.n1 + now.n2) → area q
  agrees : ∀ q, ¬area q → now.memory q = base q
  good1 : ∀ x ∈ elementsAt now.memory now.b1 p.s now.n1, good x
  good2 : ∀ x ∈ elementsAt now.memory now.b2 p.s now.n2, good x

/-- What the loop has done when `c1` and `c2` elements have been taken from the runs. -/
structure Merged (p : MsortParam) (le : Bytes → Bytes → Bool) (now after : Merge) (c1 c2 : Nat) : Prop where
  taken1 : now.n1 = c1 + after.n1
  taken2 : now.n2 = c2 + after.n2
  b1 : after.b1 = now.b1 + p.s * c1
  tmp : after.tmp = now.tmp + p.s * (c1 + c2)
  exhausted : after.n1 = 0 ∨ after.n2 = 0
  elements : elementsAt after.memory now.tmp p.s (c1 + c2) ++
      ((elementsAt now.memory now.b1 p.s now.n1).drop c1 ++ (elementsAt now.memory now.b2 p.s now.n2).drop c2) =
    List.merge (elementsAt now.memory now.b1 p.s now.n1) (elementsAt now.memory now.b2 p.s now.n2) le
  frame : ∀ q, q < now.tmp ∨ now.tmp + p.s * (c1 + c2) ≤ q → after.memory q = now.memory q

/-- One element has gone to the temporary array. -/
theorem Ready.move (fits : p.Fits) (ready : Ready p good area base ⟨memory, b1, n1 + 1, b2, n2, tmp⟩) :
    moveElement p memory tmp b1 = copyBytes memory tmp b1 p.s ∧
      elementsAt (copyBytes memory tmp b1 p.s) (b1 + p.s) p.s n1 = elementsAt memory (b1 + p.s) p.s n1 ∧
      elementsAt (copyBytes memory tmp b1 p.s) b2 p.s n2 = elementsAt memory b2 p.s n2 ∧
      Ready p good area base ⟨copyBytes memory tmp b1 p.s, b1 + p.s, n1, b2, n2, tmp + p.s⟩ := by
  obtain ⟨apart1, apart2, covered, agrees, good1, good2⟩ := ready
  simp only [Nat.mul_add, Nat.mul_one] at apart1 apart2 covered
  have rest1 : elementsAt (copyBytes memory tmp b1 p.s) (b1 + p.s) p.s n1 = elementsAt memory (b1 + p.s) p.s n1 :=
    elementsAt_copyBytes (by omega)
  have rest2 : elementsAt (copyBytes memory tmp b1 p.s) b2 p.s n2 = elementsAt memory b2 p.s n2 :=
    elementsAt_copyBytes (by omega)
  refine ⟨moveElement_eq fits (by omega), rest1, rest2, ?_, ?_, fun q low high => ?_, fun q out => ?_, ?_, ?_⟩
  · simp only [Nat.mul_add]
    omega
  · simp only [Nat.mul_add]
    omega
  · simp only [Nat.mul_add] at low high
    exact covered q (by omega) (by omega)
  · refine (copyBytes_outside ?_).trans (agrees q out)
    by_contra inside
    exact out (covered q (by omega) (by omega))
  · rw [rest1]
    rw [elementsAt_succ] at good1
    exact (List.forall_mem_cons.mp good1).2
  · rw [rest2]
    exact good2

theorem Ready.swap (ready : Ready p good area base ⟨memory, b1, n1, b2, n2, tmp⟩) :
    Ready p good area base ⟨memory, b2, n2, b1, n1, tmp⟩ := by
  obtain ⟨apart1, apart2, covered, agrees, good1, good2⟩ := ready
  rw [Nat.add_comm n1] at apart1 apart2 covered
  exact ⟨apart2, apart1, covered, agrees, good2, good1⟩

/-- The elements at the temporary array after the first of them has been put there. -/
theorem first_element {memory after : Memory} {s b tmp count : Nat}
    (frame : ∀ q, q < tmp + s ∨ tmp + s + s * count ≤ q → after q = copyBytes memory tmp b s q) :
    elementsAt after tmp s (count + 1) = bytesOf memory b s :: elementsAt after (tmp + s) s count := by
  have moved : bytesOf (copyBytes memory tmp b s) tmp s = bytesOf memory b s := bytesOf_copyBytes
  rw [elementsAt_succ, ← moved]
  congr 1
  exact bytesOf_eq_iff.mpr fun k below => frame _ (by omega)

variable {after : Merge}

/-- The loop goes on after an element of the first run. -/
theorem Merged.left
    (merged : Merged p le ⟨copyBytes memory tmp b1 p.s, b1 + p.s, n1, b2, n2, tmp + p.s⟩ after c1 c2)
    (rest1 : elementsAt (copyBytes memory tmp b1 p.s) (b1 + p.s) p.s n1 = elementsAt memory (b1 + p.s) p.s n1)
    (rest2 : elementsAt (copyBytes memory tmp b1 p.s) b2 p.s n2 = elementsAt memory b2 p.s n2)
    (takes : List.merge (elementsAt memory b1 p.s (n1 + 1)) (elementsAt memory b2 p.s n2) le =
      bytesOf memory b1 p.s :: List.merge (elementsAt memory (b1 + p.s) p.s n1) (elementsAt memory b2 p.s n2) le) :
    Merged p le ⟨memory, b1, n1 + 1, b2, n2, tmp⟩ after (c1 + 1) c2 := by
  obtain ⟨taken1, taken2, place, final, exhausted, elements, frame⟩ := merged
  dsimp only at *
  have count : c1 + 1 + c2 = c1 + c2 + 1 := by omega
  have first := @first_element memory after.memory p.s b1 tmp (c1 + c2) frame
  refine ⟨by dsimp only; omega, taken2, ?_, ?_, exhausted, ?_, fun q out => ?_⟩
  · rw [place, Nat.mul_succ]
    dsimp only
    omega
  · rw [final, count, Nat.mul_succ]
    dsimp only
    omega
  · dsimp only
    rw [takes, ← rest1, ← rest2, ← elements, count, first, elementsAt_succ, List.drop_succ_cons, rest1, rest2]
    rfl
  · dsimp only at out ⊢
    rw [count, Nat.mul_succ] at out
    rw [frame q (by omega), copyBytes_outside (by omega)]

theorem Merged.right
    (merged : Merged p le ⟨copyBytes memory tmp b2 p.s, b1, n1, b2 + p.s, n2, tmp + p.s⟩ after c1 c2)
    (rest1 : elementsAt (copyBytes memory tmp b2 p.s) b1 p.s n1 = elementsAt memory b1 p.s n1)
    (rest2 : elementsAt (copyBytes memory tmp b2 p.s) (b2 + p.s) p.s n2 = elementsAt memory (b2 + p.s) p.s n2)
    (takes : List.merge (elementsAt memory b1 p.s n1) (elementsAt memory b2 p.s (n2 + 1)) le =
      bytesOf memory b2 p.s :: List.merge (elementsAt memory b1 p.s n1) (elementsAt memory (b2 + p.s) p.s n2) le) :
    Merged p le ⟨memory, b1, n1, b2, n2 + 1, tmp⟩ after c1 (c2 + 1) := by
  obtain ⟨taken1, taken2, place, final, exhausted, elements, frame⟩ := merged
  dsimp only at *
  have first := @first_element memory after.memory p.s b2 tmp (c1 + c2) frame
  refine ⟨taken1, by dsimp only; omega, place, ?_, exhausted, ?_, fun q out => ?_⟩
  · rw [final, ← Nat.add_assoc c1, Nat.mul_succ]
    dsimp only
    omega
  · dsimp only
    rw [takes, ← rest1, ← rest2, ← elements, ← Nat.add_assoc c1, first, elementsAt_succ, List.drop_succ_cons, rest1, rest2]
    rfl
  · dsimp only at out ⊢
    rw [← Nat.add_assoc c1, Nat.mul_succ] at out
    rw [frame q (by omega), copyBytes_outside (by omega)]

theorem mergeLoop_merged (fits : p.Fits) (compares : Compares p le good area base) (now : Merge)
    (ready : Ready p good area base now) : ∃ c1 c2, Merged p le now (mergeLoop p now) c1 c2 := by
  fun_induction mergeLoop p now with
  | case1 now both first ih =>
    obtain ⟨memory, b1, n1, b2, n2, tmp⟩ := now
    obtain ⟨n1, rfl⟩ := Nat.exists_eq_succ_of_ne_zero (Nat.ne_of_gt both.1)
    obtain ⟨n2, rfl⟩ := Nat.exists_eq_succ_of_ne_zero (Nat.ne_of_gt both.2)
    obtain ⟨moved, rest1, rest2, next⟩ := ready.move fits
    rw [stride_eq fits, moved] at ih ⊢
    obtain ⟨c1, c2, merged⟩ := ih next
    refine ⟨c1 + 1, c2, merged.left rest1 rest2 ?_⟩
    have ordered := (compares memory ready.agrees b1 b2 (ready.good1 _ (by rw [elementsAt_succ]; exact List.mem_cons_self))
      (ready.good2 _ (by rw [elementsAt_succ]; exact List.mem_cons_self))).mp first
    rw [elementsAt_succ, elementsAt_succ, List.cons_merge_cons, if_pos ordered]
  | case2 now both second ih =>
    obtain ⟨memory, b1, n1, b2, n2, tmp⟩ := now
    obtain ⟨n1, rfl⟩ := Nat.exists_eq_succ_of_ne_zero (Nat.ne_of_gt both.1)
    obtain ⟨n2, rfl⟩ := Nat.exists_eq_succ_of_ne_zero (Nat.ne_of_gt both.2)
    obtain ⟨moved, rest2, rest1, next⟩ := ready.swap.move fits
    rw [stride_eq fits, moved] at ih ⊢
    obtain ⟨c1, c2, merged⟩ := ih next.swap
    refine ⟨c1, c2 + 1, merged.right rest1 rest2 ?_⟩
    have ordered := mt (compares memory ready.agrees b1 b2 (ready.good1 _ (by rw [elementsAt_succ]; exact List.mem_cons_self))
      (ready.good2 _ (by rw [elementsAt_succ]; exact List.mem_cons_self))).mpr second
    rw [elementsAt_succ, elementsAt_succ, List.cons_merge_cons, if_neg ordered]
  | case3 now none =>
    refine ⟨0, 0, (Nat.zero_add _).symm, (Nat.zero_add _).symm, rfl, rfl, by omega, ?_, fun q _ => rfl⟩
    have exhausted : now.n1 = 0 ∨ now.n2 = 0 := by omega
    rw [elementsAt_zero, List.nil_append, List.drop_zero, List.drop_zero]
    rcases exhausted with zero | zero
    · rw [zero, elementsAt_zero, List.nil_append, List.nil_merge]
    · rw [zero, elementsAt_zero, List.append_nil, List.merge_right]

/-- What is left of the first run follows the merged elements in the temporary array. -/
def moveRest (p : MsortParam) (after : Merge) : Memory :=
  if 0 < after.n1 then copyBytes after.memory after.tmp after.b1 (after.n1 * p.s) else after.memory

theorem moveRest_eq (after : Merge) : moveRest p after = copyBytes after.memory after.tmp after.b1 (p.s * after.n1) := by
  unfold moveRest
  split
  · rw [Nat.mul_comm]
  · next none =>
    rw [Nat.eq_zero_of_not_pos none]
    funext q
    exact (copyBytes_outside (by omega)).symm

/-- The end of the merge: the temporary array goes back over both runs. -/
theorem Merged.close {b t : Nat}
    (merged : Merged p le ⟨memory, b, n1, b + p.s * n1, n2, t⟩ after c1 c2)
    (apart : t + p.s * (n1 + n2) ≤ b ∨ b + p.s * (n1 + n2) ≤ t) {final : Memory}
    (closed : final = copyBytes (moveRest p after) b t ((n1 + n2 - after.n2) * p.s)) :
    elementsAt final b p.s (n1 + n2) =
        List.merge (elementsAt memory b p.s n1) (elementsAt memory (b + p.s * n1) p.s n2) le ∧
      ∀ q, ¬(b ≤ q ∧ q < b + p.s * (n1 + n2)) → ¬(t ≤ q ∧ q < t + p.s * (n1 + n2)) → final q = memory q := by
  obtain ⟨taken1, taken2, place, tmp, exhausted, elements, frame⟩ := merged
  dsimp only at taken1 taken2 place tmp elements frame
  have count : n1 + n2 - after.n2 = c1 + c2 + after.n1 := by omega
  rw [moveRest_eq, count, Nat.mul_comm _ p.s, place, tmp] at closed
  have total : n1 + n2 = c1 + c2 + after.n1 + after.n2 := by omega
  rw [taken1, taken2] at elements
  rw [drop_elementsAt, drop_elementsAt] at elements
  rw [total] at apart ⊢
  rw [taken1, taken2, ← elements]
  simp only [Nat.mul_add] at apart closed frame ⊢
  -- where each byte of the result comes from
  have merged : ∀ k < p.s * c1 + p.s * c2, final (b + k) = after.memory (t + k) := by
    intro k below
    rw [closed, copyBytes_inside (by omega), copyBytes_outside (by omega)]
  have rest : ∀ k < p.s * after.n1, final (b + (p.s * c1 + p.s * c2) + k) = memory (b + p.s * c1 + k) := by
    intro k below
    have place : t + (p.s * c1 + p.s * c2 + k) = t + (p.s * c1 + p.s * c2) + k := by omega
    rw [closed, Nat.add_assoc b, copyBytes_inside (by omega), place, copyBytes_inside below, frame _ (by omega)]
  have kept : ∀ q, ¬(b ≤ q ∧ q < b + (p.s * c1 + p.s * c2 + p.s * after.n1)) →
      ¬(t ≤ q ∧ q < t + (p.s * c1 + p.s * c2 + p.s * after.n1)) → final q = memory q := by
    intro q outB outT
    rw [closed, copyBytes_outside (by omega), copyBytes_outside (by omega), frame _ (by omega)]
  constructor
  · rw [elementsAt_add (c1 + c2 + after.n1) after.n2, elementsAt_add (c1 + c2) after.n1, List.append_assoc]
    simp only [Nat.mul_add]
    congr 1
    · exact elementsAt_congr fun k below => merged k (by rwa [Nat.mul_add] at below)
    · congr 1
      · exact elementsAt_congr rest
      · refine elementsAt_congr fun k below => (kept _ (by omega) (by omega)).trans ?_
        congr 1
        omega
  · intro q outB outT
    exact kept q (by omega) (by omega)

/-- The sort leaves the sorted elements in place and changes nothing outside of them and of the temporary array. -/
theorem msortWithTmp_sorted (fits : p.Fits) (compares : Compares p le good area base) {b n : Nat}
    (apart : p.t + p.s * n ≤ b ∨ b + p.s * n ≤ p.t)
    (covered : ∀ q, b ≤ q ∧ q < b + p.s * n ∨ p.t ≤ q ∧ q < p.t + p.s * n → area q)
    (agrees : ∀ q, ¬area q → memory q = base q) (goods : ∀ x ∈ elementsAt memory b p.s n, good x) :
    elementsAt (msortWithTmp p memory b n) b p.s n = halvingSort le (elementsAt memory b p.s n) ∧
      ∀ q, ¬(b ≤ q ∧ q < b + p.s * n) → ¬(p.t ≤ q ∧ q < p.t + p.s * n) → msortWithTmp p memory b n q = memory q := by
  -- on the size: the halves are sorted in place one after the other, and each leaves the other as it was
  induction n using Nat.strongRecOn generalizing memory b with
  | ind n ih =>
    rw [msortWithTmp, halvingSort, length_elementsAt]
    by_cases short : n ≤ 1
    · rw [if_pos short, if_pos (by omega)]
      exact ⟨rfl, fun q _ _ => rfl⟩
    · rw [if_neg short, if_neg (by omega)]
      obtain ⟨n1, half⟩ : ∃ n1, n / 2 = n1 := ⟨_, rfl⟩
      obtain ⟨n2, total⟩ : ∃ n2, n = n1 + n2 := ⟨n - n1, by omega⟩
      have rest : n - n1 = n2 := by omega
      dsimp only
      rw [half, rest]
      rw [total] at apart covered goods ⊢
      rw [take_elementsAt, drop_elementsAt]
      rw [elementsAt_add] at goods
      obtain ⟨goodsLeft, goodsRight⟩ := List.forall_mem_append.mp goods
      rw [Nat.mul_add] at apart covered
      obtain ⟨sortedLeft, frameLeft⟩ := ih n1 (by omega) (by omega) (fun q inside => covered q (by omega)) agrees goodsLeft
      obtain ⟨left, leftEq⟩ : ∃ left, msortWithTmp p memory b n1 = left := ⟨_, rfl⟩
      rw [leftEq] at sortedLeft frameLeft ⊢
      have agreesLeft : ∀ q, ¬area q → left q = base q := by
        intro q out
        refine (frameLeft q (fun inside => out (covered q ?_)) fun inside => out (covered q ?_)).trans (agrees q out)
        · omega
        · omega
      have keptRight : elementsAt left (b + p.s * n1) p.s n2 = elementsAt memory (b + p.s * n1) p.s n2 :=
        elementsAt_congr fun k below => frameLeft _ (by omega) (by omega)
      obtain ⟨sortedRight, frameRight⟩ := @ih n2 (by omega) left (b + p.s * n1) (by omega) (fun q inside => covered q (by omega))
        agreesLeft (by rwa [keptRight])
      rw [Nat.mul_comm n1]
      obtain ⟨right, rightEq⟩ : ∃ right, msortWithTmp p left (b + p.s * n1) n2 = right := ⟨_, rfl⟩
      rw [rightEq] at sortedRight frameRight ⊢
      have agreesRight : ∀ q, ¬area q → right q = base q := by
        intro q out
        refine (frameRight q (fun inside => out (covered q ?_)) fun inside => out (covered q ?_)).trans (agreesLeft q out)
        · omega
        · omega
      have keptLeft : elementsAt right b p.s n1 = elementsAt left b p.s n1 :=
        elementsAt_congr fun k below => frameRight _ (by omega) (by omega)
      have ready : Ready p good area base ⟨right, b, n1, b + p.s * n1, n2, p.t⟩ := by
        refine ⟨?_, ?_, fun q low high => covered q ?_, agreesRight, ?_, ?_⟩
        · dsimp only
          rw [Nat.mul_add]
          omega
        · dsimp only
          rw [Nat.mul_add]
          omega
        · dsimp only at low high
          rw [Nat.mul_add] at high
          omega
        · intro x member
          rw [keptLeft, sortedLeft] at member
          exact goodsLeft x ((halvingSort_perm le _).subset member)
        · intro x member
          rw [sortedRight, keptRight] at member
          exact goodsRight x ((halvingSort_perm le _).subset member)
      obtain ⟨c1, c2, merged⟩ := mergeLoop_merged fits compares _ ready
      obtain ⟨elements, frame⟩ := merged.close (by rw [Nat.mul_add]; omega) rfl
      rw [keptLeft, sortedLeft, sortedRight, keptRight] at elements
      refine ⟨elements, fun q outB outT => (frame q outB outT).trans ?_⟩
      rw [Nat.mul_add] at outB outT
      rw [frameRight q (by omega) (by omega), frameLeft q (by omega) (by omega)]

end Merging

end Xpl.Collections
