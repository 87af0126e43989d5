import Xpl.Text.Exactness

/-! Offsets in characters and pointers into a string.

Strings are read at positions from their start. A read outside of the string has no result.
-/

set_option autoImplicit false

namespace Xpl.Text
open Xpl.Library

section Functions
variable (string : Bytes)

/-- `while (s < pos)` -/
def countCharacters (s pos : Nat) : Option Nat :=
  if s < pos then
    match string[s]? with
    | none => none
    | some first => (countCharacters (s + utf8Skip first) pos).map (· + 1)
  else some 0
termination_by pos - s
decreasing_by
  have positive := utf8Skip_pos first
  omega

def xutf8PointerToOffset (str pos : Nat) : Option Int :=
  if pos < str then (countCharacters string pos str).map fun count : Nat => -(count : Int)
  else (countCharacters string str pos).map fun count : Nat => (count : Int)

/-- `while (offset--)` -/
def nextCharacters : Nat → Nat → Option Nat
  | 0, s => some s
  | offset + 1, s => do
    let first ← string[s]?
    nextCharacters offset (s + utf8Skip first)

/-- `while ((*s & 0xc0) == 0x80) s--;` -/
def characterStart : Nat → Option Nat
  | 0 => do
    let byte ← string[0]?
    if isContinuation byte then none else some 0
  | s + 1 => do
    let byte ← string[s + 1]?
    if isContinuation byte then characterStart s else some (s + 1)

/-- `while (offset)`, for a number of turns: it steps back by bytes and counts the characters it has passed. -/
def stutterLoop : Nat → Nat → Int → Option Nat
  | 0, _, _ => none
  | turns + 1, s1, offset =>
    if offset = 0 then some s1
    else if (s1 : Int) + offset < 0 then none
    else do
      let s ← characterStart string ((s1 : Int) + offset).toNat
      let passed ← xutf8PointerToOffset string s s1
      stutterLoop turns s (offset + passed)

def xutf8OffsetToPointer (str : Nat) (offset : Int) : Option Nat :=
  if 0 < offset then nextCharacters string offset.toNat str else stutterLoop string (offset.natAbs + 1) str offset

/-- The inner result is what the function returns: a pointer or `NULL`. -/
def xutf8FindPrevChar : Nat → Option (Option Nat)
  | 0 => some none
  | p + 1 => do
    let byte ← string[p]?
    if isContinuation byte then xutf8FindPrevChar p else some (some p)

/-- The loop after `++p`, up to `limit` if there is one. -/
def passContinuations (limit : Option Nat) (p : Nat) : Option Nat :=
  if limit.any (· ≤ p) then some p
  else
    match read : string[p]? with
    | none => none
    | some byte => if isContinuation byte then passContinuations limit (p + 1) else some p
termination_by string.length - p
decreasing_by
  obtain ⟨inside, _⟩ := List.getElem?_eq_some_iff.mp read
  omega

/-- `limit` is the argument `end`. -/
def xutf8FindNextChar (p : Nat) (limit : Option Nat) : Option (Option Nat) := do
  let p ← passContinuations string limit (p + 1)
  return if limit.any (· ≤ p) then none else some p

end Functions

section Boundaries
variable {k i j : Nat}

/-- How many bytes a text takes. -/
def extent (text : List Nat) : Nat := (text.flatMap utf8).length

variable {string rest : Bytes} {text before middle after : List Nat} {c : Nat}

theorem extent_append (before after : List Nat) : extent (before ++ after) = extent before + extent after := by
  simp [extent]

theorem extent_cons (c : Nat) (after : List Nat) : extent (c :: after) = (utf8 c).length + extent after := by
  simp [extent]

theorem utf8_length_pos (c : Nat) : 0 < (utf8 c).length := List.length_pos_of_ne_nil (utf8_ne_nil c)

theorem length_le_extent (text : List Nat) : text.length ≤ extent text := by
  induction text with
  | nil => exact Nat.zero_le _
  | cons c text ih =>
    have positive := utf8_length_pos c
    rw [extent_cons, List.length_cons]
    omega

theorem utf8_bytes (below : c < 0x110000) :
    ∃ a tail, utf8 c = a :: tail ∧ isContinuation a = false ∧ tail.all isContinuation = true ∧
      utf8Skip a = (utf8 c).length := by
  obtain ⟨a, tail, shape, skip⟩ := utf8Skip_utf8 below
  refine ⟨a, tail, shape, ?_, ?_, skip⟩
  · rw [Bool.eq_false_iff, ne_eq, isContinuation_iff]
    intro inside
    by_cases small : c < 0x80
    · rw [utf8_one small] at shape
      have value : (UInt8.ofNat c).toNat = c := toNat_byte (by omega)
      rw [← (List.cons.inj shape).1, value] at inside
      omega
    · obtain ⟨a', _, _, _, shape', _, announced, _⟩ := utf8_lead (by omega) below
      rw [← (List.cons.inj (shape.symm.trans shape')).1, leadClass, if_pos inside.2] at announced
      cases announced
  · by_cases small : c < 0x80
    · rw [utf8_one small] at shape
      rw [← (List.cons.inj shape).2]
      rfl
    · obtain ⟨_, tail', _, _, shape', _, _, continued, _⟩ := utf8_lead (by omega) below
      rw [(List.cons.inj (shape.symm.trans shape')).2]
      exact continued

theorem character_byte (shape : string = (before ++ c :: after).flatMap utf8 ++ rest) (inside : k < (utf8 c).length) :
    string[extent before + k]? = (utf8 c)[k]? := by
  rw [shape, List.flatMap_append, List.flatMap_cons, List.append_assoc, extent, List.getElem?_append_right (by omega),
    Nat.add_sub_cancel_left, List.append_assoc, List.getElem?_append_left inside]

theorem first_byte (below : c < 0x110000) (shape : string = (before ++ c :: after).flatMap utf8 ++ rest) :
    ∃ a, string[extent before]? = some a ∧ isContinuation a = false ∧ extent before + utf8Skip a = extent (before ++ [c]) := by
  obtain ⟨a, tail, bytes, lead, _, skip⟩ := utf8_bytes below
  refine ⟨a, ?_, lead, ?_⟩
  · have byte := character_byte shape (utf8_length_pos c)
    rwa [bytes] at byte
  · rw [skip, extent_append, extent_cons]
    rfl

theorem later_byte (below : c < 0x110000) (shape : string = (before ++ c :: after).flatMap utf8 ++ rest)
    (inside : k + 1 < (utf8 c).length) : ∃ b, string[extent before + k + 1]? = some b ∧ isContinuation b = true := by
  obtain ⟨a, tail, bytes, _, continued, _⟩ := utf8_bytes below
  have byte := character_byte shape inside
  rw [bytes, List.length_cons] at inside
  have held : k < tail.length := by omega
  rw [bytes, List.getElem?_cons_succ, List.getElem?_eq_getElem held] at byte
  exact ⟨tail[k], byte, List.all_eq_true.mp continued _ (List.getElem_mem held)⟩

theorem pass_character (shape : string = (before ++ c :: middle ++ after).flatMap utf8 ++ rest) :
    string = (before ++ [c] ++ middle ++ after).flatMap utf8 ++ rest := by
  rw [shape, ← List.append_cons]

theorem nextCharacters_text (valid : IsText middle) (shape : string = (before ++ middle ++ after).flatMap utf8 ++ rest) :
    nextCharacters string middle.length (extent before) = some (extent (before ++ middle)) := by
  induction middle generalizing before with
  | nil => rw [List.append_nil]; rfl
  | cons c middle ih =>
    have shape' := pass_character shape
    rw [List.append_assoc] at shape
    obtain ⟨a, read, _, skip⟩ := first_byte valid.head.1.lt shape
    rw [List.length_cons, nextCharacters, read, some_bind, skip, ih valid.tail shape', ← List.append_cons]

theorem countCharacters_text (valid : IsText middle) (shape : string = (before ++ middle ++ after).flatMap utf8 ++ rest) :
    countCharacters string (extent before) (extent (before ++ middle)) = some middle.length := by
  induction middle generalizing before with
  | nil => rw [List.append_nil, countCharacters, if_neg (Nat.lt_irrefl _)]; rfl
  | cons c middle ih =>
    have shape' := pass_character shape
    have positive := utf8_length_pos c
    have further := extent_append before (c :: middle)
    rw [extent_cons] at further
    rw [List.append_assoc] at shape
    obtain ⟨a, read, _, skip⟩ := first_byte valid.head.1.lt shape
    rw [countCharacters, if_pos (by omega), read]
    dsimp only
    rw [skip, List.append_cons before c middle, ih valid.tail shape']
    rfl

/-- Stepping back from within a character ends at its first byte. -/
theorem characterStart_inside (below : c < 0x110000) (shape : string = (before ++ c :: after).flatMap utf8 ++ rest)
    (inside : k < (utf8 c).length) : characterStart string (extent before + k) = some (extent before) := by
  induction k with
  | zero =>
    obtain ⟨a, read, lead, _⟩ := first_byte below shape
    cases position : extent before with
    | zero =>
      rw [position] at read
      rw [characterStart, read, some_bind, lead]
      rfl
    | succ p =>
      rw [position] at read
      rw [characterStart, read, some_bind, lead]
      rfl
  | succ k ih =>
    obtain ⟨b, read, continued⟩ := later_byte below shape inside
    rw [← Nat.add_assoc, characterStart, read, some_bind, continued, if_pos rfl]
    exact ih (by omega)

/-- Every position in a text lies in one of its characters. -/
theorem exists_character {t : Nat} (inside : t < extent middle) :
    ∃ front c back k, middle = front ++ c :: back ∧ t = extent front + k ∧ k < (utf8 c).length := by
  induction middle generalizing t with
  | nil => exact absurd inside (Nat.not_lt_zero t)
  | cons c middle ih =>
    rw [extent_cons] at inside
    by_cases here : t < (utf8 c).length
    · exact ⟨[], c, middle, t, rfl, (Nat.zero_add t).symm, here⟩
    · obtain ⟨front, d, back, k, split, position, within⟩ := @ih (t - (utf8 c).length) (by omega)
      refine ⟨c :: front, d, back, k, by rw [split]; rfl, ?_, within⟩
      rw [extent_cons]
      omega

theorem xutf8PointerToOffset_forward (valid : IsText middle)
    (shape : string = (before ++ middle ++ after).flatMap utf8 ++ rest) :
    xutf8PointerToOffset string (extent before) (extent (before ++ middle)) = some (middle.length : Int) := by
  have further := extent_append before middle
  rw [xutf8PointerToOffset, if_neg (by omega), countCharacters_text valid shape]
  rfl

/-- Each turn passes at least one character and never more than are left. -/
theorem stutterLoop_text (valid : IsText middle) (shape : string = (before ++ middle ++ after).flatMap utf8 ++ rest)
    {turns : Nat} (enough : middle.length < turns) :
    stutterLoop string turns (extent (before ++ middle)) (-(middle.length : Int)) = some (extent before) := by
  induction turns generalizing middle after with
  | zero => exact absurd enough (Nat.not_lt_zero _)
  | succ turns ih =>
    rw [stutterLoop]
    cases length : middle.length with
    | zero =>
      rw [List.eq_nil_of_length_eq_zero length, List.append_nil]
      exact if_pos rfl
    | succ m =>
      have room := length_le_extent middle
      have total := extent_append before middle
      -- as many bytes back as there are characters left is not too far back
      obtain ⟨front, c, back, k, split, position, within⟩ := @exists_character middle (extent middle - (m + 1)) (by omega)
      have target : ((extent (before ++ middle) : Int) + -((m + 1 : Nat) : Int)).toNat = extent (before ++ front) + k := by
        rw [extent_append before front]
        omega
      rw [if_neg (by omega), if_neg (by omega), target]
      subst split
      have below : c < 0x110000 := (valid.append_right).head.1.lt
      have around : string = ((before ++ front) ++ c :: (back ++ after)).flatMap utf8 ++ rest := by
        rw [shape]
        simp only [List.append_assoc, List.cons_append]
      have passed : string = ((before ++ front) ++ (c :: back) ++ after).flatMap utf8 ++ rest := by
        rw [around]
        simp only [List.append_assoc, List.cons_append]
      rw [characterStart_inside below around within, some_bind, ← List.append_assoc before,
        xutf8PointerToOffset_forward valid.append_right passed, some_bind]
      have remaining : -((m + 1 : Nat) : Int) + ((c :: back).length : Int) = -(front.length : Int) := by
        rw [List.length_append, List.length_cons] at length
        rw [List.length_cons]
        omega
      rw [remaining]
      rw [List.length_append, List.length_cons] at enough
      refine @ih front (c :: back ++ after) valid.append_left ?_ (by omega)
      rw [around]
      simp only [List.append_assoc, List.cons_append]

/-- Where the character with index `i` begins, or the text ends. -/
def boundary (text : List Nat) (i : Nat) : Nat := extent (text.take i)

theorem split_text (text : List Nat) (ordered : i ≤ j) :
    text = text.take i ++ (text.take j).drop i ++ text.drop j ∧ text.take i ++ (text.take j).drop i = text.take j := by
  have front : text.take i ++ (text.take j).drop i = text.take j := by
    conv_rhs => rw [← List.take_append_drop i (text.take j), List.take_take, Nat.min_eq_left ordered]
  exact ⟨by rw [front, List.take_append_drop], front⟩

theorem xutf8OffsetToPointer_boundary (valid : IsText text) (fromI : i ≤ text.length) (toJ : j ≤ text.length) :
    xutf8OffsetToPointer (text.flatMap utf8) (boundary text i) ((j : Int) - i) = some (boundary text j) := by
  by_cases ordered : i < j
  · obtain ⟨shape, front⟩ := split_text text (Nat.le_of_lt ordered)
    have whole : text.flatMap utf8 = (text.take i ++ (text.take j).drop i ++ text.drop j).flatMap utf8 ++ [] := by
      rw [← shape, List.append_nil]
    have count : ((j : Int) - i).toNat = ((text.take j).drop i).length := by
      rw [List.length_drop, List.length_take]
      omega
    have middleValid : IsText ((text.take j).drop i) := fun c member =>
      valid c (List.mem_of_mem_take (List.mem_of_mem_drop member))
    rw [xutf8OffsetToPointer, if_pos (by omega), count, boundary, boundary, nextCharacters_text middleValid whole, front]
  · obtain ⟨shape, front⟩ := split_text text (Nat.not_lt.mp ordered)
    have whole : text.flatMap utf8 = (text.take j ++ (text.take i).drop j ++ text.drop i).flatMap utf8 ++ [] := by
      rw [← shape, List.append_nil]
    have length : ((text.take i).drop j).length = i - j := by
      rw [List.length_drop, List.length_take]
      omega
    have count : (j : Int) - i = -(((text.take i).drop j).length : Int) := by omega
    have middleValid : IsText ((text.take i).drop j) := fun c member =>
      valid c (List.mem_of_mem_take (List.mem_of_mem_drop member))
    have back := stutterLoop_text middleValid whole (Nat.lt_succ_self _)
    rw [front] at back
    rw [xutf8OffsetToPointer, if_neg (by omega), count, Int.natAbs_neg, Int.natAbs_natCast, boundary, boundary, back]

theorem xutf8PointerToOffset_boundary (valid : IsText text) (fromI : i ≤ text.length) (toJ : j ≤ text.length) :
    xutf8PointerToOffset (text.flatMap utf8) (boundary text i) (boundary text j) = some ((j : Int) - i) := by
  have between : ∀ i j, i ≤ j → j ≤ text.length →
      countCharacters (text.flatMap utf8) (boundary text i) (boundary text j) = some (j - i) ∧
        boundary text i + (j - i) ≤ boundary text j := by
    intro i j ordered inside
    obtain ⟨shape, front⟩ := split_text text ordered
    have whole : text.flatMap utf8 = (text.take i ++ (text.take j).drop i ++ text.drop j).flatMap utf8 ++ [] := by
      rw [← shape, List.append_nil]
    have length : ((text.take j).drop i).length = j - i := by
      rw [List.length_drop, List.length_take]
      omega
    have middleValid : IsText ((text.take j).drop i) := fun c member =>
      valid c (List.mem_of_mem_take (List.mem_of_mem_drop member))
    have counted := countCharacters_text middleValid whole
    have extents := extent_append (text.take i) ((text.take j).drop i)
    have atLeast := length_le_extent ((text.take j).drop i)
    rw [front] at counted extents
    rw [length] at counted atLeast
    exact ⟨counted, by unfold boundary; omega⟩
  rcases Nat.lt_or_ge j i with less | ordered
  · obtain ⟨counted, apart⟩ := between j i (Nat.le_of_lt less) fromI
    rw [xutf8PointerToOffset, if_pos (by omega), counted, Option.map_some]
    congr 1
    omega
  · obtain ⟨counted, apart⟩ := between i j ordered toJ
    rw [xutf8PointerToOffset, if_neg (by omega), counted, Option.map_some]
    congr 1
    omega

/-- Continuation bytes are passed on the way back to the first byte of a character. -/
theorem xutf8FindPrevChar_inside (below : c < 0x110000) (shape : string = (before ++ c :: after).flatMap utf8 ++ rest)
    (inside : k < (utf8 c).length) : xutf8FindPrevChar string (extent before + k + 1) = some (some (extent before)) := by
  induction k with
  | zero =>
    obtain ⟨a, read, lead, _⟩ := first_byte below shape
    rw [Nat.add_zero, xutf8FindPrevChar, read, some_bind, lead]
    rfl
  | succ k ih =>
    obtain ⟨b, read, continued⟩ := later_byte below shape inside
    rw [xutf8FindPrevChar, ← Nat.add_assoc, read, some_bind, continued, if_pos rfl]
    exact ih (by omega)

/-- They are passed on the way to the next character, up to the limit. -/
theorem passContinuations_inside (below : c < 0x110000) (shape : string = (before ++ c :: after).flatMap utf8 ++ rest)
    {limit : Option Nat} (high : limit.all (extent (before ++ [c]) ≤ ·)) (inside : k < (utf8 c).length) :
    passContinuations string limit (extent before + k + 1) = passContinuations string limit (extent (before ++ [c])) := by
  have total : extent (before ++ [c]) = extent before + (utf8 c).length := by
    rw [extent_append, extent_cons]
    rfl
  induction left : (utf8 c).length - (k + 1) generalizing k with
  | zero =>
    congr 1
    omega
  | succ left ih =>
    obtain ⟨b, read, continued⟩ := later_byte below shape (k := k) (by omega)
    have onwards : limit.any (fun last => decide (last ≤ extent before + k + 1)) = false := by
      cases limit with
      | none => rfl
      | some last =>
        have after := of_decide_eq_true high
        exact decide_eq_false (by omega)
    rw [passContinuations, onwards]
    split
    · next impossible => cases impossible
    · split
      · next missing =>
        rw [read] at missing
        cases missing
      · next byte found =>
        rw [read] at found
        rw [← Option.some.inj found, continued, if_pos rfl]
        exact ih (k := k + 1) (by omega) (by omega)

theorem split_character {i : Nat} (inside : i < text.length) :
    text = text.take i ++ text[i] :: text.drop (i + 1) ∧ text.take (i + 1) = text.take i ++ [text[i]] :=
  ⟨(text.take_append_drop i).symm.trans (congrArg _ (List.drop_eq_getElem_cons inside)), List.take_succ_eq_append_getElem inside⟩

/-- From a boundary the functions go to the one before and to the one behind. -/
theorem xutf8FindPrevChar_boundary (valid : IsText text) (inside : i ≤ text.length) :
    xutf8FindPrevChar (text.flatMap utf8) (boundary text i) = some (if i = 0 then none else some (boundary text (i - 1))) := by
  cases i with
  | zero => rfl
  | succ i =>
    obtain ⟨shape, next⟩ := @split_character text i inside
    have whole : text.flatMap utf8 = (text.take i ++ text[i] :: text.drop (i + 1)).flatMap utf8 ++ [] := by
      rw [← shape, List.append_nil]
    have positive := utf8_length_pos text[i]
    have last : boundary text (i + 1) = extent (text.take i) + ((utf8 text[i]).length - 1) + 1 := by
      rw [boundary, next, extent_append, extent_cons]
      change _ + (_ + 0) = _
      omega
    rw [last, xutf8FindPrevChar_inside (valid _ (List.getElem_mem inside)).1.lt whole (by omega), if_neg (Nat.succ_ne_zero i)]
    rfl

theorem xutf8FindNextChar_boundary (valid : IsText text) (inside : i < text.length) :
    xutf8FindNextChar (text.flatMap utf8 ++ [0]) (boundary text i) none = some (some (boundary text (i + 1))) ∧
      xutf8FindNextChar (text.flatMap utf8) (boundary text i) (some (extent text)) =
        some (if i + 1 = text.length then none else some (boundary text (i + 1))) := by
  obtain ⟨shape, next⟩ := split_character inside
  have below := (valid _ (List.getElem_mem inside)).1.lt
  have positive := utf8_length_pos text[i]
  have total : extent text = boundary text (i + 1) + extent (text.drop (i + 1)) := by
    conv_lhs => rw [← List.take_append_drop (i + 1) text]
    exact extent_append _ _
  -- the byte at the next boundary is the first of a character or the terminator
  have stops : ∀ {string rest : Bytes} {limit : Option Nat}, string = text.flatMap utf8 ++ rest →
      i + 1 < text.length ∨ rest = [0] → limit.any (· ≤ boundary text (i + 1)) = false →
        passContinuations string limit (boundary text (i + 1)) = some (boundary text (i + 1)) := by
    intro string rest limit whole more onwards
    have byte : ∃ a, string[boundary text (i + 1)]? = some a ∧ isContinuation a = false := by
      rcases Nat.lt_or_ge (i + 1) text.length with further | final
      · obtain ⟨shape', _⟩ := split_character further
        rw [shape'] at whole
        obtain ⟨a, read, lead, _⟩ := first_byte (valid _ (List.getElem_mem further)).1.lt whole
        exact ⟨a, read, lead⟩
      · have terminator : rest = [0] := more.resolve_left (Nat.not_lt.mpr final)
        have position : boundary text (i + 1) = (text.flatMap utf8).length := by
          rw [boundary, List.take_of_length_le final]
          rfl
        rw [position, whole, terminator, List.getElem?_append_right (Nat.le_refl _), Nat.sub_self]
        exact ⟨0, rfl, rfl⟩
    obtain ⟨a, read, lead⟩ := byte
    rw [passContinuations, onwards]
    split
    · next impossible => cases impossible
    · split
      · next missing =>
        rw [read] at missing
        cases missing
      · next byte found =>
        rw [read] at found
        rw [← Option.some.inj found, lead]
        rfl
  have passes : ∀ {string rest : Bytes} {limit : Option Nat}, string = text.flatMap utf8 ++ rest →
      limit.all (boundary text (i + 1) ≤ ·) → passContinuations string limit (boundary text i + 1) =
        passContinuations string limit (boundary text (i + 1)) := by
    intro string rest limit whole high
    rw [shape] at whole
    have reach : limit.all (extent (text.take i ++ [text[i]]) ≤ ·) := by rwa [← next]
    have moved := passContinuations_inside below whole reach positive
    rw [← next] at moved
    exact moved
  constructor
  · rw [xutf8FindNextChar, passes rfl rfl, stops rfl (Or.inr rfl) rfl]
    rfl
  · have reach : (some (extent text)).all (boundary text (i + 1) ≤ ·) = true := decide_eq_true (by omega)
    have bare : text.flatMap utf8 = text.flatMap utf8 ++ [] := (List.append_nil _).symm
    rw [xutf8FindNextChar, passes bare reach]
    by_cases final : i + 1 = text.length
    · have end_of_text : boundary text (i + 1) = extent text := by rw [boundary, final, List.take_length]
      have reached : (some (extent text)).any (· ≤ extent text) = true := decide_eq_true (Nat.le_refl _)
      rw [if_pos final, end_of_text, passContinuations, if_pos reached]
      exact congrArg some (if_pos reached)
    · have further : i + 1 < text.length := by omega
      have room := length_le_extent (text.drop (i + 1))
      rw [List.length_drop] at room
      have before : (some (extent text)).any (· ≤ boundary text (i + 1)) = false := decide_eq_false (by omega)
      rw [if_neg final, stops bare (Or.inl further) before]
      exact congrArg some (if_neg (by rw [before]; exact Bool.false_ne_true))

/-- Stepping by characters and counting them are inverse to each other, and the neighbours of a boundary are found. -/
theorem xutf8OffsetToPointer_exact (text : List Nat) (valid : IsText text) (i : Nat) (inside : i ≤ text.length) :
    (∀ k : Int, 0 ≤ i + k → i + k ≤ text.length →
      xutf8OffsetToPointer (text.flatMap utf8) (boundary text i) k = some (boundary text (i + k).toNat) ∧
        xutf8PointerToOffset (text.flatMap utf8) (boundary text i) (boundary text (i + k).toNat) = some k) ∧
      xutf8FindPrevChar (text.flatMap utf8) (boundary text i) = some (if i = 0 then none else some (boundary text (i - 1))) ∧
      (i < text.length →
        xutf8FindNextChar (text.flatMap utf8 ++ [0]) (boundary text i) none = some (some (boundary text (i + 1))) ∧
          xutf8FindNextChar (text.flatMap utf8) (boundary text i) (some (extent text)) =
            some (if i + 1 = text.length then none else some (boundary text (i + 1)))) := by
  refine ⟨fun k low high => ?_, xutf8FindPrevChar_boundary valid inside, xutf8FindNextChar_boundary valid⟩
  have target : k = ((i + k).toNat : Int) - i := by omega
  have reach : (i + k).toNat ≤ text.length := by omega
  have pointer := xutf8OffsetToPointer_boundary valid inside reach
  have offset := xutf8PointerToOffset_boundary valid inside reach
  rw [← target] at pointer offset
  exact ⟨pointer, offset⟩

theorem xutf8OffsetToPointer_exact_witness :
    xutf8OffsetToPointer ([0x20ac, 0x61, 0x1f600].flatMap utf8) (boundary [0x20ac, 0x61, 0x1f600] 3) (-2) = some 3 := by
  have valid : IsText [0x20ac, 0x61, 0x1f600] := by
    intro c member
    simp only [List.mem_cons, List.not_mem_nil, or_false] at member
    rcases member with rfl | rfl | rfl <;> decide
  exact ((xutf8OffsetToPointer_exact _ valid 3 (by decide)).1 (-2) (by decide) (by decide)).1.trans (by decide)

end Boundaries

end Xpl.Text
