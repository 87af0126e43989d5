import Xpl.Library.Sorting
import Xpl.Text.CharacterOffsets
import Xpl.Text.ExtendedCharacters

/-! Decomposition and canonical ordering: the first half of `_xutf8_normalize_wc`.

A string is read at positions from its start, and the buffer of code points at indices. A read or a
write outside of either has no result.
-/

set_option autoImplicit false

namespace Xpl.Text
open Xpl.Library

/-! ## Canonical ordering -/

section Ordering
variable (combiningClass : Nat → Nat)

/-- Percolate the item at `j` leftward, and say whether anything was swapped. -/
def percolate (next : Nat) : List Nat → Nat → Bool → Option (List Nat × Bool)
  | string, 0, swap => some (string, swap)
  | string, j + 1, swap => do
    let before ← string[j]?
    if combiningClass before ≤ next then return (string, swap)
    let t ← string[j + 1]?
    percolate next ((string.set (j + 1) before).set j t) j true

/-- The `for` loop, for a number of turns. -/
def orderingPass : Nat → List Nat → Nat → Nat → Bool → Option (List Nat × Bool)
  | 0, string, _, _, swap => some (string, swap)
  | turns + 1, string, i, last, swap => do
    let next := combiningClass (← string[i + 1]?)
    if next ≠ 0 ∧ next < last then
      let (string, swap) ← percolate combiningClass next string (i + 1) swap
      -- the old character is looked at again
      orderingPass turns string (i + 1) last swap
    else orderingPass turns string (i + 1) next swap

/-- `while (swap)`, for at most as many turns as the fuel; `len` is the length of the list. -/
def xunicodeCanonicalOrdering : Nat → List Nat → Option (List Nat)
  | 0, _ => none
  | fuel + 1, string => do
    let last := combiningClass (← string[0]?)
    let (string, swap) ← orderingPass combiningClass (string.length - 1) string 0 last false
    if swap then xunicodeCanonicalOrdering fuel string else return string

end Ordering

/-! ## Decomposition -/

def sBase : Nat := 0xAC00
def lBase : Nat := 0x1100
def vBase : Nat := 0x1161
def tBase : Nat := 0x11A7
def lCount : Nat := 19
def vCount : Nat := 21
def tCount : Nat := 28
def nCount : Nat := vCount * tCount
def sCount : Nat := lCount * nCount

def isHangulSyllable (wc : Nat) : Bool := sBase ≤ wc && wc < sBase + sCount

/-- What is stored at `r`, and `result_len`. -/
def decomposeHangul (s : Nat) : List Nat × Nat :=
  let sIndex := s - sBase
  let tIndex := sIndex % tCount
  let r := [lBase + sIndex / nCount, vBase + sIndex % nCount / tCount]
  if tIndex ≠ 0 then (r ++ [tBase + tIndex], 3) else (r, 2)

def notPresentOffset : Nat := 65535

structure Decomposition where
  ch : Nat
  canonOffset : Nat
  compatOffset : Nat
  deriving DecidableEq, Repr

/-- A text that is not empty stands at the offset, with a NUL behind it. -/
def Expands (expansions : Bytes) (offset : Nat) (text : List Nat) : Prop :=
  IsText text ∧ text ≠ [] ∧ Reads expansions offset (text.flatMap utf8 ++ [0])

structure DecompTable where
  entries : List Decomposition
  expansions : Bytes
  nonempty : entries ≠ []
  present : ∀ entry ∈ entries, entry.canonOffset ≠ notPresentOffset ∨ entry.compatOffset ≠ notPresentOffset
  expands : ∀ entry ∈ entries, ∀ offset, offset = entry.canonOffset ∨ offset = entry.compatOffset → offset ≠ notPresentOffset →
    ∃ text, Expands expansions offset text

namespace DecompTable
variable (table : DecompTable)

/-- The binary search between `start` and `stop`. -/
def search (ch start stop : Nat) (ordered : start < stop) : Option (Option Decomposition) :=
  let half := (start + stop) / 2
  match table.entries[half]? with
  | none => none
  | some entry =>
    if ch = entry.ch then some (some entry)
    else if alone : half = start then some none
    else if entry.ch < ch then search ch half stop (by omega)
    else search ch start half (by omega)
termination_by stop - start

/-- The offset of the expansion. -/
def findDecomposition (ch : Nat) (compat : Bool) : Option (Option Nat) := do
  let first ← table.entries[0]?
  let last ← table.entries[table.entries.length - 1]?
  if first.ch ≤ ch ∧ ch ≤ last.ch then
    match ← table.search ch 0 table.entries.length (List.length_pos_of_ne_nil table.nonempty) with
    | none => return none
    | some entry =>
      if compat then return some (if entry.compatOffset = notPresentOffset then entry.canonOffset else entry.compatOffset)
      else return if entry.canonOffset = notPresentOffset then none else some entry.canonOffset
  else return none

end DecompTable

def xutf8Strlen (string : Bytes) (p : Nat) : Option Nat :=
  match inside : string[p]? with
  | none => none
  | some first => if first = 0 then some 0 else (xutf8Strlen string (p + utf8Skip first)).map (· + 1)
termination_by string.length - p
decreasing_by
  have positive := utf8Skip_pos first
  have below := (List.getElem?_eq_some_iff.mp inside).1
  omega

def storeWc (buffer : List Nat) (nWc wc : Nat) : Option (List Nat) :=
  if nWc < buffer.length then some (buffer.set nWc wc) else none

def copyExpansion (expansions : Bytes) (pd : Nat) (buffer : List Nat) (nWc : Nat) : Option (List Nat × Nat) :=
  match inside : expansions[pd]? with
  | none => none
  | some first =>
    if first = 0 then some (buffer, nWc)
    else
      ((xutf8GetChar expansions pd).bind (storeWc buffer nWc)).bind fun buffer =>
        copyExpansion expansions (pd + utf8Skip first) buffer (nWc + 1)
termination_by expansions.length - pd
decreasing_by
  have positive := utf8Skip_pos first
  have below := (List.getElem?_eq_some_iff.mp inside).1
  omega

def storeAll : List Nat → Nat → List Nat → Option (List Nat)
  | buffer, _, [] => some buffer
  | buffer, nWc, wc :: rest => do storeAll (← storeWc buffer nWc wc) (nWc + 1) rest

/-! ## The two passes -/

inductive NormalizeMode where
  | nfd | nfc | nfkd | nfkc
  deriving DecidableEq, Repr

def NormalizeMode.compat : NormalizeMode → Bool
  | nfkc | nfkd => true
  | nfd | nfc => false

section Passes
variable (combiningClass : Nat → Nat) (table : DecompTable) (compat : Bool) (string : Bytes) (maxLen : Int)

/-- How many code points a character takes. -/
def expandedLength (wc : Nat) : Option Nat :=
  if isHangulSyllable wc then some (decomposeHangul wc).2
  else do
    match ← table.findDecomposition wc compat with
    | some decomp => xutf8Strlen table.expansions decomp
    | none => return 1

def countPass (p nWc : Nat) : Option Nat :=
  if maxLen < 0 ∨ (p : Int) < maxLen then
    match _inside : string[p]? with
    | none => none
    | some first =>
      if first = 0 then some nWc
      else
        ((xutf8GetChar string p).bind (expandedLength table compat)).bind fun length =>
          countPass (p + utf8Skip first) (nWc + length)
  else some nWc
termination_by string.length - p
decreasing_by
  have positive := utf8Skip_pos first
  have below := (List.getElem?_eq_some_iff.mp _inside).1
  omega

def storeExpansion (buffer : List Nat) (nWc wc : Nat) : Option (List Nat × Nat) :=
  if isHangulSyllable wc then
    (storeAll buffer nWc (decomposeHangul wc).1).map fun buffer => (buffer, nWc + (decomposeHangul wc).2)
  else do
    match ← table.findDecomposition wc compat with
    | some decomp => copyExpansion table.expansions decomp buffer nWc
    | none => return (← storeWc buffer nWc wc, nWc + 1)

/-- `xunicode_canonical_ordering (wc_buffer + start, len)` -/
def orderSegment (fuel : Nat) (buffer : List Nat) (start len : Nat) : Option (List Nat) :=
  if start + len ≤ buffer.length then
    (xunicodeCanonicalOrdering combiningClass fuel ((buffer.drop start).take len)).map fun segment =>
      buffer.take start ++ segment ++ buffer.drop (start + len)
  else none

structure WcState where
  buffer : List Nat
  nWc : Nat
  lastStart : Nat
  deriving DecidableEq, Repr

/-- One turn of the second pass. -/
def storeCharacter (fuel : Nat) (s : WcState) (wc : Nat) : Option WcState := do
  let oldNWc := s.nWc
  let (buffer, nWc) ← storeExpansion table compat s.buffer s.nWc wc
  if 0 < nWc then
    let cc := combiningClass (← buffer[oldNWc]?)
    if cc = 0 then
      let buffer ← orderSegment combiningClass fuel buffer s.lastStart (nWc - s.lastStart)
      return { buffer, nWc, lastStart := oldNWc }
    else return { buffer, nWc, lastStart := s.lastStart }
  else return { buffer, nWc, lastStart := s.lastStart }

def writePass (fuel p : Nat) (s : WcState) : Option WcState :=
  if maxLen < 0 ∨ (p : Int) < maxLen then
    match _inside : string[p]? with
    | none => none
    | some first =>
      if first = 0 then some s
      else
        ((xutf8GetChar string p).bind (storeCharacter combiningClass table compat fuel s)).bind fun s =>
          writePass fuel (p + utf8Skip first) s
  else some s
termination_by string.length - p
decreasing_by
  have positive := utf8Skip_pos first
  have below := (List.getElem?_eq_some_iff.mp _inside).1
  omega

end Passes

/-- `_xutf8_normalize_wc` until all is decomposed and reordered. The contents of a new block are arbitrary. -/
def normalizeWcOrdered (combiningClass : Nat → Nat) (table : DecompTable) (alloc : (n : Nat) → Vector Nat n) (fuel : Nat)
    (string : Bytes) (maxLen : Int) (mode : NormalizeMode) : Option (List Nat) := do
  let nWc ← countPass table mode.compat string maxLen 0 0
  let s ← writePass combiningClass table mode.compat string maxLen fuel 0
    { buffer := (alloc (nWc + 1)).toList, nWc := 0, lastStart := 0 }
  let buffer ← (if 0 < s.nWc then orderSegment combiningClass fuel s.buffer s.lastStart (s.nWc - s.lastStart) else some s.buffer)
  storeWc buffer s.nWc 0

/-! ## Ordering is sorting the runs -/

section Ordering
variable {combiningClass : Nat → Nat} {string front back : List Nat}

theorem placeItem_concat {b c : Nat} (greater : combiningClass c < combiningClass b) (items : List Nat) :
    placeItem combiningClass c (items ++ [b]) = placeItem combiningClass c items ++ [b] := by
  obtain ⟨before, after, rfl, all, last⟩ := @exists_place _ combiningClass c items
  have all' : ∀ d ∈ after ++ [b], combiningClass c < combiningClass d := by
    intro d member
    rcases List.mem_append.mp member with earlier | here
    · exact all d earlier
    · rwa [List.mem_singleton.mp here]
  rw [List.append_assoc, placeItem_append all' last, placeItem_append all last, List.append_assoc, List.cons_append]

theorem percolate_eq (c : Nat) (front back : List Nat) (swap : Bool) :
    ∃ swap', percolate combiningClass (combiningClass c) (front ++ c :: back) front.length swap =
      some (placeItem combiningClass c front ++ back, swap') := by
  -- from the back of what is in front: an item moves over those of a higher class and stops at the first other
  induction front using List.reverseRecOn generalizing back swap with
  | nil => exact ⟨swap, rfl⟩
  | append_singleton front b ih =>
    have before : (front ++ [b] ++ c :: back)[front.length]? = some b := by simp
    have here : (front ++ [b] ++ c :: back)[front.length + 1]? = some c := by simp
    rw [List.length_append, List.length_singleton, percolate, before, Option.bind_eq_bind, Option.bind_some]
    by_cases stop : combiningClass b ≤ combiningClass c
    · have last : ∀ d ∈ (front ++ [b]).getLast?, combiningClass d ≤ combiningClass c := by simpa using stop
      rw [if_pos stop, placeItem_of_le last]
      exact ⟨swap, by rw [List.append_assoc _ [c], List.singleton_append]; rfl⟩
    · -- the two change places, and the item goes on from one position to the left
      have swapped : ((front ++ [b] ++ c :: back).set (front.length + 1) b).set front.length c = front ++ c :: b :: back := by
        simp
      obtain ⟨swap', percolated⟩ := ih (b :: back) true
      refine ⟨swap', ?_⟩
      rw [if_neg stop, here, Option.bind_some, swapped, percolated, placeItem_concat (by omega),
        List.append_assoc, List.singleton_append]

/-- A pass over the rest of a string whose front is sorted. -/
theorem orderingPass_sorts (done back : List Nat) {b i : Nat} (last : (sortRuns combiningClass done).getLast? = some b)
    (at_last : i + 1 = (sortRuns combiningClass done).length) (swap : Bool) :
    ∃ swap', orderingPass combiningClass back.length (sortRuns combiningClass done ++ back) i (combiningClass b) swap =
      some (sortRuns combiningClass (done ++ back), swap') := by
  induction back generalizing done b i swap with
  | nil =>
    rw [List.append_nil, List.append_nil]
    exact ⟨swap, rfl⟩
  | cons c back ih =>
    have here : (sortRuns combiningClass done ++ c :: back)[i + 1]? = some c := by
      rw [at_last, List.getElem?_append_right (Nat.le_refl _), Nat.sub_self]
      rfl
    have length : i + 1 + 1 = (sortRuns combiningClass (done ++ [c])).length := by
      rw [at_last, length_sortRuns, length_sortRuns, List.length_append]
      rfl
    rw [List.length_cons, orderingPass, here, some_bind, List.append_cons done]
    by_cases moves : combiningClass c ≠ 0 ∧ combiningClass c < combiningClass b
    · have placed := sortRuns_concat moves.1 done
      -- the last item is greater, so it stays the last
      have last' : (sortRuns combiningClass (done ++ [c])).getLast? = some b := by
        obtain ⟨rest, same⟩ := List.getLast?_eq_some_iff.mp last
        rw [placed, same, placeItem_concat moves.2, List.getLast?_concat]
      obtain ⟨swapped, percolated⟩ := @percolate_eq combiningClass c (sortRuns combiningClass done) back swap
      rw [if_pos moves, at_last, percolated, ← placed]
      exact ih (done ++ [c]) last' (at_last ▸ length) swapped
    · have placed : sortRuns combiningClass (done ++ [c]) = sortRuns combiningClass done ++ [c] := by
        by_cases zero : combiningClass c = 0
        · rw [sortRuns_append_zero zero, sortRuns]
        · rw [sortRuns_concat zero]
          apply placeItem_of_le
          intro d isLast
          rw [last, Option.mem_some_iff] at isLast
          rw [← isLast]
          omega
      have last' : (sortRuns combiningClass (done ++ [c])).getLast? = some c := by
        rw [placed, List.getLast?_concat]
      rw [if_neg moves, List.append_cons (sortRuns combiningClass done), ← placed]
      exact ih (done ++ [c]) last' length swap

theorem orderingPass_sorted (front back : List Nat) {b i : Nat} (last : front.getLast? = some b) (at_last : i + 1 = front.length)
    (sorted : RunsSorted combiningClass (front ++ back)) :
    orderingPass combiningClass back.length (front ++ back) i (combiningClass b) false = some (front ++ back, false) := by
  induction back generalizing front b i with
  | nil => rfl
  | cons c back ih =>
    have here : (front ++ c :: back)[i + 1]? = some c := by
      rw [at_last, List.getElem?_append_right (Nat.le_refl _), Nat.sub_self]
      rfl
    have stays : ¬(combiningClass c ≠ 0 ∧ combiningClass c < combiningClass b) := by
      have ordered := (List.isChain_append.mp sorted).2.2 b last c rfl
      omega
    rw [List.length_cons, orderingPass, here, some_bind, if_neg stays, List.append_cons]
    rw [List.append_cons] at sorted
    exact ih (front ++ [c]) List.getLast?_concat (by rw [List.length_append, at_last]; rfl) sorted

theorem xunicodeCanonicalOrdering_cons (fuel c : Nat) (rest : List Nat) :
    xunicodeCanonicalOrdering combiningClass (fuel + 1) (c :: rest) =
      (orderingPass combiningClass rest.length (c :: rest) 0 (combiningClass c) false).bind fun result =>
        if result.2 then xunicodeCanonicalOrdering combiningClass fuel result.1 else some result.1 := rfl

/-- The loop ends after at most two passes. -/
theorem xunicodeCanonicalOrdering_eq (some_char : string ≠ []) (fuel : Nat) :
    xunicodeCanonicalOrdering combiningClass (fuel + 2) string = some (sortRuns combiningClass string) := by
  obtain ⟨first, rest, rfl⟩ := List.exists_cons_of_ne_nil some_char
  have single : sortRuns combiningClass [first] = [first] :=
    sortRuns_of_runsSorted (List.isChain_singleton first)
  obtain ⟨swap, sorts⟩ := @orderingPass_sorts combiningClass [first] rest first 0 (by rw [single]; rfl) (by rw [single]; rfl) false
  rw [single, List.singleton_append] at sorts
  rw [xunicodeCanonicalOrdering_cons, sorts, Option.bind_some]
  cases swap with
  | false => rfl
  | true =>
    -- the second pass finds the string sorted
    have length := @length_sortRuns _ combiningClass (first :: rest)
    have ordered := @runsSorted_sortRuns _ combiningClass (first :: rest)
    generalize sortRuns combiningClass (first :: rest) = string at length ordered
    obtain ⟨c, others, rfl⟩ := List.exists_cons_of_length_pos (show 0 < string.length by rw [length]; exact Nat.succ_pos _)
    have again := @orderingPass_sorted combiningClass [c] others c 0 rfl rfl ordered
    rw [List.singleton_append] at again
    rw [if_pos rfl, xunicodeCanonicalOrdering_cons, again]
    rfl

end Ordering

/-! ## Expansions -/

namespace DecompTable
variable (table : DecompTable)

theorem search_spec (ch start stop : Nat) (ordered : start < stop) (inside : stop ≤ table.entries.length) :
    ∃ found, table.search ch start stop ordered = some found ∧ ∀ entry ∈ found, entry ∈ table.entries := by
  induction size : stop - start using Nat.strongRecOn generalizing start stop with
  | _ size ih =>
    have half : (start + stop) / 2 < table.entries.length := by omega
    unfold search
    dsimp only
    rw [List.getElem?_eq_getElem half]
    dsimp only
    split
    · refine ⟨_, rfl, ?_⟩
      rintro entry ⟨⟩
      exact List.getElem_mem half
    · split
      · exact ⟨none, rfl, by rintro entry ⟨⟩⟩
      · split
        · exact ih _ (by omega) _ stop (by omega) inside rfl
        · exact ih _ (by omega) start _ (by omega) (by omega) rfl

theorem findDecomposition_spec (ch : Nat) (compat : Bool) :
    ∃ found, table.findDecomposition ch compat = some found ∧ ∀ offset ∈ found, ∃ text, Expands table.expansions offset text := by
  have length := List.length_pos_of_ne_nil table.nonempty
  obtain ⟨found, searched, member⟩ := table.search_spec ch 0 table.entries.length length (Nat.le_refl _)
  unfold findDecomposition
  rw [List.getElem?_eq_getElem length, Option.bind_eq_bind, Option.bind_some,
    List.getElem?_eq_getElem (show table.entries.length - 1 < table.entries.length by omega), Option.bind_some]
  split
  · rw [searched, some_bind]
    cases found with
    | none => exact ⟨none, rfl, by rintro offset ⟨⟩⟩
    | some entry =>
      have listed := member entry rfl
      cases compat with
      | true =>
        refine ⟨_, rfl, ?_⟩
        rintro offset ⟨⟩
        split
        case isTrue absent =>
          exact table.expands entry listed _ (Or.inl rfl) ((table.present entry listed).resolve_right (not_not.mpr absent))
        case isFalse there => exact table.expands entry listed _ (Or.inr rfl) there
      | false =>
        refine ⟨_, rfl, ?_⟩
        intro offset given
        split at given
        case isTrue => cases given
        case isFalse there =>
          cases given
          exact table.expands entry listed _ (Or.inl rfl) there
  · exact ⟨none, rfl, by rintro offset ⟨⟩⟩

def Decomposes (compat : Bool) (c : Nat) (text : List Nat) : Prop :=
  if isHangulSyllable c then text = (decomposeHangul c).1
  else (table.findDecomposition c compat = some none ∧ text = [c]) ∨
    ∃ offset, table.findDecomposition c compat = some (some offset) ∧ Expands table.expansions offset text

theorem exists_decomposes (compat : Bool) (c : Nat) : ∃ text, table.Decomposes compat c text := by
  unfold Decomposes
  split
  · exact ⟨_, rfl⟩
  · obtain ⟨found, search, expands⟩ := table.findDecomposition_spec c compat
    cases found with
    | none => exact ⟨[c], Or.inl ⟨search, rfl⟩⟩
    | some offset =>
      obtain ⟨text, expansion⟩ := expands offset rfl
      exact ⟨text, Or.inr ⟨offset, search, expansion⟩⟩

end DecompTable

theorem length_decomposeHangul (s : Nat) :
    (decomposeHangul s).1.length = (decomposeHangul s).2 ∧ 0 < (decomposeHangul s).2 := by
  by_cases last : (s - sBase) % tCount ≠ 0
  · simp only [decomposeHangul, if_pos last]
    simp
  · simp only [decomposeHangul, if_neg last]
    simp

theorem DecompTable.Decomposes.ne_nil {table : DecompTable} {compat : Bool} {c : Nat} {text : List Nat}
    (decomposes : table.Decomposes compat c text) : text ≠ [] := by
  unfold Decomposes at decomposes
  split at decomposes
  · obtain ⟨length, positive⟩ := length_decomposeHangul c
    rw [← length, ← decomposes] at positive
    exact List.ne_nil_of_length_pos positive
  · rcases decomposes with ⟨-, rfl⟩ | ⟨offset, -, -, some_char, -⟩
    · exact List.cons_ne_nil c []
    · exact some_char

section Reading
variable {string : Bytes} {p c : Nat} {rest : Bytes} {text written room : List Nat}

theorem read_character (valid : IsScalar c ∧ c ≠ 0) (reads : Reads string p (utf8 c ++ rest)) :
    ∃ first, string[p]? = some first ∧ first ≠ 0 ∧ xutf8GetChar string p = some c ∧ utf8Skip first = (utf8 c).length ∧
      Reads string (p + (utf8 c).length) rest := by
  obtain ⟨first, tail, bytes, -, -, skip⟩ := utf8_bytes valid.1.lt
  have here : string[p]? = some first := by
    have byte := reads.left 0 (by rw [bytes]; exact Nat.succ_pos _)
    rwa [bytes] at byte
  have nonzero : first ≠ 0 := by
    rintro rfl
    have byte := utf8_byte valid.1 valid.2 (show 0 ∈ utf8 c by rw [bytes]; exact List.mem_cons_self)
    revert byte
    decide
  exact ⟨first, here, nonzero, xutf8GetChar_utf8 valid.1.lt reads.left, skip, reads.right⟩

theorem xutf8Strlen_text (valid : IsText text) (reads : Reads string p (text.flatMap utf8 ++ [0])) :
    xutf8Strlen string p = some text.length := by
  induction text generalizing p with
  | nil =>
    have here : string[p]? = some 0 := reads 0 Nat.zero_lt_one
    unfold xutf8Strlen
    split
    case h_1 none => cases here.symm.trans none
    case h_2 first there =>
      cases here.symm.trans there
      exact if_pos rfl
  | cons c text ih =>
    rw [List.flatMap_cons, List.append_assoc] at reads
    obtain ⟨first, here, nonzero, -, skip, rest⟩ := read_character valid.head reads
    unfold xutf8Strlen
    split
    case h_1 none => cases here.symm.trans none
    case h_2 first' there =>
      cases here.symm.trans there
      rw [if_neg nonzero, skip, ih valid.tail rest]
      rfl

theorem storeWc_eq (written room : List Nat) (junk wc : Nat) :
    storeWc (written ++ junk :: room) written.length wc = some (written ++ [wc] ++ room) := by
  rw [storeWc, if_pos (by simp)]
  simp

theorem storeAll_eq (fits : text.length ≤ room.length) :
    storeAll (written ++ room) written.length text = some (written ++ text ++ room.drop text.length) := by
  induction text generalizing written room with
  | nil => rw [List.append_nil]; rfl
  | cons c text ih =>
    obtain ⟨junk, room, rfl⟩ := List.exists_cons_of_length_pos (Nat.lt_of_lt_of_le (Nat.succ_pos text.length) fits)
    have stored := @ih (written ++ [c]) room (by simpa using fits)
    rw [List.length_append, List.length_singleton] at stored
    rw [storeAll, storeWc_eq, some_bind, stored]
    simp

theorem copyExpansion_text (valid : IsText text) (reads : Reads string p (text.flatMap utf8 ++ [0])) (fits : text.length ≤ room.length) :
    copyExpansion string p (written ++ room) written.length =
      some (written ++ text ++ room.drop text.length, written.length + text.length) := by
  -- over the characters; the room shrinks by one for each that is written
  induction text generalizing p written room with
  | nil =>
    have here : string[p]? = some 0 := reads 0 Nat.zero_lt_one
    unfold copyExpansion
    split
    case h_1 none => cases here.symm.trans none
    case h_2 first there =>
      cases here.symm.trans there
      rw [if_pos rfl, List.append_nil]
      rfl
  | cons c text ih =>
    rw [List.flatMap_cons, List.append_assoc] at reads
    obtain ⟨first, here, nonzero, char, skip, rest⟩ := read_character valid.head reads
    obtain ⟨junk, room, rfl⟩ := List.exists_cons_of_length_pos (Nat.lt_of_lt_of_le (Nat.succ_pos text.length) fits)
    have copied := @ih _ (written ++ [c]) room valid.tail rest (by simpa using fits)
    rw [List.length_append, List.length_singleton] at copied
    unfold copyExpansion
    split
    case h_1 none => cases here.symm.trans none
    case h_2 first' there =>
      cases here.symm.trans there
      rw [if_neg nonzero, char, Option.bind_some, storeWc_eq, Option.bind_some, skip, copied]
      simp only [List.append_assoc, List.singleton_append, List.length_cons, List.drop_succ_cons, Nat.add_assoc, Nat.add_comm 1]

end Reading

/-! ## The passes over the string -/

def charactersWithin (maxLen : Int) : Nat → List Nat → List Nat
  | _, [] => []
  | p, c :: text => if maxLen < 0 ∨ (p : Int) < maxLen then c :: charactersWithin maxLen (p + (utf8 c).length) text else []

/-- The text stands at the position and ends with a NUL, or no later than the maximum length does. -/
def Stands (string : Bytes) (maxLen : Int) (p : Nat) (text : List Nat) : Prop :=
  IsText text ∧ Reads string p (text.flatMap utf8) ∧
    (string[p + extent text]? = some 0 ∨ (0 ≤ maxLen ∧ maxLen ≤ p + extent text))

section Passes
variable {combiningClass : Nat → Nat} {table : DecompTable} {compat : Bool} {string : Bytes} {maxLen : Int} {p c : Nat}
  {text expansion : List Nat}
variable {room ordered segment decomposed : List Nat} {parts : List (List Nat)}

theorem Stands.within {c : Nat} (stands : Stands string maxLen p (c :: text)) :
    ∃ first, string[p]? = some first ∧ first ≠ 0 ∧ xutf8GetChar string p = some c ∧ utf8Skip first = (utf8 c).length ∧
      Stands string maxLen (p + (utf8 c).length) text := by
  obtain ⟨valid, reads, ends⟩ := stands
  obtain ⟨first, here, nonzero, char, skip, rest⟩ := read_character valid.head reads
  rw [extent_cons, ← Nat.add_assoc] at ends
  refine ⟨first, here, nonzero, char, skip, valid.tail, rest, ends.imp_right fun limit => ?_⟩
  omega

/-- A loop over the characters of the string, which it reads one by one. -/
theorem pass_eq {σ : Type} {pass : Nat → σ → Option σ} {body : σ → Nat → Option σ}
    (unfolds : ∀ p s, pass p s = if maxLen < 0 ∨ (p : Int) < maxLen then
      string[p]?.bind fun first =>
        if first = 0 then some s else ((xutf8GetChar string p).bind (body s)).bind (pass (p + utf8Skip first)) else some s)
    (stands : Stands string maxLen p text) (s : σ) : pass p s = (charactersWithin maxLen p text).foldlM body s := by
  induction text generalizing p s with
  | nil =>
    rw [unfolds]
    split
    case isFalse => rfl
    case isTrue going =>
      have ends : string[p]? = some 0 := stands.2.2.resolve_right fun limit => by
        have empty : extent [] = 0 := rfl
        omega
      rw [ends, Option.bind_some, if_pos rfl]
      rfl
  | cons c text ih =>
    obtain ⟨first, here, nonzero, char, skip, rest⟩ := stands.within
    rw [unfolds, charactersWithin]
    split
    case isFalse => rfl
    case isTrue going =>
      rw [here, Option.bind_some, if_neg nonzero, char, Option.bind_some, List.foldlM_cons, skip]
      cases body s c with
      | none => rfl
      | some s => exact ih rest s

theorem countPass_eq (stands : Stands string maxLen p text) (nWc : Nat) :
    countPass table compat string maxLen p nWc =
      (charactersWithin maxLen p text).foldlM (fun nWc c => (expandedLength table compat c).map (nWc + ·)) nWc := by
  refine pass_eq (fun p nWc => ?_) stands nWc
  rw [countPass]
  split
  · split
    case h_1 none => rw [none]; rfl
    case h_2 first there =>
      rw [there, Option.bind_some]
      cases xutf8GetChar string p with
      | none => rfl
      | some c =>
        rw [Option.bind_some, Option.bind_some]
        cases expandedLength table compat c with
        | none => rfl
        | some length => rfl
  · rfl

theorem writePass_eq (stands : Stands string maxLen p text) (fuel : Nat) (s : WcState) :
    writePass combiningClass table compat string maxLen fuel p s =
      (charactersWithin maxLen p text).foldlM (storeCharacter combiningClass table compat fuel) s := by
  refine pass_eq (fun p s => ?_) stands s
  rw [writePass]
  split
  · split
    case h_1 none => rw [none]; rfl
    case h_2 first there => rw [there, Option.bind_some]
  · rfl

theorem expandedLength_eq (decomposes : table.Decomposes compat c expansion) :
    expandedLength table compat c = some expansion.length := by
  unfold DecompTable.Decomposes at decomposes
  unfold expandedLength
  split at decomposes
  case isTrue hangul => rw [if_pos hangul, decomposes, (length_decomposeHangul c).1]
  case isFalse other =>
    rw [if_neg other]
    rcases decomposes with ⟨search, rfl⟩ | ⟨offset, search, valid, -, reads⟩
    · rw [search]
      rfl
    · rw [search]
      exact xutf8Strlen_text valid reads

theorem storeExpansion_eq (decomposes : table.Decomposes compat c expansion) (written : List Nat)
    (fits : expansion.length ≤ room.length) :
    storeExpansion table compat (written ++ room) written.length c =
      some (written ++ expansion ++ room.drop expansion.length, written.length + expansion.length) := by
  unfold DecompTable.Decomposes at decomposes
  unfold storeExpansion
  split at decomposes
  case isTrue hangul =>
    rw [if_pos hangul, ← (length_decomposeHangul c).1, ← decomposes, storeAll_eq fits]
    rfl
  case isFalse other =>
    rw [if_neg other]
    rcases decomposes with ⟨search, rfl⟩ | ⟨offset, search, valid, -, reads⟩
    · obtain ⟨junk, room, rfl⟩ := List.exists_cons_of_length_pos (Nat.lt_of_lt_of_le Nat.zero_lt_one fits)
      rw [search, some_bind]
      rw [storeWc_eq]
      rfl
    · rw [search, some_bind]
      exact copyExpansion_text valid reads fits

theorem orderSegment_eq {segment : List Nat} (some_char : segment ≠ []) (before after : List Nat) (fuel : Nat) :
    orderSegment combiningClass (fuel + 2) (before ++ segment ++ after) before.length segment.length =
      some (before ++ sortRuns combiningClass segment ++ after) := by
  have inside : before.length + segment.length ≤ (before ++ segment ++ after).length := by simp
  have cut : ((before ++ segment ++ after).drop before.length).take segment.length = segment := by
    rw [List.append_assoc, List.drop_left, List.take_left]
  have front : (before ++ segment ++ after).take before.length = before := by rw [List.append_assoc, List.take_left]
  have back : (before ++ segment ++ after).drop (before.length + segment.length) = after := by
    rw [← List.length_append, List.drop_left]
  rw [orderSegment, if_pos inside, cut, xunicodeCanonicalOrdering_eq some_char, front, back]
  rfl

/-- The buffer holds what is in order, what is behind the last start, and the room that is left. -/
structure Filled (combiningClass : Nat → Nat) (ordered segment room decomposed : List Nat) (s : WcState) : Prop where
  buffer : s.buffer = ordered ++ segment ++ room
  nWc : s.nWc = (ordered ++ segment).length
  lastStart : s.lastStart = ordered.length
  apart : ∀ more, sortRuns combiningClass (ordered ++ segment ++ more) = ordered ++ sortRuns combiningClass (segment ++ more)
  sorted : sortRuns combiningClass (ordered ++ segment) = sortRuns combiningClass decomposed
  begins : segment = [] → ordered = []

variable {s : WcState}

theorem Filled.whole
    (h : Filled combiningClass ordered segment room decomposed s) :
    ordered ++ sortRuns combiningClass segment = sortRuns combiningClass decomposed := by
  have apart := h.apart []
  rw [List.append_nil, List.append_nil] at apart
  rw [← apart, h.sorted]

theorem Filled.store
    (h : Filled combiningClass ordered segment room decomposed s) (decomposes : table.Decomposes compat c expansion)
    (fits : expansion.length ≤ room.length) (fuel : Nat) :
    ∃ s' ordered' segment', storeCharacter combiningClass table compat (fuel + 2) s c = some s' ∧
      Filled combiningClass ordered' segment' (room.drop expansion.length) (decomposed ++ expansion) s' := by
  obtain ⟨first, others, shape⟩ := List.exists_cons_of_ne_nil decomposes.ne_nil
  have stored := storeExpansion_eq decomposes (ordered ++ segment) fits
  have positive : 0 < (ordered ++ segment).length + expansion.length := by
    rw [shape]
    exact Nat.succ_pos _
  have here : (ordered ++ segment ++ expansion ++ room.drop expansion.length)[(ordered ++ segment).length]? = some first := by
    rw [List.append_assoc _ expansion, List.getElem?_append_right (Nat.le_refl _), Nat.sub_self, shape]
    rfl
  unfold storeCharacter
  rw [h.buffer, h.nWc, stored, some_bind]
  dsimp only
  rw [if_pos positive, here, some_bind]
  by_cases zero : combiningClass first = 0
  · have length : (ordered ++ segment).length + expansion.length - s.lastStart = (segment ++ expansion).length := by
      rw [h.lastStart, List.length_append, List.length_append]
      omega
    have some_char : segment ++ expansion ≠ [] := by simp [decomposes.ne_nil]
    have order := @orderSegment_eq combiningClass _ some_char ordered (room.drop expansion.length) fuel
    have split : sortRuns combiningClass (segment ++ expansion) =
        sortRuns combiningClass segment ++ sortRuns combiningClass expansion := by
      rw [shape, sortRuns_append_zero zero, sortRuns_cons_zero zero]
    rw [if_pos zero, length, h.lastStart, List.append_assoc ordered, order, some_bind]
    refine ⟨_, ordered ++ sortRuns combiningClass segment, sortRuns combiningClass expansion, rfl, ?_, ?_, ?_, ?_, ?_, ?_⟩
    · simp only [split, List.append_assoc]
    · simp only [List.length_append, length_sortRuns]
    · simp only [List.length_append, length_sortRuns]
    · -- the new segment begins with a starter, and what is before it is in order already
      intro more
      have again : sortRuns combiningClass (ordered ++ sortRuns combiningClass segment) = ordered ++ sortRuns combiningClass segment := by
        rw [h.whole]
        exact sortRuns_of_runsSorted (runsSorted_sortRuns decomposed)
      rw [shape, sortRuns_cons_zero zero, List.append_assoc, List.cons_append, sortRuns_append_zero zero, again,
        sortRuns_cons_zero zero]
    · rw [h.whole, shape, sortRuns_cons_zero zero, sortRuns_append_zero zero, sortRuns_append_zero zero,
        sortRuns_of_runsSorted (runsSorted_sortRuns decomposed), sortRuns_of_runsSorted (runsSorted_sortRuns others)]
    · rw [shape, sortRuns_cons_zero zero]
      exact fun impossible => absurd impossible (List.cons_ne_nil _ _)
  · rw [if_neg zero]
    refine ⟨_, ordered, segment ++ expansion, rfl, ?_, ?_, h.lastStart, ?_, ?_, ?_⟩
    · rw [List.append_assoc ordered]
    · simp only [List.length_append, Nat.add_assoc]
    · intro more
      rw [← List.append_assoc ordered, List.append_assoc _ expansion, h.apart, List.append_assoc]
    · rw [← List.append_assoc, ← sortRuns_sortRuns_append, h.sorted, sortRuns_sortRuns_append]
    · exact fun impossible => absurd (List.append_eq_nil_iff.mp impossible).2 decomposes.ne_nil

theorem Filled.run {chars : List Nat}
    (h : Filled combiningClass ordered segment room decomposed s) (all : List.Forall₂ (table.Decomposes compat) chars parts)
    (fits : parts.flatten.length ≤ room.length) (fuel : Nat) :
    ∃ s' ordered' segment', chars.foldlM (storeCharacter combiningClass table compat (fuel + 2)) s = some s' ∧
      Filled combiningClass ordered' segment' (room.drop parts.flatten.length) (decomposed ++ parts.flatten) s' := by
  induction all generalizing ordered segment room decomposed s with
  | nil => exact ⟨s, ordered, segment, rfl, by simpa using h⟩
  | cons decomposes all ih =>
    rw [List.flatten_cons, List.length_append] at fits
    obtain ⟨s₁, ordered₁, segment₁, stored, filled⟩ := h.store decomposes (by omega) fuel
    obtain ⟨s₂, ordered₂, segment₂, ran, filled⟩ := ih filled (by rw [List.length_drop]; omega)
    refine ⟨s₂, ordered₂, segment₂, ?_, ?_⟩
    · rw [List.foldlM_cons, stored]
      exact ran
    · rwa [List.drop_drop, List.append_assoc, ← List.length_append, ← List.flatten_cons] at filled

theorem expandedLengths_eq {chars : List Nat} (all : List.Forall₂ (table.Decomposes compat) chars parts)
    (nWc : Nat) :
    chars.foldlM (fun nWc c => (expandedLength table compat c).map (nWc + ·)) nWc = some (nWc + parts.flatten.length) := by
  induction all generalizing nWc with
  | nil => rfl
  | cons decomposes all ih =>
    rw [List.foldlM_cons, expandedLength_eq decomposes, Option.map_some, some_bind, ih,
      List.flatten_cons, List.length_append, Nat.add_assoc]

theorem exists_parts (table : DecompTable) (compat : Bool) (chars : List Nat) :
    ∃ parts, List.Forall₂ (table.Decomposes compat) chars parts := by
  induction chars with
  | nil => exact ⟨[], .nil⟩
  | cons c chars ih =>
    obtain ⟨parts, all⟩ := ih
    obtain ⟨part, decomposes⟩ := table.exists_decomposes compat c
    exact ⟨part :: parts, .cons decomposes all⟩

theorem normalizeWcOrdered_eq (alloc : (n : Nat) → Vector Nat n) (stands : Stands string maxLen 0 text) (mode : NormalizeMode)
    (all : List.Forall₂ (table.Decomposes mode.compat) (charactersWithin maxLen 0 text) parts) (fuel : Nat) :
    countPass table mode.compat string maxLen 0 0 = some parts.flatten.length ∧
      normalizeWcOrdered combiningClass table alloc (fuel + 2) string maxLen mode =
        some (sortRuns combiningClass parts.flatten ++ [0]) := by
  have counted : countPass table mode.compat string maxLen 0 0 = some parts.flatten.length := by
    rw [countPass_eq stands, expandedLengths_eq all, Nat.zero_add]
  refine ⟨counted, ?_⟩
  have length := (alloc (parts.flatten.length + 1)).length_toList
  have start : Filled combiningClass [] [] (alloc (parts.flatten.length + 1)).toList []
      { buffer := (alloc (parts.flatten.length + 1)).toList, nWc := 0, lastStart := 0 } :=
    ⟨rfl, rfl, rfl, fun more => rfl, rfl, id⟩
  obtain ⟨s, ordered, segment, ran, filled⟩ := start.run all (by omega) fuel
  rw [List.nil_append] at filled
  -- one cell is left for the terminator
  obtain ⟨junk, last⟩ : ∃ junk, (alloc (parts.flatten.length + 1)).toList.drop parts.flatten.length = [junk] :=
    List.length_eq_one_iff.mp (by rw [List.length_drop, length]; omega)
  rw [last] at filled
  have total : (ordered ++ segment).length = (sortRuns combiningClass parts.flatten).length := by
    rw [← filled.sorted, length_sortRuns]
  have finished : (if 0 < s.nWc then orderSegment combiningClass (fuel + 2) s.buffer s.lastStart (s.nWc - s.lastStart)
      else some s.buffer) = some (sortRuns combiningClass parts.flatten ++ [junk]) := by
    have whole := filled.whole
    rw [filled.buffer, filled.nWc, filled.lastStart]
    by_cases empty : segment = []
    · obtain rfl := filled.begins empty
      rw [empty, sortRuns] at whole
      rw [empty, ← whole]
      rfl
    · have positive : 0 < (ordered ++ segment).length := by
        rw [List.length_append]
        have := List.length_pos_of_ne_nil empty
        omega
      rw [if_pos positive, List.length_append, Nat.add_sub_cancel_left, orderSegment_eq empty, whole]
  unfold normalizeWcOrdered
  rw [counted, some_bind, writePass_eq stands, ran, some_bind, finished,
    some_bind, filled.nWc, total, storeWc_eq, List.append_nil]

end Passes

/-- The ordering sorts the runs between starters, and filling the buffer in segments gives the order of the whole. -/
theorem canonicalOrdering_exact (combiningClass : Nat → Nat) :
    (∀ string : List Nat, string ≠ [] → ∀ fuel : Nat, 2 ≤ fuel →
      xunicodeCanonicalOrdering combiningClass fuel string = some (sortRuns combiningClass string)) ∧
    ∀ (table : DecompTable) (alloc : (n : Nat) → Vector Nat n) (string : Bytes) (text : List Nat) (maxLen : Int)
      (mode : NormalizeMode) (fuel : Nat), Stands string maxLen 0 text → 2 ≤ fuel →
      ∃ parts, List.Forall₂ (table.Decomposes mode.compat) (charactersWithin maxLen 0 text) parts ∧
        countPass table mode.compat string maxLen 0 0 = some parts.flatten.length ∧
        normalizeWcOrdered combiningClass table alloc fuel string maxLen mode =
          some (sortRuns combiningClass parts.flatten ++ [0]) := by
  constructor
  · intro string some_char fuel enough
    obtain ⟨fuel, rfl⟩ := Nat.exists_eq_add_of_le' enough
    exact xunicodeCanonicalOrdering_eq some_char fuel
  · intro table alloc string text maxLen mode fuel stands enough
    obtain ⟨fuel, rfl⟩ := Nat.exists_eq_add_of_le' enough
    obtain ⟨parts, all⟩ := exists_parts table mode.compat (charactersWithin maxLen 0 text)
    exact ⟨parts, all, normalizeWcOrdered_eq alloc stands mode all fuel⟩

def accentClass (c : Nat) : Nat := if c = 0x301 then 230 else if c = 0x316 then 220 else 0

def acuteTable : DecompTable where
  entries := [⟨0xC1, 0, notPresentOffset⟩]
  expansions := [0x41, 0xCC, 0x81, 0]
  nonempty := List.cons_ne_nil _ _
  present := by decide
  expands := by
    intro entry listed offset which there
    obtain rfl := List.mem_singleton.mp listed
    obtain rfl : offset = 0 := which.resolve_right there
    refine ⟨[0x41, 0x301], by simp [IsText, IsScalar], by decide, ?_⟩
    have bytes : [0x41, 0x301].flatMap utf8 ++ [0] = [0x41, 0xCC, 0x81, 0] := by decide
    rw [bytes]
    exact reads_start _ []

theorem canonicalOrdering_exact_acute :
    xunicodeCanonicalOrdering accentClass 2 [0x41, 0x301, 0x316] = some (sortRuns accentClass [0x41, 0x301, 0x316]) ∧
      ∃ parts, List.Forall₂ (acuteTable.Decomposes NormalizeMode.nfd.compat) (charactersWithin (-1) 0 [0xC1, 0x316]) parts ∧
        countPass acuteTable NormalizeMode.nfd.compat [0xC3, 0x81, 0xCC, 0x96, 0] (-1) 0 0 = some parts.flatten.length ∧
        normalizeWcOrdered accentClass acuteTable (fun n => Vector.replicate n 7) 2 [0xC3, 0x81, 0xCC, 0x96, 0] (-1) .nfd =
          some (sortRuns accentClass parts.flatten ++ [0]) := by
  refine ⟨(canonicalOrdering_exact accentClass).1 _ (by decide) 2 (Nat.le_refl 2),
    (canonicalOrdering_exact accentClass).2 acuteTable (fun n => Vector.replicate n 7) [0xC3, 0x81, 0xCC, 0x96, 0] [0xC1, 0x316] (-1) .nfd 2
      ⟨by simp [IsText, IsScalar], ?_, ?_⟩ (Nat.le_refl 2)⟩
  · have bytes : [0xC1, 0x316].flatMap utf8 = [0xC3, 0x81, 0xCC, 0x96] := by decide
    exact reads_start [0xC3, 0x81, 0xCC, 0x96] [0]
  · exact Or.inl (by decide)

end Xpl.Text
