import Xpl.Variant.TypeString

/-! The scanner and the bracket counter of gvarianttype.c on memory.

A type string lies at the front of a block of memory and positions count from there. A function
returns `none` where the program reads outside of the block. A block that ends at the limit
therefore shows that the byte there is never read.
-/

set_option autoImplicit false

namespace Xpl.Variant
open Xpl.Library
variable {memory : Bytes}

/-- A scan from a position: the depth and the end of the type, or nothing where there is none. -/
abbrev Scan := Nat → Option (Option (Nat × Nat))

section Scanner

variable (memory : Bytes) (limit : Option Nat)

/-- `string == limit || test (*string)` -/
def atLimitOr (test : UInt8 → Bool) (string : Nat) : Option Bool :=
  if limit = some string then some true else memory[string]?.map test

/-- `while (string == limit || *string != ')')`, in which every turn reads a type; `fuel` bounds the turns. -/
def scanMembersAt (child : Option Scan) : Nat → Nat → Nat → Option (Option (Nat × Nat))
  | 0, _, _ => none
  | fuel + 1, string, maxDepth => do
    if ← atLimitOr memory limit (· ≠ ascii ')') string then
      match child with
      | none => return none
      | some scan =>
        match ← scan string with
        | none => return none
        | some (childDepth, string) => scanMembersAt child fuel string (max maxDepth (childDepth + 1))
    else return some (maxDepth, string + 1)

/-- The key, the value and the closing brace of a dictionary entry. -/
def scanEntryAt (child : Option Scan) (string : Nat) : Option (Option (Nat × Nat)) :=
  match child with
  | none => some none
  | some scan => do
    if ← atLimitOr memory limit (· = 0) string then return none
    let key ← memory[string]?
    if !((Basic.ofChar key).isSome || key = ascii '?') then return none
    match ← scan (string + 1) with
    | none => return none
    | some (childDepth, string) =>
      if ← atLimitOr memory limit (· ≠ ascii '}') string then return none
      return some (max 0 (childDepth + 1), string + 1)

def scanElementAt (child : Option Scan) (string : Nat) : Option (Option (Nat × Nat)) :=
  match child with
  | none => some none
  | some scan => do
    match ← scan string with
    | none => return none
    | some (childDepth, string) => return some (max 0 (childDepth + 1), string)

/-- One call of the scanner. `child` is the recursive call, absent when the depth limit is zero. -/
def scanTypeAt (child : Option Scan) (string : Nat) : Option (Option (Nat × Nat)) := do
  if ← atLimitOr memory limit (· = 0) string then return none
  let c ← memory[string]?
  if c = ascii '(' then scanMembersAt memory limit child (memory.length + 1) (string + 1) 0
  else if c = ascii '{' then scanEntryAt memory limit child (string + 1)
  else if c = ascii 'm' ∨ c = ascii 'a' then scanElementAt child (string + 1)
  else if (Basic.ofChar c).isSome ∨ c = ascii 'v' ∨ c = ascii 'r' ∨ c = ascii '*' ∨ c = ascii '?' then
    return some (max 0 1, string + 1)
  else return none

def variantTypeStringScanInternalAt : Nat → Scan
  | 0 => scanTypeAt memory limit none
  | depthLimit + 1 => scanTypeAt memory limit (some (variantTypeStringScanInternalAt depthLimit))

/-- Whether there is a type at the front, and where it ends. -/
def xvariantTypeStringScanAt : Option (Option Nat) :=
  (variantTypeStringScanInternalAt memory limit maxRecursionDepth 0).map (·.map Prod.snd)

/-- Both loops of `xvariant_type_get_string_length`: after a prefix the count is not looked at. -/
def getStringLengthAt : Nat → Nat → Int → Option Nat
  | 0, _, _ => none
  | fuel + 1, index, brackets => do
    let c ← memory[index]?
    if c = ascii 'a' ∨ c = ascii 'm' then getStringLengthAt fuel (index + 1) brackets
    else
      let brackets :=
        if c = ascii '(' ∨ c = ascii '{' then brackets + 1
        else if c = ascii ')' ∨ c = ascii '}' then brackets - 1
        else brackets
      if brackets = 0 then return index + 1 else getStringLengthAt fuel (index + 1) brackets

def xvariantTypeGetStringLengthAt : Option Nat := getStringLengthAt memory (memory.length + 1) 0 0

end Scanner

/-- The part of the memory that a scan may look at. -/
def visible (memory : Bytes) : Option Nat → Bytes
  | none => memory
  | some limit => memory.take limit

/-- What the caller of a scan owes: the limit lies in the memory, or the string has its terminator. -/
def Terminated (memory : Bytes) (limit : Option Nat) : Prop :=
  (∃ stop, limit = some stop ∧ stop ≤ memory.length) ∨ 0 ∈ memory

/-- The bytes before the limit and before the terminator. -/
def scanText (memory : Bytes) (limit : Option Nat) : Bytes := (visible memory limit).takeWhile (· ≠ 0)

/-! ## The memory and the text -/

section Text

variable {memory : Bytes} {limit : Option Nat}

theorem scanText_end (terminated : Terminated memory limit) :
    limit = some (scanText memory limit).length ∨ memory[(scanText memory limit).length]? = some 0 := by
  have split : scanText memory limit ++ (visible memory limit).dropWhile (· ≠ 0) = visible memory limit :=
    List.takeWhile_append_dropWhile
  cases after : (visible memory limit).dropWhile (· ≠ 0) with
  | cons c rest =>
    have zero : c = 0 := by
      have head := List.head?_dropWhile_not (fun c : UInt8 => decide (c ≠ 0)) (visible memory limit)
      rw [after] at head
      simpa using head
    have found : (visible memory limit)[(scanText memory limit).length]? = some 0 := by
      rw [← split, after, List.getElem?_append_right (Nat.le_refl _), Nat.sub_self, zero]
      rfl
    right
    cases limit with
    | none => exact found
    | some stop =>
      rw [visible, List.getElem?_take] at found
      split at found
      · exact found
      · cases found
  | nil =>
    rw [after, List.append_nil] at split
    have plain : 0 ∉ visible memory limit := by
      intro inside
      rw [← split] at inside
      simpa using List.mem_takeWhile_imp inside
    left
    cases limit with
    | none => exact absurd (terminated.resolve_left (by rintro ⟨stop, same, -⟩; cases same)) plain
    | some stop =>
      have room : stop ≤ memory.length := by
        rcases terminated with ⟨other, same, room⟩ | inside
        · cases same
          exact room
        · by_contra beyond
          rw [visible, List.take_of_length_le (by omega)] at plain
          exact plain inside
      rw [split, visible, List.length_take, Nat.min_eq_left room]

theorem scanText_inside {string : Nat} (inside : string < (scanText memory limit).length) :
    ∃ c, memory[string]? = some c ∧ c ≠ 0 ∧ limit ≠ some string ∧
      (scanText memory limit).drop string = c :: (scanText memory limit).drop (string + 1) := by
  have front : scanText memory limit <+: visible memory limit := List.takeWhile_prefix _
  have at_front : (visible memory limit)[string]? = some (scanText memory limit)[string] := by
    rw [front.getElem inside]
    exact List.getElem?_eq_getElem _
  have nonzero : (scanText memory limit)[string] ≠ 0 := by
    simpa using List.mem_takeWhile_imp (List.getElem_mem inside)
  refine ⟨(scanText memory limit)[string], ?_, nonzero, ?_, List.drop_eq_getElem_cons inside⟩
  · cases limit with
    | none => exact at_front
    | some stop =>
      rw [visible, List.getElem?_take] at at_front
      split at at_front
      · exact at_front
      · cases at_front
  · rintro rfl
    rw [visible, List.getElem?_take, if_neg (Nat.lt_irrefl _)] at at_front
    cases at_front

theorem atLimitOr_end (terminated : Terminated memory limit) {test : UInt8 → Bool} (zero : test 0 = true) :
    atLimitOr memory limit test (scanText memory limit).length = some true := by
  unfold atLimitOr
  rcases scanText_end terminated with stops | found
  · rw [if_pos stops]
  · rw [found]
    split
    · rfl
    · rw [Option.map_some, zero]

theorem atLimitOr_inside {string : Nat} {c : UInt8} (found : memory[string]? = some c) (before : limit ≠ some string)
    (test : UInt8 → Bool) : atLimitOr memory limit test string = some (test c) := by
  rw [atLimitOr, if_neg before, found, Option.map_some]

end Text

/-! ## The scan of the memory is the scan of the text -/

/-- The scan of the memory from a position has found what the scan of the text there has. -/
def Finds (text : Bytes) (string : Nat) (found : Option (Nat × Bytes)) (result : Option (Option (Nat × Nat))) : Prop :=
  (found = none ∧ result = some none) ∨
    ∃ depth stop, string < stop ∧ stop ≤ text.length ∧ found = some (depth, text.drop stop) ∧
      result = some (some (depth, stop))

/-- The recursive calls of the two scans. -/
def Follows (text : Bytes) : Option Scan → Option (Bytes → Option (Nat × Bytes)) → Prop
  | none, none => True
  | some scanAt, some scan => ∀ string ≤ text.length, Finds text string (scan (text.drop string)) (scanAt string)
  | _, _ => False

section Refinement
variable {string : Nat}
variable {memory : Bytes} {limit : Option Nat} {childAt : Option Scan} {child : Option (Bytes → Option (Nat × Bytes))}

theorem finds_nothing (text : Bytes) (string : Nat) : Finds text string none (some none) := Or.inl ⟨rfl, rfl⟩

theorem finds_type {text : Bytes} {stop : Nat} (depth : Nat) (later : string < stop) (inside : stop ≤ text.length) :
    Finds text string (some (depth, text.drop stop)) (some (some (depth, stop))) :=
  Or.inr ⟨depth, stop, later, inside, rfl, rfl⟩

theorem Finds.later {text : Bytes} {first : Nat} {found : Option (Nat × Bytes)} {result : Option (Option (Nat × Nat))}
    (finds : Finds text string found result) (before : first ≤ string) : Finds text first found result := by
  rcases finds with nothing | ⟨depth, stop, later, rest⟩
  · exact Or.inl nothing
  · exact Or.inr ⟨depth, stop, by omega, rest⟩

theorem scanMembersAt_finds (terminated : Terminated memory limit)
    (follows : Follows (scanText memory limit) childAt child) {fuel fuelAt : Nat} (maxDepth : Nat)
    (inside : string ≤ (scanText memory limit).length) (enough : (scanText memory limit).length < string + fuel)
    (enoughAt : (scanText memory limit).length < string + fuelAt) :
    Finds (scanText memory limit) string (scanMembers child fuel ((scanText memory limit).drop string) maxDepth)
      (scanMembersAt memory limit childAt fuelAt string maxDepth) := by
  induction fuel generalizing fuelAt string maxDepth with
  | zero => omega
  | succ fuel ih =>
    obtain ⟨fuelAt, rfl⟩ : ∃ n, fuelAt = n + 1 := ⟨fuelAt - 1, by omega⟩
    rcases Nat.lt_or_eq_of_le inside with before | rfl
    · obtain ⟨c, found, -, open_end, split⟩ := scanText_inside before
      unfold scanMembersAt
      rw [split, atLimitOr_inside found open_end, scanMembers]
      by_cases close : c = ascii ')'
      · simp only [close, ne_eq, not_true_eq_false, decide_false, if_true, some_bind,
          Bool.false_eq_true, if_false]
        exact finds_type maxDepth (Nat.lt_succ_self _) before
      · simp only [close, ne_eq, not_false_eq_true, decide_true, if_true, if_false, Option.bind_eq_bind, Option.bind_some]
        cases childAt with
        | none =>
          cases child with
          | none => exact finds_nothing _ _
          | some scan => exact follows.elim
        | some scanAt =>
          cases child with
          | none => exact follows.elim
          | some scan =>
            simp only [Option.bind_some]
            rw [← split]
            rcases follows string inside with ⟨none_found, none_result⟩ | ⟨depth, stop, later, within, type, result⟩
            · rw [none_found, none_result]
              exact finds_nothing _ _
            · rw [type, result]
              exact (ih (max maxDepth (depth + 1)) within (by omega) (by omega)).later (Nat.le_of_lt later)
    · unfold scanMembersAt
      rw [List.drop_length, atLimitOr_end terminated (by decide), scanMembers]
      cases childAt with
      | none => exact finds_nothing _ _
      | some scanAt =>
        cases child with
        | none => exact follows.elim
        | some scan =>
          -- no type starts at the end
          rcases follows _ inside with ⟨-, nothing⟩ | ⟨depth, stop, later, within, -⟩
          · simp only [nothing]
            exact finds_nothing _ _
          · omega

/-- What the scan of the text does after the letter of a maybe or an array. -/
def scanElement (child : Option (Bytes → Option (Nat × Bytes))) (string : Bytes) : Option (Nat × Bytes) := do
  let scan ← child
  let (childDepth, rest) ← scan string
  return (max 0 (childDepth + 1), rest)

theorem scanElementAt_finds (follows : Follows (scanText memory limit) childAt child)
    (inside : string ≤ (scanText memory limit).length) :
    Finds (scanText memory limit) string (scanElement child ((scanText memory limit).drop string))
      (scanElementAt childAt string) := by
  unfold scanElementAt
  cases childAt with
  | none =>
    cases child with
    | none => exact finds_nothing _ _
    | some scan => exact follows.elim
  | some scanAt =>
    cases child with
    | none => exact follows.elim
    | some scan =>
      rcases follows string inside with ⟨none_found, none_result⟩ | ⟨depth, stop, later, within, type, result⟩
      · simp only [scanElement, none_found, none_result, some_bind]
        exact finds_nothing _ _
      · simp only [scanElement, type, result, some_bind]
        exact finds_type _ later within

/-- What the scan of the text does after an opening brace. -/
def scanEntry (child : Option (Bytes → Option (Nat × Bytes))) (string : Bytes) : Option (Nat × Bytes) :=
  match child, string with
  | some scan, key :: string =>
    if (Basic.ofChar key).isSome || key = ascii '?' then
      match scan string with
      | some (childDepth, close :: rest) => if close = ascii '}' then some (max 0 (childDepth + 1), rest) else none
      | _ => none
    else none
  | _, _ => none

theorem scanEntryAt_finds (terminated : Terminated memory limit) (follows : Follows (scanText memory limit) childAt child)
    (inside : string ≤ (scanText memory limit).length) :
    Finds (scanText memory limit) string (scanEntry child ((scanText memory limit).drop string))
      (scanEntryAt memory limit childAt string) := by
  unfold scanEntryAt
  cases childAt with
  | none =>
    cases child with
    | none => exact finds_nothing _ _
    | some scan => exact follows.elim
  | some scanAt =>
    cases child with
    | none => exact follows.elim
    | some scan =>
      rcases Nat.lt_or_eq_of_le inside with before | rfl
      · obtain ⟨key, found, nonzero, open_end, split⟩ := scanText_inside before
        rw [split, atLimitOr_inside found open_end, found]
        simp only [nonzero, decide_false, Option.bind_eq_bind, Option.bind_some, Bool.false_eq_true, if_false, scanEntry]
        cases keyed : (Basic.ofChar key).isSome || decide (key = ascii '?') with
        | false => exact finds_nothing _ _
        | true =>
          rcases follows (string + 1) before with ⟨none_found, none_result⟩ | ⟨depth, stop, later, within, type, result⟩
          · rw [none_found, none_result]
            exact finds_nothing _ _
          · rw [type, result]
            simp only [Option.bind_some]
            rcases Nat.lt_or_eq_of_le within with more | rfl
            · obtain ⟨close, last, -, last_open, rest⟩ := scanText_inside more
              rw [rest, atLimitOr_inside last last_open]
              by_cases closed : close = ascii '}'
              · simp only [closed, ne_eq, not_true_eq_false, decide_false, Option.bind_some, Bool.false_eq_true, if_false,
                  if_true]
                exact finds_type _ (by omega) more
              · simp only [closed, ne_eq, not_false_eq_true, decide_true, Option.bind_some, if_true, if_false]
                exact finds_nothing _ _
            · rw [List.drop_length, atLimitOr_end terminated (by decide)]
              exact finds_nothing _ _
      · rw [List.drop_length, atLimitOr_end terminated (by decide)]
        exact finds_nothing _ _

theorem scanTypeAt_finds (terminated : Terminated memory limit) (follows : Follows (scanText memory limit) childAt child)
    {string : Nat} (inside : string ≤ (scanText memory limit).length) :
    Finds (scanText memory limit) string (scanType child ((scanText memory limit).drop string))
      (scanTypeAt memory limit childAt string) := by
  unfold scanTypeAt
  rcases Nat.lt_or_eq_of_le inside with before | rfl
  · obtain ⟨c, found, nonzero, open_end, split⟩ := scanText_inside before
    have length : ((scanText memory limit).drop (string + 1)).length + (string + 1) = (scanText memory limit).length := by
      rw [List.length_drop]
      omega
    have room : (scanText memory limit).length ≤ memory.length := by
      have first : (scanText memory limit).length ≤ (visible memory limit).length := (List.takeWhile_sublist _).length_le
      cases limit with
      | none => exact first
      | some stop => exact Nat.le_trans first (List.take_sublist _ _).length_le
    rw [split, atLimitOr_inside found open_end, found]
    simp only [nonzero, decide_false, some_bind, Bool.false_eq_true, if_false]
    by_cases tuple : c = ascii '('
    · rw [if_pos tuple, tuple]
      exact (scanMembersAt_finds terminated follows 0 before (by omega) (by omega)).later (Nat.le_succ string)
    · rw [if_neg tuple]
      by_cases entry : c = ascii '{'
      · rw [if_pos entry, entry]
        exact (scanEntryAt_finds terminated follows before).later (Nat.le_succ string)
      · have same : scanType child (c :: (scanText memory limit).drop (string + 1)) =
            if c = ascii 'm' ∨ c = ascii 'a' then scanElement child ((scanText memory limit).drop (string + 1))
            else if (Basic.ofChar c).isSome ∨ c = ascii 'v' ∨ c = ascii 'r' ∨ c = ascii '*' ∨ c = ascii '?' then
              some (max 0 1, (scanText memory limit).drop (string + 1))
            else none := by
          unfold scanType
          dsimp only
          rw [if_neg tuple, if_neg entry]
          rfl
        rw [if_neg entry, same]
        split
        · exact (scanElementAt_finds follows before).later (Nat.le_succ string)
        · split
          · exact finds_type _ (Nat.lt_succ_self _) before
          · exact finds_nothing _ _
  · rw [List.drop_length, atLimitOr_end terminated (by decide)]
    exact finds_nothing _ _

theorem variantTypeStringScanInternalAt_finds (terminated : Terminated memory limit) (depthLimit : Nat)
    (inside : string ≤ (scanText memory limit).length) :
    Finds (scanText memory limit) string (variantTypeStringScanInternal depthLimit ((scanText memory limit).drop string))
      (variantTypeStringScanInternalAt memory limit depthLimit string) := by
  induction depthLimit generalizing string with
  | zero => exact @scanTypeAt_finds memory limit none none terminated trivial string inside
  | succ depthLimit ih =>
    have follows : Follows (scanText memory limit) (some (variantTypeStringScanInternalAt memory limit depthLimit))
        (some (variantTypeStringScanInternal depthLimit)) := fun string => ih
    exact scanTypeAt_finds terminated follows inside

end Refinement

/-! ## The bracket counter stays inside the type -/

/-- Where the count on a longer text stops inside of the text, the program reads no further. -/
theorem getStringLengthAt_eq {string : Bytes} {index fuel : Nat} {brackets : Int} (rest : memory.drop index = string)
    (enough : string.length < fuel) (extra : UInt8) (stops : getStringLengthFrom (string ++ [extra]) brackets ≤ string.length) :
    getStringLengthAt memory fuel index brackets = some (index + getStringLengthFrom (string ++ [extra]) brackets) := by
  induction string generalizing index fuel brackets with
  | nil =>
    -- the count would have looked at the extra byte
    rw [List.nil_append, List.length_nil] at stops
    simp only [getStringLengthFrom] at stops
    split_ifs at stops <;> omega
  | cons c string ih =>
    obtain ⟨fuel, rfl⟩ : ∃ n, fuel = n + 1 := ⟨fuel - 1, by omega⟩
    have found : memory[index]? = some c := by
      rw [← Nat.add_zero index, ← List.getElem?_drop, rest]
      rfl
    have tail : memory.drop (index + 1) = string := by
      rw [← List.drop_drop, rest]
      rfl
    rw [getStringLengthAt, found]
    rw [List.cons_append, List.length_cons] at stops
    rw [List.length_cons] at enough
    simp only [List.cons_append, getStringLengthFrom, some_bind] at stops ⊢
    split_ifs at stops ⊢ <;>
      first
        | rfl
        | rw [ih tail (by omega) (by omega)]
          congr 1
          omega

theorem xvariantTypeGetStringLengthAt_string (t : TypeExpr) (rest : Bytes) :
    xvariantTypeGetStringLengthAt (t.string ++ rest) = some t.string.length := by
  have length := xvariantTypeGetStringLength_string t (rest ++ [0])
  rw [xvariantTypeGetStringLength, ← List.append_assoc] at length
  rw [xvariantTypeGetStringLengthAt, getStringLengthAt_eq List.drop_zero (Nat.lt_succ_self _) 0, length, Nat.zero_add]
  rw [length, List.length_append]
  exact Nat.le_add_right _ _

/-! ## Exactness -/

theorem xvariantTypeStringScanAt_iff {limit : Option Nat} (terminated : Terminated memory limit) :
    ∃ result, xvariantTypeStringScanAt memory limit = some result ∧ ∀ stop, result = some stop ↔
      ∃ t : TypeExpr, t.nesting ≤ maxRecursionDepth ∧ t.string <+: visible memory limit ∧ t.string.length = stop := by
  have finds := variantTypeStringScanInternalAt_finds terminated maxRecursionDepth (Nat.zero_le (scanText memory limit).length)
  rw [List.drop_zero] at finds
  have front : scanText memory limit <+: visible memory limit := List.takeWhile_prefix _
  -- a type string has no NUL, so it is in front of the text where it is in front of the memory
  have plain : ∀ t : TypeExpr, t.string <+: visible memory limit → t.string <+: scanText memory limit := by
    rintro t ⟨rest, split⟩
    have nonzero : t.string.takeWhile (· ≠ 0) = t.string := by
      rw [List.takeWhile_eq_self_iff]
      intro c inside
      have zero := List.any_eq_false.mp t.string_any_zero c inside
      simpa using zero
    refine ⟨rest.takeWhile (· ≠ 0), ?_⟩
    rw [scanText, ← split, List.takeWhile_append_of_pos]
    exact List.takeWhile_eq_self_iff.mp nonzero
  rcases finds with ⟨nothing, result⟩ | ⟨depth, stop, -, within, type, result⟩
  · refine ⟨none, by rw [xvariantTypeStringScanAt, result]; rfl, fun stop => ⟨nofun, ?_⟩⟩
    rintro ⟨t, shallow, inside, -⟩
    obtain ⟨rest, split⟩ := plain t inside
    rw [← split, scan_string t _ shallow] at nothing
    cases nothing
  · refine ⟨some stop, by rw [xvariantTypeStringScanAt, result]; rfl, fun other => ⟨?_, ?_⟩⟩
    · rintro ⟨rfl⟩
      obtain ⟨t, spelled, -, shallow⟩ := scan_sound type
      have length := congrArg List.length spelled
      rw [List.length_append, List.length_drop] at length
      exact ⟨t, shallow, List.IsPrefix.trans ⟨_, spelled.symm⟩ front, by omega⟩
    · rintro ⟨t, shallow, inside, rfl⟩
      obtain ⟨rest, split⟩ := plain t inside
      have again := scan_string t _ shallow rest
      rw [split, type, Option.some.injEq, Prod.mk.injEq] at again
      have length := congrArg List.length again.2
      rw [← split, List.length_drop, List.length_append] at length
      rw [← split, List.length_append] at within
      congr 1
      omega

theorem Terminated.visible {limit : Option Nat} (terminated : Terminated memory limit) :
    Terminated (visible memory limit) limit := by
  cases limit with
  | none => exact terminated
  | some stop =>
    by_cases room : stop ≤ memory.length
    · exact Or.inl ⟨stop, rfl, by rw [Variant.visible, List.length_take, Nat.min_eq_left room]⟩
    · rw [Variant.visible, List.take_of_length_le (by omega)]
      exact terminated

theorem visible_visible (memory : Bytes) (limit : Option Nat) : visible (visible memory limit) limit = visible memory limit := by
  cases limit with
  | none => rfl
  | some stop => rw [visible, visible, List.take_take, Nat.min_self]

/-- The scan ends without a look at the limit or beyond. It reports the end of the one type string of the grammar that
lies at the front before the limit and is nested at most to the depth limit, and the bracket counter agrees. -/
theorem xvariantTypeStringScan_exact (memory : Bytes) (limit : Option Nat) (terminated : Terminated memory limit) :
    ∃ result, xvariantTypeStringScanAt memory limit = some result ∧
      xvariantTypeStringScanAt (visible memory limit) limit = some result ∧
      (∀ stop, result = some stop ↔
        ∃ t : TypeExpr, t.nesting ≤ maxRecursionDepth ∧ t.string <+: visible memory limit ∧ t.string.length = stop) ∧
      ∀ stop, result = some stop → xvariantTypeGetStringLengthAt memory = some stop := by
  obtain ⟨result, scanned, exact_end⟩ := xvariantTypeStringScanAt_iff terminated
  obtain ⟨narrow, narrowly, narrow_end⟩ := xvariantTypeStringScanAt_iff terminated.visible
  rw [visible_visible] at narrow_end
  have same : narrow = result := by
    apply Option.ext
    intro stop
    exact (narrow_end stop).trans (exact_end stop).symm
  rw [same] at narrowly
  refine ⟨result, scanned, narrowly, exact_end, fun stop found => ?_⟩
  obtain ⟨t, -, front, rfl⟩ := (exact_end stop).mp found
  have whole : t.string <+: memory := by
    cases limit with
    | none => exact front
    | some stop => exact front.trans (List.take_prefix _ _)
  obtain ⟨rest, rfl⟩ := whole
  exact xvariantTypeGetStringLengthAt_string t rest

/-- The limit cuts `ai` off a longer string. -/
theorem xvariantTypeStringScan_exact_cut : xvariantTypeStringScanAt [ascii 'a', ascii 'i', ascii 's'] (some 2) = some (some 2) ∧
    xvariantTypeStringScanAt [ascii 'a', ascii 'i'] (some 2) = some (some 2) := by
  obtain ⟨result, scanned, narrowly, -, -⟩ :=
    xvariantTypeStringScan_exact [ascii 'a', ascii 'i', ascii 's'] (some 2) (Or.inl ⟨2, rfl, by decide⟩)
  have found : xvariantTypeStringScanAt [ascii 'a', ascii 'i', ascii 's'] (some 2) = some (some 2) := by decide
  rw [found, Option.some.injEq] at scanned
  subst scanned
  exact ⟨found, narrowly⟩

end Xpl.Variant
