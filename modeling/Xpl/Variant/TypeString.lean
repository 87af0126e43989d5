import Xpl.Library.Partial
import Xpl.Variant.Type

/-! The text functions on type strings: the recursive scanner, the bracket counter
and the character tests of gvarianttype.c.

A string is the list of its bytes before the limit or the terminating NUL, so the
end of the list stands for both `string == limit` and `*string == '\0'`.
-/

set_option autoImplicit false

namespace Xpl.Variant
open Xpl.Library

def maxRecursionDepth : Nat := 128

section Scanner

/-- The members of a tuple up to the closing parenthesis; `fuel` bounds the
iterations by the bytes left, each of which consumes at least one. -/
def scanMembers (child : Option (Bytes → Option (Nat × Bytes))) : Nat → Bytes → Nat → Option (Nat × Bytes)
  | 0, _, _ => none
  | _ + 1, [], _ => none
  | fuel + 1, c :: string, maxDepth =>
    if c = ascii ')' then some (maxDepth, string)
    else do
      let scan ← child
      let (childDepth, rest) ← scan (c :: string)
      scanMembers child fuel rest (max maxDepth (childDepth + 1))

/-- One call of the scanner. `child` is the recursive call, absent when the depth
limit is zero. -/
def scanType (child : Option (Bytes → Option (Nat × Bytes))) : Bytes → Option (Nat × Bytes)
  | [] => none
  | c :: string =>
    if c = ascii '(' then scanMembers child (string.length + 1) string 0
    else if c = ascii '{' then
      match child, string with
      | some scan, key :: string =>
        if (Basic.ofChar key).isSome || key = ascii '?' then
          match scan string with
          | some (childDepth, close :: rest) =>
            if close = ascii '}' then some (max 0 (childDepth + 1), rest) else none
          | _ => none
        else none
      | _, _ => none
    else if c = ascii 'm' ∨ c = ascii 'a' then do
      let scan ← child
      let (childDepth, rest) ← scan string
      return (max 0 (childDepth + 1), rest)
    else if (Basic.ofChar c).isSome ∨ c = ascii 'v' ∨ c = ascii 'r' ∨ c = ascii '*' ∨ c = ascii '?' then
      some (max 0 1, string)
    else none

def variantTypeStringScanInternal : Nat → Bytes → Option (Nat × Bytes)
  | 0 => scanType none
  | depthLimit + 1 => scanType (some (variantTypeStringScanInternal depthLimit))

def xvariantTypeStringScan (string : Bytes) : Option Bytes :=
  (variantTypeStringScanInternal maxRecursionDepth string).map Prod.snd

def xvariantTypeStringGetDepth (string : Bytes) : Nat :=
  match variantTypeStringScanInternal maxRecursionDepth string with
  | some (depth, []) => depth
  | _ => 0

def xvariantTypeStringIsValid (string : Bytes) : Bool :=
  decide (xvariantTypeStringScan string = some [])

end Scanner

/-- `brackets` is the running count; a string that ends inside a bracket has run
into its terminator. -/
def getStringLengthFrom : Bytes → Int → Nat
  | [], _ => 0
  | c :: string, brackets =>
    if c = ascii 'a' ∨ c = ascii 'm' then getStringLengthFrom string brackets + 1
    else
      let brackets :=
        if c = ascii '(' ∨ c = ascii '{' then brackets + 1
        else if c = ascii ')' ∨ c = ascii '}' then brackets - 1
        else brackets
      if brackets = 0 then 1 else getStringLengthFrom string brackets + 1

def xvariantTypeGetStringLength (type : Bytes) : Nat := getStringLengthFrom type 0

def indefiniteChar (c : UInt8) : Bool := c = ascii '*' || c = ascii '?' || c = ascii 'r'

def xvariantTypeIsDefinite (type : Bytes) : Bool :=
  !(type.take (xvariantTypeGetStringLength type)).any indefiniteChar

def xvariantTypeIsBasic (type : Bytes) : Bool :=
  match type.head? with
  | some c => (Basic.ofChar c).isSome || c = ascii '?'
  | none => false

def xvariantTypeIsTuple (type : Bytes) : Bool :=
  match type.head? with
  | some c => c = ascii 'r' || c = ascii '('
  | none => false

/-! ## Depth and nesting of a type -/

mutual
/-- The depth that the scanner reports. The empty tuple has no child to take a
maximum over and gets zero. -/
def TypeExpr.depth : TypeExpr → Nat
  | .maybe element => element.depth + 1
  | .array element => element.depth + 1
  | .tuple items => TypeExpr.depths items
  | .dictEntry _ value => value.depth + 1
  | _ => 1

def TypeExpr.depths : List TypeExpr → Nat
  | [] => 0
  | item :: items => max (item.depth + 1) (TypeExpr.depths items)
end

mutual
/-- The number of recursive calls that the scanner nests. -/
def TypeExpr.nesting : TypeExpr → Nat
  | .maybe element => element.nesting + 1
  | .array element => element.nesting + 1
  | .tuple items => TypeExpr.nestings items
  | .dictEntry _ value => value.nesting + 1
  | _ => 0

def TypeExpr.nestings : List TypeExpr → Nat
  | [] => 0
  | item :: items => max (item.nesting + 1) (TypeExpr.nestings items)
end

theorem TypeExpr.nesting_le_depth (t : TypeExpr) : t.nesting ≤ t.depth ∧ t.depth ≤ t.nesting + 1 := by
  induction t with
  | maybe element ih => simpa [nesting, depth] using ih
  | array element ih => simpa [nesting, depth] using ih
  | dictEntry key value ih => simpa [nesting, depth] using ih
  | tuple items ih =>
    simp only [nesting, depth]
    induction items with
    | nil => simp [nestings, depths]
    | cons item items tail =>
      have first := ih item List.mem_cons_self
      have rest := tail fun other member => ih other (List.mem_cons_of_mem item member)
      simp only [nestings, depths]
      omega
  | basic _ | variant | any | anyBasic | anyTuple => simp [nesting, depth]

theorem TypeExpr.nesting_lt_nestings {item : TypeExpr} {items : List TypeExpr} (member : item ∈ items) :
    item.nesting + 1 ≤ TypeExpr.nestings items := by
  induction items with
  | nil => cases member
  | cons first items ih =>
    simp only [TypeExpr.nestings]
    rcases List.mem_cons.mp member with rfl | later
    · omega
    · have := ih later
      omega

/-! ## The scanner accepts exactly the grammar -/

theorem TypeExpr.string_ne_nil (t : TypeExpr) : t.string ≠ [] := by
  cases t <;> simp [TypeExpr.string]

theorem TypeExpr.length_string_pos (t : TypeExpr) : 0 < t.string.length :=
  List.length_pos_iff.mpr t.string_ne_nil

/-- No type starts with a closing bracket. -/
theorem TypeExpr.string_head (t : TypeExpr) :
    ∃ c rest, t.string = c :: rest ∧ c ≠ ascii ')' ∧ c ≠ ascii '}' := by
  cases t with
  | basic b => exact ⟨b.char, [], rfl, by cases b <;> decide, by cases b <;> decide⟩
  | _ => exact ⟨_, _, rfl, by decide, by decide⟩

theorem scanType_basic (child : Option (Bytes → Option (Nat × Bytes))) (b : Basic) (rest : Bytes) :
    scanType child (b.char :: rest) = some (1, rest) := by
  cases b <;> rfl

def ReadsTypes (scan : Bytes → Option (Nat × Bytes)) (items : List TypeExpr) : Prop :=
  ∀ item ∈ items, ∀ rest, scan (item.string ++ rest) = some (item.depth, rest)

attribute [local simp] TypeExpr.string TypeExpr.strings TypeExpr.depth TypeExpr.depths TypeExpr.nesting

theorem scanMembers_strings (scan : Bytes → Option (Nat × Bytes)) (items : List TypeExpr) (rest : Bytes)
    (fuel maxDepth : Nat) (reads : ReadsTypes scan items) (enough : (TypeExpr.strings items).length < fuel) :
    scanMembers (some scan) fuel (TypeExpr.strings items ++ ascii ')' :: rest) maxDepth =
      some (max maxDepth (TypeExpr.depths items), rest) := by
  induction items generalizing fuel maxDepth with
  | nil =>
    obtain ⟨fuel, rfl⟩ := Nat.exists_eq_add_of_lt enough
    simp [scanMembers]
  | cons item items ih =>
    obtain ⟨fuel, rfl⟩ : ∃ n, fuel = n + 1 := ⟨fuel - 1, by omega⟩
    obtain ⟨c, tail, spelled, notClose, _⟩ := item.string_head
    have scanned := reads item List.mem_cons_self (TypeExpr.strings items ++ ascii ')' :: rest)
    have shorter : (TypeExpr.strings items).length < fuel := by
      have := item.length_string_pos
      simp only [TypeExpr.strings, List.length_append] at enough
      omega
    have others := ih fuel (max maxDepth (item.depth + 1))
      (fun other member => reads other (List.mem_cons_of_mem item member)) shorter
    rw [TypeExpr.strings, List.append_assoc, spelled, List.cons_append] at *
    simp only [scanMembers, notClose, if_false, some_bind, scanned, others,
      TypeExpr.depths, Nat.max_assoc]

attribute [local simp] variantTypeStringScanInternal scanType

theorem scan_string (t : TypeExpr) (limit : Nat) (fits : t.nesting ≤ limit) (rest : Bytes) :
    variantTypeStringScanInternal limit (t.string ++ rest) = some (t.depth, rest) := by
  -- over the type; the limit that is left bounds the nesting of what is inside
  induction t generalizing limit rest with
  | basic b => cases limit <;> exact scanType_basic _ b rest
  | variant | any | anyBasic | anyTuple => cases limit <;> rfl
  | maybe element ih | array element ih =>
    obtain ⟨limit, rfl⟩ : ∃ n, limit = n + 1 := ⟨limit - 1, by simp only [TypeExpr.nesting] at fits; omega⟩
    have scanned := ih limit (by simpa using fits) rest
    simp [ascii, scanned]
  | dictEntry key value ih =>
    obtain ⟨limit, rfl⟩ : ∃ n, limit = n + 1 := ⟨limit - 1, by simp only [TypeExpr.nesting] at fits; omega⟩
    have scanned := ih limit (by simpa using fits) (ascii '}' :: rest)
    have keyed : ((Basic.ofChar (keyChar key)).isSome || decide (keyChar key = ascii '?')) = true := by
      cases key with
      | none => rfl
      | some b => simp [keyChar]
    have braces : ascii '{' ≠ ascii '(' := by decide
    simp [keyed, scanned, braces]
  | tuple items ih =>
    cases items with
    | nil => cases limit <;> simp [scanMembers]
    | cons item items =>
      have small : ∀ other ∈ item :: items, other.nesting + 1 ≤ limit := fun other member =>
        Nat.le_trans (TypeExpr.nesting_lt_nestings member) (by simpa using fits)
      obtain ⟨limit, rfl⟩ : ∃ n, limit = n + 1 := ⟨limit - 1, by have := small item List.mem_cons_self; omega⟩
      have members := scanMembers_strings (variantTypeStringScanInternal limit) (item :: items) rest
        ((TypeExpr.strings (item :: items) ++ ascii ')' :: rest).length + 1) 0
        (fun other member => ih other member limit (by have := small other member; omega))
        (by simp only [List.length_append]; omega)
      simpa using members

/-- A recursive call that accepts nothing but type strings nested below `limit`. -/
def AcceptsTypes (limit : Nat) (child : Option (Bytes → Option (Nat × Bytes))) : Prop :=
  ∀ scan, child = some scan → ∀ string depth rest, scan string = some (depth, rest) →
    ∃ t : TypeExpr, string = t.string ++ rest ∧ depth = t.depth ∧ t.nesting < limit

theorem scanMembers_sound {limit : Nat} {child : Option (Bytes → Option (Nat × Bytes))}
    (accepts : AcceptsTypes limit child) {fuel : Nat} {string rest : Bytes} {maxDepth depth : Nat}
    (scanned : scanMembers child fuel string maxDepth = some (depth, rest)) :
    ∃ items : List TypeExpr, string = TypeExpr.strings items ++ ascii ')' :: rest ∧
      depth = max maxDepth (TypeExpr.depths items) ∧ TypeExpr.nestings items ≤ limit := by
  -- on the turns: the depth so far is the largest of the members passed
  induction fuel generalizing string maxDepth with
  | zero => simp [scanMembers] at scanned
  | succ fuel ih =>
    cases string with
    | nil => simp [scanMembers] at scanned
    | cons c string =>
      by_cases close : c = ascii ')'
      · simp only [scanMembers, close, if_true, Option.some.injEq, Prod.mk.injEq] at scanned
        obtain ⟨rfl, rfl⟩ := scanned
        exact ⟨[], by simp [close, TypeExpr.nestings]⟩
      · simp only [scanMembers, close, if_false, Option.bind_eq_bind, Option.bind_eq_some_iff,
          Prod.exists] at scanned
        obtain ⟨scan, present, childDepth, middle, first, others⟩ := scanned
        obtain ⟨t, spelled, rfl, shallow⟩ := accepts scan present _ _ _ first
        obtain ⟨items, rfl, rfl, bound⟩ := ih others
        refine ⟨t :: items, by simp [spelled], ?_, ?_⟩
        · simp [Nat.max_assoc]
        · simp only [TypeExpr.nestings]
          omega

theorem scanType_sound {limit : Nat} {child : Option (Bytes → Option (Nat × Bytes))}
    (accepts : AcceptsTypes limit child) {string rest : Bytes} {depth : Nat}
    (scanned : scanType child string = some (depth, rest)) :
    ∃ t : TypeExpr, string = t.string ++ rest ∧ depth = t.depth ∧ t.nesting ≤ limit := by
  cases string with
  | nil => simp at scanned
  | cons c string =>
    simp only [scanType] at scanned
    split_ifs at scanned with tuple entry container leaf
    · obtain ⟨items, rfl, rfl, bound⟩ := scanMembers_sound accepts scanned
      exact ⟨.tuple items, by simp [tuple], by simp,
        by simpa using bound⟩
    · split at scanned
      · next scan key string =>
        split_ifs at scanned with keyed
        split at scanned
        · next childDepth close tail value =>
          split_ifs at scanned with closed
          obtain ⟨rfl, rfl⟩ := scanned
          obtain ⟨t, rfl, rfl, shallow⟩ := accepts scan rfl _ _ _ value
          obtain ⟨k, rfl⟩ : ∃ k, keyChar k = key := by
            rcases Bool.or_eq_true_iff.mp keyed with basic | wild
            · obtain ⟨b, found⟩ := Option.isSome_iff_exists.mp basic
              exact ⟨some b, Basic.char_of_ofChar found⟩
            · exact ⟨none, (of_decide_eq_true wild).symm⟩
          exact ⟨.dictEntry k t, by simp [entry, closed], by simp,
            by simp only [TypeExpr.nesting]; omega⟩
        · simp at scanned
      · simp at scanned
    · simp only [Option.bind_eq_bind, Option.bind_eq_some_iff, Prod.exists, Option.pure_def,
        Option.some.injEq, Prod.mk.injEq] at scanned
      obtain ⟨scan, present, childDepth, middle, first, rfl, rfl⟩ := scanned
      obtain ⟨t, spelled, rfl, shallow⟩ := accepts scan present _ _ _ first
      rcases container with rfl | rfl
      · exact ⟨.maybe t, by simp [spelled], by simp,
          by simp only [TypeExpr.nesting]; omega⟩
      · exact ⟨.array t, by simp [spelled], by simp,
          by simp only [TypeExpr.nesting]; omega⟩
    · simp only [Option.some.injEq, Prod.mk.injEq] at scanned
      obtain ⟨rfl, rfl⟩ := scanned
      rcases leaf with basic | rfl | rfl | rfl | rfl
      · obtain ⟨b, found⟩ := Option.isSome_iff_exists.mp basic
        exact ⟨.basic b, by simp [Basic.char_of_ofChar found], rfl, Nat.zero_le _⟩
      · exact ⟨.variant, rfl, rfl, Nat.zero_le _⟩
      · exact ⟨.anyTuple, rfl, rfl, Nat.zero_le _⟩
      · exact ⟨.any, rfl, rfl, Nat.zero_le _⟩
      · exact ⟨.anyBasic, rfl, rfl, Nat.zero_le _⟩

theorem scan_sound {limit : Nat} {string rest : Bytes} {depth : Nat}
    (scanned : variantTypeStringScanInternal limit string = some (depth, rest)) :
    ∃ t : TypeExpr, string = t.string ++ rest ∧ depth = t.depth ∧ t.nesting ≤ limit := by
  induction limit generalizing string rest depth with
  | zero => exact scanType_sound (fun scan absent => by simp at absent) scanned
  | succ limit ih =>
    apply scanType_sound _ scanned
    rintro scan ⟨rfl⟩ string depth rest first
    obtain ⟨t, spelled, same, shallow⟩ := ih first
    exact ⟨t, spelled, same, Nat.lt_succ_of_le shallow⟩

/-- Together with `scan_string`: the scanner accepts the strings of the grammar
whose nesting fits the limit, and no others. -/
theorem xvariantTypeStringIsValid_iff (string : Bytes) :
    xvariantTypeStringIsValid string = true ↔
      ∃ t : TypeExpr, string = t.string ∧ t.nesting ≤ maxRecursionDepth := by
  rw [xvariantTypeStringIsValid, decide_eq_true_eq, xvariantTypeStringScan, Option.map_eq_some_iff]
  constructor
  · rintro ⟨⟨depth, rest⟩, scanned, rfl⟩
    obtain ⟨t, spelled, -, shallow⟩ := scan_sound scanned
    exact ⟨t, by simpa using spelled, shallow⟩
  · rintro ⟨t, rfl, shallow⟩
    exact ⟨(t.depth, []), by simpa using scan_string t _ shallow [], rfl⟩

theorem xvariantTypeStringGetDepth_string (t : TypeExpr) (shallow : t.nesting ≤ maxRecursionDepth) :
    xvariantTypeStringGetDepth t.string = t.depth := by
  have scanned := scan_string t _ shallow []
  rw [List.append_nil] at scanned
  simp [xvariantTypeStringGetDepth, scanned]

/-! ## The bracket counter finds the same end -/

theorem getStringLengthFrom_strings (items : List TypeExpr) (rest : Bytes) (brackets : Int)
    (each : ∀ item ∈ items, ∀ rest, getStringLengthFrom (item.string ++ rest) brackets =
      item.string.length + getStringLengthFrom rest brackets) :
    getStringLengthFrom (TypeExpr.strings items ++ rest) brackets =
      (TypeExpr.strings items).length + getStringLengthFrom rest brackets := by
  induction items with
  | nil => simp
  | cons item items ih =>
    have others := ih fun other member => each other (List.mem_cons_of_mem item member)
    rw [TypeExpr.strings, List.append_assoc, each item List.mem_cons_self, others, List.length_append,
      Nat.add_assoc]

/-- A character that is neither a prefix nor a bracket. -/
theorem getStringLengthFrom_plain (c : UInt8) (rest : Bytes) (brackets : Int)
    (plain : c ∉ [ascii 'a', ascii 'm', ascii '(', ascii '{', ascii ')', ascii '}']) :
    getStringLengthFrom (c :: rest) brackets =
      1 + (if brackets = 0 then 0 else getStringLengthFrom rest brackets) := by
  simp only [List.mem_cons, List.not_mem_nil, or_false, not_or] at plain
  simp only [getStringLengthFrom, plain, or_self, if_false]
  split <;> simp [Nat.add_comm]

theorem keyChar_plain (key : Option Basic) :
    keyChar key ∉ [ascii 'a', ascii 'm', ascii '(', ascii '{', ascii ')', ascii '}'] := by
  cases key with
  | none => decide
  | some b => cases b <;> decide

theorem getStringLengthFrom_open (c : UInt8) (rest : Bytes) (brackets : Int) (counted : 0 ≤ brackets)
    (bracket : c = ascii '(' ∨ c = ascii '{') :
    getStringLengthFrom (c :: rest) brackets = getStringLengthFrom rest (brackets + 1) + 1 := by
  have inside : brackets + 1 ≠ 0 := by omega
  rcases bracket with rfl | rfl <;> simp [getStringLengthFrom, inside, ascii]

theorem getStringLengthFrom_close (c : UInt8) (rest : Bytes) (brackets : Int)
    (bracket : c = ascii ')' ∨ c = ascii '}') :
    getStringLengthFrom (c :: rest) (brackets + 1) =
      1 + (if brackets = 0 then 0 else getStringLengthFrom rest brackets) := by
  rcases bracket with rfl | rfl <;> simp only [getStringLengthFrom, ascii] <;>
    simp <;> split <;> simp [Nat.add_comm]

theorem getStringLengthFrom_string (t : TypeExpr) (rest : Bytes) (brackets : Int) (counted : 0 ≤ brackets) :
    getStringLengthFrom (t.string ++ rest) brackets =
      t.string.length + (if brackets = 0 then 0 else getStringLengthFrom rest brackets) := by
  -- over the type: the count of open brackets is back where it was behind a whole type
  induction t generalizing rest brackets with
  | basic b => exact getStringLengthFrom_plain b.char rest brackets (keyChar_plain (some b))
  | variant | any | anyBasic | anyTuple => exact getStringLengthFrom_plain _ rest brackets (by decide)
  | maybe element ih | array element ih =>
    have inner := ih rest brackets counted
    simp only [TypeExpr.string, List.cons_append, getStringLengthFrom, true_or, or_true, if_true, inner,
      List.length_cons]
    omega
  | dictEntry key value ih =>
    have inner := ih (ascii '}' :: rest) (brackets + 1) (by omega)
    rw [if_neg (by omega), getStringLengthFrom_close _ _ _ (Or.inr rfl)] at inner
    simp only [TypeExpr.string, List.cons_append, List.append_assoc, List.nil_append]
    rw [getStringLengthFrom_open _ _ _ counted (Or.inr rfl),
      getStringLengthFrom_plain _ _ _ (keyChar_plain key), if_neg (by omega), inner]
    simp only [List.length_cons, List.length_append, List.length_nil]
    omega
  | tuple items ih =>
    have inner := getStringLengthFrom_strings items (ascii ')' :: rest) (brackets + 1)
      fun item member rest => by
        have := ih item member rest (brackets + 1) (by omega)
        rwa [if_neg (by omega)] at this
    rw [getStringLengthFrom_close _ _ _ (Or.inl rfl)] at inner
    simp only [TypeExpr.string, List.cons_append, List.append_assoc, List.nil_append]
    rw [getStringLengthFrom_open _ _ _ counted (Or.inl rfl), inner]
    simp only [List.length_cons, List.length_append, List.length_nil]
    omega

theorem xvariantTypeGetStringLength_string (t : TypeExpr) (rest : Bytes) :
    xvariantTypeGetStringLength (t.string ++ rest) = t.string.length := by
  simpa [xvariantTypeGetStringLength] using getStringLengthFrom_string t rest 0 (Int.le_refl 0)

/-! ## Definite type strings -/

theorem TypeExpr.any_strings (p : UInt8 → Bool) (items : List TypeExpr) :
    (TypeExpr.strings items).any p = items.any fun item => item.string.any p := by
  induction items with
  | nil => rfl
  | cons item items ih => simp [ih]

theorem Basic.char_ne_zero (b : Basic) : b.char ≠ 0 := by
  cases b <;> decide

theorem TypeExpr.string_any_zero (t : TypeExpr) : t.string.any (· = 0) = false := by
  induction t with
  | basic b => simp [b.char_ne_zero]
  | variant => decide
  | any => decide
  | anyBasic => decide
  | anyTuple => decide
  | maybe element ih =>
    rw [TypeExpr.string, List.any_cons, ih]
    decide
  | array element ih =>
    rw [TypeExpr.string, List.any_cons, ih]
    decide
  | tuple items ih =>
    have each : (TypeExpr.strings items).any (· = 0) = false := by
      rw [TypeExpr.any_strings, List.any_eq_false]
      exact fun item member => by simp [ih item member]
    rw [TypeExpr.string, List.any_cons, List.any_append, each]
    decide
  | dictEntry key inner ih =>
    have named : keyChar key ≠ 0 := by
      cases key with
      | none => decide
      | some b => exact b.char_ne_zero
    rw [TypeExpr.string, List.any_cons, List.any_cons, List.any_append, ih]
    simp [named]
    decide

theorem VariantType.string_definite (t : VariantType) : t.toExpr.string.any indefiniteChar = false := by
  induction t with
  | basic b => cases b <;> decide
  | variant => decide
  | maybe element ih | array element ih =>
    rw [VariantType.toExpr, TypeExpr.string, List.any_cons, ih]
    decide
  | tuple items ih =>
    have each : (VariantType.toExprs items).any (fun item => item.string.any indefiniteChar) = false := by
      rw [VariantType.toExprs_eq_map, List.any_map, List.any_eq_false]
      intro item member
      simpa using ih item member
    rw [VariantType.toExpr, TypeExpr.string, List.any_cons, List.any_append, TypeExpr.any_strings, each]
    decide
  | dictEntry key value ih =>
    rw [VariantType.toExpr, TypeExpr.string, List.any_cons, List.any_cons, List.any_append, ih]
    cases key <;> decide

theorem TypeExpr.definite_of_string (e : TypeExpr) (plain : e.string.any indefiniteChar = false) :
    ∃ t : VariantType, t.toExpr = e := by
  induction e with
  | basic b => exact ⟨.basic b, rfl⟩
  | variant => exact ⟨.variant, rfl⟩
  | any | anyBasic | anyTuple => exact absurd plain (by decide)
  | maybe element ih =>
    rw [TypeExpr.string, List.any_cons, Bool.or_eq_false_iff] at plain
    obtain ⟨t, rfl⟩ := ih plain.2
    exact ⟨.maybe t, rfl⟩
  | array element ih =>
    rw [TypeExpr.string, List.any_cons, Bool.or_eq_false_iff] at plain
    obtain ⟨t, rfl⟩ := ih plain.2
    exact ⟨.array t, rfl⟩
  | dictEntry key value ih =>
    simp only [TypeExpr.string, List.any_cons, List.any_append, Bool.or_eq_false_iff] at plain
    obtain ⟨t, rfl⟩ := ih plain.2.2.1
    cases key with
    | none => exact absurd plain.2.1 (by decide)
    | some b => exact ⟨.dictEntry b t, rfl⟩
  | tuple items ih =>
    simp only [TypeExpr.string, List.any_cons, List.any_append, Bool.or_eq_false_iff, TypeExpr.any_strings,
      List.any_eq_false] at plain
    suffices ∃ types, VariantType.toExprs types = items by
      obtain ⟨types, rfl⟩ := this
      exact ⟨.tuple types, rfl⟩
    have each : ∀ item ∈ items, ∃ t : VariantType, t.toExpr = item := fun item member =>
      ih item member (by simpa using plain.2.1 item member)
    clear ih plain
    induction items with
    | nil => exact ⟨[], rfl⟩
    | cons item items tail =>
      obtain ⟨t, rfl⟩ := each item List.mem_cons_self
      obtain ⟨types, rfl⟩ := tail fun other member => each other (List.mem_cons_of_mem _ member)
      exact ⟨t :: types, rfl⟩

theorem xvariantTypeIsDefinite_string (e : TypeExpr) :
    xvariantTypeIsDefinite e.string = true ↔ ∃ t : VariantType, t.toExpr = e := by
  have length := xvariantTypeGetStringLength_string e []
  rw [List.append_nil] at length
  rw [xvariantTypeIsDefinite, length, List.take_length, Bool.not_eq_true']
  constructor
  · exact e.definite_of_string
  · rintro ⟨t, rfl⟩
    exact t.string_definite

/-! ## The tree of a definite type string -/

def parseItems (parse : Bytes → Option (VariantType × Bytes)) : Nat → Bytes → Option (List VariantType × Bytes)
  | 0, _ => none
  | _ + 1, [] => none
  | fuel + 1, c :: string =>
    if c = ascii ')' then some ([], string)
    else do
      let (item, rest) ← parse (c :: string)
      let (items, rest) ← parseItems parse fuel rest
      return (item :: items, rest)

def parseType : Nat → Bytes → Option (VariantType × Bytes)
  | 0, _ => none
  | _ + 1, [] => none
  | fuel + 1, c :: string =>
    if c = ascii 'v' then some (.variant, string)
    else if c = ascii 'm' then (parseType fuel string).map fun (t, rest) => (.maybe t, rest)
    else if c = ascii 'a' then (parseType fuel string).map fun (t, rest) => (.array t, rest)
    else if c = ascii '(' then
      (parseItems (parseType fuel) (string.length + 1) string).map fun (ts, rest) => (.tuple ts, rest)
    else if c = ascii '{' then
      match string with
      | key :: string => do
        let key ← Basic.ofChar key
        let (t, rest) ← parseType fuel string
        return (.dictEntry key t, rest.drop 1)
      | [] => none
    else (Basic.ofChar c).map fun b => (.basic b, string)

/-- The type that `xvariant_type_info_get` describes when it is given a definite
type string. -/
def VariantType.ofString (string : Bytes) : Option VariantType :=
  match parseType string.length string with
  | some (t, []) => some t
  | _ => none

theorem parseItems_strings (parse : Bytes → Option (VariantType × Bytes)) (items : List VariantType)
    (rest : Bytes) (fuel : Nat) (enough : (TypeExpr.strings (VariantType.toExprs items)).length < fuel)
    (reads : ∀ item ∈ items, ∀ rest, parse (item.string ++ rest) = some (item, rest)) :
    parseItems parse fuel (TypeExpr.strings (VariantType.toExprs items) ++ ascii ')' :: rest) =
      some (items, rest) := by
  induction items generalizing fuel with
  | nil =>
    obtain ⟨fuel, rfl⟩ := Nat.exists_eq_add_of_lt enough
    simp [parseItems, VariantType.toExprs]
  | cons item items ih =>
    obtain ⟨fuel, rfl⟩ : ∃ n, fuel = n + 1 := ⟨fuel - 1, by omega⟩
    obtain ⟨c, tail, spelled, notClose, _⟩ := item.toExpr.string_head
    have parsed := reads item List.mem_cons_self
      (TypeExpr.strings (VariantType.toExprs items) ++ ascii ')' :: rest)
    have shorter : (TypeExpr.strings (VariantType.toExprs items)).length < fuel := by
      have := item.toExpr.length_string_pos
      simp only [VariantType.toExprs, TypeExpr.strings, List.length_append] at enough
      omega
    have others := ih fuel shorter fun other member => reads other (List.mem_cons_of_mem item member)
    rw [VariantType.string] at parsed
    rw [VariantType.toExprs, TypeExpr.strings, List.append_assoc]
    rw [spelled, List.cons_append] at parsed ⊢
    simp only [parseItems, notClose, if_false, some_bind, parsed, others,
      Option.pure_def]

theorem parseType_basic (fuel : Nat) (b : Basic) (rest : Bytes) :
    parseType (fuel + 1) (b.char :: rest) = some (.basic b, rest) := by
  cases b <;> rfl

theorem VariantType.length_string_le_strings {item : VariantType} {items : List VariantType}
    (member : item ∈ items) :
    item.string.length ≤ (TypeExpr.strings (VariantType.toExprs items)).length := by
  induction items with
  | nil => cases member
  | cons first items ih =>
    simp only [VariantType.toExprs, TypeExpr.strings, List.length_append]
    rcases List.mem_cons.mp member with rfl | later
    · simp [VariantType.string]
    · have := ih later
      omega

theorem VariantType.fuel_eq_succ {t : VariantType} {fuel : Nat} (enough : t.string.length ≤ fuel) :
    ∃ n, fuel = n + 1 :=
  Nat.exists_eq_add_of_le' (Nat.le_trans t.toExpr.length_string_pos enough)

theorem parseType_string (t : VariantType) (fuel : Nat) (enough : t.string.length ≤ fuel) (rest : Bytes) :
    parseType fuel (t.string ++ rest) = some (t, rest) := by
  induction t generalizing fuel rest with
  | basic b =>
    obtain ⟨fuel, rfl⟩ := VariantType.fuel_eq_succ enough
    exact parseType_basic fuel b rest
  | variant =>
    obtain ⟨fuel, rfl⟩ := VariantType.fuel_eq_succ enough
    rfl
  | maybe element ih | array element ih =>
    obtain ⟨fuel, rfl⟩ := VariantType.fuel_eq_succ enough
    have parsed := ih fuel (Nat.le_of_succ_le_succ enough) rest
    simp only [VariantType.string] at parsed
    simp [VariantType.string, VariantType.toExpr, parseType, ascii, parsed]
  | tuple items ih =>
    obtain ⟨fuel, rfl⟩ := VariantType.fuel_eq_succ enough
    have bound : (TypeExpr.strings (VariantType.toExprs items)).length ≤ fuel := by
      simp only [VariantType.string, VariantType.toExpr, TypeExpr.string, List.length_cons,
        List.length_append] at enough
      omega
    have members := parseItems_strings (parseType fuel) items rest
      ((TypeExpr.strings (VariantType.toExprs items) ++ ascii ')' :: rest).length + 1)
      (by simp only [List.length_append]; omega)
      (fun item member rest =>
        ih item member fuel (Nat.le_trans (VariantType.length_string_le_strings member) bound) rest)
    simp only [VariantType.string, VariantType.toExpr, TypeExpr.string, List.cons_append, List.append_assoc,
      List.nil_append, parseType]
    simp [ascii] at members ⊢
    simp [members]
  | dictEntry key value ih =>
    obtain ⟨fuel, rfl⟩ := VariantType.fuel_eq_succ enough
    have bound : value.string.length ≤ fuel := by
      simp only [VariantType.string, VariantType.toExpr, TypeExpr.string, List.length_cons,
        List.length_append] at enough ⊢
      omega
    have parsed := ih fuel bound (ascii '}' :: rest)
    simp [VariantType.string, VariantType.toExpr, parseType, keyChar, ascii] at parsed ⊢
    simp [parsed]

@[simp] theorem VariantType.ofString_string (t : VariantType) : VariantType.ofString t.string = some t := by
  have parsed := parseType_string t t.string.length (Nat.le_refl _) []
  rw [List.append_nil] at parsed
  simp [VariantType.ofString, parsed]

theorem VariantType.string_injective {t u : VariantType} (same : t.string = u.string) : t = u := by
  have := congrArg VariantType.ofString same
  simpa using this

instance : DecidableEq VariantType := fun t u =>
  decidable_of_iff (t.string = u.string) ⟨VariantType.string_injective, congrArg VariantType.string⟩

end Xpl.Variant
