import Mathlib.Data.List.Forall2
import Xpl.Variant.Type

/-! Patterns as trees, the types that they stand for, and their greatest lower bounds.

A pattern is a number of maybes, exact or at least, around one of the shapes below, or around anything. The dictionary
entry has `none` as its key for any key.
-/

set_option autoImplicit false

namespace Xpl.Variant
open Xpl.Library

/-- `least` maybes, or with `more` any number from there on. -/
structure Levels where
  least : Nat
  more : Bool
  deriving DecidableEq, Repr

namespace Levels

def Holds (levels : Levels) (n : Nat) : Prop := if levels.more then levels.least ≤ n else n = levels.least

def string (levels : Levels) : Bytes :=
  List.replicate levels.least (ascii 'm') ++ if levels.more then [ascii 'M'] else []

def meet (a b : Levels) : Option Levels :=
  if a.more then
    if b.more then some { least := max a.least b.least, more := true }
    else if a.least ≤ b.least then some b else none
  else if b.more then
    if b.least ≤ a.least then some a else none
  else if a.least = b.least then some a else none

/-- The bound is exact. -/
theorem meet_holds (a b : Levels) (n : Nat) : (∃ m, meet a b = some m ∧ m.Holds n) ↔ a.Holds n ∧ b.Holds n := by
  obtain ⟨i, more_a⟩ := a
  obtain ⟨j, more_b⟩ := b
  cases more_a <;> cases more_b <;> simp only [meet, Holds, if_true, if_false, Bool.false_eq_true]
  · by_cases same : i = j
    · simp [same]
    · simp only [if_neg same]
      constructor
      · rintro ⟨m, none, _⟩
        exact nomatch none
      · omega
  · by_cases below : j ≤ i
    · simp only [if_pos below, Option.some.injEq, exists_eq_left', if_false, Bool.false_eq_true]
      omega
    · simp only [if_neg below]
      constructor
      · rintro ⟨m, none, _⟩
        exact nomatch none
      · omega
  · by_cases below : i ≤ j
    · simp only [if_pos below, Option.some.injEq, exists_eq_left', if_false, Bool.false_eq_true]
      omega
    · simp only [if_neg below]
      constructor
      · rintro ⟨m, none, _⟩
        exact nomatch none
      · omega
  · simp only [Option.some.injEq, exists_eq_left', if_true]
    omega

theorem holds_least (levels : Levels) : levels.Holds levels.least := by
  unfold Holds
  split
  · exact Nat.le_refl _
  · rfl

theorem meet_three {a b c m : Levels} (first : meet a b = some m) (second : (meet a c).isSome) (third : (meet b c).isSome) :
    (meet m c).isSome := by
  obtain ⟨i, more_a⟩ := a
  obtain ⟨j, more_b⟩ := b
  obtain ⟨k, more_c⟩ := c
  cases more_a <;> cases more_b <;> cases more_c <;>
    grind [meet]

end Levels

/-- The shapes of one byte that a key can have. -/
inductive Leaf where
  | basic (b : Basic)
  | number
  | string
  deriving DecidableEq, Repr

namespace Leaf

def char : Leaf → UInt8
  | .basic b => b.char
  | .number => ascii 'N'
  | .string => ascii 'S'

def numbers : List Basic := [.byte, .int16, .uint16, .int32, .uint32, .int64, .uint64, .handle, .double]

def strings : List Basic := [.string, .objectPath, .signature]

def matching : Leaf → Basic → Bool
  | .basic b, c => b = c
  | .number, c => c ∈ numbers
  | .string, c => c ∈ strings

def meet : Leaf → Leaf → Option Leaf
  | .basic b, leaf => if leaf.matching b then some (.basic b) else none
  | leaf, .basic b => if leaf.matching b then some (.basic b) else none
  | .number, .number => some .number
  | .string, .string => some .string
  | _, _ => none

theorem meet_matching (a b : Leaf) (c : Basic) : (∃ m, meet a b = some m ∧ m.matching c) ↔ a.matching c ∧ b.matching c := by
  have apart : ¬ (number.matching c = true ∧ string.matching c = true) := by cases c <;> decide
  have known : ∀ (leaf : Leaf) (x : Basic), (∃ m, (if leaf.matching x then some (basic x) else none) = some m ∧ m.matching c) ↔
      leaf.matching c ∧ (basic x).matching c := by
    intro leaf x
    have own : (basic x).matching c = true ↔ x = c := decide_eq_true_iff
    by_cases matched : leaf.matching x
    · rw [if_pos matched]
      constructor
      · rintro ⟨m, found, same⟩
        obtain rfl := Option.some.inj found
        obtain rfl := own.mp same
        exact ⟨matched, same⟩
      · exact fun both => ⟨basic x, rfl, both.2⟩
    · rw [if_neg matched]
      constructor
      · rintro ⟨m, none, _⟩
        exact nomatch none
      · rintro ⟨other, same⟩
        obtain rfl := own.mp same
        exact absurd other matched
  cases a with
  | basic x => cases b <;> exact (known _ x).trans and_comm
  | number =>
    cases b with
    | basic x => exact known number x
    | number => simp [meet]
    | string =>
      constructor
      · rintro ⟨m, none, _⟩
        exact nomatch none
      · exact fun both => absurd both apart
  | string =>
    cases b with
    | basic x => exact known string x
    | number =>
      constructor
      · rintro ⟨m, none, _⟩
        exact nomatch none
      · exact fun both => absurd both.symm apart
    | string => simp [meet]

theorem exists_matching (leaf : Leaf) : ∃ c, leaf.matching c := by
  cases leaf with
  | basic b => exact ⟨b, decide_eq_true rfl⟩
  | number => exact ⟨.int32, rfl⟩
  | string => exact ⟨.string, rfl⟩

theorem meet_three {a b c m : Leaf} (first : meet a b = some m) (second : (meet a c).isSome) (third : (meet b c).isSome) :
    (meet m c).isSome := by
  cases a <;> cases b <;> cases c <;>
    simp only [meet, matching, Option.isSome_ite, Option.ite_none_right_eq_some, Option.some.injEq, decide_eq_true_eq, reduceCtorEq,
      Option.isSome_none, Bool.false_eq_true] at first second third <;>
    grind [meet, matching]

end Leaf

/-- The keys of a dictionary entry. -/
def keyMeet : Option Leaf → Option Leaf → Option (Option Leaf)
  | none, key => some key
  | key, none => some key
  | some a, some b => (a.meet b).map some

def keyMatching : Option Leaf → Basic → Bool
  | none, _ => true
  | some leaf, b => leaf.matching b

def patternKey : Option Leaf → UInt8
  | none => ascii '*'
  | some leaf => leaf.char

inductive Pattern where
  | any (least : Nat)
  | leaf (levels : Levels) (leaf : Leaf)
  | variant (levels : Levels)
  | array (levels : Levels) (element : Pattern)
  | tuple (levels : Levels) (items : List Pattern)
  | entry (levels : Levels) (key : Option Leaf) (value : Pattern)

@[induction_eliminator]
theorem Pattern.induction {motive : Pattern → Prop} (any : ∀ least, motive (.any least))
    (leaf : ∀ levels leaf, motive (.leaf levels leaf)) (variant : ∀ levels, motive (.variant levels))
    (array : ∀ levels element, motive element → motive (.array levels element))
    (tuple : ∀ levels items, (∀ item ∈ items, motive item) → motive (.tuple levels items))
    (entry : ∀ levels key value, motive value → motive (.entry levels key value)) (p : Pattern) : motive p :=
  @Pattern.rec motive (fun items => ∀ item ∈ items, motive item) any leaf variant array tuple entry
    (fun _ member => nomatch member) (fun _ _ first rest => List.forall_mem_cons.mpr ⟨first, rest⟩) p

namespace Pattern

mutual
/-- The pattern as `ast_get_pattern` writes it. -/
def string : Pattern → Bytes
  | .any least => List.replicate least (ascii 'm') ++ [ascii '*']
  | .leaf levels a => levels.string ++ [a.char]
  | .variant levels => levels.string ++ [ascii 'v']
  | .array levels element => levels.string ++ ascii 'a' :: element.string
  | .tuple levels items => levels.string ++ ascii '(' :: (strings items ++ [ascii ')'])
  | .entry levels key value => levels.string ++ ascii '{' :: patternKey key :: (value.string ++ [ascii '}'])

def strings : List Pattern → Bytes
  | [] => []
  | item :: items => item.string ++ strings items
end

def levels : Pattern → Levels
  | .any least => { least, more := true }
  | .leaf levels _ => levels
  | .variant levels => levels
  | .array levels _ => levels
  | .tuple levels _ => levels
  | .entry levels _ _ => levels

def withLevels (levels : Levels) : Pattern → Pattern
  | .any _ => .any levels.least
  | .leaf _ a => .leaf levels a
  | .variant _ => .variant levels
  | .array _ element => .array levels element
  | .tuple _ items => .tuple levels items
  | .entry _ key value => .entry levels key value

/-- A shape that two patterns have in common, with the levels that they have in common. -/
def leveled (p q : Pattern) (shape : Option Pattern) : Option Pattern := do
  let levels ← p.levels.meet q.levels
  let r ← shape
  some (r.withLevels levels)

mutual
/-- The shape that two patterns have in common; its levels mean nothing. -/
def meetShape : Pattern → Pattern → Option Pattern
  | .any _, q => some q
  | .leaf levels a, q =>
    match q with
    | .any _ => some (.leaf levels a)
    | .leaf _ b => (a.meet b).map (.leaf levels)
    | _ => none
  | .variant levels, q =>
    match q with
    | .any _ => some (.variant levels)
    | .variant _ => some (.variant levels)
    | _ => none
  | .array levels e, q =>
    match q with
    | .any _ => some (.array levels e)
    | .array _ f => (leveled e f (meetShape e f)).map (.array levels)
    | _ => none
  | .tuple levels ps, q =>
    match q with
    | .any _ => some (.tuple levels ps)
    | .tuple _ qs => (meetItems ps qs).map (.tuple levels)
    | _ => none
  | .entry levels k p, q =>
    match q with
    | .any _ => some (.entry levels k p)
    | .entry _ j q => do
      let key ← keyMeet k j
      let value ← leveled p q (meetShape p q)
      some (.entry levels key value)
    | _ => none

def meetItems : List Pattern → List Pattern → Option (List Pattern)
  | [], [] => some []
  | p :: ps, q :: qs => do
    let r ← leveled p q (meetShape p q)
    let rs ← meetItems ps qs
    some (r :: rs)
  | _, _ => none
end

/-- The greatest pattern below two patterns. -/
def meet (p q : Pattern) : Option Pattern := leveled p q (meetShape p q)

end Pattern

/-! ## The types that a pattern stands for -/

def VariantType.maybes : VariantType → Nat
  | .maybe element => element.maybes + 1
  | _ => 0

/-- What the maybes are around. -/
def VariantType.core : VariantType → VariantType
  | .maybe element => element.core
  | t => t

/-- What a type or a pattern is, below its maybes. -/
inductive Shape where
  | basic | variant | maybe | array | tuple | entry
  deriving DecidableEq

def VariantType.shape : VariantType → Shape
  | .basic _ => .basic
  | .variant => .variant
  | .maybe _ => .maybe
  | .array _ => .array
  | .tuple _ => .tuple
  | .dictEntry _ _ => .entry

def Pattern.shape : Pattern → Option Shape
  | .any _ => none
  | .leaf _ _ => some .basic
  | .variant _ => some .variant
  | .array _ _ => some .array
  | .tuple _ _ => some .tuple
  | .entry _ _ _ => some .entry

theorem keyMeet_matching (a b : Option Leaf) (c : Basic) :
    (∃ m, keyMeet a b = some m ∧ keyMatching m c) ↔ keyMatching a c ∧ keyMatching b c := by
  cases a with
  | none => simp [keyMeet, keyMatching]
  | some a =>
    cases b with
    | none => simp [keyMeet, keyMatching]
    | some b =>
      simp only [keyMeet, keyMatching, Option.map_eq_some_iff, ← a.meet_matching b c]
      constructor
      · rintro ⟨_, ⟨m, found, rfl⟩, matched⟩
        exact ⟨m, found, matched⟩
      · rintro ⟨m, found, matched⟩
        exact ⟨some m, ⟨m, found, rfl⟩, matched⟩

namespace Pattern

mutual
/-- The shape stands for a type that is no maybe. -/
def Fits : Pattern → VariantType → Prop
  | .any _, _ => True
  | .leaf _ a, t => ∃ b, t = .basic b ∧ a.matching b
  | .variant _, t => t = .variant
  | .array _ e, t => ∃ u, t = .array u ∧ e.levels.Holds u.maybes ∧ e.Fits u.core
  | .tuple _ items, t => ∃ types, t = .tuple types ∧ FitsAll items types
  | .entry _ key p, t => ∃ k u, t = .dictEntry k u ∧ keyMatching key k ∧ p.levels.Holds u.maybes ∧ p.Fits u.core

def FitsAll : List Pattern → List VariantType → Prop
  | [], [] => True
  | p :: ps, t :: ts => (p.levels.Holds t.maybes ∧ p.Fits t.core) ∧ FitsAll ps ts
  | _, _ => False
end

def Matches (p : Pattern) (t : VariantType) : Prop := p.levels.Holds t.maybes ∧ p.Fits t.core

variable {p : Pattern} {s : Shape}

theorem Fits.shape {t : VariantType} (fits : p.Fits t) (known : p.shape = some s) : t.shape = s := by
  cases p with
  | any least => exact nomatch (show none = some s from known)
  | leaf levels a =>
    obtain ⟨b, rfl, _⟩ := fits
    exact Option.some.inj known
  | variant levels =>
    obtain rfl : t = .variant := fits
    exact Option.some.inj known
  | array levels e =>
    obtain ⟨u, rfl, _⟩ := fits
    exact Option.some.inj known
  | tuple levels items =>
    obtain ⟨types, rfl, _⟩ := fits
    exact Option.some.inj known
  | entry levels key value =>
    obtain ⟨k, u, rfl, _⟩ := fits
    exact Option.some.inj known

theorem meetShape_leaf (levels other : Levels) (a b : Leaf) :
    meetShape (.leaf levels a) (.leaf other b) = (a.meet b).map (.leaf levels) := rfl

theorem meetShape_array (levels other : Levels) (e f : Pattern) :
    meetShape (.array levels e) (.array other f) = (leveled e f (meetShape e f)).map (.array levels) := rfl

theorem meetShape_tuple (levels other : Levels) (ps qs : List Pattern) :
    meetShape (.tuple levels ps) (.tuple other qs) = (meetItems ps qs).map (.tuple levels) := rfl

theorem meetShape_entry (levels other : Levels) (k j : Option Leaf) (p q : Pattern) :
    meetShape (.entry levels k p) (.entry other j q) =
      (keyMeet k j).bind fun key => (leveled p q (meetShape p q)).bind fun value => some (.entry levels key value) := rfl

theorem meetItems_cons (p q : Pattern) (ps qs : List Pattern) :
    meetItems (p :: ps) (q :: qs) =
      (leveled p q (meetShape p q)).bind fun m => (meetItems ps qs).bind fun ms => some (m :: ms) := rfl

variable {q : Pattern}

theorem meetShape_apart {s' : Shape} (left : p.shape = some s) (right : q.shape = some s') (differ : s ≠ s') :
    meetShape p q = none := by
  have kinds : p.shape ≠ q.shape := by
    rw [left, right]
    exact fun same => differ (Option.some.inj same)
  cases p <;> cases q <;> first
    | rfl
    | exact absurd rfl kinds
    | exact nomatch (show none = some s from left)
    | exact nomatch (show none = some s' from right)

def isAny : Pattern → Bool
  | .any _ => true
  | _ => false

theorem isAny_levels (any : p.isAny) : p.levels.more = true := by
  cases p with
  | any least => rfl
  | _ => exact nomatch any

theorem withLevels_levels {levels : Levels} (more : p.isAny → levels.more) : (p.withLevels levels).levels = levels := by
  cases p with
  | any least => rw [withLevels, Pattern.levels, ← more rfl]
  | _ => rfl

theorem withLevels_fits (levels : Levels) (p : Pattern) (t : VariantType) : (p.withLevels levels).Fits t ↔ p.Fits t := by
  cases p <;> simp only [withLevels, Fits]

/-- Anything is the meet of nothing but anything. -/
theorem meetShape_isAny {r : Pattern} (met : meetShape p q = some r) (any : r.isAny) : p.isAny ∧ q.isAny := by
  cases p with
  | any least =>
    obtain rfl := Option.some.inj (show some q = some r from met)
    exact ⟨rfl, any⟩
  | leaf levels a =>
    cases q with
    | any least =>
      obtain rfl := Option.some.inj (show some (leaf levels a) = some r from met)
      exact nomatch any
    | leaf other b =>
      obtain ⟨m, _, rfl⟩ := Option.map_eq_some_iff.mp (show (a.meet b).map (leaf levels) = some r from met)
      exact nomatch any
    | _ => exact nomatch (show none = some r from met)
  | variant levels =>
    cases q with
    | any least =>
      obtain rfl := Option.some.inj (show some (variant levels) = some r from met)
      exact nomatch any
    | variant other =>
      obtain rfl := Option.some.inj (show some (variant levels) = some r from met)
      exact nomatch any
    | _ => exact nomatch (show none = some r from met)
  | array levels e =>
    cases q with
    | any least =>
      obtain rfl := Option.some.inj (show some (array levels e) = some r from met)
      exact nomatch any
    | array other f =>
      obtain ⟨m, _, rfl⟩ := Option.map_eq_some_iff.mp (show (leveled e f (meetShape e f)).map (array levels) = some r from met)
      exact nomatch any
    | _ => exact nomatch (show none = some r from met)
  | tuple levels items =>
    cases q with
    | any least =>
      obtain rfl := Option.some.inj (show some (tuple levels items) = some r from met)
      exact nomatch any
    | tuple other others =>
      obtain ⟨m, _, rfl⟩ := Option.map_eq_some_iff.mp (show (meetItems items others).map (tuple levels) = some r from met)
      exact nomatch any
    | _ => exact nomatch (show none = some r from met)
  | entry levels key value =>
    cases q with
    | any least =>
      obtain rfl := Option.some.inj (show some (entry levels key value) = some r from met)
      exact nomatch any
    | entry other otherKey otherValue =>
      obtain ⟨k, _, rest⟩ := Option.bind_eq_some_iff.mp met
      obtain ⟨m, _, same⟩ := Option.bind_eq_some_iff.mp rest
      obtain rfl := Option.some.inj same
      exact nomatch any
    | _ => exact nomatch (show none = some r from met)

theorem Levels.meet_more {a b m : Levels} (met : a.meet b = some m) (left : a.more) (right : b.more) : m.more := by
  unfold Levels.meet at met
  rw [if_pos left, if_pos right] at met
  obtain rfl := Option.some.inj met
  rfl

theorem leveled_matches
    (shapes : ∀ t, (∃ m, meetShape p q = some m ∧ m.Fits t) ↔ p.Fits t ∧ q.Fits t) (t : VariantType) :
    (∃ m, leveled p q (meetShape p q) = some m ∧ m.Matches t) ↔ p.Matches t ∧ q.Matches t := by
  constructor
  · rintro ⟨m, met, holds, fits⟩
    obtain ⟨levels, same, rest⟩ := Option.bind_eq_some_iff.mp met
    obtain ⟨r, shape, again⟩ := Option.bind_eq_some_iff.mp rest
    obtain rfl := Option.some.inj again
    have more : r.isAny → levels.more := fun any =>
      Levels.meet_more same (isAny_levels (meetShape_isAny shape any).1) (isAny_levels (meetShape_isAny shape any).2)
    rw [withLevels_levels more] at holds
    rw [withLevels_fits] at fits
    have both := (Levels.meet_holds _ _ t.maybes).mp ⟨levels, same, holds⟩
    have fitting := (shapes t.core).mp ⟨r, shape, fits⟩
    exact ⟨⟨both.1, fitting.1⟩, ⟨both.2, fitting.2⟩⟩
  · rintro ⟨left, right⟩
    obtain ⟨levels, same, holds⟩ := (Levels.meet_holds _ _ t.maybes).mpr ⟨left.1, right.1⟩
    obtain ⟨r, shape, fits⟩ := (shapes t.core).mpr ⟨left.2, right.2⟩
    have more : r.isAny → levels.more := fun any =>
      Levels.meet_more same (isAny_levels (meetShape_isAny shape any).1) (isAny_levels (meetShape_isAny shape any).2)
    refine ⟨r.withLevels levels, ?_, ?_, ?_⟩
    · rw [leveled, same, shape]
      rfl
    · rwa [withLevels_levels more]
    · rwa [withLevels_fits]

theorem apart {s' : Shape} (left : p.shape = some s) (right : q.shape = some s') (differ : s ≠ s') (t : VariantType) :
    (∃ m, meetShape p q = some m ∧ m.Fits t) ↔ p.Fits t ∧ q.Fits t := by
  constructor
  · rintro ⟨m, met, _⟩
    rw [meetShape_apart left right differ] at met
    exact nomatch met
  · exact fun both => absurd ((both.1.shape left).symm.trans (both.2.shape right)) differ

theorem meetItems_fits {ps : List Pattern} (each : ∀ p ∈ ps, ∀ q t, (∃ m, meetShape p q = some m ∧ m.Fits t) ↔ p.Fits t ∧ q.Fits t)
    (qs : List Pattern) (types : List VariantType) :
    (∃ ms, meetItems ps qs = some ms ∧ FitsAll ms types) ↔ FitsAll ps types ∧ FitsAll qs types := by
  induction ps generalizing qs types with
  | nil =>
    cases qs with
    | nil =>
      constructor
      · rintro ⟨ms, met, fits⟩
        obtain rfl := Option.some.inj (show some [] = some ms from met)
        exact ⟨fits, fits⟩
      · exact fun both => ⟨[], rfl, both.1⟩
    | cons q qs =>
      constructor
      · rintro ⟨ms, met, _⟩
        exact nomatch (show none = some ms from met)
      · rintro ⟨left, right⟩
        cases types with
        | nil => exact absurd right id
        | cons t types => exact absurd left id
  | cons p ps ih =>
    cases qs with
    | nil =>
      constructor
      · rintro ⟨ms, met, _⟩
        exact nomatch (show none = some ms from met)
      · rintro ⟨left, right⟩
        cases types with
        | nil => exact absurd left id
        | cons t types => exact absurd right id
    | cons q qs =>
      have later := ih (fun other member => each other (List.mem_cons_of_mem _ member)) qs
      have first := leveled_matches (each p List.mem_cons_self q)
      constructor
      · rintro ⟨ms, met, fits⟩
        obtain ⟨r, one, rest⟩ := Option.bind_eq_some_iff.mp (show (leveled p q (meetShape p q)).bind _ = some ms from met)
        obtain ⟨rs, many, same⟩ := Option.bind_eq_some_iff.mp rest
        obtain rfl := Option.some.inj same
        cases types with
        | nil => exact absurd fits id
        | cons t types =>
          have heads := (first t).mp ⟨r, one, fits.1⟩
          have tails := (later types).mp ⟨rs, many, fits.2⟩
          exact ⟨⟨heads.1, tails.1⟩, ⟨heads.2, tails.2⟩⟩
      · rintro ⟨left, right⟩
        cases types with
        | nil => exact absurd left id
        | cons t types =>
          obtain ⟨r, one, fits⟩ := (first t).mpr ⟨left.1, right.1⟩
          obtain ⟨rs, many, others⟩ := (later types).mpr ⟨left.2, right.2⟩
          refine ⟨r :: rs, ?_, fits, others⟩
          rw [meetItems_cons, one, many]
          rfl

theorem meetShape_any_fits (p : Pattern) (least : Nat) (t : VariantType) :
    (∃ m, meetShape p (any least) = some m ∧ m.Fits t) ↔ p.Fits t ∧ (any least).Fits t := by
  have kept : meetShape p (any least) = some p ∨ ∃ other, p = any other := by
    cases p with
    | any other => exact Or.inr ⟨other, rfl⟩
    | _ => exact Or.inl rfl
  rcases kept with same | ⟨other, rfl⟩
  · constructor
    · rintro ⟨m, met, fits⟩
      exact ⟨Option.some.inj (same.symm.trans met) ▸ fits, trivial⟩
    · exact fun both => ⟨p, same, both.1⟩
  · exact iff_of_true ⟨any least, rfl, trivial⟩ ⟨trivial, trivial⟩

theorem meetShape_fits (p q : Pattern) (t : VariantType) : (∃ m, meetShape p q = some m ∧ m.Fits t) ↔ p.Fits t ∧ q.Fits t := by
  -- over the first pattern, and by the shape of the second
  induction p generalizing q t with
  | any least =>
    constructor
    · rintro ⟨m, met, fits⟩
      obtain rfl := Option.some.inj (show some q = some m from met)
      exact ⟨trivial, fits⟩
    · exact fun both => ⟨q, rfl, both.2⟩
  | leaf levels a =>
    cases q with
    | any least => exact meetShape_any_fits _ least t
    | leaf other b =>
      constructor
      · rintro ⟨m, met, fits⟩
        obtain ⟨x, found, rfl⟩ := Option.map_eq_some_iff.mp (show (a.meet b).map (leaf levels) = some m from met)
        obtain ⟨c, rfl, matched⟩ := fits
        have both := (Leaf.meet_matching a b c).mp ⟨x, found, matched⟩
        exact ⟨⟨c, rfl, both.1⟩, ⟨c, rfl, both.2⟩⟩
      · rintro ⟨⟨c, rfl, left⟩, ⟨d, same, right⟩⟩
        obtain rfl := VariantType.basic.inj same
        obtain ⟨x, found, matched⟩ := (Leaf.meet_matching a b c).mpr ⟨left, right⟩
        exact ⟨leaf levels x, congrArg (Option.map (leaf levels)) found, c, rfl, matched⟩
    | _ => exact apart rfl rfl (by decide) t
  | variant levels =>
    cases q with
    | any least => exact meetShape_any_fits _ least t
    | variant other => exact ⟨fun ⟨m, met, fits⟩ =>
        have same := Option.some.inj (show some (variant levels) = some m from met)
        ⟨same ▸ fits, by subst same; exact fits⟩, fun both => ⟨variant levels, rfl, both.1⟩⟩
    | _ => exact apart rfl rfl (by decide) t
  | array levels e ih =>
    cases q with
    | any least => exact meetShape_any_fits _ least t
    | array other f =>
      constructor
      · rintro ⟨m, met, fits⟩
        obtain ⟨r, found, rfl⟩ := Option.map_eq_some_iff.mp (show (leveled e f (meetShape e f)).map (array levels) = some m from met)
        obtain ⟨u, rfl, matched⟩ := fits
        have both := (leveled_matches (ih f) u).mp ⟨r, found, matched⟩
        exact ⟨⟨u, rfl, both.1⟩, ⟨u, rfl, both.2⟩⟩
      · rintro ⟨⟨u, rfl, left⟩, ⟨v, same, right⟩⟩
        obtain rfl := VariantType.array.inj same
        obtain ⟨r, found, matched⟩ := (leveled_matches (ih f) u).mpr ⟨left, right⟩
        exact ⟨array levels r, congrArg (Option.map (array levels)) found, u, rfl, matched⟩
    | _ => exact apart rfl rfl (by decide) t
  | tuple levels items ih =>
    cases q with
    | any least => exact meetShape_any_fits _ least t
    | tuple other others =>
      constructor
      · rintro ⟨m, met, fits⟩
        obtain ⟨rs, found, rfl⟩ := Option.map_eq_some_iff.mp (show (meetItems items others).map (tuple levels) = some m from met)
        obtain ⟨types, rfl, matched⟩ := fits
        have both := (meetItems_fits ih others types).mp ⟨rs, found, matched⟩
        exact ⟨⟨types, rfl, both.1⟩, ⟨types, rfl, both.2⟩⟩
      · rintro ⟨⟨types, rfl, left⟩, ⟨again, same, right⟩⟩
        obtain rfl := VariantType.tuple.inj same
        obtain ⟨rs, found, matched⟩ := (meetItems_fits ih others types).mpr ⟨left, right⟩
        exact ⟨tuple levels rs, congrArg (Option.map (tuple levels)) found, types, rfl, matched⟩
    | _ => exact apart rfl rfl (by decide) t
  | entry levels key value ih =>
    cases q with
    | any least => exact meetShape_any_fits _ least t
    | entry other otherKey otherValue =>
      constructor
      · rintro ⟨m, met, fits⟩
        obtain ⟨x, keys, rest⟩ := Option.bind_eq_some_iff.mp met
        obtain ⟨r, found, same⟩ := Option.bind_eq_some_iff.mp rest
        obtain rfl := Option.some.inj same
        obtain ⟨k, u, rfl, matching, matched⟩ := fits
        have both := (keyMeet_matching key otherKey k).mp ⟨x, keys, matching⟩
        have values := (leveled_matches (ih otherValue) u).mp ⟨r, found, matched⟩
        exact ⟨⟨k, u, rfl, both.1, values.1⟩, ⟨k, u, rfl, both.2, values.2⟩⟩
      · rintro ⟨⟨k, u, rfl, leftKey, left⟩, ⟨j, v, same, rightKey, right⟩⟩
        obtain ⟨rfl, rfl⟩ := VariantType.dictEntry.inj same
        obtain ⟨x, keys, matching⟩ := (keyMeet_matching key otherKey k).mpr ⟨leftKey, rightKey⟩
        obtain ⟨r, found, matched⟩ := (leveled_matches (ih otherValue) u).mpr ⟨left, right⟩
        refine ⟨entry levels x r, ?_, k, u, rfl, matching, matched⟩
        rw [meetShape_entry, keys, found]
        rfl
    | _ => exact apart rfl rfl (by decide) t

theorem meet_matches (p q : Pattern) (t : VariantType) : (∃ m, meet p q = some m ∧ m.Matches t) ↔ p.Matches t ∧ q.Matches t :=
  leveled_matches (meetShape_fits p q) t

end Pattern

end Xpl.Variant
