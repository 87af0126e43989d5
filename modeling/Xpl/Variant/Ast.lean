import Mathlib.Data.List.Infix
import Mathlib.Data.List.Pairwise
import Xpl.Variant.ParseError
import Xpl.Variant.PatternTypes

/-! Families of patterns: every pattern stands for a type, and patterns that meet in pairs meet all together. -/

set_option autoImplicit false

namespace Xpl.Variant
open Xpl.Library

def VariantType.wrap : Nat → VariantType → VariantType
  | 0, t => t
  | n + 1, t => .maybe (wrap n t)

theorem VariantType.core_self {t : VariantType} (shaped : t.shape ≠ .maybe) : t.maybes = 0 ∧ t.core = t := by
  cases t with
  | maybe element => exact absurd rfl shaped
  | _ => exact ⟨rfl, rfl⟩

theorem VariantType.wrap_core {t : VariantType} (shaped : t.shape ≠ .maybe) (n : Nat) : (wrap n t).maybes = n ∧ (wrap n t).core = t := by
  induction n with
  | zero => exact VariantType.core_self shaped
  | succ n ih => exact ⟨congrArg (· + 1) ih.1, ih.2⟩

namespace Pattern

theorem matches_wrap {p : Pattern} {t : VariantType} (shaped : t.shape ≠ .maybe) (fits : p.Fits t) : p.Matches (t.wrap p.levels.least) := by
  obtain ⟨count, inside⟩ := VariantType.wrap_core shaped p.levels.least
  refine ⟨?_, ?_⟩
  · rw [count]
    exact p.levels.holds_least
  · rwa [inside]

theorem exists_fitsAll {items : List Pattern} (each : ∀ item ∈ items, ∃ t : VariantType, t.shape ≠ .maybe ∧ item.Fits t) :
    ∃ types, FitsAll items types := by
  induction items with
  | nil => exact ⟨[], trivial⟩
  | cons item items ih =>
    obtain ⟨t, shaped, fits⟩ := each item List.mem_cons_self
    obtain ⟨types, others⟩ := ih fun other member => each other (List.mem_cons_of_mem _ member)
    exact ⟨t.wrap item.levels.least :: types, matches_wrap shaped fits, others⟩

theorem exists_fits (p : Pattern) : ∃ t : VariantType, t.shape ≠ .maybe ∧ p.Fits t := by
  induction p with
  | any least => exact ⟨.variant, Shape.noConfusion, trivial⟩
  | leaf levels a =>
    obtain ⟨b, matched⟩ := a.exists_matching
    exact ⟨.basic b, Shape.noConfusion, b, rfl, matched⟩
  | variant levels => exact ⟨.variant, Shape.noConfusion, rfl⟩
  | array levels element ih =>
    obtain ⟨u, shaped, fits⟩ := ih
    exact ⟨.array (u.wrap element.levels.least), Shape.noConfusion, _, rfl, matches_wrap shaped fits⟩
  | tuple levels items ih =>
    obtain ⟨types, fits⟩ := exists_fitsAll ih
    exact ⟨.tuple types, Shape.noConfusion, types, rfl, fits⟩
  | entry levels key value ih =>
    obtain ⟨u, shaped, fits⟩ := ih
    have keyed : ∃ b, keyMatching key b := by
      cases key with
      | none => exact ⟨.string, rfl⟩
      | some a => exact a.exists_matching
    obtain ⟨b, matched⟩ := keyed
    exact ⟨.dictEntry b (u.wrap value.levels.least), Shape.noConfusion, b, _, rfl, matched, matches_wrap shaped fits⟩

theorem exists_matches (p : Pattern) : ∃ t, p.Matches t := by
  obtain ⟨t, shaped, fits⟩ := p.exists_fits
  exact ⟨_, matches_wrap shaped fits⟩

/-! ## Three patterns -/

theorem leveled_isSome (p q : Pattern) (shape : Option Pattern) :
    (leveled p q shape).isSome ↔ (p.levels.meet q.levels).isSome ∧ shape.isSome := by
  unfold leveled
  cases p.levels.meet q.levels with
  | none => simp
  | some levels => cases shape <;> simp

theorem entry_isSome (levels levels' : Levels) (a b : Option Leaf) (p q : Pattern) :
    (meetShape (entry levels a p) (entry levels' b q)).isSome ↔ (keyMeet a b).isSome ∧ (leveled p q (meetShape p q)).isSome := by
  rw [meetShape_entry]
  cases keyMeet a b with
  | none => simp
  | some key => cases leveled p q (meetShape p q) <;> simp

theorem items_isSome (p q : Pattern) (ps qs : List Pattern) :
    (meetItems (p :: ps) (q :: qs)).isSome ↔ (leveled p q (meetShape p q)).isSome ∧ (meetItems ps qs).isSome := by
  rw [meetItems_cons]
  cases leveled p q (meetShape p q) with
  | none => simp
  | some m => cases meetItems ps qs <;> simp

theorem meetShape_withLevels (levels : Levels) (p q : Pattern) : (meetShape (p.withLevels levels) q).isSome = (meetShape p q).isSome := by
  cases p with
  | any least => rfl
  | entry own key value =>
    cases q with
    | entry other otherKey otherValue => exact Bool.eq_iff_iff.mpr ((entry_isSome ..).trans (entry_isSome ..).symm)
    | _ => rfl
  | _ => cases q <;> first | rfl | simp [withLevels, meetShape_leaf, meetShape_array, meetShape_tuple]

theorem leveled_three {p q r m : Pattern}
    (shapes : ∀ s, meetShape p q = some s → (meetShape p r).isSome → (meetShape q r).isSome → (meetShape s r).isSome)
    (first : leveled p q (meetShape p q) = some m) (second : (leveled p r (meetShape p r)).isSome)
    (third : (leveled q r (meetShape q r)).isSome) : (leveled m r (meetShape m r)).isSome := by
  obtain ⟨levels, same, rest⟩ := Option.bind_eq_some_iff.mp first
  obtain ⟨s, shape, again⟩ := Option.bind_eq_some_iff.mp rest
  obtain rfl := Option.some.inj again
  rw [leveled_isSome] at second third ⊢
  have more : s.isAny → levels.more := fun any =>
    Levels.meet_more same (isAny_levels (meetShape_isAny shape any).1) (isAny_levels (meetShape_isAny shape any).2)
  rw [withLevels_levels more, meetShape_withLevels]
  exact ⟨Levels.meet_three same second.1 third.1, shapes s shape second.2 third.2⟩

theorem keyMeet_three {a b c m : Option Leaf} (first : keyMeet a b = some m) (second : (keyMeet a c).isSome) (third : (keyMeet b c).isSome) :
    (keyMeet m c).isSome := by
  cases a with
  | none =>
    obtain rfl := Option.some.inj (show some b = some m from first)
    exact third
  | some a =>
    cases b with
    | none =>
      obtain rfl := Option.some.inj (show some (some a) = some m from first)
      exact second
    | some b =>
      obtain ⟨x, found, rfl⟩ := Option.map_eq_some_iff.mp (show (a.meet b).map some = some m from first)
      cases c with
      | none => rfl
      | some c =>
        simp only [keyMeet, Option.isSome_map] at second third ⊢
        exact Leaf.meet_three found second third

theorem meetItems_three {ps : List Pattern}
    (each : ∀ p ∈ ps, ∀ q r s, meetShape p q = some s → (meetShape p r).isSome → (meetShape q r).isSome → (meetShape s r).isSome)
    {qs rs ms : List Pattern} (first : meetItems ps qs = some ms) (second : (meetItems ps rs).isSome) (third : (meetItems qs rs).isSome) :
    (meetItems ms rs).isSome := by
  -- member by member, by the same fact of the patterns of one position
  induction ps generalizing qs rs ms with
  | nil =>
    cases qs with
    | nil =>
      obtain rfl := Option.some.inj (show some [] = some ms from first)
      exact second
    | cons q qs => exact nomatch (show none = some ms from first)
  | cons p ps ih =>
    cases qs with
    | nil => exact nomatch (show none = some ms from first)
    | cons q qs =>
      cases rs with
      | nil => exact nomatch (show (none : Option (List Pattern)).isSome from second)
      | cons r rs =>
        obtain ⟨m, one, rest⟩ := Option.bind_eq_some_iff.mp (show (leveled p q (meetShape p q)).bind _ = some ms from first)
        obtain ⟨more, many, same⟩ := Option.bind_eq_some_iff.mp rest
        obtain rfl := Option.some.inj same
        rw [items_isSome] at second third ⊢
        have later := ih (fun other member => each other (List.mem_cons_of_mem _ member)) many second.2 third.2
        exact ⟨leveled_three (each p List.mem_cons_self q r) one second.1 third.1, later⟩

theorem meetShape_three (p q r s : Pattern) (first : meetShape p q = some s) (second : (meetShape p r).isSome) (third : (meetShape q r).isSome) :
    (meetShape s r).isSome := by
  have nothing : ¬ (none : Option Pattern).isSome := Bool.false_ne_true
  induction p generalizing q r s with
  | any least =>
    obtain rfl := Option.some.inj (show some q = some s from first)
    exact third
  | leaf levels a =>
    cases q with
    | any least =>
      obtain rfl := Option.some.inj (show some (leaf levels a) = some s from first)
      exact second
    | leaf other b =>
      obtain ⟨x, found, rfl⟩ := Option.map_eq_some_iff.mp (show (a.meet b).map (leaf levels) = some s from first)
      cases r with
      | any least => rfl
      | leaf last c =>
        simp only [meetShape_leaf, Option.isSome_map] at second third ⊢
        exact Leaf.meet_three found second third
      | _ => exact absurd second nothing
    | _ => exact nomatch (show none = some s from first)
  | variant levels =>
    cases q with
    | any least =>
      obtain rfl := Option.some.inj (show some (variant levels) = some s from first)
      exact second
    | variant other =>
      obtain rfl := Option.some.inj (show some (variant levels) = some s from first)
      exact second
    | _ => exact nomatch (show none = some s from first)
  | array levels e ih =>
    cases q with
    | any least =>
      obtain rfl := Option.some.inj (show some (array levels e) = some s from first)
      exact second
    | array other f =>
      obtain ⟨m, found, rfl⟩ := Option.map_eq_some_iff.mp (show (leveled e f (meetShape e f)).map (array levels) = some s from first)
      cases r with
      | any least => rfl
      | array last g =>
        simp only [meetShape_array, Option.isSome_map] at second third ⊢
        exact leveled_three (ih f g) found second third
      | _ => exact absurd second nothing
    | _ => exact nomatch (show none = some s from first)
  | tuple levels items ih =>
    cases q with
    | any least =>
      obtain rfl := Option.some.inj (show some (tuple levels items) = some s from first)
      exact second
    | tuple other others =>
      obtain ⟨ms, found, rfl⟩ := Option.map_eq_some_iff.mp (show (meetItems items others).map (tuple levels) = some s from first)
      cases r with
      | any least => rfl
      | tuple last lasts =>
        simp only [meetShape_tuple, Option.isSome_map] at second third ⊢
        exact meetItems_three ih found second third
      | _ => exact absurd second nothing
    | _ => exact nomatch (show none = some s from first)
  | entry levels key value ih =>
    cases q with
    | any least =>
      obtain rfl := Option.some.inj (show some (entry levels key value) = some s from first)
      exact second
    | entry other otherKey otherValue =>
      obtain ⟨k, keys, rest⟩ := Option.bind_eq_some_iff.mp first
      obtain ⟨m, found, same⟩ := Option.bind_eq_some_iff.mp rest
      obtain rfl := Option.some.inj same
      cases r with
      | any least => rfl
      | entry last lastKey lastValue =>
        rw [entry_isSome] at second third ⊢
        exact ⟨keyMeet_three keys second.1 third.1, leveled_three (ih otherValue lastValue) found second.2 third.2⟩
      | _ => exact absurd second nothing
    | _ => exact nomatch (show none = some s from first)

theorem meet_three {p q r m : Pattern} (first : meet p q = some m) (second : (meet p r).isSome) (third : (meet q r).isSome) :
    (meet m r).isSome :=
  leveled_three (meetShape_three p q r) first second third

/-! ## Lists of patterns -/

def meetAll (p : Pattern) : List Pattern → Option Pattern
  | [] => some p
  | q :: qs => do
    let m ← meet p q
    meetAll m qs

theorem meetAll_matches (p : Pattern) (qs : List Pattern) (t : VariantType) :
    (∃ m, meetAll p qs = some m ∧ m.Matches t) ↔ ∀ q ∈ p :: qs, q.Matches t := by
  induction qs generalizing p with
  | nil => simp [meetAll]
  | cons q qs ih =>
    have both := meet_matches p q t
    constructor
    · rintro ⟨m, met, matched⟩
      obtain ⟨x, first, rest⟩ := Option.bind_eq_some_iff.mp met
      have later := (ih x).mp ⟨m, rest, matched⟩
      obtain ⟨left, right⟩ := both.mp ⟨x, first, later x List.mem_cons_self⟩
      exact List.forall_mem_cons.mpr ⟨left, List.forall_mem_cons.mpr ⟨right, fun y member => later y (List.mem_cons_of_mem _ member)⟩⟩
    · intro all
      obtain ⟨left, others⟩ := List.forall_mem_cons.mp all
      obtain ⟨right, rest⟩ := List.forall_mem_cons.mp others
      obtain ⟨x, first, matched⟩ := both.mpr ⟨left, right⟩
      obtain ⟨m, more, final⟩ := (ih x).mpr (List.forall_mem_cons.mpr ⟨matched, rest⟩)
      refine ⟨m, ?_, final⟩
      rw [meetAll, first]
      exact more

theorem meetAll_isSome (p : Pattern) (qs : List Pattern) (pairs : (p :: qs).Pairwise fun x y => (meet x y).isSome) : (meetAll p qs).isSome := by
  induction qs generalizing p with
  | nil => rfl
  | cons q qs ih =>
    obtain ⟨first, rest⟩ := List.pairwise_cons.mp pairs
    obtain ⟨second, later⟩ := List.pairwise_cons.mp rest
    obtain ⟨m, met⟩ := Option.isSome_iff_exists.mp (first q List.mem_cons_self)
    rw [meetAll, met, some_bind]
    apply ih
    apply List.pairwise_cons.mpr
    exact ⟨fun r member => meet_three met (first r (List.mem_cons_of_mem _ member)) (second r member), later⟩

end Pattern

/-! The tree that the text format is parsed to, and the patterns of its types: the `get_pattern` functions of
gvariant-parser.c.

A node keeps its `source_ref`. A computation has no result where the program reads outside of an array or a
pattern, or where an assertion of it fails.
-/

/-- `AST`, by its classes. A dictionary has as many keys as values; the entry has one of each and `-1` as its `n_children`. -/
inductive Ast where
  | just (sourceRef : SourceRef) (child : Ast)
  | nothing (sourceRef : SourceRef)
  | array (sourceRef : SourceRef) (children : List Ast)
  | tuple (sourceRef : SourceRef) (children : List Ast)
  | variant (sourceRef : SourceRef) (value : Ast)
  | dictionary (sourceRef : SourceRef) (keys values : List Ast)
  | entry (sourceRef : SourceRef) (key value : Ast)
  | string (sourceRef : SourceRef) (string : Bytes)
  | byteString (sourceRef : SourceRef) (string : Bytes)
  | number (sourceRef : SourceRef) (token : Bytes)
  | boolean (sourceRef : SourceRef) (value : Bool)
  | positional (sourceRef : SourceRef) (type : VariantType)
  | typeDecl (sourceRef : SourceRef) (type : VariantType) (child : Ast)

def Ast.sourceRef : Ast → SourceRef
  | .just sourceRef _ => sourceRef
  | .nothing sourceRef => sourceRef
  | .array sourceRef _ => sourceRef
  | .tuple sourceRef _ => sourceRef
  | .variant sourceRef _ => sourceRef
  | .dictionary sourceRef _ _ => sourceRef
  | .entry sourceRef _ _ => sourceRef
  | .string sourceRef _ => sourceRef
  | .byteString sourceRef _ => sourceRef
  | .number sourceRef _ => sourceRef
  | .boolean sourceRef _ => sourceRef
  | .positional sourceRef _ => sourceRef
  | .typeDecl sourceRef _ _ => sourceRef

@[induction_eliminator]
theorem Ast.induction {motive : Ast → Prop} (just : ∀ ref child, motive child → motive (.just ref child))
    (nothing : ∀ ref, motive (.nothing ref))
    (array : ∀ ref children, (∀ child ∈ children, motive child) → motive (.array ref children))
    (tuple : ∀ ref children, (∀ child ∈ children, motive child) → motive (.tuple ref children))
    (variant : ∀ ref value, motive value → motive (.variant ref value))
    (dictionary : ∀ ref keys values, (∀ key ∈ keys, motive key) → (∀ value ∈ values, motive value) →
      motive (.dictionary ref keys values))
    (entry : ∀ ref key value, motive key → motive value → motive (.entry ref key value))
    (string : ∀ ref string, motive (.string ref string)) (byteString : ∀ ref string, motive (.byteString ref string))
    (number : ∀ ref token, motive (.number ref token)) (boolean : ∀ ref value, motive (.boolean ref value))
    (positional : ∀ ref type, motive (.positional ref type))
    (typeDecl : ∀ ref type child, motive child → motive (.typeDecl ref type child)) (ast : Ast) : motive ast :=
  @Ast.rec motive (fun asts => ∀ ast ∈ asts, motive ast) just nothing array tuple variant dictionary entry string byteString
    number boolean positional typeDecl (fun _ member => nomatch member) (fun _ _ first rest => List.forall_mem_cons.mpr ⟨first, rest⟩) ast

/-- A computation over the tree, with an error for the user. -/
abbrev Inferring (α : Type) := ExceptT ParseError Option α

def stuck {α : Type} : Inferring α := ExceptT.mk none

def chars (s : String) : Bytes := s.toList.map ascii

def astSetError {α : Type} (location : SourceRef) (other : Option SourceRef) (code : ParseErrorCode) (text : String) : Inferring α :=
  throw { location, other, code, text }

/-- The search for the child that `tmp`, the pattern of the child at `i`, does not coalesce with. -/
def findConflict (i : SourceRef) (tmp : Bytes) : List (SourceRef × Inferring Bytes) → Inferring Bytes
  | [] => astSetError i none .noCommonType "unable to find a common type"
  | (j, pattern) :: array =>
    match pattern.run with
    | some (.ok tmp2) => do
      match ← ExceptT.lift (patternCoalesce tmp tmp2) with
      | some _ => findConflict i tmp array
      | none => astSetError j (some i) .noCommonType "unable to find a common type"
    -- `xassert (tmp2 != NULL)`
    | _ => stuck

/-- The loop of `ast_array_get_pattern` from a child on, with the children before it. -/
def coalesceChildren (before : List (SourceRef × Inferring Bytes)) (pattern : Bytes) : List (SourceRef × Inferring Bytes) → Inferring Bytes
  | [] => return pattern
  | child :: array => do
    let tmp ← child.2
    match ← ExceptT.lift (patternCoalesce pattern tmp) with
    | some merged => coalesceChildren (before ++ [child]) merged array
    | none => findConflict child.1 tmp before

def astArrayGetPattern : List (SourceRef × Inferring Bytes) → Inferring Bytes
  | [] => stuck
  | child :: array => do
    let pattern ← child.2
    coalesceChildren [child] pattern array

def tupleParts : List (SourceRef × Inferring Bytes) → Inferring Bytes
  | [] => return []
  | child :: children => do
    let part ← child.2
    let parts ← tupleParts children
    return part ++ parts

/-- `strchr ("bynqiuxthdsogNS", key_char)`, which finds the terminator too. -/
def isKeyChar (c : UInt8) : Bool := c ∈ chars "bynqiuxthdsogNS" || c = 0

def patternByte (pattern : Bytes) (i : Nat) : UInt8 := pattern.getD i 0

/-- The `key_char` of a pattern for keys; there are no maybe keys. -/
def keyCharOf (keyPattern : Bytes) : UInt8 :=
  if patternByte keyPattern 0 = ascii 'M' then patternByte keyPattern 1 else patternByte keyPattern 0

/-- What `dictionary_get_pattern` does with the pattern of the keys; the pattern of the first value comes after it. -/
def dictionaryPattern (sourceRef : SourceRef) (opening : Bytes) (keys : List (SourceRef × Inferring Bytes)) (value : Inferring Bytes) :
    Inferring Bytes := do
  let keyPattern ← astArrayGetPattern keys
  if isKeyChar (keyCharOf keyPattern) then do
    let valuePattern ← value
    return ascii 'M' :: (opening ++ ascii '{' :: keyCharOf keyPattern :: (valuePattern ++ [ascii '}']))
  else astSetError sourceRef none .basicTypeExpected "dictionary keys must have basic types"

def numberGetPattern (token : Bytes) : Bytes :=
  if ascii '.' ∈ token ∨ (¬ chars "0x" <+: token ∧ ascii 'e' ∈ token) ∨ chars "inf" <:+: token ∨ chars "nan" <:+: token then
    chars "Md"
  else chars "MN"

mutual
def astGetPattern : Ast → Inferring Bytes
  | .just _ child => do
    let childPattern ← astGetPattern child
    return ascii 'm' :: childPattern
  | .nothing _ => return chars "m*"
  | .array _ children =>
    if children.length = 0 then return chars "Ma*"
    else do
      let pattern ← astArrayGetPattern (astPatterns children)
      return chars "Ma" ++ pattern
  | .tuple _ children => do
    let parts ← tupleParts (astPatterns children)
    return chars "M(" ++ parts ++ chars ")"
  | .variant _ _ => return chars "Mv"
  | .dictionary sourceRef keys values =>
    if keys.length = 0 then return chars "Ma{**}"
    else dictionaryPattern sourceRef (chars "a") (astPatterns keys)
      (match astPatterns values with
        | [] => stuck
        | value :: _ => value.2)
  | .entry sourceRef key value => dictionaryPattern sourceRef [] [(key.sourceRef, astGetPattern key)] (astGetPattern value)
  | .string _ _ => return chars "MS"
  | .byteString _ _ => return chars "May"
  | .number _ token => return numberGetPattern token
  | .boolean _ _ => return chars "Mb"
  | .positional _ type => return type.string
  | .typeDecl _ type _ => return type.string

/-- The children of a node, by their places and patterns. -/
def astPatterns : List Ast → List (SourceRef × Inferring Bytes)
  | [] => []
  | ast :: asts => (ast.sourceRef, astGetPattern ast) :: astPatterns asts
end

/-! The patterns of the tree are strings of `Pattern`, and coalescing them intersects the types that they match. -/

section Inferring

variable {α β : Type} {x : Inferring α} {f : α → Inferring β}

theorem run_bind_ok {b : β} : (x >>= f).run = some (.ok b) ↔ ∃ a, x.run = some (.ok a) ∧ (f a).run = some (.ok b) := by
  rw [ExceptT.run_bind]
  constructor
  · intro found
    obtain ⟨result, first, rest⟩ := Option.bind_eq_some_iff.mp found
    cases result with
    | error e => exact nomatch (show some (Except.error e) = some (Except.ok b) from rest)
    | ok a => exact ⟨a, first, rest⟩
  · rintro ⟨a, first, rest⟩
    rw [first]
    exact rest

theorem run_bind_error {e : ParseError} :
    (x >>= f).run = some (.error e) ↔ x.run = some (.error e) ∨ ∃ a, x.run = some (.ok a) ∧ (f a).run = some (.error e) := by
  rw [ExceptT.run_bind]
  constructor
  · intro found
    obtain ⟨result, first, rest⟩ := Option.bind_eq_some_iff.mp found
    cases result with
    | error e' =>
      obtain rfl := Except.error.inj (Option.some.inj (show some (Except.error e') = some (Except.error e) from rest))
      exact Or.inl first
    | ok a => exact Or.inr ⟨a, first, rest⟩
  · rintro (first | ⟨a, first, rest⟩)
    · rw [first]
      rfl
    · rw [first]
      exact rest

theorem run_lift_bind {y : Option α} {a : α} (found : y = some a) : (ExceptT.lift y >>= f).run = (f a).run := by
  subst found
  rfl

end Inferring

/-! ## The strings of the tree -/

def IsPattern (s : Bytes) : Prop := ∃ p : Pattern, s = p.string

theorem VariantType.strings_pattern {types : List VariantType} (each : ∀ t ∈ types, IsPattern t.string) :
    ∃ items, TypeExpr.strings (VariantType.toExprs types) = Pattern.strings items := by
  induction types with
  | nil => exact ⟨[], rfl⟩
  | cons t types ih =>
    obtain ⟨p, first⟩ := each t List.mem_cons_self
    obtain ⟨items, rest⟩ := ih fun other member => each other (List.mem_cons_of_mem _ member)
    refine ⟨p :: items, ?_⟩
    rw [VariantType.toExprs, TypeExpr.strings, rest, Pattern.strings, ← first]
    rfl

theorem VariantType.string_pattern (t : VariantType) : IsPattern t.string := by
  let exact : Levels := { least := 0, more := false }
  induction t with
  | basic b => exact ⟨.leaf exact (.basic b), by rw [Pattern.string]; rfl⟩
  | variant => exact ⟨.variant exact, by rw [Pattern.string]; rfl⟩
  | maybe element ih =>
    obtain ⟨p, same⟩ := ih
    refine ⟨p.withLevels p.levels.up, ?_⟩
    rw [p.withLevels_up, p.withLevels_self, ← same]
    rfl
  | array element ih =>
    obtain ⟨p, same⟩ := ih
    refine ⟨.array exact p, ?_⟩
    rw [Pattern.string, ← same]
    rfl
  | tuple items ih =>
    obtain ⟨ps, same⟩ := strings_pattern ih
    refine ⟨.tuple exact ps, ?_⟩
    rw [Pattern.string, ← same]
    rfl
  | dictEntry key value ih =>
    obtain ⟨p, same⟩ := ih
    refine ⟨.entry exact (some (.basic key)) p, ?_⟩
    rw [Pattern.string, ← same]
    rfl

theorem patternCoalesce_string (p q : Pattern) : patternCoalesce p.string q.string = some ((p.meet q).map Pattern.string) := by
  have whole := Pattern.merge_string p q [] []
  rw [List.append_nil, List.append_nil] at whole
  rw [patternCoalesce_merge, whole]
  cases met : p.meet q with
  | none => rfl
  | some m =>
    have left_over : Pattern.belowMeet (some m) [] [] = some (some m.string) :=
      congrArg (fun s => some (some s)) (List.append_nil _)
    have merged : merge p.string q.string = some (some m.string) := by rw [whole, met, left_over]
    have some_byte : p.string ≠ [] := by
      obtain ⟨c, tail, front, _⟩ := p.string_front []
      rw [List.append_nil] at front
      rw [front]
      exact List.cons_ne_nil _ _
    have fits : ([] : Bytes).length + m.string.length + 1 ≤ p.string.length + q.string.length := by
      have bound := merge_length merged some_byte
      rw [List.length_nil]
      omega
    rw [left_over]
    exact if_pos fits

/-- The pattern that `ast_get_pattern` gives for a tree. -/
def HasPattern (ast : Ast) (s : Bytes) : Prop := (astGetPattern ast).run = some (.ok s)

/-- A child of a node whose pattern, when there is one, is the string of a `Pattern`. -/
def Proper (child : SourceRef × Inferring Bytes) : Prop := ∀ s, child.2.run = some (.ok s) → IsPattern s

theorem coalesceChildren_pattern {array before : List (SourceRef × Inferring Bytes)} {pattern s : Bytes}
    (proper : ∀ child ∈ array, Proper child) (shaped : IsPattern pattern)
    (found : (coalesceChildren before pattern array).run = some (.ok s)) : IsPattern s := by
  induction array generalizing before pattern with
  | nil =>
    obtain rfl := Except.ok.inj (Option.some.inj (show some (Except.ok pattern) = some (Except.ok s) from found))
    exact shaped
  | cons child array ih =>
    obtain ⟨tmp, first, rest⟩ := run_bind_ok.mp found
    obtain ⟨p, rfl⟩ := shaped
    obtain ⟨q, rfl⟩ := proper child List.mem_cons_self tmp first
    rw [run_lift_bind (patternCoalesce_string p q)] at rest
    cases met : p.meet q with
    | some m =>
      rw [met] at rest
      exact ih (fun other member => proper other (List.mem_cons_of_mem _ member)) ⟨m, rfl⟩ rest
    | none =>
      rw [met] at rest
      have conflict : ∀ array, (findConflict child.1 q.string array).run ≠ some (.ok s) := by
        intro array
        induction array with
        | nil => exact fun same => nomatch (show some (Except.error _) = some (Except.ok s) from same)
        | cons other array ih =>
          intro same
          rw [findConflict] at same
          split at same
          · obtain ⟨merged, _, last⟩ := run_bind_ok.mp same
            cases merged with
            | some _ => exact ih last
            | none => exact nomatch (show some (Except.error _) = some (Except.ok s) from last)
          · exact nomatch (show none = some (Except.ok s) from same)
      exact absurd rest (conflict before)

theorem astArrayGetPattern_pattern {array : List (SourceRef × Inferring Bytes)} {s : Bytes} (proper : ∀ child ∈ array, Proper child)
    (found : (astArrayGetPattern array).run = some (.ok s)) : IsPattern s := by
  cases array with
  | nil => exact nomatch (show none = some (Except.ok s) from found)
  | cons child array =>
    obtain ⟨pattern, first, rest⟩ := run_bind_ok.mp found
    exact coalesceChildren_pattern (fun other member => proper other (List.mem_cons_of_mem _ member))
      (proper child List.mem_cons_self pattern first) rest

theorem tupleParts_pattern {children : List (SourceRef × Inferring Bytes)} {s : Bytes} (proper : ∀ child ∈ children, Proper child)
    (found : (tupleParts children).run = some (.ok s)) : ∃ items, s = Pattern.strings items := by
  induction children generalizing s with
  | nil =>
    obtain rfl := Except.ok.inj (Option.some.inj (show some (Except.ok []) = some (Except.ok s) from found))
    exact ⟨[], rfl⟩
  | cons child children ih =>
    obtain ⟨part, first, rest⟩ := run_bind_ok.mp found
    obtain ⟨parts, others, same⟩ := run_bind_ok.mp rest
    obtain rfl := Except.ok.inj (Option.some.inj (show some (Except.ok (part ++ parts)) = some (Except.ok s) from same))
    obtain ⟨p, rfl⟩ := proper child List.mem_cons_self part first
    obtain ⟨items, rfl⟩ := ih (fun other member => proper other (List.mem_cons_of_mem _ member)) others
    exact ⟨p :: items, rfl⟩

theorem keyCharOf_string (p : Pattern) : keyCharOf p.string ≠ 0 := by
  have choose : ∀ c rest, c ≠ ascii 'M' → keyCharOf (c :: rest) = c := fun c rest other => if_neg other
  cases any : p.isAny with
  | true =>
    cases p with
    | any least =>
      cases least with
      | zero => exact (by decide : keyCharOf [ascii '*'] ≠ 0)
      | succ least =>
        change keyCharOf (ascii 'm' :: _) ≠ 0
        rw [choose _ _ (by decide)]
        decide
    | _ => exact nomatch any
  | false =>
    have body : ∃ c tail, p.body = c :: tail ∧ c ≠ ascii 'M' ∧ c ≠ 0 := by
      cases p with
      | any least => exact nomatch any
      | leaf levels a =>
        refine ⟨a.char, [], rfl, ?_⟩
        cases a with
        | basic b => cases b <;> decide
        | _ => decide
      | _ => exact ⟨_, _, rfl, by decide⟩
    obtain ⟨c, tail, head, other, some_char⟩ := body
    rw [Pattern.string_body any, head]
    obtain ⟨least, more⟩ := p.levels
    cases least with
    | zero =>
      cases more with
      | false =>
        rw [show Levels.string { least := 0, more := false } ++ c :: tail = c :: tail from rfl, choose _ _ other]
        exact some_char
      | true => exact some_char
    | succ least =>
      change keyCharOf (ascii 'm' :: _) ≠ 0
      rw [choose _ _ (by decide)]
      decide

theorem isKeyChar_leaf {c : UInt8} (key : isKeyChar c) (some_char : c ≠ 0) : ∃ a : Leaf, c = a.char := by
  have letters : ∀ x ∈ chars "bynqiuxthdsogNS", x = Leaf.number.char ∨ x = Leaf.string.char ∨ (Basic.ofChar x).isSome := by decide +kernel
  have member : c ∈ chars "bynqiuxthdsogNS" := by
    rcases Bool.or_eq_true_iff.mp key with member | zero
    · exact of_decide_eq_true member
    · exact absurd (of_decide_eq_true zero) some_char
  rcases letters c member with number | string | basic
  · exact ⟨.number, number⟩
  · exact ⟨.string, string⟩
  · obtain ⟨b, found⟩ := Option.isSome_iff_exists.mp basic
    exact ⟨.basic b, (Basic.char_of_ofChar found).symm⟩

theorem dictionaryPattern_pattern {ref : SourceRef} {opening : Bytes} {keys : List (SourceRef × Inferring Bytes)}
    {value : Inferring Bytes} {s : Bytes} (properKeys : ∀ key ∈ keys, Proper key) (properValue : Proper (ref, value))
    (found : (dictionaryPattern ref opening keys value).run = some (.ok s)) :
    ∃ (a : Leaf) (p : Pattern), s = ascii 'M' :: (opening ++ ascii '{' :: a.char :: (p.string ++ [ascii '}'])) := by
  obtain ⟨keyPattern, first, rest⟩ := run_bind_ok.mp found
  obtain ⟨p, rfl⟩ := astArrayGetPattern_pattern properKeys first
  split at rest
  · rename_i key
    obtain ⟨valuePattern, second, same⟩ := run_bind_ok.mp rest
    obtain ⟨q, rfl⟩ := properValue valuePattern second
    obtain ⟨a, known⟩ := isKeyChar_leaf key (keyCharOf_string p)
    refine ⟨a, q, ?_⟩
    rw [← known]
    exact (Except.ok.inj (Option.some.inj same)).symm
  · exact nomatch (show some (Except.error _) = some (Except.ok s) from rest)

theorem astPatterns_proper {asts : List Ast} (each : ∀ ast ∈ asts, ∀ s, HasPattern ast s → IsPattern s) :
    ∀ child ∈ astPatterns asts, Proper child := by
  induction asts with
  | nil => exact fun child member => nomatch (show child ∈ [] from member)
  | cons ast asts ih =>
    rw [astPatterns, List.forall_mem_cons]
    exact ⟨each ast List.mem_cons_self, ih fun other member => each other (List.mem_cons_of_mem _ member)⟩

theorem hasPattern_return {s s' : Bytes} (found : (pure s : Inferring Bytes).run = some (.ok s')) : s' = s :=
  (Except.ok.inj (Option.some.inj (show some (Except.ok s) = some (Except.ok s') from found))).symm

theorem HasPattern.isPattern {ast : Ast} {s : Bytes} (found : HasPattern ast s) : IsPattern s := by
  let open_ended : Levels := { least := 0, more := true }
  -- over the syntax tree: each node builds its pattern from those of its children
  induction ast generalizing s with
  | just ref child ih =>
    obtain ⟨childPattern, first, same⟩ := run_bind_ok.mp (show (astGetPattern child >>= _).run = _ from found)
    obtain ⟨p, rfl⟩ := ih first
    refine ⟨p.withLevels p.levels.up, ?_⟩
    rw [p.withLevels_up, p.withLevels_self]
    exact hasPattern_return same
  | nothing ref => exact ⟨.any 1, by rw [hasPattern_return found, Pattern.string]; rfl⟩
  | array ref children ih =>
    rw [HasPattern, astGetPattern] at found
    split at found
    · exact ⟨.array open_ended (.any 0), by rw [hasPattern_return found, Pattern.string, Pattern.string]; rfl⟩
    · obtain ⟨pattern, first, same⟩ := run_bind_ok.mp found
      obtain ⟨p, rfl⟩ := astArrayGetPattern_pattern (astPatterns_proper fun child member s => ih child member) first
      refine ⟨.array open_ended p, ?_⟩
      rw [hasPattern_return same, Pattern.string]
      rfl
  | tuple ref children ih =>
    obtain ⟨parts, first, same⟩ := run_bind_ok.mp (show (tupleParts (astPatterns children) >>= _).run = _ from found)
    obtain ⟨items, rfl⟩ := tupleParts_pattern (astPatterns_proper fun child member s => ih child member) first
    refine ⟨.tuple open_ended items, ?_⟩
    rw [hasPattern_return same, Pattern.string]
    rfl
  | variant ref value => exact ⟨.variant open_ended, by rw [hasPattern_return found, Pattern.string]; rfl⟩
  | dictionary ref keys values keysIH valuesIH =>
    rw [HasPattern, astGetPattern] at found
    split at found
    · exact ⟨.array open_ended (.entry { least := 0, more := false } none (.any 0)), by
        rw [hasPattern_return found, Pattern.string, Pattern.string, Pattern.string]; rfl⟩
    · have values_proper := astPatterns_proper fun value member s => valuesIH value member
      obtain ⟨a, p, rfl⟩ := dictionaryPattern_pattern (astPatterns_proper fun key member s => keysIH key member) (by
        intro t given
        split at given
        · cases (show none = some (Except.ok t) from given)
        · rename_i value others front
          exact values_proper value (front ▸ List.mem_cons_self) t given) found
      refine ⟨.array open_ended (.entry { least := 0, more := false } (some a) p), ?_⟩
      rfl
  | entry ref key value keyIH valueIH =>
    have key_proper : ∀ child ∈ [(key.sourceRef, astGetPattern key)], Proper child := by
      rintro child member t given
      obtain rfl := List.mem_singleton.mp member
      exact keyIH given
    obtain ⟨a, p, rfl⟩ := dictionaryPattern_pattern key_proper (fun t given => valueIH given) found
    refine ⟨.entry open_ended (some a) p, ?_⟩
    rfl
  | string ref string => exact ⟨.leaf open_ended .string, by rw [hasPattern_return found, Pattern.string]; rfl⟩
  | byteString ref string =>
    exact ⟨.array open_ended (.leaf { least := 0, more := false } (.basic .byte)), by
      rw [hasPattern_return found, Pattern.string, Pattern.string]; rfl⟩
  | number ref token =>
    have same := hasPattern_return found
    unfold numberGetPattern at same
    split at same
    · exact ⟨.leaf open_ended (.basic .double), by rw [same, Pattern.string]; rfl⟩
    · exact ⟨.leaf open_ended .number, by rw [same, Pattern.string]; rfl⟩
  | boolean ref value => exact ⟨.leaf open_ended (.basic .boolean), by rw [hasPattern_return found, Pattern.string]; rfl⟩
  | positional ref type =>
    rw [hasPattern_return found]
    exact type.string_pattern
  | typeDecl ref type child ih =>
    rw [hasPattern_return found]
    exact type.string_pattern

/-! ## The types that coalesced patterns match -/

/-- A definite type matches the result of `pattern_coalesce` when it matches both patterns. The result is `NULL` when
no definite type does, and fits with its terminator in the memory that the program takes for it. -/
theorem patternCoalesce_intersects {first second : Ast} {left right : Bytes} (leftPattern : HasPattern first left)
    (rightPattern : HasPattern second right) :
    ∃ result, patternCoalesce left right = some result ∧
      (∀ t : VariantType, (∃ r, result = some r ∧ PatternMatches r t.string) ↔
        PatternMatches left t.string ∧ PatternMatches right t.string) ∧
      (result = none ↔ ¬ ∃ t : VariantType, PatternMatches left t.string ∧ PatternMatches right t.string) ∧
      ∀ r, result = some r → r.length + 1 ≤ left.length + right.length := by
  obtain ⟨p, rfl⟩ := leftPattern.isPattern
  obtain ⟨q, rfl⟩ := rightPattern.isPattern
  have matched : ∀ t : VariantType, (∃ r, (p.meet q).map Pattern.string = some r ∧ PatternMatches r t.string) ↔
      PatternMatches p.string t.string ∧ PatternMatches q.string t.string := by
    intro t
    rw [p.matches_iff, q.matches_iff, ← Pattern.meet_matches]
    constructor
    · rintro ⟨r, found, same⟩
      obtain ⟨m, met, rfl⟩ := Option.map_eq_some_iff.mp found
      exact ⟨m, met, m.matches_iff t |>.mp same⟩
    · rintro ⟨m, met, same⟩
      exact ⟨m.string, congrArg (Option.map Pattern.string) met, m.matches_iff t |>.mpr same⟩
  refine ⟨_, patternCoalesce_string p q, matched, ?_, ?_⟩
  · constructor
    · rintro nothing ⟨t, both⟩
      obtain ⟨r, found, _⟩ := (matched t).mpr both
      exact nomatch nothing.symm.trans found
    · intro nothing
      cases met : p.meet q with
      | none => rfl
      | some m =>
        obtain ⟨t, holds⟩ := m.exists_matches
        have both := (matched t).mp ⟨m.string, congrArg (Option.map Pattern.string) met, (m.matches_iff t).mpr holds⟩
        exact absurd ⟨t, both⟩ nothing
  · intro r found
    have whole := patternCoalesce_string p q
    rw [found, patternCoalesce_merge] at whole
    cases merged : merge p.string q.string with
    | none =>
      rw [merged] at whole
      exact nomatch (show none = some (some r) from whole)
    | some out =>
      cases out with
      | none =>
        rw [merged] at whole
        exact nomatch (show some none = some (some r) from whole)
      | some out =>
        rw [merged] at whole
        change (if ([] : Bytes).length + out.length + 1 ≤ p.string.length + q.string.length then some (some ([] ++ out)) else none) = _ at whole
        split at whole
        · rename_i fits
          obtain rfl : out = r := Option.some.inj (Option.some.inj whole)
          rwa [List.length_nil, Nat.zero_add] at fits
        · exact nomatch whole

/-- `(1, nothing)` and `(@y 1, just [])` -/
theorem patternCoalesce_intersects_tuples :
    let left := chars "M(MNm*)"
    let right := chars "M(ymMa*)"
    ∃ result, patternCoalesce left right = some result ∧
      (∀ t : VariantType, (∃ r, result = some r ∧ PatternMatches r t.string) ↔
        PatternMatches left t.string ∧ PatternMatches right t.string) ∧
      (result = none ↔ ¬ ∃ t : VariantType, PatternMatches left t.string ∧ PatternMatches right t.string) ∧
      ∀ r, result = some r → r.length + 1 ≤ left.length + right.length := by
  intro left right
  let here : SourceRef := { start := 0, stop := 1 }
  exact @patternCoalesce_intersects (.tuple here [.number here (chars "1"), .nothing here])
    (.tuple here [.typeDecl here (.basic .byte) (.number here (chars "1")), .just here (.array here [])]) left right rfl rfl

end Xpl.Variant
