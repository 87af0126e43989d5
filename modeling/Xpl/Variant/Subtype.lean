import Mathlib.Data.List.Forall2
import Xpl.Variant.TypeString

/-! Subtyping of type strings: the two-cursor text scan against the structural
relation on trees. -/

set_option autoImplicit false

namespace Xpl.Variant
open Xpl.Library
variable {t s : TypeExpr}

/-- The loop over the supertype string; the second argument is the cursor into
the type string. -/
def subtypeScan : Bytes → Bytes → Bool
  | [], _ => true
  | supertypeChar :: supertype, type =>
    if type.head? = some supertypeChar then subtypeScan supertype (type.drop 1)
    else if type.head? = some (ascii ')') then false
    else if supertypeChar = ascii 'r' then
      xvariantTypeIsTuple type && subtypeScan supertype (type.drop (xvariantTypeGetStringLength type))
    else if supertypeChar = ascii '*' then
      subtypeScan supertype (type.drop (xvariantTypeGetStringLength type))
    else if supertypeChar = ascii '?' then
      xvariantTypeIsBasic type && subtypeScan supertype (type.drop (xvariantTypeGetStringLength type))
    else false

def xvariantTypeIsSubtypeOf (type supertype : Bytes) : Bool :=
  subtypeScan (supertype.take (xvariantTypeGetStringLength supertype)) type

/-- A key is kept or replaced by `?`. -/
def KeyGeneralises (key other : Option Basic) : Prop := other = key ∨ other = none

/-- `Generalises t s`: `s` arises from `t` by replacing complete sub-types with
`*`, basic ones with `?` and tuples with `r`. -/
inductive Generalises : TypeExpr → TypeExpr → Prop where
  | any (t : TypeExpr) : Generalises t .any
  | anyBasic : Generalises .anyBasic .anyBasic
  | basicAny (b : Basic) : Generalises (.basic b) .anyBasic
  | anyTuple : Generalises .anyTuple .anyTuple
  | tupleAny (items : List TypeExpr) : Generalises (.tuple items) .anyTuple
  | basic (b : Basic) : Generalises (.basic b) (.basic b)
  | variant : Generalises .variant .variant
  | maybe {t s : TypeExpr} : Generalises t s → Generalises (.maybe t) (.maybe s)
  | array {t s : TypeExpr} : Generalises t s → Generalises (.array t) (.array s)
  | tuple {ts ss : List TypeExpr} : List.Forall₂ Generalises ts ss → Generalises (.tuple ts) (.tuple ss)
  | dictEntry {key other : Option Basic} {t s : TypeExpr} : KeyGeneralises key other → Generalises t s →
      Generalises (.dictEntry key t) (.dictEntry other s)

theorem Generalises.refl (t : TypeExpr) : Generalises t t := by
  induction t with
  | basic b => exact .basic b
  | variant => exact .variant
  | any => exact .any _
  | anyBasic => exact .anyBasic
  | anyTuple => exact .anyTuple
  | maybe element ih => exact .maybe ih
  | array element ih => exact .array ih
  | tuple items ih => exact .tuple (List.forall₂_same.mpr ih)
  | dictEntry key value ih => exact .dictEntry (Or.inl rfl) ih

theorem KeyGeneralises.trans {key other third : Option Basic} (first : KeyGeneralises key other)
    (second : KeyGeneralises other third) : KeyGeneralises key third := by
  rcases second with rfl | rfl
  · exact first
  · exact Or.inr rfl

theorem forall₂_trans_of_mem {ts ss us : List TypeExpr} (first : List.Forall₂ Generalises ts ss)
    (second : List.Forall₂ Generalises ss us)
    (each : ∀ s ∈ ss, ∀ t u, Generalises t s → Generalises s u → Generalises t u) :
    List.Forall₂ Generalises ts us := by
  induction first generalizing us with
  | nil => cases second; exact .nil
  | cons here rest ih =>
    cases second with
    | cons next others =>
      exact .cons (each _ List.mem_cons_self _ _ here next)
        (ih others fun s member => each s (List.mem_cons_of_mem _ member))

theorem Generalises.trans {u : TypeExpr} (first : Generalises t s) (second : Generalises s u) :
    Generalises t u := by
  induction s generalizing t u with
  | basic b => cases first; exact second
  | variant => cases first; exact second
  | any => cases second; exact .any t
  | anyBasic =>
    cases second with
    | any => exact .any t
    | anyBasic => exact first
  | anyTuple =>
    cases second with
    | any => exact .any t
    | anyTuple => exact first
  | maybe element ih =>
    cases first with
    | maybe inner =>
      cases second with
      | any => exact .any _
      | maybe outer => exact .maybe (ih inner outer)
  | array element ih =>
    cases first with
    | array inner =>
      cases second with
      | any => exact .any _
      | array outer => exact .array (ih inner outer)
  | tuple items ih =>
    cases first with
    | tuple inner =>
      cases second with
      | any => exact .any _
      | tupleAny => exact .tupleAny _
      | tuple outer => exact .tuple (forall₂_trans_of_mem inner outer fun s member _ _ => ih s member)
  | dictEntry key value ih =>
    cases first with
    | dictEntry keys inner =>
      cases second with
      | any => exact .any _
      | dictEntry others outer => exact .dictEntry (keys.trans others) (ih inner outer)

theorem KeyGeneralises.antisymm {key other : Option Basic} (first : KeyGeneralises key other)
    (second : KeyGeneralises other key) : key = other := by
  rcases first with rfl | rfl
  · rfl
  · rcases second with same | same <;> exact same

theorem forall₂_antisymm_of_mem {ts ss : List TypeExpr} (first : List.Forall₂ Generalises ts ss)
    (second : List.Forall₂ Generalises ss ts)
    (each : ∀ t ∈ ts, ∀ s, Generalises t s → Generalises s t → t = s) : ts = ss := by
  induction first with
  | nil => rfl
  | cons here rest ih =>
    cases second with
    | cons back others =>
      rw [each _ List.mem_cons_self _ here back,
        ih others fun t member => each t (List.mem_cons_of_mem _ member)]

theorem Generalises.antisymm (first : Generalises t s) (second : Generalises s t) : t = s := by
  induction t generalizing s with
  | maybe element ih =>
    cases first with
    | any => cases second
    | maybe inner => cases second with | maybe outer => rw [ih inner outer]
  | array element ih =>
    cases first with
    | any => cases second
    | array inner => cases second with | array outer => rw [ih inner outer]
  | tuple items ih =>
    cases first with
    | any | tupleAny => cases second
    | tuple inner =>
      cases second with
      | tuple outer => rw [forall₂_antisymm_of_mem inner outer fun t member _ => ih t member]
  | dictEntry key value ih =>
    cases first with
    | any => cases second
    | dictEntry keys inner =>
      cases second with
      | dictEntry others outer => rw [keys.antisymm others, ih inner outer]
  | basic _ | variant | any | anyBasic | anyTuple => cases first <;> first | rfl | cases second

/-- Only indefinite types have proper subtypes. -/
theorem Generalises.eq_of_definite (s : VariantType) (h : Generalises t s.toExpr) :
    t = s.toExpr := by
  induction s generalizing t with
  | basic b => cases h; rfl
  | variant => cases h; rfl
  | maybe element ih => cases h with | maybe inner => rw [ih inner, VariantType.toExpr]
  | array element ih => cases h with | array inner => rw [ih inner, VariantType.toExpr]
  | dictEntry key value ih =>
    cases h with
    | dictEntry keys inner =>
      rcases keys with same | absurd
      · rw [ih inner, VariantType.toExpr, same]
      · cases absurd
  | tuple items ih =>
    cases h with
    | tuple inner =>
      congr 1
      rw [VariantType.toExprs_eq_map] at inner ⊢
      rw [List.forall₂_map_right_iff] at inner
      induction inner with
      | nil => rfl
      | cons here rest tail =>
        rw [List.map_cons, ih _ List.mem_cons_self here,
          tail fun item member => ih item (List.mem_cons_of_mem _ member)]

/-! ## The scan decides the relation -/

def TypeExpr.headChar : TypeExpr → UInt8
  | .basic b => b.char
  | .variant => ascii 'v'
  | .any => ascii '*'
  | .anyBasic => ascii '?'
  | .anyTuple => ascii 'r'
  | .maybe _ => ascii 'm'
  | .array _ => ascii 'a'
  | .tuple _ => ascii '('
  | .dictEntry _ _ => ascii '{'

theorem TypeExpr.string_eq_headChar (t : TypeExpr) : t.string = t.headChar :: t.string.tail := by
  cases t <;> rfl

attribute [local simp] TypeExpr.headChar

theorem TypeExpr.headChar_ne_close (t : TypeExpr) : t.headChar ≠ ascii ')' ∧ t.headChar ≠ ascii '}' := by
  cases t with
  | basic b => cases b <;> decide
  | _ => exact ⟨by simp [ascii], by simp [ascii]⟩

theorem TypeExpr.eq_of_headChar_wildcard {w : TypeExpr} (wild : w = .any ∨ w = .anyBasic ∨ w = .anyTuple)
    (same : t.headChar = w.headChar) : t = w := by
  rcases wild with rfl | rfl | rfl <;> cases t with
  | basic b => exact absurd same (by cases b <;> decide)
  | any | anyBasic | anyTuple => first | rfl | exact absurd same (by decide)
  | _ => simp [ascii] at same

theorem drop_string (t : TypeExpr) (rest : Bytes) :
    (t.string ++ rest).drop (xvariantTypeGetStringLength (t.string ++ rest)) = rest := by
  rw [xvariantTypeGetStringLength_string, List.drop_left]

theorem head?_string (t : TypeExpr) (rest : Bytes) : (t.string ++ rest).head? = some t.headChar := by
  rw [t.string_eq_headChar]
  rfl

theorem subtypeScan_same (c : UInt8) (supertype type : Bytes) :
    subtypeScan (c :: supertype) (c :: type) = subtypeScan supertype type := by
  rw [subtypeScan, List.head?_cons, if_pos rfl]
  rfl

theorem subtypeScan_ne (c : UInt8) (supertype rest : Bytes) (t : TypeExpr) (ne : t.headChar ≠ c)
    (plain : indefiniteChar c = false) : subtypeScan (c :: supertype) (t.string ++ rest) = false := by
  simp only [indefiniteChar, Bool.or_eq_false_iff, decide_eq_false_iff_not] at plain
  simp only [subtypeScan, head?_string, Option.some.injEq, ne, plain, t.headChar_ne_close, if_false]

theorem subtypeScan_close (c : UInt8) (supertype rest : Bytes) (ne : c ≠ ascii ')') :
    subtypeScan (c :: supertype) (ascii ')' :: rest) = false := by
  simp [subtypeScan, Ne.symm ne]

theorem subtypeScan_wildcard (w : TypeExpr) (wild : w = .any ∨ w = .anyBasic ∨ w = .anyTuple)
    (supertype rest : Bytes) (t : TypeExpr) :
    subtypeScan (w.headChar :: supertype) (t.string ++ rest) = true ↔
      Generalises t w ∧ subtypeScan supertype rest = true := by
  by_cases same : t.headChar = w.headChar
  · obtain rfl := TypeExpr.eq_of_headChar_wildcard wild same
    have single : t.string = [t.headChar] := by rcases wild with rfl | rfl | rfl <;> rfl
    rw [single, List.singleton_append, subtypeScan_same]
    exact ⟨fun h => ⟨.refl t, h⟩, fun h => h.2⟩
  · rw [subtypeScan, head?_string, if_neg (by simpa using same),
      if_neg (by simpa using t.headChar_ne_close.1), drop_string]
    rcases wild with rfl | rfl | rfl
    · simp [ascii, Generalises.any]
    · have kind : xvariantTypeIsBasic (t.string ++ rest) = true ↔ Generalises t .anyBasic := by
        rw [xvariantTypeIsBasic, head?_string]
        constructor
        · intro basic
          cases t with
          | basic b => exact .basicAny b
          | anyBasic => exact .anyBasic
          | _ => revert basic; simp [ascii, Basic.ofChar, Basic.all, Basic.char]
        · rintro (_ | _) <;> simp
      simp [ascii, ← kind]
    · have kind : xvariantTypeIsTuple (t.string ++ rest) = true ↔ Generalises t .anyTuple := by
        rw [xvariantTypeIsTuple, head?_string]
        constructor
        · intro tuple
          cases t with
          | tuple items => exact .tupleAny items
          | anyTuple => exact .anyTuple
          | basic b => exact absurd tuple (by cases b <;> decide)
          | _ => revert tuple; simp [ascii]
        · rintro (_ | _) <;> simp
      simp [ascii, ← kind]

theorem subtypeScan_strings (ss ts : List TypeExpr) (supertype rest : Bytes)
    (each : ∀ s ∈ ss, ∀ t supertype rest, subtypeScan (s.string ++ supertype) (t.string ++ rest) = true ↔
      Generalises t s ∧ subtypeScan supertype rest = true) :
    subtypeScan (TypeExpr.strings ss ++ ascii ')' :: supertype) (TypeExpr.strings ts ++ ascii ')' :: rest) =
      true ↔ List.Forall₂ Generalises ts ss ∧ subtypeScan supertype rest = true := by
  induction ss generalizing ts with
  | nil =>
    cases ts with
    | nil => simp [TypeExpr.strings, subtypeScan_same]
    | cons t ts =>
      rw [TypeExpr.strings, TypeExpr.strings, List.nil_append, List.append_assoc,
        subtypeScan_ne _ _ _ t t.headChar_ne_close.1 (by decide)]
      simp
  | cons s ss ih =>
    cases ts with
    | nil =>
      rw [TypeExpr.strings, TypeExpr.strings, List.nil_append, s.string_eq_headChar, List.cons_append,
        List.cons_append, subtypeScan_close _ _ _ s.headChar_ne_close.1]
      simp
    | cons t ts =>
      rw [TypeExpr.strings, TypeExpr.strings, List.append_assoc, List.append_assoc,
        each s List.mem_cons_self, ih ts fun other member => each other (List.mem_cons_of_mem s member),
        List.forall₂_cons, and_assoc]

theorem Generalises.headChar_eq (h : Generalises t s)
    (plain : indefiniteChar s.headChar = false) : t.headChar = s.headChar := by
  cases h with
  | any | anyBasic | basicAny | anyTuple | tupleAny => exact absurd plain (by decide)
  | _ => rfl

theorem subtypeScan_plain (supertype rest : Bytes) (plain : indefiniteChar s.headChar = false)
    (matched : t.headChar = s.headChar → (subtypeScan (s.string ++ supertype) (t.string ++ rest) = true ↔
      Generalises t s ∧ subtypeScan supertype rest = true)) :
    subtypeScan (s.string ++ supertype) (t.string ++ rest) = true ↔
      Generalises t s ∧ subtypeScan supertype rest = true := by
  by_cases same : t.headChar = s.headChar
  · exact matched same
  · rw [s.string_eq_headChar, List.cons_append, subtypeScan_ne _ _ _ t same plain]
    exact ⟨fun h => absurd h (by decide), fun h => absurd (h.1.headChar_eq plain) same⟩

theorem Basic.char_plain (b : Basic) : indefiniteChar b.char = false := by
  cases b <;> decide

theorem subtypeScan_basic (b : Basic) (t : TypeExpr) (supertype rest : Bytes) :
    subtypeScan (b.char :: supertype) (t.string ++ rest) = true ↔
      Generalises t (.basic b) ∧ subtypeScan supertype rest = true := by
  refine subtypeScan_plain (s := .basic b) supertype rest b.char_plain fun same => ?_
  cases t with
  | basic other =>
    obtain rfl := Basic.char_injective same
    simp [TypeExpr.string, subtypeScan_same, Generalises.basic]
  | _ => exact absurd same (by cases b <;> simp [Basic.char, ascii])

def keyExpr : Option Basic → TypeExpr
  | some b => .basic b
  | none => .anyBasic

theorem keyExpr_string (key : Option Basic) : (keyExpr key).string = [keyChar key] := by
  cases key <;> rfl

theorem generalises_keyExpr (key other : Option Basic) :
    Generalises (keyExpr key) (keyExpr other) ↔ KeyGeneralises key other := by
  constructor
  · intro h
    rcases key with _ | b <;> rcases other with _ | b' <;> cases h <;>
      simp [KeyGeneralises]
  · rintro (rfl | rfl)
    · exact .refl _
    · cases key with
      | none => exact .anyBasic
      | some b => exact .basicAny b

theorem subtypeScan_key (key other : Option Basic) (supertype rest : Bytes) :
    subtypeScan (keyChar other :: supertype) (keyChar key :: rest) = true ↔
      KeyGeneralises key other ∧ subtypeScan supertype rest = true := by
  have split : keyChar key :: rest = (keyExpr key).string ++ rest := by rw [keyExpr_string]; rfl
  rw [split, ← generalises_keyExpr]
  cases other with
  | none => exact subtypeScan_wildcard .anyBasic (Or.inr (Or.inl rfl)) supertype rest _
  | some b => exact subtypeScan_basic b _ supertype rest

theorem subtypeScan_string (t s : TypeExpr) (supertype rest : Bytes) :
    subtypeScan (s.string ++ supertype) (t.string ++ rest) = true ↔
      Generalises t s ∧ subtypeScan supertype rest = true := by
  -- over the supertype, with what follows both strings left open
  induction s generalizing t supertype rest with
  | basic b => exact subtypeScan_basic b t supertype rest
  | any => exact subtypeScan_wildcard .any (Or.inl rfl) supertype rest t
  | anyBasic => exact subtypeScan_wildcard .anyBasic (Or.inr (Or.inl rfl)) supertype rest t
  | anyTuple => exact subtypeScan_wildcard .anyTuple (Or.inr (Or.inr rfl)) supertype rest t
  | variant =>
    refine subtypeScan_plain supertype rest rfl fun same => ?_
    cases t with
    | variant => simp [TypeExpr.string, subtypeScan_same, Generalises.variant]
    | basic b => exact absurd same (by cases b <;> simp [Basic.char, ascii])
    | _ => simp [ascii] at same
  | maybe element ih =>
    refine subtypeScan_plain supertype rest rfl fun same => ?_
    cases t with
    | maybe inner =>
      rw [TypeExpr.string, TypeExpr.string, List.cons_append, List.cons_append, subtypeScan_same, ih]
      exact and_congr_left fun _ => ⟨.maybe, fun h => by cases h; assumption⟩
    | basic b => exact absurd same (by cases b <;> simp [Basic.char, ascii])
    | _ => simp [ascii] at same
  | array element ih =>
    refine subtypeScan_plain supertype rest rfl fun same => ?_
    cases t with
    | array inner =>
      rw [TypeExpr.string, TypeExpr.string, List.cons_append, List.cons_append, subtypeScan_same, ih]
      exact and_congr_left fun _ => ⟨.array, fun h => by cases h; assumption⟩
    | basic b => exact absurd same (by cases b <;> simp [Basic.char, ascii])
    | _ => simp [ascii] at same
  | tuple items ih =>
    refine subtypeScan_plain supertype rest rfl fun same => ?_
    cases t with
    | tuple inner =>
      simp only [TypeExpr.string, List.cons_append, List.append_assoc, List.nil_append, subtypeScan_same]
      rw [subtypeScan_strings items inner supertype rest fun s member t => ih s member t]
      exact and_congr_left fun _ => ⟨.tuple, fun h => by cases h; assumption⟩
    | basic b => exact absurd same (by cases b <;> simp [Basic.char, ascii])
    | _ => simp [ascii] at same
  | dictEntry key value ih =>
    refine subtypeScan_plain supertype rest rfl fun same => ?_
    cases t with
    | dictEntry other inner =>
      simp only [TypeExpr.string, List.cons_append, List.append_assoc, List.nil_append, subtypeScan_same,
        subtypeScan_key, ih]
      constructor
      · rintro ⟨keys, values, rest⟩
        exact ⟨.dictEntry keys values, rest⟩
      · rintro ⟨h, rest⟩
        cases h with | dictEntry keys values => exact ⟨keys, values, rest⟩
    | basic b => exact absurd same (by cases b <;> simp [Basic.char, ascii])
    | _ => simp [ascii] at same

theorem xvariantTypeIsSubtypeOf_iff (t s : TypeExpr) :
    xvariantTypeIsSubtypeOf t.string s.string = true ↔ Generalises t s := by
  have length := xvariantTypeGetStringLength_string s []
  have scanned := subtypeScan_string t s [] []
  rw [List.append_nil] at length
  rw [List.append_nil, List.append_nil] at scanned
  rw [xvariantTypeIsSubtypeOf, length, List.take_length, scanned]
  exact and_iff_left rfl

/-- Subtyping is replacement of sub-types by wildcards, hence a partial order
whose definite elements are minimal. -/
theorem xvariantTypeIsSubtypeOf_structural :
    (∀ string, xvariantTypeStringIsValid string = true → ∃ t : TypeExpr, string = t.string) ∧
    (∀ t s : TypeExpr, xvariantTypeIsSubtypeOf t.string s.string = true ↔ Generalises t s) ∧
    (∀ t : TypeExpr, xvariantTypeIsSubtypeOf t.string t.string = true) ∧
    (∀ t s u : TypeExpr, xvariantTypeIsSubtypeOf t.string s.string = true →
      xvariantTypeIsSubtypeOf s.string u.string = true → xvariantTypeIsSubtypeOf t.string u.string = true) ∧
    (∀ t s : TypeExpr, xvariantTypeIsSubtypeOf t.string s.string = true →
      xvariantTypeIsSubtypeOf s.string t.string = true → t.string = s.string) ∧
    (∀ t s : TypeExpr, xvariantTypeIsDefinite s.string = true →
      xvariantTypeIsSubtypeOf t.string s.string = true → t.string = s.string) := by
  refine ⟨fun string valid => ?_, xvariantTypeIsSubtypeOf_iff, fun t => ?_, fun t s u first second => ?_,
    fun t s first second => ?_, fun t s definite below => ?_⟩
  · obtain ⟨t, spelled, -⟩ := (xvariantTypeStringIsValid_iff string).mp valid
    exact ⟨t, spelled⟩
  · exact (xvariantTypeIsSubtypeOf_iff t t).mpr (.refl t)
  · rw [xvariantTypeIsSubtypeOf_iff] at first second ⊢
    exact first.trans second
  · rw [xvariantTypeIsSubtypeOf_iff] at first second
    rw [first.antisymm second]
  · rw [xvariantTypeIsSubtypeOf_iff] at below
    obtain ⟨type, rfl⟩ := (xvariantTypeIsDefinite_string s).mp definite
    rw [below.eq_of_definite]

end Xpl.Variant
