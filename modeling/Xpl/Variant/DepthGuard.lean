import Xpl.Variant.Core
import Xpl.Variant.Subtype
import Xpl.Variant.TypeScan

/-! The depth of a type string: what the documentation promises, and where the scanner keeps it. -/

set_option autoImplicit false

namespace Xpl.Variant
open Xpl.Library

theorem xvariantTypeStringGetDepth_invalid {string : Bytes} (invalid : xvariantTypeStringIsValid string = false) :
    xvariantTypeStringGetDepth string = 0 := by
  rw [xvariantTypeStringIsValid, decide_eq_false_iff_not, xvariantTypeStringScan] at invalid
  unfold xvariantTypeStringGetDepth
  cases scanned : variantTypeStringScanInternal maxRecursionDepth string with
  | none => rfl
  | some found =>
    obtain ⟨depth, rest⟩ := found
    cases rest with
    | nil =>
      rw [scanned] at invalid
      exact absurd rfl invalid
    | cons c rest => rfl

/-! ## Components -/

def TypeExpr.components : TypeExpr → List TypeExpr
  | .maybe element => [element]
  | .array element => [element]
  | .tuple items => items
  | .dictEntry key value => [keyExpr key, value]
  | _ => []

def TypeExpr.isContainer : TypeExpr → Bool
  | .maybe _ | .array _ | .tuple _ | .dictEntry _ _ => true
  | _ => false

def TypeExpr.isUnit : TypeExpr → Bool
  | .tuple [] => true
  | _ => false

/-- A container in which the scanner counts no levels, as it finds nothing but unit tuples: it does not count the key
of a dictionary entry. -/
def TypeExpr.isHollow : TypeExpr → Bool
  | .maybe element => element.isUnit
  | .array element => element.isUnit
  | .tuple items => items.all TypeExpr.isUnit
  | .dictEntry _ value => value.isUnit
  | _ => false

theorem keyExpr_depth (key : Option Basic) : (keyExpr key).depth = 1 := by
  cases key <;> rfl

theorem keyExpr_nesting (key : Option Basic) : (keyExpr key).nesting = 0 := by
  cases key <;> rfl

theorem TypeExpr.depth_eq_zero (t : TypeExpr) : t.depth = 0 ↔ t.isUnit = true := by
  cases t with
  | tuple items =>
    cases items with
    | nil => simp [depth, depths, isUnit]
    | cons item items => simp [depth, depths, isUnit]
  | _ => simp [depth, isUnit]

theorem TypeExpr.component_nesting {t c : TypeExpr} (inside : c ∈ t.components) : c.nesting ≤ t.nesting := by
  cases t with
  | maybe element =>
    cases List.mem_singleton.mp inside
    exact Nat.le_succ _
  | array element =>
    cases List.mem_singleton.mp inside
    exact Nat.le_succ _
  | tuple items => exact Nat.le_of_succ_le (nesting_lt_nestings inside)
  | dictEntry key value =>
    rcases List.mem_cons.mp inside with rfl | inside
    · rw [keyExpr_nesting]
      exact Nat.zero_le _
    · cases List.mem_singleton.mp inside
      exact Nat.le_succ _
  | _ => cases inside

/-- The largest of a list of depths. -/
def deepest (depths : List Nat) : Nat := depths.foldr max 0

theorem TypeExpr.depths_eq (items : List TypeExpr) (some_item : items ≠ []) :
    depths items = 1 + deepest (items.map TypeExpr.depth) := by
  induction items with
  | nil => exact absurd rfl some_item
  | cons item items ih =>
    cases items with
    | nil =>
      simp only [depths, deepest, List.map_cons, List.map_nil, List.foldr_cons, List.foldr_nil]
      omega
    | cons other items =>
      have rest := ih (List.cons_ne_nil _ _)
      rw [depths, rest]
      simp only [deepest, List.map_cons, List.foldr_cons]
      omega

theorem TypeExpr.deepest_pos {items : List TypeExpr} :
    0 < deepest (items.map TypeExpr.depth) ↔ items.all TypeExpr.isUnit = false := by
  induction items with
  | nil => simp [deepest]
  | cons item items ih =>
    have unit := item.depth_eq_zero
    rw [List.map_cons, List.all_cons, Bool.and_eq_false_iff, ← ih, ← Bool.not_eq_true item.isUnit, ← unit]
    simp only [deepest, List.foldr_cons]
    omega

/-! ## The documentation -/

/-- The depth is what the documentation says: zero for what is no type string, one for the types without components, and
for a container one more than the depth of its deepest component, which makes it larger than one. -/
structure DepthDocumented (string : Bytes) : Prop where
  invalid : xvariantTypeStringGetDepth string = 0 ↔ xvariantTypeStringIsValid string = false
  leaf : ∀ t : TypeExpr, string = t.string → t.nesting ≤ maxRecursionDepth → t.isContainer = false →
    xvariantTypeStringGetDepth string = 1
  container : ∀ t : TypeExpr, string = t.string → t.nesting ≤ maxRecursionDepth → t.isContainer = true →
    xvariantTypeStringGetDepth string =
      1 + deepest (t.components.map fun component => xvariantTypeStringGetDepth component.string) ∧
    1 < xvariantTypeStringGetDepth string

theorem TypeExpr.depth_container {t : TypeExpr} (container : t.isContainer = true) :
    (t.depth = 1 + deepest (t.components.map TypeExpr.depth) ∧ 1 < t.depth) ↔ t.isHollow = false := by
  cases t with
  | maybe element | array element =>
    have unit := element.depth_eq_zero
    simp only [depth, components, deepest, List.map_cons, List.map_nil, List.foldr_cons, List.foldr_nil, isHollow]
    rw [← Bool.not_eq_true, ← unit]
    omega
  | dictEntry key value =>
    have unit := value.depth_eq_zero
    simp only [depth, components, deepest, List.map_cons, List.map_nil, List.foldr_cons, List.foldr_nil, isHollow,
      keyExpr_depth]
    rw [← Bool.not_eq_true, ← unit]
    omega
  | tuple items =>
    rw [isHollow, ← deepest_pos, depth, components]
    by_cases some_item : items = []
    · subst some_item
      simp [depths, deepest]
    · rw [depths_eq items some_item]
      omega
  | _ => cases container

/-- The depth of a string is what the documentation says unless the string is a hollow type. -/
theorem xvariantTypeStringGetDepth_documented_iff (string : Bytes) : DepthDocumented string ↔
    ¬∃ t : TypeExpr, string = t.string ∧ t.nesting ≤ maxRecursionDepth ∧ t.isHollow = true := by
  have inner : ∀ {t : TypeExpr}, t.nesting ≤ maxRecursionDepth →
      (t.components.map fun component => xvariantTypeStringGetDepth component.string) = t.components.map TypeExpr.depth := by
    intro t shallow
    apply List.map_congr_left
    intro component inside
    exact xvariantTypeStringGetDepth_string _ (Nat.le_trans (TypeExpr.component_nesting inside) shallow)
  constructor
  · rintro documented ⟨t, rfl, shallow, hollow⟩
    have container : t.isContainer = true := by
      cases t <;> first | rfl | cases hollow
    have depths := documented.container t rfl shallow container
    rw [inner shallow, xvariantTypeStringGetDepth_string t shallow, TypeExpr.depth_container container, hollow] at depths
    cases depths
  · intro solid
    have solid_type : ∀ t : TypeExpr, string = t.string → t.nesting ≤ maxRecursionDepth → t.isHollow = false := by
      intro t spelled shallow
      rw [← Bool.not_eq_true]
      exact fun hollow => solid ⟨t, spelled, shallow, hollow⟩
    refine ⟨⟨fun zero => ?_, xvariantTypeStringGetDepth_invalid⟩, fun t spelled shallow leaf => ?_,
      fun t spelled shallow container => ?_⟩
    · rw [← Bool.not_eq_true]
      intro valid
      obtain ⟨t, spelled, shallow⟩ := (xvariantTypeStringIsValid_iff string).mp valid
      have full := solid_type t spelled shallow
      rw [spelled, xvariantTypeStringGetDepth_string t shallow, TypeExpr.depth_eq_zero] at zero
      cases t with
      | tuple items =>
        cases items with
        | nil => cases full
        | cons item items => cases zero
      | _ => cases zero
    · rw [spelled, xvariantTypeStringGetDepth_string t shallow]
      cases t <;> first | rfl | cases leaf
    · rw [inner shallow, spelled, xvariantTypeStringGetDepth_string t shallow, TypeExpr.depth_container container]
      exact solid_type t spelled shallow

/-- The unit tuple is a valid type string of depth zero. -/
theorem unit_depth_zero : xvariantTypeStringIsValid [ascii '(', ascii ')'] = true ∧
    xvariantTypeStringGetDepth [ascii '(', ascii ')'] = 0 ∧ ¬DepthDocumented [ascii '(', ascii ')'] := by
  refine ⟨by decide, by decide, fun documented => ?_⟩
  have invalid := documented.invalid.mp (by decide)
  cases invalid

/-! The limit on the depth of nested instances: every child that is returned keeps it, and
the assertion that only a variant nests too deeply fails at two places.
-/

/-! ## Components -/

def VariantType.component : VariantType → Nat → Option VariantType
  | .maybe element, _ => some element
  | .array element, _ => some element
  | .tuple items, index => items[index]?
  | .dictEntry key value, index => [.basic key, value][index]?
  | _, _ => none

theorem VariantType.depth_tuple (items : List VariantType) {item : VariantType} (member : item ∈ items) :
    item.depth + 1 ≤ (VariantType.tuple items).depth ∧
      item.toExpr.nesting + 1 ≤ (VariantType.tuple items).toExpr.nesting := by
  have inside : item.toExpr ∈ VariantType.toExprs items := by
    rw [VariantType.toExprs_eq_map]
    exact List.mem_map_of_mem member
  refine ⟨?_, TypeExpr.nesting_lt_nestings inside⟩
  change item.toExpr.depth + 1 ≤ TypeExpr.depths (VariantType.toExprs items)
  generalize VariantType.toExprs items = exprs at inside
  induction exprs with
  | nil => cases inside
  | cons first exprs ih =>
    rcases List.mem_cons.mp inside with rfl | later
    · exact Nat.le_max_left _ _
    · exact Nat.le_trans (ih later) (Nat.le_max_right _ _)

theorem VariantType.component_depth {t c : VariantType} {index : Nat} (inside : t.component index = some c) :
    c.toExpr.nesting ≤ t.toExpr.nesting ∧
      (c.depth + 1 ≤ t.depth ∨ index = 0 ∧ ∃ key value, t = .dictEntry key value ∧ c = .basic key) := by
  cases t with
  | basic b => cases inside
  | variant => cases inside
  | maybe element =>
    cases inside
    exact ⟨Nat.le_succ _, Or.inl (Nat.le_refl _)⟩
  | array element =>
    cases inside
    exact ⟨Nat.le_succ _, Or.inl (Nat.le_refl _)⟩
  | tuple items =>
    obtain ⟨deeper, nested⟩ := VariantType.depth_tuple items (List.mem_of_getElem? inside)
    exact ⟨by omega, Or.inl deeper⟩
  | dictEntry key value =>
    cases index with
    | zero =>
      cases inside
      exact ⟨Nat.zero_le _, Or.inr ⟨rfl, key, value, rfl, rfl⟩⟩
    | succ index =>
      cases index with
      | zero =>
        cases inside
        exact ⟨Nat.le_succ _, Or.inl (Nat.le_refl _)⟩
      | succ index => cases inside

theorem VariantType.eq_unit {t : VariantType} (unit : t.toExpr.isUnit = true) : t = .tuple [] := by
  cases t with
  | tuple items =>
    cases items with
    | nil => rfl
    | cons item items => cases unit
  | _ => cases unit

theorem xvariantTypeInfoQueryDepth_eq {t : VariantType} (shallow : t.toExpr.nesting ≤ maxRecursionDepth) :
    xvariantTypeInfoQueryDepth t = t.depth := by
  cases t with
  | basic b => rfl
  | variant => rfl
  | maybe element => exact xvariantTypeStringGetDepth_string _ shallow
  | array element => exact xvariantTypeStringGetDepth_string _ shallow
  | tuple items => exact xvariantTypeStringGetDepth_string _ shallow
  | dictEntry key value => exact xvariantTypeStringGetDepth_string _ shallow

/-! ## Types of the decoded children -/

theorem gvsTupleChild_type {value child : Serialised} {member : MemberInfo} {lastEnd : Nat → Option Nat}
    (found : gvsTupleChild value member lastEnd = some child) : child.type = member.type := by
  unfold gvsTupleChild at found
  dsimp only at found
  split at found
  · split at found <;> cases found
    rfl
  · split at found
    · cases found
      rfl
    · split at found
      · cases found
        rfl
      · obtain ⟨prevEnd, -, found⟩ := Option.bind_eq_some_iff.mp found
        obtain ⟨stop, -, found⟩ := Option.bind_eq_some_iff.mp found
        obtain ⟨bound, -, found⟩ := Option.bind_eq_some_iff.mp found
        cases found
        rfl

theorem gvsTupleGetChild_type {value child : Serialised} {index : Nat} (found : gvsTupleGetChild value index = some child) :
    value.type.items[index]? = some child.type := by
  obtain ⟨member, entry, found⟩ := Option.bind_eq_some_iff.mp found
  obtain ⟨front, item, back, shape, rfl, rfl⟩ := exists_memberAt entry
  have same : child.type = item := by
    split at found
    · exact gvsTupleChild_type found
    · exact gvsTupleChild_type found
  rw [shape, same, List.getElem?_append_right (Nat.le_refl _), Nat.sub_self, List.getElem?_cons_zero]

theorem ofString_shallow {string : Bytes} (valid : xvariantTypeStringIsValid string = true)
    (definite : xvariantTypeIsDefinite string = true) {type : VariantType}
    (parsed : VariantType.ofString string = some type) : type.toExpr.nesting ≤ maxRecursionDepth := by
  obtain ⟨expression, rfl, shallow⟩ := (xvariantTypeStringIsValid_iff string).mp valid
  obtain ⟨other, rfl⟩ := (xvariantTypeIsDefinite_string expression).mp definite
  cases (VariantType.ofString_string other).symm.trans parsed
  exact shallow

/-- A variant holds a type whose string is valid, or the empty tuple. -/
theorem gvsVariantGetChild_type {value child : Serialised} (found : gvsVariantGetChild value = some child) :
    child.type.toExpr.nesting ≤ maxRecursionDepth := by
  have unit : ∀ {child}, some (unitChild value) = some child → child.type.toExpr.nesting ≤ maxRecursionDepth := by
    rintro child ⟨rfl⟩
    exact Nat.zero_le _
  unfold gvsVariantGetChild at found
  split at found
  case isTrue => exact unit found
  case isFalse =>
    obtain ⟨position, -, found⟩ := Option.bind_eq_some_iff.mp found
    obtain ⟨byte, -, found⟩ := Option.bind_eq_some_iff.mp found
    dsimp only at found
    split at found
    · exact unit found
    · split at found
      case isFalse => exact unit found
      case isTrue valid =>
        obtain ⟨type, parsed, found⟩ := Option.bind_eq_some_iff.mp found
        rw [Bool.and_eq_true] at valid
        have shallow := ofString_shallow valid.1 valid.2 parsed
        split at found
        · cases found
          exact shallow
        · exact unit found

theorem xvariantSerialisedGetChild_type {value child : Serialised} {index : Nat}
    (found : xvariantSerialisedGetChild value index = some child) :
    if value.type = .variant then child.type.toExpr.nesting ≤ maxRecursionDepth
    else value.type.component index = some child.type := by
  obtain ⟨length, -, found⟩ := Option.bind_eq_some_iff.mp found
  split at found
  case isFalse => cases found
  case isTrue =>
    obtain ⟨decoded, got, found⟩ := Option.bind_eq_some_iff.mp found
    split at found
    case isFalse => cases found
    case isTrue =>
      cases found
      rw [gvsGetChild] at got
      cases type : value.type with
      | basic b => simp [type] at got
      | variant =>
        rw [type] at got
        exact gvsVariantGetChild_type got
      | maybe element =>
        rw [type] at got
        dsimp only at got
        split at got <;> cases got <;> rfl
      | array element =>
        rw [type] at got
        dsimp only at got
        split at got
        · cases got
          rfl
        · exact congrArg some (variableArrayChild got).1.symm
      | tuple items =>
        rw [type] at got
        have place := gvsTupleGetChild_type got
        rw [type] at place
        exact place
      | dictEntry key item =>
        rw [type] at got
        have place := gvsTupleGetChild_type got
        rw [type] at place
        exact place

/-! ## The assertion -/

def XVariant.Decodes : XVariant → Nat → Prop
  | .serialised value _ _, index => ∃ child, xvariantSerialisedGetChild value index = some child
  | .tree _ _ _ _, _ => False

/-- `xassert (xvariant_is_of_type (value, G_VARIANT_TYPE_VARIANT))` fails. -/
def XVariant.FailsDepthAssertion : XVariant → Nat → Prop
  | .serialised value _ trusted, index => ∃ child, xvariantSerialisedGetChild value index = some child ∧
      trusted = false ∧ nestsTooDeep child.type value.depth = true ∧ value.type ≠ .variant
  | .tree _ _ _ _, _ => False

/-- What a step owes: the assertion holds, and a child that is returned keeps to the limit. -/
structure XVariant.StepGuarded (v : XVariant) (index : Nat) : Prop where
  asserted : ¬v.FailsDepthAssertion index
  bounded : ∀ child, v.getChildValue index = some child → child.depth + child.type.depth ≤ maxRecursionDepth

/-- The step does not lead from the top to a type of the full depth, nor to the key of a dictionary entry with an empty
tuple that is nested as deep as can be. -/
structure XVariant.StepRoom (v : XVariant) (index : Nat) : Prop where
  top : v.depth = 0 → ∀ c, v.type.component index = some c → c.depth ≠ maxRecursionDepth
  key : v.depth + 1 = maxRecursionDepth → index = 0 → ∀ key, v.type ≠ .dictEntry key (.tuple [])

/-- A valid type, untrusted, within the limit but for the top. -/
structure XVariant.Limited (v : XVariant) : Prop where
  valid : v.type.toExpr.nesting ≤ maxRecursionDepth
  within : v.depth = 0 ∨ v.depth + v.type.depth ≤ maxRecursionDepth
  source : match v with
    | .serialised _ _ trusted => trusted = false
    | .tree type children _ _ => type = .tuple [] ∧ children = []

theorem XVariant.limited_unit : XVariant.unit.Limited := ⟨by decide, Or.inl rfl, rfl, rfl⟩

theorem nestsTooDeep_iff {child : VariantType} (shallow : child.toExpr.nesting ≤ maxRecursionDepth) {depth : Nat}
    (within : depth ≤ maxRecursionDepth) : nestsTooDeep child depth = true ↔ maxRecursionDepth ≤ child.depth + depth := by
  have word : (maxRecursionDepth + (wordSize - depth)) % wordSize = maxRecursionDepth - depth := by
    rw [maxRecursionDepth] at within ⊢
    rw [wordSize]
    omega
  rw [nestsTooDeep, decide_eq_true_eq, word, xvariantTypeInfoQueryDepth_eq shallow]
  omega

theorem XVariant.Limited.child {v child : XVariant} (limited : v.Limited) {index : Nat}
    (found : v.getChildValue index = some child) :
    child.Limited ∧ child.depth + child.type.depth ≤ maxRecursionDepth := by
  obtain ⟨valid, within, source⟩ := limited
  obtain ⟨length, counted, found⟩ := Option.bind_eq_some_iff.mp found
  split at found
  case isFalse => cases found
  case isTrue inside =>
    cases v with
    | tree type children trusted depth =>
      obtain ⟨-, rfl⟩ := source
      simp at found
    | serialised value bytes trusted =>
      obtain rfl : trusted = false := source
      obtain ⟨decoded, got, found⟩ := Option.bind_eq_some_iff.mp found
      have depth : value.depth ≤ maxRecursionDepth := by
        rcases within with top | below
        · rw [show value.depth = 0 by exact top]
          exact Nat.zero_le _
        · exact Nat.le_trans (Nat.le_add_right _ _) below
      have shallow : decoded.type.toExpr.nesting ≤ maxRecursionDepth := by
        have type := xvariantSerialisedGetChild_type got
        split at type
        · exact type
        · exact Nat.le_trans (VariantType.component_depth type).1 valid
      split at found
      case isTrue =>
        split at found
        · cases found
          exact ⟨limited_unit, by decide⟩
        · cases found
      case isFalse allowed =>
        cases found
        rw [nestsTooDeep_iff shallow depth] at allowed
        have bounded : value.depth + 1 + decoded.type.depth ≤ maxRecursionDepth := by
          by_contra deep
          exact allowed ⟨rfl, by omega⟩
        exact ⟨⟨shallow, Or.inr bounded, rfl⟩, bounded⟩

theorem XVariant.Reaches.limited {root v : XVariant} (reached : root.Reaches v) (limited : root.Limited) : v.Limited := by
  induction reached with
  | here => exact limited
  | child index _ found ih => exact (ih.child found).1

theorem XVariant.Limited.failsDepthAssertion_iff {v : XVariant} (limited : v.Limited) (index : Nat) :
    v.FailsDepthAssertion index ↔ v.Decodes index ∧ ¬v.StepRoom index := by
  obtain ⟨valid, within, source⟩ := limited
  cases v with
  | tree type children trusted depth => exact ⟨fun fails => fails.elim, fun h => h.1.elim⟩
  | serialised value bytes trusted =>
    obtain rfl : trusted = false := source
    change value.depth = 0 ∨ value.depth + value.type.depth ≤ maxRecursionDepth at within
    change value.type.toExpr.nesting ≤ maxRecursionDepth at valid
    have depth : value.depth ≤ maxRecursionDepth := by omega
    have reported := value.type.toExpr.nesting_le_depth.2
    have limit : maxRecursionDepth = 128 := rfl
    constructor
    · rintro ⟨child, got, -, deep, other⟩
      refine ⟨⟨child, got⟩, fun room => ?_⟩
      have component := xvariantSerialisedGetChild_type got
      rw [if_neg other] at component
      obtain ⟨nested, place⟩ := VariantType.component_depth component
      rw [nestsTooDeep_iff (Nat.le_trans nested valid) depth] at deep
      rcases place with below | ⟨first, key, item, type, basic⟩
      · -- A level below the container, only the top lets a component be too deep.
        have top : value.depth = 0 := by omega
        refine room.top top _ component ?_
        change value.type.depth ≤ value.type.toExpr.nesting + 1 at reported
        omega
      · have one : child.type.depth = 1 := by rw [basic]; rfl
        have outer : value.type.depth = item.depth + 1 := by rw [type]; rfl
        have empty : item.toExpr.depth = 0 := by
          change item.depth = 0
          omega
        have unit := VariantType.eq_unit ((TypeExpr.depth_eq_zero _).mp empty)
        refine room.key ?_ first key (by rw [← unit]; exact type)
        change value.depth + 1 = maxRecursionDepth
        omega
    · rintro ⟨⟨child, got⟩, full⟩
      by_contra safe
      have component := xvariantSerialisedGetChild_type got
      have fails : ∀ c, value.type.component index = some c → maxRecursionDepth ≤ c.depth + value.depth → False := by
        intro c inside deep
        have other : value.type ≠ .variant := fun variant => by rw [variant] at inside; cases inside
        rw [if_neg other, inside, Option.some.injEq] at component
        subst component
        have nested := (VariantType.component_depth inside).1
        exact safe ⟨child, got, rfl, (nestsTooDeep_iff (Nat.le_trans nested valid) depth).mpr deep, other⟩
      refine full ⟨fun top c inside same => fails c inside (by omega), fun deepest first key type => ?_⟩
      subst first
      change value.type = _ at type
      change value.depth + 1 = _ at deepest
      refine fails (.basic key) (by rw [type]; rfl) ?_
      change maxRecursionDepth ≤ 1 + value.depth
      omega

theorem XVariant.limited_newFromBytes {type : VariantType} (valid : xvariantTypeStringIsValid type.string = true)
    (bytes : XBytes) (copyAt : Nat) : (XVariant.newFromBytes type bytes copyAt false).Limited := by
  have definite : xvariantTypeIsDefinite type.string = true := (xvariantTypeIsDefinite_string type.toExpr).mpr ⟨type, rfl⟩
  exact ⟨ofString_shallow valid definite type.ofString_string, Or.inl rfl, rfl⟩

/-- A run from untrusted bytes keeps to the limit at each step that has room, and fails the assertion at each other. -/
theorem XVariant.stepGuarded_iff {type : VariantType} (valid : xvariantTypeStringIsValid type.string = true)
    (bytes : XBytes) (copyAt : Nat) {v : XVariant} (reached : (XVariant.newFromBytes type bytes copyAt false).Reaches v)
    (index : Nat) : v.StepGuarded index ↔ (v.Decodes index → v.StepRoom index) := by
  have limited := reached.limited (XVariant.limited_newFromBytes valid bytes copyAt)
  have failing := limited.failsDepthAssertion_iff index
  constructor
  · intro guarded decodes
    by_contra full
    exact guarded.asserted (failing.mpr ⟨decodes, full⟩)
  · intro room
    refine ⟨fun fails => ?_, fun child found => (limited.child found).2⟩
    obtain ⟨decodes, full⟩ := failing.mp fails
    exact full (room decodes)

theorem stepGuarded_numberAndString : (numberAndString [1, 2, 3, 4, 65, 0]).StepGuarded 0 := by
  refine (XVariant.stepGuarded_iff (by decide) _ _ .here 0).mpr fun _ => ⟨fun _ c inside => ?_, fun deepest => ?_⟩
  · cases inside
    decide
  · cases deepest

def nestedArray : Nat → VariantType
  | 0 => .basic .byte
  | levels + 1 => .array (nestedArray levels)

theorem nestedArray_depth (levels : Nat) :
    (nestedArray levels).toExpr.nesting = levels ∧ (nestedArray levels).depth = levels + 1 := by
  induction levels with
  | zero => exact ⟨rfl, rfl⟩
  | succ levels ih =>
    obtain ⟨nesting, depth⟩ := ih
    exact ⟨congrArg Nat.succ nesting, congrArg Nat.succ depth⟩

/-- A type string may nest 128 arrays, but the array on the top has no room for its elements. -/
theorem nestedArray_unguarded : ¬∀ type bytes copyAt v, xvariantTypeStringIsValid type.string = true → XBytes.Sound bytes →
    Allocated copyAt bytes.size type.alignment → (XVariant.newFromBytes type bytes copyAt false).Reaches v →
    ∀ index, v.StepGuarded index := by
  intro claim
  have valid : xvariantTypeStringIsValid (nestedArray 128).string = true :=
    (xvariantTypeStringIsValid_iff _).mpr ⟨_, rfl, Nat.le_of_eq (nestedArray_depth 128).1⟩
  have sound : (XBytes.block 8 [0]).Sound := ⟨by decide, by decide⟩
  have copied : Allocated 16 1 (nestedArray 128).alignment := ⟨by decide, by decide, by decide⟩
  have guarded := claim _ _ 16 _ valid sound copied .here 0
  have decodes : (XVariant.newFromBytes (nestedArray 128) (.block 8 [0]) 16 false).Decodes 0 := ⟨_, rfl⟩
  have limited := XVariant.limited_newFromBytes valid (.block 8 [0]) 16
  refine guarded.asserted ((limited.failsDepthAssertion_iff 0).mpr ⟨decodes, fun room => ?_⟩)
  exact room.top rfl (nestedArray 127) rfl (nestedArray_depth 127).2

end Xpl.Variant
