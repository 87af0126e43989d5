import Xpl.Variant.Canonical
import Xpl.Variant.CheckPlan

/-! Where the check for normal form would read behind the end of a container.
-/

set_option autoImplicit false

namespace Xpl.Variant
open Xpl.Library
variable {value : Serialised}

/-- The bytes of a value represent a value of its type. -/
def Serialised.InNormalForm (value : Serialised) : Prop :=
  ∃ v : Value, v.type = value.type ∧ v.Represents value.depth value.data.bytes

/-- The check meets a tuple whose member would start behind the end of the tuple, with nothing but zeros before; all
that it visits before is in normal form. -/
inductive Serialised.Overreads : Serialised → Prop
  | past {value : Serialised} (below : value.depth < maxRecursionDepth)
      (each : ∀ part ∈ (checkPlan value).parts, part.InNormalForm) (behind : (checkPlan value).verdict = none) :
      Overreads value
  | part {value : Serialised} (below : value.depth < maxRecursionDepth) {front back : List Serialised} {part : Serialised}
      (parts : (checkPlan value).parts = front ++ part :: back) (each : ∀ other ∈ front, other.InNormalForm)
      (inner : Overreads part) : Overreads value

theorem visitAll_none {normal : Serialised → Option Bool} {verdict : Option Bool} (parts : List Serialised) :
    visitAll normal verdict parts = none ↔
      (∃ front part back, parts = front ++ part :: back ∧ (∀ other ∈ front, normal other = some true) ∧
        normal part = none) ∨
      ((∀ part ∈ parts, normal part = some true) ∧ verdict = none) := by
  -- over the parts: the check stops at the first that is not in normal form
  induction parts with
  | nil =>
    constructor
    · exact fun unknown => Or.inr ⟨List.forall_mem_nil _, unknown⟩
    · rintro (⟨front, part, back, parts, -⟩ | ⟨-, unknown⟩)
      · cases front <;> cases parts
      · exact unknown
  | cons first parts ih =>
    rw [visitAll, Option.bind_eq_bind]
    cases passed : normal first with
    | none =>
      exact ⟨fun _ => Or.inl ⟨[], first, parts, rfl, List.forall_mem_nil _, passed⟩, fun _ => rfl⟩
    | some verdict =>
      rw [Option.bind_some]
      cases verdict with
      | false =>
        constructor
        · rintro ⟨⟩
        · rintro (⟨front, part, back, shape, each, unknown⟩ | ⟨each, -⟩)
          · cases front with
            | nil =>
              cases shape
              rw [passed] at unknown
              cases unknown
            | cons other front =>
              cases shape
              have wrong := each _ List.mem_cons_self
              rw [passed] at wrong
              cases wrong
          · have wrong := each first List.mem_cons_self
            rw [passed] at wrong
            cases wrong
      | true =>
        rw [if_pos rfl, ih]
        constructor
        · rintro (⟨front, part, back, rfl, each, unknown⟩ | ⟨each, unknown⟩)
          · exact Or.inl ⟨first :: front, part, back, rfl, List.forall_mem_cons.mpr ⟨passed, each⟩, unknown⟩
          · exact Or.inr ⟨List.forall_mem_cons.mpr ⟨passed, each⟩, unknown⟩
        · rintro (⟨front, part, back, shape, each, unknown⟩ | ⟨each, unknown⟩)
          · cases front with
            | nil =>
              cases shape
              rw [passed] at unknown
              cases unknown
            | cons other front =>
              cases shape
              exact Or.inl ⟨front, part, back, rfl, fun last member => each last (List.mem_cons_of_mem _ member), unknown⟩
          · exact Or.inr ⟨fun part member => each part (List.mem_cons_of_mem _ member), unknown⟩

theorem visitAll_getD {normal confined : Serialised → Option Bool} {verdict : Option Bool} {parts : List Serialised}
    (same : ∀ part ∈ parts, normal part = some ((confined part).getD false)) :
    visitAll normal (verdict.or (some false)) parts = some ((visitAll confined verdict parts).getD false) := by
  induction parts with
  | nil => cases verdict <;> rfl
  | cons part parts ih =>
    simp only [visitAll, Option.bind_eq_bind, same part List.mem_cons_self, Option.bind_some]
    cases confined part with
    | none => rfl
    | some passed =>
      cases passed with
      | false => rfl
      | true => exact ih fun other member => same other (List.mem_cons_of_mem _ member)

/-- Where the check would read behind the end, it fails whatever is there. -/
theorem isNormalWithin_confined (memory : Nat → UInt8) (levels : Nat) (known : value.Checkable) :
    isNormalWithin memory levels value = some ((isNormalWithinBy Data.byte levels value).getD false) := by
  induction levels generalizing value with
  | zero => rfl
  | succ levels ih =>
    rw [← isNormalWithinBy_memory, isNormalWithinBy, isNormalWithinBy, gvsIsNormalBy_plan (reader_memory memory) _ known,
      gvsIsNormalBy_plan reader_confined _ known, Option.or_none]
    refine visitAll_getD fun part member => ?_
    rw [isNormalWithinBy_memory]
    exact ih ((checkPlan_visited known part member).checkable known)

theorem xvariantSerialisedIsNormal_inNormalForm (memory : Nat → UInt8) (known : value.Checkable) :
    xvariantSerialisedIsNormal memory value = some true ↔ value.InNormalForm := by
  by_cases missing : value.data.isNull = true ∧ value.type.fixedSize ≠ 0
  · obtain ⟨null, fixed⟩ := missing
    have empty : value.data.bytes = [] := by
      cases data : value.data with
      | null size => rfl
      | span address bytes => rw [data] at null; cases null
    constructor
    · exact fun accepted => absurd accepted (isNormal_null null fixed (known.sized fixed))
    · rintro ⟨v, type, represents⟩
      have length := represents.length_fixed (by rwa [type])
      rw [empty, type] at length
      exact absurd length.symm fixed
  · have backed : value.data.size = 0 ∨ value.data.isNull = false := by
      by_cases fixed : value.type.fixedSize = 0
      · exact known.backed fixed
      · exact Or.inr (by simpa [fixed] using missing)
    have carries : value.Carries (value.type, value.data.bytes) :=
      ⟨rfl, rfl, Data.size_bytes backed, known.placed, known.present⟩
    constructor
    · exact represents_of_isNormal carries known.sized
    · rintro ⟨v, type, represents⟩
      exact isNormal_of_represents memory represents (type ▸ carries)

theorem isNormalWithinBy_true (known : value.Checkable) {levels : Nat}
    (count : maxRecursionDepth - value.depth = levels) :
    isNormalWithinBy Data.byte levels value = some true ↔ value.InNormalForm := by
  rw [← xvariantSerialisedIsNormal_inNormalForm (fun _ => 0) known, xvariantSerialisedIsNormal, count,
    isNormalWithin_confined _ levels known, Option.some.injEq]
  cases isNormalWithinBy Data.byte levels value <;> simp

theorem overreads_of_none {levels : Nat} (known : value.Checkable)
    (count : maxRecursionDepth - value.depth = levels) (unknown : isNormalWithinBy Data.byte levels value = none) :
    value.Overreads := by
  -- over the levels left; a part lies one level deeper
  induction levels generalizing value with
  | zero => cases unknown
  | succ levels ih =>
    have below : value.depth < maxRecursionDepth := by omega
    rw [isNormalWithinBy, gvsIsNormalBy_plan reader_confined _ known, Option.or_none, visitAll_none] at unknown
    have inner : ∀ part ∈ (checkPlan value).parts, part.Checkable ∧ maxRecursionDepth - part.depth = levels := by
      intro part member
      have visited := checkPlan_visited known part member
      have depth := visited.depth
      exact ⟨visited.checkable known, by omega⟩
    rcases unknown with ⟨front, part, back, parts, each, unknown⟩ | ⟨each, unknown⟩
    · rw [parts] at inner
      refine .part below parts (fun other member => ?_) ?_
      · obtain ⟨checkable, left⟩ := inner other (List.mem_append_left _ member)
        exact (isNormalWithinBy_true checkable left).mp (each other member)
      · obtain ⟨checkable, left⟩ := inner part (List.mem_append_right _ List.mem_cons_self)
        exact ih checkable left unknown
    · refine .past below (fun part member => ?_) unknown
      obtain ⟨checkable, left⟩ := inner part member
      exact (isNormalWithinBy_true checkable left).mp (each part member)

theorem none_of_overreads (overreads : value.Overreads) (known : value.Checkable) :
    xvariantSerialisedIsNormalConfined value = none := by
  rw [xvariantSerialisedIsNormalConfined]
  have step : ∀ {value : Serialised}, value.Checkable → value.depth < maxRecursionDepth →
      ∃ levels, maxRecursionDepth - value.depth = levels + 1 ∧
        ∀ part ∈ (checkPlan value).parts, part.Checkable ∧ maxRecursionDepth - part.depth = levels := by
    intro value known below
    refine ⟨maxRecursionDepth - value.depth - 1, by omega, fun part member => ?_⟩
    have visited := checkPlan_visited known part member
    have depth := visited.depth
    exact ⟨visited.checkable known, by omega⟩
  induction overreads with
  | past below each behind =>
    obtain ⟨levels, count, inner⟩ := step known below
    rw [count, isNormalWithinBy, gvsIsNormalBy_plan reader_confined _ known, Option.or_none, visitAll_none]
    refine Or.inr ⟨fun part member => ?_, behind⟩
    obtain ⟨checkable, left⟩ := inner part member
    exact (isNormalWithinBy_true checkable left).mpr (each part member)
  | @part value below front back part parts each _ ih =>
    obtain ⟨levels, count, inner⟩ := step known below
    rw [count, isNormalWithinBy, gvsIsNormalBy_plan reader_confined _ known, Option.or_none, visitAll_none]
    rw [parts] at inner
    refine Or.inl ⟨front, part, back, parts, fun other member => ?_, ?_⟩
    · obtain ⟨checkable, left⟩ := inner other (List.mem_append_left _ member)
      exact (isNormalWithinBy_true checkable left).mpr (each other member)
    · obtain ⟨checkable, left⟩ := inner part (List.mem_append_right _ List.mem_cons_self)
      rw [← left]
      exact ih checkable

/-- The check reads bytes of the containers only, and no assertion fails, unless padding goes on behind the end. -/
theorem xvariantSerialisedIsNormalConfined_iff {value : Serialised} (checked : xvariantSerialisedCheck value = true)
    (placed : value.data.address + value.size ≤ wordSize) (present : value.data.address = 0 → value.data.bytes = []) :
    (xvariantSerialisedIsNormalConfined value).isSome = true ↔ ¬value.Overreads := by
  obtain ⟨sized, backed, -⟩ := (xvariantSerialisedCheck_iff value).mp checked
  have known : value.Checkable := ⟨sized, backed, placed, present⟩
  constructor
  · intro decided overreads
    rw [none_of_overreads overreads known] at decided
    cases decided
  · intro safe
    by_contra undecided
    have unknown : xvariantSerialisedIsNormalConfined value = none := by simpa using undecided
    exact safe (overreads_of_none known rfl unknown)

def byteNumberString (bytes : Bytes) : Serialised :=
  { type := .tuple [.basic .byte, .basic .uint32, .basic .string], data := .span 8 bytes, depth := 0 }

theorem byteNumberString_confined : ¬(byteNumberString [7, 0, 0, 0, 1, 0, 0, 0, 65, 0]).Overreads :=
  (xvariantSerialisedIsNormalConfined_iff (by decide) (by decide) (by decide)).mp (by decide)

/-- A byte alone: the padding before the number is looked for behind it. -/
theorem oneByte_overreads : ¬∀ value, xvariantSerialisedCheck value = true →
    value.data.address + value.size ≤ wordSize → (value.data.address = 0 → value.data.bytes = []) →
    (xvariantSerialisedIsNormalConfined value).isSome = true := by
  intro claim
  have decided := claim (byteNumberString [7]) (by decide) (by decide) (by decide)
  have behind : xvariantSerialisedIsNormalConfined (byteNumberString [7]) = none := by decide
  cases decided

end Xpl.Variant
