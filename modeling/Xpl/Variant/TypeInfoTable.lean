import Mathlib.Algebra.Order.BigOperators.Group.Finset
import Mathlib.Data.Finset.Max
import Mathlib.Tactic.Linarith
import Xpl.Library.Checked
import Xpl.Variant.TypeInfo

/-! The global table of container type infos and their reference counts.

Infos live on a heap; addresses are never handed out twice, so that a use of freed
memory shows as an access to nothing. A failed assertion, such an access and a
lookup in a table that is `NULL` all stop the computation.
-/

set_option autoImplicit false

namespace Xpl.Variant
open Xpl.Library

/-- A row of the static table, by its type character, or a container info. -/
inductive Pointer where
  | static (char : UInt8)
  | heap (address : Nat)
  deriving DecidableEq, Repr

inductive Contents where
  | array (element : Pointer)
  | tuple (members : List Pointer)
  deriving DecidableEq, Repr

def Contents.pointers : Contents → List Pointer
  | .array element => [element]
  | .tuple members => members

structure ContainerInfo where
  contents : Contents
  typeString : Bytes
  refCount : Int
  deriving DecidableEq, Repr

/-- `saturated` records that an increment has found the largest integer. -/
structure InfoState where
  heap : Nat → Option ContainerInfo
  next : Nat
  table : Option (List (Bytes × Nat))
  saturated : Bool

def InfoState.initial : InfoState := { heap := fun _ => none, next := 0, table := none, saturated := false }

abbrev InfoAction (α : Type) := Action InfoState α

section Primitives

def maxInt : Int := 2 ^ 31 - 1

/-- Addition on a 32-bit signed integer. -/
def wrapInt (value : Int) : Int := (value + 2 ^ 31) % 2 ^ 32 - 2 ^ 31

def load (address : Nat) : InfoAction ContainerInfo := fun s => (s.heap address, s)

def store (address : Nat) (info : ContainerInfo) : InfoAction Unit :=
  Action.modify fun s => { s with heap := Function.update s.heap address (some info) }

def allocate (info : ContainerInfo) : InfoAction Nat := fun s =>
  (some s.next, { s with heap := Function.update s.heap s.next (some info), next := s.next + 1 })

def free (address : Nat) : InfoAction Unit :=
  Action.modify fun s => { s with heap := Function.update s.heap address none }

def gAtomicRefCountInc (address : Nat) : InfoAction Unit := do
  let info ← load address
  store address { info with refCount := wrapInt (info.refCount + 1) }
  Action.modify fun s => { s with saturated := s.saturated || info.refCount = maxInt }

def gAtomicRefCountDec (address : Nat) : InfoAction Bool := do
  let info ← load address
  store address { info with refCount := wrapInt (info.refCount - 1) }
  pure (info.refCount = 1)

/-- `xhash_table_new` where the table is `NULL`. -/
def ensureTable : InfoAction Unit :=
  Action.modify fun s => { s with table := some (s.table.getD []) }

def lookup (typeString : Bytes) : InfoAction (Option Nat) := fun s =>
  (s.table.map fun entries => entries.lookup typeString, s)

def insert (typeString : Bytes) (address : Nat) : InfoAction Unit := fun s =>
  match s.table with
  | none => (none, s)
  | some entries =>
    (some (), { s with table := some ((typeString, address) :: entries.filter (·.1 ≠ typeString)) })

/-- Remove an entry; the last one takes the table with it. -/
def remove (typeString : Bytes) : InfoAction Unit := fun s =>
  match s.table with
  | none => (none, s)
  | some entries =>
    let kept := entries.filter (·.1 ≠ typeString)
    (some (), { s with table := if kept.length = 0 then none else some kept })

end Primitives

section Operations

/-- A container must have references. -/
def xvariantTypeInfoCheck : Pointer → InfoAction Unit
  | .static c => if (Basic.ofChar c).isSome ∨ c = ascii 'v' then pure () else Action.stop
  | .heap address => do
    let info ← load address
    if info.refCount ≠ 0 then pure () else Action.stop

def xvariantTypeInfoRef (info : Pointer) : InfoAction Pointer := do
  xvariantTypeInfoCheck info
  match info with
  | .static _ => pure info
  | .heap address => do
    gAtomicRefCountInc address
    pure info

/-- The container branch of `xvariant_type_info_get`; `new` is `array_info_new` or
`tuple_info_new`. -/
def getContainer (typeString : Bytes) (new : InfoAction Contents) : InfoAction Pointer := do
  ensureTable
  match ← lookup typeString with
  | some address => do
    let _ ← xvariantTypeInfoRef (.heap address)
    xvariantTypeInfoCheck (.heap address)
    pure (.heap address)
  | none => do
    let contents ← new
    let address ← allocate { contents := contents, typeString := typeString, refCount := 1 }
    insert typeString address
    xvariantTypeInfoCheck (.heap address)
    pure (.heap address)

def getStatic (c : UInt8) : InfoAction Pointer := do
  xvariantTypeInfoCheck (.static c)
  pure (.static c)

def arrayInfoNew (element : InfoAction Pointer) : InfoAction Contents := do
  pure (.array (← element))

/-- The references that `tuple_info_new` takes. -/
def tupleInfoAcquire (members : InfoAction (List Pointer)) : InfoAction Contents := do
  pure (.tuple (← members))

mutual
def xvariantTypeInfoGet : VariantType → InfoAction Pointer
  | .basic b => getStatic b.char
  | .variant => getStatic (ascii 'v')
  | .maybe element =>
    getContainer (VariantType.maybe element).string (arrayInfoNew (xvariantTypeInfoGet element))
  | .array element =>
    getContainer (VariantType.array element).string (arrayInfoNew (xvariantTypeInfoGet element))
  | .tuple items => getContainer (VariantType.tuple items).string (tupleInfoAcquire (getMembers items))
  | .dictEntry key value =>
    getContainer (VariantType.dictEntry key value).string
      (tupleInfoAcquire do
        let first ← getStatic key.char
        let second ← xvariantTypeInfoGet value
        pure [first, second])

/-- The loop of `tuple_allocate_members`. -/
def getMembers : List VariantType → InfoAction (List Pointer)
  | [] => pure []
  | item :: items => do
    let first ← xvariantTypeInfoGet item
    let rest ← getMembers items
    pure (first :: rest)
end

def arrayInfoFree (unref : Pointer → InfoAction PUnit) (address : Nat) (element : Pointer) : InfoAction PUnit := do
  unref element
  free address

def tupleInfoFree (unref : Pointer → InfoAction PUnit) (address : Nat) (members : List Pointer) :
    InfoAction PUnit := do
  members.forM unref
  free address

/-- The body of `xvariant_type_info_unref`, whose recursive calls are `unref`. -/
def unrefStep (unref : Pointer → InfoAction PUnit) (info : Pointer) : InfoAction PUnit := do
  xvariantTypeInfoCheck info
  match info with
  | .static _ => pure ()
  | .heap address => do
    let container ← load address
    if ← gAtomicRefCountDec address then
      remove container.typeString
      match container.contents with
      | .array element => arrayInfoFree unref address element
      | .tuple members => tupleInfoFree unref address members
    else pure ()

def unrefFrom : Nat → Pointer → InfoAction PUnit
  | 0 => fun _ => Action.stop
  | fuel + 1 => unrefStep (unrefFrom fuel)

/-- Members have shorter type strings, which bounds the recursion. -/
def unrefFuel (s : InfoState) : Pointer → Nat
  | .static _ => 2
  | .heap address => ((s.heap address).map fun info => info.typeString.length + 1).getD 1

def xvariantTypeInfoUnref (info : Pointer) : InfoAction PUnit := fun s => unrefFrom (unrefFuel s info) info s

def xvariantTypeInfoAssertNoInfos (s : InfoState) : Bool := s.table.isNone

end Operations

/-! ## The invariant -/

section Invariant
variable {address other : Nat} {dying : List Nat} {entries : List (Bytes × Nat)}
variable {type : VariantType}

def InfoState.live (s : InfoState) (address : Nat) : Option ContainerInfo :=
  (s.heap address).filter fun info => 0 < info.refCount

def references (address : Nat) : Option ContainerInfo → Nat
  | none => 0
  | some info => info.contents.pointers.count (.heap address)

/-- The references that live containers hold on an address. -/
def InfoState.held (s : InfoState) (address : Nat) : Nat :=
  ∑ holder ∈ Finset.range s.next, references address (s.live holder)

/-- The types of the infos that a container's info refers to. -/
def VariantType.subtypes : VariantType → List VariantType
  | .basic _ | .variant => []
  | .maybe element | .array element => [element]
  | .tuple items => items
  | .dictEntry key value => [.basic key, value]

theorem VariantType.length_subtype {type item : VariantType} (member : item ∈ type.subtypes) :
    item.string.length < type.string.length := by
  cases type with
  | basic b => cases member
  | variant => cases member
  | maybe element | array element =>
    rw [List.mem_singleton.mp member]
    simp [VariantType.string, VariantType.toExpr, TypeExpr.string]
  | tuple items =>
    change item ∈ items at member
    have inside := VariantType.length_string_le_strings member
    simp only [VariantType.string, VariantType.toExpr, TypeExpr.string, List.length_cons,
      List.length_append] at inside ⊢
    omega
  | dictEntry key value =>
    simp only [VariantType.subtypes, List.mem_cons, List.not_mem_nil, or_false] at member
    rcases member with rfl | rfl <;>
      simp only [VariantType.string, VariantType.toExpr, TypeExpr.string, List.length_cons,
        List.length_append, List.length_nil] <;> omega

def InfoState.IsInfo (s : InfoState) (type : VariantType) : Pointer → Prop
  | .static c => type.isContainer = false ∧ type.string = [c]
  | .heap address => type.isContainer = true ∧ ∃ info, s.live address = some info ∧ info.typeString = type.string

def external (owned : List (VariantType × Pointer)) (address : Nat) : Nat :=
  (owned.map Prod.snd).count (.heap address)

/-- The state between two calls, or inside one: `owned` are the references that no
live info holds, `dying` the infos that are being freed. -/
structure InfoState.Consistent (s : InfoState) (owned : List (VariantType × Pointer)) (dying : List Nat) :
    Prop where
  bounded : ∀ address info, s.heap address = some info → address < s.next
  typed : ∀ address info, s.live address = some info → info.refCount ≤ maxInt ∧
    ∃ type : VariantType, type.isContainer = true ∧ info.typeString = type.string ∧
      List.Forall₂ s.IsInfo type.subtypes info.contents.pointers
  keys : ((s.table.getD []).map Prod.fst).Nodup
  entries : ∀ string address, (string, address) ∈ s.table.getD [] ↔
    ∃ info, s.live address = some info ∧ info.typeString = string
  counts : ∀ address info, s.live address = some info → info.refCount = external owned address + s.held address
  obtained : ∀ reference ∈ owned, s.IsInfo reference.1 reference.2
  dead : ∀ address ∈ dying, s.live address = none
  freed : ∀ address info, s.heap address = some info → s.live address = none → address ∈ dying

variable {s : InfoState} {info : ContainerInfo}

theorem InfoState.live_eq_some :
    s.live address = some info ↔ s.heap address = some info ∧ 0 < info.refCount := by
  simp only [InfoState.live, Option.filter_eq_some_iff, decide_eq_true_eq]

theorem InfoState.initial_consistent : InfoState.initial.Consistent [] [] where
  bounded _ _ h := nomatch h
  typed _ _ h := by simp [InfoState.live_eq_some, InfoState.initial] at h
  keys := List.nodup_nil
  entries string address := by simp [InfoState.live_eq_some, InfoState.initial]
  counts _ _ h := by simp [InfoState.live_eq_some, InfoState.initial] at h
  obtained _ member := nomatch member
  dead _ member := nomatch member
  freed _ _ h := nomatch h

variable {owned : List (VariantType × Pointer)}

theorem InfoState.Consistent.perm {other : List (VariantType × Pointer)}
    (h : s.Consistent owned dying) (same : owned.Perm other) : s.Consistent other dying where
  bounded := h.bounded
  typed := h.typed
  keys := h.keys
  entries := h.entries
  counts address info live := by
    rw [h.counts address info live, external, external, (same.map Prod.snd).count_eq]
  obtained reference member := h.obtained reference (same.mem_iff.mpr member)
  dead := h.dead
  freed := h.freed

def InfoState.Keeps (s s' : InfoState) (address : Nat) : Prop :=
  ∀ info, s.live address = some info →
    ∃ info', s'.live address = some info' ∧ info'.typeString = info.typeString

theorem InfoState.IsInfo.mono {s' : InfoState} {pointer : Pointer}
    (h : s.IsInfo type pointer) (keeps : ∀ address, pointer = .heap address → s.Keeps s' address) :
    s'.IsInfo type pointer := by
  cases pointer with
  | static c => exact h
  | heap address =>
    obtain ⟨container, info, live, spelled⟩ := h
    obtain ⟨info', live', same⟩ := keeps address rfl info live
    exact ⟨container, info', live', same.trans spelled⟩

theorem InfoState.held_change (s' : InfoState) (bound : address < s.next)
    (next : s'.next = s.next) (others : ∀ other, other ≠ address → s'.live other = s.live other) (target : Nat) :
    s'.held target + references target (s.live address) =
      s.held target + references target (s'.live address) := by
  have member : address ∈ Finset.range s.next := Finset.mem_range.mpr bound
  have rest : ∑ holder ∈ (Finset.range s.next).erase address, references target (s'.live holder) =
      ∑ holder ∈ (Finset.range s.next).erase address, references target (s.live holder) :=
    Finset.sum_congr rfl fun other inside => by rw [others other (Finset.ne_of_mem_erase inside)]
  rw [InfoState.held, InfoState.held, next, ← Finset.add_sum_erase _ _ member,
    ← Finset.add_sum_erase (Finset.range s.next) (fun holder => references target (s.live holder)) member, rest]
  omega

theorem InfoState.references_le_held {holder : Nat} (bound : holder < s.next) (target : Nat) :
    references target (s.live holder) ≤ s.held target :=
  Finset.single_le_sum (f := fun holder => references target (s.live holder)) (fun _ _ => Nat.zero_le _)
    (Finset.mem_range.mpr bound)

theorem InfoState.Consistent.lt_next
    (h : s.Consistent owned dying) (live : s.live address = some info) :
    address < s.next :=
  h.bounded address info (InfoState.live_eq_some.mp live).1

theorem exists_of_mem_forall₂ {α β : Type} {relation : α → β → Prop} {first : List α} {second : List β}
    (h : List.Forall₂ relation first second) {b : β} (member : b ∈ second) : ∃ a ∈ first, relation a b := by
  induction h with
  | nil => cases member
  | cons here _ ih =>
    rcases List.mem_cons.mp member with rfl | later
    · exact ⟨_, List.mem_cons_self, here⟩
    · obtain ⟨a, inside, related⟩ := ih later
      exact ⟨a, List.mem_cons_of_mem _ inside, related⟩

theorem forall₂_imp_of_mem {α β : Type} {relation target : α → β → Prop} {first : List α} {second : List β}
    (h : List.Forall₂ relation first second) (imp : ∀ a b, b ∈ second → relation a b → target a b) :
    List.Forall₂ target first second := by
  induction h with
  | nil => exact .nil
  | cons here _ ih =>
    exact .cons (imp _ _ List.mem_cons_self here)
      (ih fun a b member => imp a b (List.mem_cons_of_mem _ member))

theorem InfoState.Consistent.held_live
    (h : s.Consistent owned dying) {holder : Nat}
    (live : s.live holder = some info) (member : Pointer.heap address ∈ info.contents.pointers) :
    s.live address ≠ none := by
  obtain ⟨-, type, -, -, members⟩ := h.typed holder info live
  obtain ⟨item, -, isInfo⟩ := exists_of_mem_forall₂ members member
  obtain ⟨-, target, found, -⟩ := isInfo
  simp [found]

theorem nodup_keys_unique (keys : (entries.map Prod.fst).Nodup) {string : Bytes}
    {first second : Nat} (here : (string, first) ∈ entries) (there : (string, second) ∈ entries) :
    first = second := by
  have same := List.inj_on_of_nodup_map keys here there rfl
  exact congrArg Prod.snd same

theorem InfoState.Consistent.address_unique
    (h : s.Consistent owned dying) {first second : Nat} {other : ContainerInfo}
    (live : s.live first = some info) (alive : s.live second = some other)
    (same : info.typeString = other.typeString) : first = second :=
  nodup_keys_unique h.keys ((h.entries _ _).mpr ⟨info, live, same⟩) ((h.entries _ _).mpr ⟨other, alive, rfl⟩)

/-- The state in which the count of an info has become `count`. -/
def InfoState.recount (s : InfoState) (address : Nat) (info : ContainerInfo) (count : Int) : InfoState :=
  { s with heap := Function.update s.heap address (some { info with refCount := count }) }

theorem InfoState.recount_live (s : InfoState) (address : Nat) (info : ContainerInfo) (count : Int) :
    (s.recount address info count).live address =
      if 0 < count then some { info with refCount := count } else none := by
  simp only [InfoState.live, InfoState.recount, Function.update_self, Option.filter_some, decide_eq_true_eq]

theorem InfoState.recount_live_ne (s : InfoState) (info : ContainerInfo) (count : Int)
    (ne : other ≠ address) : (s.recount address info count).live other = s.live other := by
  simp only [InfoState.live, InfoState.recount, Function.update_of_ne ne]

theorem InfoState.recount_heap_ne (s : InfoState) (info : ContainerInfo) (count : Int)
    (ne : other ≠ address) : (s.recount address info count).heap other = s.heap other :=
  Function.update_of_ne ne _ _

theorem InfoState.Consistent.recount {other : List (VariantType × Pointer)}
    (h : s.Consistent owned dying) {count : Int}
    (live : s.live address = some info) (positive : 0 < count) (small : count ≤ maxInt)
    (here : count = external other address + s.held address)
    (elsewhere : ∀ b, b ≠ address → external other b = external owned b)
    (obtained : ∀ reference ∈ other, s.IsInfo reference.1 reference.2) :
    (s.recount address info count).Consistent other dying := by
  have now : (s.recount address info count).live address = some { info with refCount := count } := by
    rw [InfoState.recount_live, if_pos positive]
  have keeps : ∀ b, s.Keeps (s.recount address info count) b := by
    intro b found same
    by_cases here : b = address
    · subst here
      rw [live, Option.some.injEq] at same
      exact ⟨_, now, by rw [same]⟩
    · exact ⟨found, by rw [InfoState.recount_live_ne _ _ _ here, same], rfl⟩
  have back : ∀ b found, (s.recount address info count).live b = some found →
      ∃ before, s.live b = some before ∧ found.contents = before.contents ∧
        found.typeString = before.typeString ∧ (b ≠ address → found = before) ∧
        (b = address → found.refCount = count) := by
    intro b found alive
    by_cases here : b = address
    · subst here
      rw [now, Option.some.injEq] at alive
      subst alive
      exact ⟨info, live, rfl, rfl, fun ne => absurd rfl ne, fun _ => rfl⟩
    · rw [InfoState.recount_live_ne _ _ _ here] at alive
      exact ⟨found, alive, rfl, rfl, fun _ => rfl, fun same => absurd same here⟩
  have held : ∀ b, (s.recount address info count).held b = s.held b := by
    intro b
    have change := InfoState.held_change (s.recount address info count) (h.lt_next live) rfl
      (fun other ne => InfoState.recount_live_ne s info count ne) b
    rw [now, live] at change
    exact Nat.add_right_cancel change
  exact {
    bounded := by
      intro b found alloc
      by_cases here : b = address
      · subst here
        exact h.lt_next live
      · exact h.bounded b found (by rwa [InfoState.recount_heap_ne _ _ _ here] at alloc)
    typed := by
      intro b found alive
      obtain ⟨before, alive', contents, string, same, counted⟩ := back b found alive
      obtain ⟨bound, type, container, spelled, members⟩ := h.typed b before alive'
      refine ⟨?_, type, container, string.trans spelled, ?_⟩
      · by_cases here : b = address
        · exact (counted here).symm ▸ small
        · exact (same here).symm ▸ bound
      · rw [contents]
        exact members.imp fun item pointer isInfo => isInfo.mono fun b _ => keeps b
    keys := h.keys
    entries := by
      intro string b
      rw [show (s.recount address info count).table = s.table from rfl, h.entries]
      constructor
      · rintro ⟨found, alive, spelled⟩
        obtain ⟨found', alive', same⟩ := keeps b found alive
        exact ⟨found', alive', same.trans spelled⟩
      · rintro ⟨found, alive, spelled⟩
        obtain ⟨before, alive', -, same, -⟩ := back b found alive
        exact ⟨before, alive', same.symm.trans spelled⟩
    counts := by
      intro b found alive
      obtain ⟨before, alive', -, -, same, counted⟩ := back b found alive
      rw [held]
      by_cases at_address : b = address
      · rw [counted at_address, at_address, here]
      · rw [same at_address, elsewhere b at_address]
        exact h.counts b before alive'
    obtained := fun reference member => (obtained reference member).mono fun b _ => keeps b
    dead := by
      intro b member
      have ne : b ≠ address := by
        rintro rfl
        rw [h.dead b member] at live
        cases live
      rw [InfoState.recount_live_ne _ _ _ ne]
      exact h.dead b member
    freed := by
      intro b found alloc gone
      have ne : b ≠ address := by
        rintro rfl
        rw [now] at gone
        cases gone
      rw [InfoState.recount_live_ne _ _ _ ne] at gone
      exact h.freed b found (by rwa [InfoState.recount_heap_ne _ _ _ ne] at alloc) gone }

def InfoState.retire (s : InfoState) (address : Nat) (info : ContainerInfo) (entries : List (Bytes × Nat)) :
    InfoState :=
  { s.recount address info 0 with table := if entries.length = 0 then none else some entries }

theorem InfoState.retire_table (s : InfoState) (address : Nat) (info : ContainerInfo)
    (entries : List (Bytes × Nat)) : (s.retire address info entries).table.getD [] = entries := by
  simp only [InfoState.retire]
  split
  case isTrue empty => exact (List.length_eq_zero_iff.mp empty).symm
  case isFalse => rfl

theorem external_cons (type : VariantType) (address other : Nat) (owned : List (VariantType × Pointer)) :
    external ((type, .heap address) :: owned) other = external owned other + if address = other then 1 else 0 := by
  simp [external, List.count_cons]

theorem external_append (first second : List (VariantType × Pointer)) (address : Nat) :
    external (first ++ second) address = (first.map Prod.snd).count (.heap address) + external second address := by
  simp [external]

theorem InfoState.Consistent.retire
    (h : s.Consistent ((type, .heap address) :: owned) dying) (live : s.live address = some info)
    (single : info.refCount = 1) (table : s.table = some entries) :
    ∃ pairs : List (VariantType × Pointer), pairs.map Prod.snd = info.contents.pointers ∧
      (∀ pair ∈ pairs, pair.1.string.length < info.typeString.length) ∧
      (s.retire address info (entries.filter (·.1 ≠ info.typeString))).Consistent (pairs ++ owned)
        (address :: dying) := by
  set after := s.retire address info (entries.filter (·.1 ≠ info.typeString)) with after_def
  obtain ⟨-, whole, -, spelled, members⟩ := h.typed address info live
  have lengths := members.length_eq
  have gone : after.live address = none := by
    change (s.recount address info 0).live address = none
    rw [InfoState.recount_live]
    rfl
  have others : ∀ b, b ≠ address → after.live b = s.live b :=
    fun b ne => InfoState.recount_live_ne s info 0 ne
  have back : ∀ b found, after.live b = some found → b ≠ address ∧ s.live b = some found := by
    intro b found alive
    have ne : b ≠ address := by
      rintro rfl
      rw [gone] at alive
      cases alive
    exact ⟨ne, others b ne ▸ alive⟩
  -- The only reference is the one being released.
  have count := h.counts address info live
  rw [single, external_cons, if_pos rfl] at count
  have unheld : s.held address = 0 := by omega
  have keeps : ∀ b, b ≠ address → s.Keeps after b := fun b ne found alive =>
    ⟨found, (others b ne).trans alive, rfl⟩
  have not_member : ∀ b found, s.live b = some found → Pointer.heap address ∉ found.contents.pointers := by
    intro b found alive member
    have positive := List.count_pos_iff.mpr member
    have bound := InfoState.references_le_held (h.lt_next alive) address
    rw [alive, unheld] at bound
    simp only [references] at bound
    omega
  refine ⟨whole.subtypes.zip info.contents.pointers, List.map_snd_zip (by omega), ?_, ?_⟩
  · intro pair member
    rw [spelled]
    exact VariantType.length_subtype (List.of_mem_zip member).1
  · exact {
      bounded := by
        intro b found alloc
        by_cases here : b = address
        · subst here
          exact h.lt_next live
        · exact h.bounded b found (by rwa [after_def, InfoState.retire, InfoState.recount_heap_ne _ _ _ here] at alloc)
      typed := by
        intro b found alive
        obtain ⟨-, alive'⟩ := back b found alive
        obtain ⟨bound, type, container, spelled, members⟩ := h.typed b found alive'
        refine ⟨bound, type, container, spelled, forall₂_imp_of_mem members fun item pointer member isInfo => ?_⟩
        refine isInfo.mono fun c same => keeps c ?_
        rintro rfl
        exact not_member b found alive' (same ▸ member)
      keys := by
        have keys := h.keys
        rw [table] at keys
        rw [after_def, InfoState.retire_table]
        exact keys.sublist (List.filter_sublist.map Prod.fst)
      entries := by
        intro string b
        have entry := h.entries string b
        rw [table, Option.getD_some] at entry
        rw [after_def, InfoState.retire_table, List.mem_filter, entry]
        constructor
        · rintro ⟨⟨found, alive, same⟩, kept⟩
          have ne : b ≠ address := by
            rintro rfl
            rw [live, Option.some.injEq] at alive
            subst alive
            simp [same] at kept
          exact ⟨found, (others b ne).trans alive, same⟩
        · rintro ⟨found, alive, same⟩
          obtain ⟨ne, alive'⟩ := back b found alive
          refine ⟨⟨found, alive', same⟩, ?_⟩
          -- Two entries of one string would be one address.
          have unique : string ≠ info.typeString := by
            rintro rfl
            exact ne (h.address_unique alive' live same)
          simpa using unique
      counts := by
        intro b found alive
        obtain ⟨ne, alive'⟩ := back b found alive
        have change := InfoState.held_change after (h.lt_next live) rfl others b
        rw [gone, live] at change
        simp only [references] at change
        rw [external_append, List.map_snd_zip (by omega), h.counts b found alive', external_cons,
          if_neg (Ne.symm ne)]
        omega
      obtained := by
        intro reference member
        rcases List.mem_append.mp member with inside | outside
        · have related := (List.forall₂_iff_zip.mp members).2 inside
          refine related.mono fun c same => keeps c ?_
          rintro rfl
          exact not_member c info live (same ▸ (List.of_mem_zip inside).2)
        · refine (h.obtained reference (List.mem_cons_of_mem _ outside)).mono fun c same => keeps c ?_
          rintro rfl
          have positive : 0 < external owned c :=
            List.count_pos_iff.mpr (List.mem_map.mpr ⟨reference, outside, same⟩)
          omega
      dead := by
        intro b member
        rcases List.mem_cons.mp member with rfl | older
        · exact gone
        · by_cases here : b = address
          · subst here
            exact gone
          · rw [others b here]
            exact h.dead b older
      freed := by
        intro b found alloc nothing
        by_cases here : b = address
        · exact here ▸ List.mem_cons_self
        · rw [others b here] at nothing
          exact List.mem_cons_of_mem _ (h.freed b found
            (by rwa [after_def, InfoState.retire, InfoState.recount_heap_ne _ _ _ here] at alloc) nothing) }

def InfoState.release (s : InfoState) (address : Nat) : InfoState :=
  { s with heap := Function.update s.heap address none }

theorem InfoState.release_heap_ne (s : InfoState) (ne : other ≠ address) :
    (s.release address).heap other = s.heap other :=
  Function.update_of_ne ne _ _

theorem InfoState.Consistent.release
    (h : s.Consistent owned (address :: dying)) : (s.release address).Consistent owned dying := by
  have same : (s.release address).live = s.live := by
    funext b
    by_cases here : b = address
    · subst here
      rw [h.dead b List.mem_cons_self]
      simp [InfoState.live, InfoState.release]
    · simp only [InfoState.live, InfoState.release, Function.update_of_ne here]
  have inside : ∀ b info, (s.release address).heap b = some info → b ≠ address ∧ s.heap b = some info := by
    intro b info alloc
    by_cases here : b = address
    · subst here
      simp [InfoState.release] at alloc
    · exact ⟨here, by rwa [InfoState.release_heap_ne _ here] at alloc⟩
  have isInfo : ∀ type pointer, s.IsInfo type pointer → (s.release address).IsInfo type pointer :=
    fun type pointer known => known.mono fun b _ info live => ⟨info, by rw [same, live], rfl⟩
  exact {
    bounded := fun b info alloc => h.bounded b info (inside b info alloc).2
    typed := by
      intro b info live
      rw [same] at live
      obtain ⟨bound, type, container, spelled, members⟩ := h.typed b info live
      exact ⟨bound, type, container, spelled, members.imp isInfo⟩
    keys := h.keys
    entries := by rw [same]; exact h.entries
    counts := by
      intro b info live
      rw [same] at live
      rw [h.counts b info live, InfoState.held, InfoState.held, same]
      rfl
    obtained := fun reference member => isInfo _ _ (h.obtained reference member)
    dead := fun b member => by rw [same]; exact h.dead b (List.mem_cons_of_mem _ member)
    freed := by
      intro b info alloc gone
      obtain ⟨ne, alloc⟩ := inside b info alloc
      rw [same] at gone
      exact (List.mem_cons.mp (h.freed b info alloc gone)).resolve_left ne }

def InfoState.create (s : InfoState) (info : ContainerInfo) (entries : List (Bytes × Nat)) : InfoState :=
  { s with
    heap := Function.update s.heap s.next (some info)
    next := s.next + 1
    table := some ((info.typeString, s.next) :: entries.filter (·.1 ≠ info.typeString)) }

theorem InfoState.create_heap_ne (s : InfoState) (info : ContainerInfo) (entries : List (Bytes × Nat))
    (ne : other ≠ s.next) : (s.create info entries).heap other = s.heap other :=
  Function.update_of_ne ne _ _

theorem InfoState.Consistent.create {pairs : List (VariantType × Pointer)}
    {contents : Contents}
    (h : s.Consistent (pairs ++ owned) []) (container : type.isContainer = true)
    (types : pairs.map Prod.fst = type.subtypes) (pointers : pairs.map Prod.snd = contents.pointers)
    (absent : ∀ address info, s.live address = some info → info.typeString ≠ type.string)
    (table : s.table = some entries) :
    (s.create { contents := contents, typeString := type.string, refCount := 1 } entries).Consistent
      ((type, .heap s.next) :: owned) [] := by
  set info : ContainerInfo := { contents := contents, typeString := type.string, refCount := 1 } with info_def
  set after := s.create info entries with after_def
  have fresh : ∀ b found, s.live b = some found → b ≠ s.next := fun b found alive =>
    Nat.ne_of_lt (h.lt_next alive)
  have now : after.live s.next = some info := by
    simp only [after_def, InfoState.live, InfoState.create, Function.update_self, Option.filter_some, info_def]
    rfl
  have others : ∀ b, b ≠ s.next → after.live b = s.live b := by
    intro b ne
    simp only [after_def, InfoState.live, InfoState.create, Function.update_of_ne ne]
  have keeps : ∀ b, s.Keeps after b := fun b found alive =>
    ⟨found, (others b (fresh b found alive)).trans alive, rfl⟩
  have split : ∀ b found, after.live b = some found →
      (b = s.next ∧ found = info) ∨ (b ≠ s.next ∧ s.live b = some found) := by
    intro b found alive
    by_cases here : b = s.next
    · subst here
      rw [now, Option.some.injEq] at alive
      exact Or.inl ⟨rfl, alive.symm⟩
    · exact Or.inr ⟨here, others b here ▸ alive⟩
  -- Nothing refers to an address before it is handed out.
  have nowhere : ∀ type pointer, s.IsInfo type pointer → pointer ≠ .heap s.next := by
    rintro type pointer isInfo rfl
    obtain ⟨-, found, alive, -⟩ := isInfo
    exact fresh _ found alive rfl
  have nothing : s.live s.next = none := by
    cases alive : s.live s.next with
    | none => rfl
    | some found => exact absurd rfl (fresh _ found alive)
  have held : ∀ b, after.held b = s.held b + contents.pointers.count (.heap b) := by
    intro b
    rw [InfoState.held, show after.next = s.next + 1 from rfl, Finset.sum_range_succ, now]
    congr 1
    exact Finset.sum_congr rfl fun c member => by rw [others c (Nat.ne_of_lt (Finset.mem_range.mp member))]
  have unowned : external owned s.next = 0 := by
    rw [external, List.count_eq_zero]
    intro member
    obtain ⟨reference, inside, same⟩ := List.mem_map.mp member
    exact nowhere _ _ (h.obtained reference (List.mem_append_right _ inside)) same
  have unlisted : contents.pointers.count (.heap s.next) = 0 := by
    rw [← pointers, List.count_eq_zero]
    intro member
    obtain ⟨reference, inside, same⟩ := List.mem_map.mp member
    exact nowhere _ _ (h.obtained reference (List.mem_append_left _ inside)) same
  have unheld : s.held s.next = 0 := by
    rw [InfoState.held, Finset.sum_eq_zero]
    intro b _
    cases alive : s.live b with
    | none => rfl
    | some found =>
      rw [references, List.count_eq_zero]
      intro member
      exact h.held_live alive member nothing
  exact {
    bounded := by
      intro b found alloc
      by_cases here : b = s.next
      · exact here ▸ Nat.lt_succ_self _
      · exact Nat.lt_succ_of_lt (h.bounded b found
          (by rwa [after_def, InfoState.create_heap_ne _ _ _ here] at alloc))
    typed := by
      intro b found alive
      rcases split b found alive with ⟨rfl, rfl⟩ | ⟨-, alive'⟩
      · refine ⟨by simp [info_def, maxInt], type, container, rfl, ?_⟩
        rw [← types, show info.contents.pointers = pairs.map Prod.snd from pointers.symm]
        rw [List.forall₂_map_left_iff, List.forall₂_map_right_iff, List.forall₂_same]
        intro pair member
        exact (h.obtained pair (List.mem_append_left _ member)).mono fun c _ => keeps c
      · obtain ⟨bound, whole, container, spelled, members⟩ := h.typed b found alive'
        exact ⟨bound, whole, container, spelled, members.imp fun _ _ known => known.mono fun c _ => keeps c⟩
    keys := by
      have keys := h.keys
      rw [table] at keys
      simp only [after_def, InfoState.create, Option.getD_some, List.map_cons, List.nodup_cons]
      refine ⟨?_, keys.sublist (List.filter_sublist.map Prod.fst)⟩
      simp
    entries := by
      intro string b
      have entry := h.entries string b
      rw [table, Option.getD_some] at entry
      simp only [after_def, InfoState.create, Option.getD_some, List.mem_cons, List.mem_filter, entry]
      constructor
      · rintro (same | ⟨⟨found, alive, spelled⟩, -⟩)
        · obtain ⟨rfl, rfl⟩ := Prod.mk.inj same
          exact ⟨info, now, rfl⟩
        · exact ⟨found, (others b (fresh b found alive)).trans alive, spelled⟩
      · rintro ⟨found, alive, spelled⟩
        rcases split b found alive with ⟨rfl, rfl⟩ | ⟨ne, alive'⟩
        · exact Or.inl (by rw [← spelled])
        · refine Or.inr ⟨⟨found, alive', spelled⟩, ?_⟩
          simpa [← spelled] using absent b found alive'
    counts := by
      intro b found alive
      rw [held, external_cons]
      rcases split b found alive with ⟨rfl, rfl⟩ | ⟨ne, alive'⟩
      · rw [if_pos rfl, unowned, unheld, unlisted]
        rfl
      · rw [if_neg (Ne.symm ne), h.counts b found alive', external_append, pointers]
        omega
    obtained := by
      intro reference member
      rcases List.mem_cons.mp member with rfl | older
      · exact ⟨container, info, now, rfl⟩
      · exact (h.obtained reference (List.mem_append_right _ older)).mono fun c _ => keeps c
    dead := fun _ member => nomatch member
    freed := by
      intro b found alloc gone
      have ne : b ≠ s.next := by
        rintro rfl
        rw [now] at gone
        cases gone
      rw [others b ne] at gone
      exact h.freed b found (by rwa [after_def, InfoState.create_heap_ne _ _ _ ne] at alloc) gone }

end Invariant

/-! ## What each operation does -/

section Specifications
variable {address : Nat} {type : VariantType} {c : UInt8}
variable {dying : List Nat}

/-- After a saturated count nothing is promised. -/
def Lost (s : InfoState) : Prop := s.saturated = true

/-- The type strings whose infos are being built: the table exists and has none of
them yet. -/
def InfoState.Awaits (s : InfoState) (strings : List Bytes) : Prop :=
  ∀ string ∈ strings, s.table ≠ none ∧ ∀ address info, s.live address = some info → info.typeString ≠ string

theorem mem_of_lookup {entries : List (Bytes × Nat)} {string : Bytes}
    (found : entries.lookup string = some address) : (string, address) ∈ entries := by
  obtain ⟨before, after, rfl, -⟩ := List.lookup_eq_some_iff.mp found
  simp

theorem not_mem_of_lookup {entries : List (Bytes × Nat)} {string : Bytes}
    (missing : entries.lookup string = none) : (string, address) ∉ entries := by
  intro member
  have differ := List.lookup_eq_none_iff.mp missing _ member
  simp at differ

variable {s : InfoState} {owned : List (VariantType × Pointer)}

theorem InfoState.Consistent.own_static
    (h : s.Consistent owned dying) (isInfo : s.IsInfo type (.static c)) :
    s.Consistent ((type, .static c) :: owned) dying :=
  { h with
    counts := fun address info live => by
      rw [h.counts address info live, external, external, List.map_cons, List.count_cons_of_ne (by simp)]
    obtained := List.forall_mem_cons.mpr ⟨isInfo, h.obtained⟩ }

theorem InfoState.Consistent.saturate
    (h : s.Consistent owned dying) (flag : Bool) : { s with saturated := flag }.Consistent owned dying :=
  ⟨h.bounded, h.typed, h.keys, h.entries, h.counts, h.obtained, h.dead, h.freed⟩

theorem InfoState.IsInfo.static_char
    (h : s.IsInfo type (.static c)) : (Basic.ofChar c).isSome ∨ c = ascii 'v' := by
  obtain ⟨plain, spelled⟩ := h
  cases type with
  | basic b =>
    obtain rfl : b.char = c := List.head_eq_of_cons_eq spelled
    simp
  | variant => exact Or.inr (List.head_eq_of_cons_eq spelled).symm
  | _ => simp [VariantType.isContainer] at plain

theorem xvariantTypeInfoCheck_state (pointer : Pointer) (s : InfoState) :
    (xvariantTypeInfoCheck pointer s).2 = s := by
  cases pointer with
  | static c =>
    rw [xvariantTypeInfoCheck]
    split <;> rfl
  | heap address =>
    simp only [xvariantTypeInfoCheck, Action.run_bind, load]
    cases s.heap address with
    | none => rfl
    | some info => dsimp only; split <;> rfl

theorem xvariantTypeInfoCheck_triple {pre : InfoState → Prop} (pointer : Pointer)
    (valid : ∀ s, pre s → ∃ type, s.IsInfo type pointer) :
    Action.Triple Lost pre (xvariantTypeInfoCheck pointer) fun _ => pre := by
  have run := xvariantTypeInfoCheck_state pointer
  refine ⟨fun s lost => by rw [run]; exact lost, fun s holds => Or.inr ⟨(), ?_, by rw [run]; exact holds⟩⟩
  obtain ⟨type, isInfo⟩ := valid s holds
  cases pointer with
  | static c =>
    rw [xvariantTypeInfoCheck, if_pos isInfo.static_char]
    rfl
  | heap address =>
    obtain ⟨-, info, live, -⟩ := isInfo
    obtain ⟨alloc, positive⟩ := InfoState.live_eq_some.mp live
    simp only [xvariantTypeInfoCheck, Action.run_bind, load, alloc]
    rw [if_pos (by omega)]
    rfl

theorem run_gAtomicRefCountInc {info : ContainerInfo}
    (alloc : s.heap address = some info) :
    gAtomicRefCountInc address s =
      (some (), { s.recount address info (wrapInt (info.refCount + 1)) with
        saturated := s.saturated || decide (info.refCount = maxInt) }) := by
  simp only [gAtomicRefCountInc, Action.run_bind, load, alloc, store, Action.modify]
  rfl

theorem wrapInt_of_mem {value : Int} (low : -(2 ^ 31) ≤ value) (high : value ≤ maxInt) : wrapInt value = value := by
  simp only [wrapInt, maxInt] at *
  omega

theorem gAtomicRefCountInc_stays (s : InfoState) (lost : Lost s) :
    Lost (gAtomicRefCountInc address s).2 := by
  cases alloc : s.heap address with
  | none => simpa [gAtomicRefCountInc, Action.run_bind, load, alloc] using lost
  | some info =>
    rw [run_gAtomicRefCountInc alloc]
    simp only [Lost] at lost ⊢
    simp [lost]

theorem gAtomicRefCountInc_triple (owned : List (VariantType × Pointer)) (type : VariantType) (address : Nat)
    (side : List Bytes) :
    Action.Triple Lost
      (fun s => s.Consistent owned [] ∧ s.IsInfo type (.heap address) ∧ s.Awaits side)
      (gAtomicRefCountInc address)
      fun _ s => s.Consistent ((type, .heap address) :: owned) [] ∧ s.Awaits side := by
  refine ⟨gAtomicRefCountInc_stays, fun s ⟨h, isInfo, awaits⟩ => ?_⟩
  obtain ⟨container, info, live, spelled⟩ := isInfo
  obtain ⟨alloc, positive⟩ := InfoState.live_eq_some.mp live
  rw [run_gAtomicRefCountInc alloc]
  by_cases full : info.refCount = maxInt
  · exact Or.inl (by simp [Lost, full])
  · have small := (h.typed address info live).1
    have exact_sum : wrapInt (info.refCount + 1) = info.refCount + 1 :=
      wrapInt_of_mem (by omega) (by omega)
    rw [exact_sum]
    refine Or.inr ⟨(), rfl, ?_, ?_⟩
    · apply InfoState.Consistent.saturate
      refine h.recount live (by omega) (by omega) ?_ (fun b ne => ?_) (fun reference member => ?_)
      · rw [external_cons, if_pos rfl, h.counts address info live]
        omega
      · rw [external_cons, if_neg (Ne.symm ne), Nat.add_zero]
      · rcases List.mem_cons.mp member with rfl | older
        · exact ⟨container, info, live, spelled⟩
        · exact h.obtained reference older
    · intro string member
      refine ⟨(awaits string member).1, fun b found alive => ?_⟩
      change (s.recount address info (info.refCount + 1)).live b = some found at alive
      by_cases here : b = address
      · subst here
        rw [InfoState.recount_live, if_pos (by omega), Option.some.injEq] at alive
        exact alive ▸ (awaits string member).2 b info live
      · rw [InfoState.recount_live_ne _ _ _ here] at alive
        exact (awaits string member).2 b found alive

theorem xvariantTypeInfoRef_triple (owned : List (VariantType × Pointer)) (type : VariantType) (pointer : Pointer)
    (side : List Bytes) :
    Action.Triple Lost
      (fun s => s.Consistent owned [] ∧ s.IsInfo type pointer ∧ s.Awaits side)
      (xvariantTypeInfoRef pointer)
      fun result s => result = pointer ∧ s.Consistent ((type, pointer) :: owned) [] ∧ s.Awaits side := by
  refine (xvariantTypeInfoCheck_triple pointer fun s h => ⟨type, h.2.1⟩).bind fun _ => ?_
  cases pointer with
  | static c =>
    refine .ret fun s ⟨h, isInfo, awaits⟩ => ⟨rfl, ?_, awaits⟩
    exact h.own_static isInfo
  | heap address =>
    exact (gAtomicRefCountInc_triple owned type address side).bind fun _ => .ret fun s h => ⟨rfl, h⟩

theorem ensureTable_triple (owned : List (VariantType × Pointer)) (side : List Bytes) :
    Action.Triple Lost (fun s => s.Consistent owned [] ∧ s.Awaits side) ensureTable
      fun _ s => (s.Consistent owned [] ∧ s.Awaits side) ∧ s.table ≠ none := by
  refine .modify (fun s lost => lost) fun s ⟨h, awaits⟩ => ⟨⟨?_, fun string member => ?_⟩, by simp⟩
  · exact ⟨h.bounded, h.typed, h.keys, h.entries, h.counts, h.obtained, h.dead, h.freed⟩
  · exact ⟨by simp, (awaits string member).2⟩

theorem lookup_triple (owned : List (VariantType × Pointer)) (side : List Bytes) (type : VariantType)
    (container : type.isContainer = true) :
    Action.Triple Lost (fun s => (s.Consistent owned [] ∧ s.Awaits side) ∧ s.table ≠ none)
      (lookup type.string)
      fun result s => match result with
        | some address => s.Consistent owned [] ∧ s.IsInfo type (.heap address) ∧ s.Awaits side
        | none => s.Consistent owned [] ∧ s.Awaits (type.string :: side) := by
  refine ⟨fun s lost => lost, fun s ⟨⟨h, awaits⟩, some_table⟩ => Or.inr ?_⟩
  obtain ⟨entries, table⟩ := Option.ne_none_iff_exists'.mp some_table
  have entry := h.entries type.string
  rw [table, Option.getD_some] at entry
  refine ⟨entries.lookup type.string, by simp [lookup, table], ?_⟩
  change match entries.lookup type.string with
    | some address => s.Consistent owned [] ∧ s.IsInfo type (.heap address) ∧ s.Awaits side
    | none => s.Consistent owned [] ∧ s.Awaits (type.string :: side)
  cases found : entries.lookup type.string with
  | some address =>
    obtain ⟨info, live, spelled⟩ := (entry address).mp (mem_of_lookup found)
    exact ⟨h, ⟨container, info, live, spelled⟩, awaits⟩
  | none =>
    refine ⟨h, fun string member => ?_⟩
    rcases List.mem_cons.mp member with rfl | older
    · refine ⟨some_table, fun address info live spelled => ?_⟩
      have inside := (entry address).mpr ⟨info, live, spelled⟩
      exact not_mem_of_lookup found inside
    · exact awaits string older

theorem insert_allocate_triple (owned : List (VariantType × Pointer)) {side : List Bytes}
    (container : type.isContainer = true) (shorter : ∀ string ∈ side, type.string.length < string.length)
    (contents : Contents) :
    Action.Triple Lost
      (fun s => (∃ pairs : List (VariantType × Pointer), pairs.map Prod.fst = type.subtypes ∧
        pairs.map Prod.snd = contents.pointers ∧ s.Consistent (pairs ++ owned) []) ∧
        s.Awaits (type.string :: side))
      (do
        let address ← allocate { contents := contents, typeString := type.string, refCount := 1 }
        insert type.string address
        pure address)
      fun address s => s.Consistent ((type, .heap address) :: owned) [] ∧ s.Awaits side := by
  refine ⟨fun s lost => ?_, fun s ⟨⟨pairs, types, pointers, h⟩, awaits⟩ => Or.inr ⟨s.next, ?_⟩⟩
  · simp only [Action.run_bind, allocate, insert]
    cases s.table <;> exact lost
  · obtain ⟨some_table, absent⟩ := awaits type.string List.mem_cons_self
    obtain ⟨entries, table⟩ := Option.ne_none_iff_exists'.mp some_table
    set info : ContainerInfo := { contents := contents, typeString := type.string, refCount := 1 } with info_def
    have run : (do
        let address ← allocate info
        insert type.string address
        pure address : InfoAction Nat) s = (some s.next, s.create info entries) := by
      simp only [Action.run_bind, allocate, insert, table]
      rfl
    rw [run]
    refine ⟨rfl, h.create container types pointers absent table, fun string member => ⟨by simp [InfoState.create], ?_⟩⟩
    intro address found alive
    by_cases here : address = s.next
    · subst here
      have now : (s.create info entries).live s.next = some info := by
        simp [InfoState.live, InfoState.create, info_def]
      rw [now, Option.some.injEq] at alive
      subst alive
      intro same
      exact absurd (congrArg List.length same) (Nat.ne_of_lt (shorter string member))
    · have before : s.live address = some found := by
        rwa [InfoState.live, InfoState.create_heap_ne _ _ _ here] at alive
      exact (awaits string (List.mem_cons_of_mem _ member)).2 address found before

theorem getContainer_triple {side : List Bytes}
    {new : InfoAction Contents} (container : type.isContainer = true)
    (shorter : ∀ string ∈ side, type.string.length < string.length)
    (acquires : Action.Triple Lost (fun s => s.Consistent owned [] ∧ s.Awaits (type.string :: side)) new
      fun contents s => (∃ pairs : List (VariantType × Pointer), pairs.map Prod.fst = type.subtypes ∧
        pairs.map Prod.snd = contents.pointers ∧ s.Consistent (pairs ++ owned) []) ∧
        s.Awaits (type.string :: side)) :
    Action.Triple Lost (fun s => s.Consistent owned [] ∧ s.Awaits side) (getContainer type.string new)
      fun pointer s => s.Consistent ((type, pointer) :: owned) [] ∧ s.Awaits side := by
  refine (ensureTable_triple owned side).bind fun _ => (lookup_triple owned side type container).bind fun found => ?_
  cases found with
  | some address =>
    refine (xvariantTypeInfoRef_triple owned type (.heap address) side).bind fun _ => ?_
    refine (xvariantTypeInfoCheck_triple (.heap address) ?_).bind fun _ => .ret fun s h => h.2
    exact fun s h => ⟨type, h.2.1.obtained _ List.mem_cons_self⟩
  | none =>
    refine acquires.bind fun contents => ?_
    have published := insert_allocate_triple owned container shorter contents
    have rest : ∀ address, Action.Triple Lost
        (fun s => s.Consistent ((type, .heap address) :: owned) [] ∧ s.Awaits side)
        (do
          xvariantTypeInfoCheck (.heap address)
          pure (Pointer.heap address))
        fun pointer s => s.Consistent ((type, pointer) :: owned) [] ∧ s.Awaits side := fun address =>
      (xvariantTypeInfoCheck_triple (.heap address) fun s h => ⟨type, h.1.obtained _ List.mem_cons_self⟩).bind
        fun _ => .ret fun s h => h
    simpa only [bind_assoc, pure_bind] using published.bind rest

theorem getStatic_triple {pre : InfoState → Prop} (valid : ∀ s, pre s → ∃ type, s.IsInfo type (.static c)) :
    Action.Triple Lost pre (getStatic c) fun pointer s => pointer = .static c ∧ pre s :=
  (xvariantTypeInfoCheck_triple (.static c) valid).bind fun _ => .ret fun _ h => ⟨rfl, h⟩

/-- What acquiring an info of a type does: one more reference is owned. -/
def Acquires (type : VariantType) (get : InfoAction Pointer) : Prop :=
  ∀ (owned : List (VariantType × Pointer)) (side : List Bytes),
    (∀ string ∈ side, type.string.length < string.length) →
      Action.Triple Lost (fun s => s.Consistent owned [] ∧ s.Awaits side) get
        fun pointer s => s.Consistent ((type, pointer) :: owned) [] ∧ s.Awaits side

theorem getStatic_acquires {type : VariantType} {c : UInt8} (plain : type.isContainer = false)
    (spelled : type.string = [c]) : Acquires type (getStatic c) := by
  intro owned side _
  refine (getStatic_triple fun s _ => ⟨type, plain, spelled⟩).weaken (fun s h => h) ?_
  rintro pointer s ⟨rfl, h, awaits⟩
  exact ⟨h.own_static ⟨plain, spelled⟩, awaits⟩

theorem arrayInfoNew_acquires {element : VariantType} {get : InfoAction Pointer}
    (container : type.isContainer = true) (subtypes : type.subtypes = [element]) (acquires : Acquires element get) :
    Acquires type (getContainer type.string (arrayInfoNew get)) := by
  intro owned side shorter
  refine getContainer_triple container shorter ?_
  have below : element.string.length < type.string.length :=
    VariantType.length_subtype (subtypes ▸ List.mem_singleton_self element)
  refine (acquires owned (type.string :: side) ?_).bind fun pointer => .ret fun s ⟨h, awaits⟩ => ⟨?_, awaits⟩
  · exact List.forall_mem_cons.mpr ⟨below, fun string member => Nat.lt_trans below (shorter string member)⟩
  · exact ⟨[(element, pointer)], by simp [subtypes], rfl, h⟩

theorem tupleInfoAcquire_acquires {get : InfoAction (List Pointer)}
    (container : type.isContainer = true)
    (acquires : ∀ (owned : List (VariantType × Pointer)) (side : List Bytes),
      (∀ string ∈ side, type.string.length ≤ string.length) →
        Action.Triple Lost (fun s => s.Consistent owned [] ∧ s.Awaits side) get
          fun pointers s => (∃ pairs : List (VariantType × Pointer), pairs.map Prod.fst = type.subtypes ∧
            pairs.map Prod.snd = pointers ∧ s.Consistent (pairs ++ owned) []) ∧ s.Awaits side) :
    Acquires type (getContainer type.string (tupleInfoAcquire get)) := by
  intro owned side shorter
  refine getContainer_triple container shorter ?_
  refine (acquires owned (type.string :: side) ?_).bind fun pointers => .ret fun s h => h
  exact List.forall_mem_cons.mpr ⟨Nat.le_refl _, fun string member => Nat.le_of_lt (shorter string member)⟩

theorem getMembers_acquires {items : List VariantType}
    (each : ∀ item ∈ items, Acquires item (xvariantTypeInfoGet item)) {bound : Nat}
    (below : ∀ item ∈ items, item.string.length < bound) (owned : List (VariantType × Pointer)) (side : List Bytes)
    (longer : ∀ string ∈ side, bound ≤ string.length) :
    Action.Triple Lost (fun s => s.Consistent owned [] ∧ s.Awaits side) (getMembers items)
      fun pointers s => (∃ pairs : List (VariantType × Pointer), pairs.map Prod.fst = items ∧
        pairs.map Prod.snd = pointers ∧ s.Consistent (pairs ++ owned) []) ∧ s.Awaits side := by
  -- member by member: what was acquired so far is owned while the next is looked up
  induction items generalizing owned with
  | nil =>
    exact .ret fun s ⟨h, awaits⟩ => ⟨⟨[], rfl, rfl, h⟩, awaits⟩
  | cons item items ih =>
    have first := each item List.mem_cons_self owned side fun string member =>
      Nat.lt_of_lt_of_le (below item List.mem_cons_self) (longer string member)
    refine first.bind fun pointer => (ih (fun other member => each other (List.mem_cons_of_mem _ member))
      (fun other member => below other (List.mem_cons_of_mem _ member)) ((item, pointer) :: owned)).bind
        fun pointers => .ret fun s ⟨⟨pairs, types, targets, h⟩, awaits⟩ => ⟨⟨(item, pointer) :: pairs, ?_⟩, awaits⟩
    exact ⟨by simp [types], by simp [targets], h.perm List.perm_middle⟩

theorem xvariantTypeInfoGet_acquires (type : VariantType) : Acquires type (xvariantTypeInfoGet type) := by
  -- over the type: a container of a new type acquires its element or members first
  induction type with
  | basic b =>
    exact getStatic_acquires rfl rfl
  | variant =>
    exact getStatic_acquires rfl rfl
  | maybe element ih =>
    exact arrayInfoNew_acquires rfl rfl ih
  | array element ih =>
    exact arrayInfoNew_acquires rfl rfl ih
  | tuple items ih =>
    exact tupleInfoAcquire_acquires rfl fun owned side longer =>
      getMembers_acquires ih (fun item member => @VariantType.length_subtype (.tuple items) item member)
        owned side longer
  | dictEntry key value ih =>
    refine tupleInfoAcquire_acquires rfl fun owned side longer => ?_
    have shorter : ∀ item ∈ (VariantType.dictEntry key value).subtypes, ∀ string ∈ side,
        item.string.length < string.length := fun item member string inside =>
      Nat.lt_of_lt_of_le (VariantType.length_subtype member) (longer string inside)
    have first := @getStatic_acquires (.basic key) key.char rfl rfl owned side (shorter _ List.mem_cons_self)
    refine first.bind fun pointer => (ih ((.basic key, pointer) :: owned) side (shorter _ (by simp [VariantType.subtypes]))).bind
      fun other => .ret fun s ⟨h, awaits⟩ => ⟨⟨[(.basic key, pointer), (value, other)], rfl, rfl, ?_⟩, awaits⟩
    exact h.perm (List.Perm.swap _ _ _)

theorem InfoState.Consistent.disown_static
    (h : s.Consistent ((type, .static c) :: owned) dying) :
    s.Consistent owned dying :=
  { h with
    counts := fun address info live => by
      rw [h.counts address info live, external, external, List.map_cons, List.count_cons_of_ne (by simp)]
    obtained := fun reference member => h.obtained reference (List.mem_cons_of_mem _ member) }

theorem load_stays (address : Nat) (s : InfoState) (lost : Lost s) : Lost (load address s).2 := lost

theorem run_gAtomicRefCountDec {info : ContainerInfo}
    (alloc : s.heap address = some info) :
    gAtomicRefCountDec address s =
      (some (decide (info.refCount = 1)), s.recount address info (wrapInt (info.refCount - 1))) := by
  simp only [gAtomicRefCountDec, Action.run_bind, load, alloc, store, Action.modify]
  rfl

theorem gAtomicRefCountDec_stays (address : Nat) (s : InfoState) (lost : Lost s) :
    Lost (gAtomicRefCountDec address s).2 := by
  cases alloc : s.heap address with
  | none => simpa [gAtomicRefCountDec, Action.run_bind, load, alloc] using lost
  | some info =>
    rw [run_gAtomicRefCountDec alloc]
    exact lost

theorem remove_stays (string : Bytes) (s : InfoState) (lost : Lost s) : Lost (remove string s).2 := by
  rw [remove]
  split <;> exact lost

def Stays {α : Type} (x : InfoAction α) : Prop := ∀ s, Lost s → Lost (x s).2

theorem Stays.bind {α β : Type} {x : InfoAction α} {f : α → InfoAction β} (first : Stays x)
    (next : ∀ a, Stays (f a)) : Stays (x >>= f) := by
  have vacuous : Action.Triple Lost (fun _ => False) x fun _ _ => False := ⟨first, fun _ h => h.elim⟩
  exact (vacuous.bind fun a => (⟨next a, fun _ h => h.elim⟩ :
    Action.Triple Lost (fun _ => False) (f a) fun _ _ => False)).stays

theorem xvariantTypeInfoCheck_stays (pointer : Pointer) : Stays (xvariantTypeInfoCheck pointer) :=
  (@xvariantTypeInfoCheck_triple (fun _ => False) pointer fun _ h => h.elim).stays

theorem unrefFrom_stays (fuel : Nat) (pointer : Pointer) : Stays (unrefFrom fuel pointer) := by
  induction fuel generalizing pointer with
  | zero => exact fun s lost => lost
  | succ fuel ih =>
    refine (xvariantTypeInfoCheck_stays pointer).bind fun _ => ?_
    cases pointer with
    | static c => exact fun s lost => lost
    | heap address =>
      refine Stays.bind (load_stays address) fun container => ?_
      refine Stays.bind (gAtomicRefCountDec_stays address) fun last => ?_
      split
      · refine Stays.bind (remove_stays _) fun _ => ?_
        cases container.contents with
        | array element => exact (ih element).bind fun _ s lost => lost
        | tuple members =>
          refine Stays.bind ?_ fun _ s lost => lost
          induction members with
          | nil => exact fun s lost => lost
          | cons first rest tail => exact (ih first).bind fun _ => tail
      · exact fun s lost => lost

theorem forM_unref_triple {unref : Pointer → InfoAction PUnit} {bound : Nat} (stays : ∀ pointer, Stays (unref pointer))
    (releases : ∀ type pointer owned dying, type.string.length < bound →
      Action.Triple Lost (fun s => s.Consistent ((type, pointer) :: owned) dying ∧ s.table ≠ some [])
        (unref pointer) fun _ s => s.Consistent owned dying ∧ s.table ≠ some [])
    (members : List Pointer) (owned : List (VariantType × Pointer)) (dying : List Nat) :
    Action.Triple Lost
      (fun s => ∃ pairs : List (VariantType × Pointer), pairs.map Prod.snd = members ∧
        (∀ pair ∈ pairs, pair.1.string.length < bound) ∧ s.Consistent (pairs ++ owned) dying ∧ s.table ≠ some [])
      (members.forM unref)
      fun _ s => s.Consistent owned dying ∧ s.table ≠ some [] := by
  refine (Action.Triple.forM (fun members s => ∃ pairs : List (VariantType × Pointer),
    pairs.map Prod.snd = members ∧ (∀ pair ∈ pairs, pair.1.string.length < bound) ∧
      s.Consistent (pairs ++ owned) dying ∧ s.table ≠ some []) (fun pointer rest => ?_) members).weaken
    (fun s h => h) ?_
  · refine .exists (stays pointer) fun pairs => ?_
    refine ⟨stays pointer, fun s ⟨pointers, short, h, settled⟩ => ?_⟩
    obtain ⟨⟨type, target⟩, others, rfl, rfl, same⟩ := List.map_eq_cons_iff.mp pointers
    have step := releases type target (others ++ owned) dying (short _ List.mem_cons_self)
    refine (step.ends s ⟨h, settled⟩).imp_right fun ⟨result, ran, after, kept⟩ => ⟨result, ran, others, same, ?_⟩
    exact ⟨fun pair member => short pair (List.mem_cons_of_mem _ member), after, kept⟩
  · rintro _ s ⟨pairs, none_left, -, h, settled⟩
    rw [List.map_eq_nil_iff] at none_left
    subst none_left
    exact ⟨h, settled⟩

/-- The state after the last reference is gone and before its entry is. -/
def Orphaned (type : VariantType) (address : Nat) (info : ContainerInfo) (owned : List (VariantType × Pointer))
    (dying : List Nat) (s : InfoState) : Prop :=
  ∃ before : InfoState, before.Consistent ((type, .heap address) :: owned) dying ∧
    before.live address = some info ∧ info.refCount = 1 ∧ info.typeString = type.string ∧
    s = before.recount address info 0

theorem gAtomicRefCountDec_triple (type : VariantType) (address : Nat) (info : ContainerInfo)
    (owned : List (VariantType × Pointer)) (dying : List Nat) :
    Action.Triple Lost
      (fun s => (s.Consistent ((type, .heap address) :: owned) dying ∧ s.table ≠ some []) ∧
        s.live address = some info ∧ info.typeString = type.string)
      (gAtomicRefCountDec address)
      fun last s => if last then Orphaned type address info owned dying s
        else s.Consistent owned dying ∧ s.table ≠ some [] := by
  refine ⟨gAtomicRefCountDec_stays address, fun s ⟨⟨h, settled⟩, live, spelled⟩ => Or.inr ?_⟩
  obtain ⟨alloc, positive⟩ := InfoState.live_eq_some.mp live
  have small := (h.typed address info live).1
  rw [run_gAtomicRefCountDec alloc, wrapInt_of_mem (by omega) (by omega)]
  refine ⟨_, rfl, ?_⟩
  by_cases last : info.refCount = 1
  · simp only [last, decide_true, if_true]
    exact ⟨s, h, live, last, spelled, rfl⟩
  · simp only [last, decide_false, Bool.false_eq_true, if_false]
    refine ⟨h.recount live (by omega) (by omega) ?_ (fun b ne => ?_) (fun reference member => ?_), settled⟩
    · rw [h.counts address info live, external_cons, if_pos rfl]
      omega
    · rw [external_cons, if_neg (Ne.symm ne), Nat.add_zero]
    · exact h.obtained reference (List.mem_cons_of_mem _ member)

theorem remove_triple (type : VariantType) (address : Nat) (info : ContainerInfo)
    (owned : List (VariantType × Pointer)) (dying : List Nat) (bound : Nat) (enough : type.string.length ≤ bound) :
    Action.Triple Lost (Orphaned type address info owned dying) (remove info.typeString)
      fun _ s => ∃ pairs : List (VariantType × Pointer), pairs.map Prod.snd = info.contents.pointers ∧
        (∀ pair ∈ pairs, pair.1.string.length < bound) ∧
        s.Consistent (pairs ++ owned) (address :: dying) ∧ s.table ≠ some [] := by
  refine ⟨remove_stays _, fun s ⟨before, h, live, single, spelled, after⟩ => Or.inr ⟨(), ?_⟩⟩
  have entry := (h.entries info.typeString address).mpr ⟨info, live, rfl⟩
  obtain ⟨entries, table⟩ : ∃ entries, before.table = some entries := by
    cases table : before.table with
    | none => simp [table] at entry
    | some entries => exact ⟨entries, rfl⟩
  have run : remove info.typeString s =
      (some (), before.retire address info (entries.filter (·.1 ≠ info.typeString))) := by
    have same : s.table = some entries := by rw [after]; exact table
    rw [remove, same, after]
    rfl
  obtain ⟨pairs, pointers, short, consistent⟩ := h.retire live single table
  rw [run]
  refine ⟨rfl, pairs, pointers, fun pair member => ?_, consistent, ?_⟩
  · have := short pair member
    rw [spelled] at this
    omega
  · simp only [InfoState.retire]
    split
    · simp
    · simp_all

theorem free_triple (owned : List (VariantType × Pointer)) (dying : List Nat) (address : Nat) :
    Action.Triple Lost (fun s => s.Consistent owned (address :: dying) ∧ s.table ≠ some []) (free address)
      fun _ s => s.Consistent owned dying ∧ s.table ≠ some [] :=
  .modify (fun _ lost => lost) fun _ ⟨h, settled⟩ => ⟨h.release, settled⟩

theorem unrefFrom_triple (fuel : Nat) (type : VariantType) (pointer : Pointer)
    (owned : List (VariantType × Pointer)) (dying : List Nat) (enough : type.string.length < fuel) :
    Action.Triple Lost (fun s => s.Consistent ((type, pointer) :: owned) dying ∧ s.table ≠ some [])
      (unrefFrom fuel pointer) fun _ s => s.Consistent owned dying ∧ s.table ≠ some [] := by
  -- on the length of the type: what a container releases has a shorter type string
  induction fuel generalizing type pointer owned dying with
  | zero => exact absurd enough (Nat.not_lt_zero _)
  | succ fuel ih =>
    refine (xvariantTypeInfoCheck_triple pointer fun s h => ⟨type, h.1.obtained _ List.mem_cons_self⟩).bind
      fun _ => ?_
    cases pointer with
    | static c => exact .ret fun s ⟨h, settled⟩ => ⟨h.disown_static, settled⟩
    | heap address =>
      have loaded : Action.Triple Lost
          (fun s => s.Consistent ((type, .heap address) :: owned) dying ∧ s.table ≠ some [])
          (load address) fun info s => (s.Consistent ((type, .heap address) :: owned) dying ∧ s.table ≠ some []) ∧
            s.live address = some info ∧ info.typeString = type.string := by
        refine ⟨load_stays address, fun s h => Or.inr ?_⟩
        obtain ⟨-, info, live, spelled⟩ := h.1.obtained _ List.mem_cons_self
        exact ⟨info, (InfoState.live_eq_some.mp live).1, h, live, spelled⟩
      refine loaded.bind fun info => ?_
      refine (gAtomicRefCountDec_triple type address info owned dying).bind fun last => ?_
      cases last with
      | false => exact .ret fun s h => h
      | true =>
        refine (remove_triple type address info owned dying fuel (by omega)).bind fun _ => ?_
        have released := fun members =>
          (forM_unref_triple (unrefFrom_stays fuel) ih members owned (address :: dying)).bind fun _ =>
            free_triple owned dying address
        cases info.contents with
        | array element =>
          have single : arrayInfoFree (unrefFrom fuel) address element =
              ([element].forM (unrefFrom fuel) >>= fun _ => free address) := by
            rw [show [element].forM (unrefFrom fuel) = (unrefFrom fuel element >>= fun _ => pure ⟨⟩) from rfl,
              bind_assoc]
            rfl
          dsimp only
          rw [single]
          exact released [element]
        | tuple members => exact released members

end Specifications

/-! ## Every sequence of calls -/

section Runs

/-- The states after a sequence of calls, with the references that the caller has
obtained and not released. A reference can be added to any live info: callers also
take references on the members of infos that they own. -/
inductive Reaches : InfoState → List Pointer → Prop where
  | start : Reaches .initial []
  | get {s s' : InfoState} {held : List Pointer} {pointer : Pointer} (type : VariantType) : Reaches s held →
      xvariantTypeInfoGet type s = (some pointer, s') → Reaches s' (pointer :: held)
  | ref {s s' : InfoState} {held : List Pointer} {pointer result : Pointer} (type : VariantType) : Reaches s held →
      s.IsInfo type pointer → xvariantTypeInfoRef pointer s = (some result, s') → Reaches s' (result :: held)
  | unref {s s' : InfoState} {held : List Pointer} {pointer : Pointer} : Reaches s held → pointer ∈ held →
      xvariantTypeInfoUnref pointer s = (some ⟨⟩, s') → Reaches s' (held.erase pointer)

/-- What holds between two calls. -/
def InfoState.Sound (s : InfoState) (held : List Pointer) : Prop :=
  ∃ owned : List (VariantType × Pointer), (owned.map Prod.snd).Perm held ∧ s.Consistent owned [] ∧
    s.table ≠ some []

variable {s : InfoState}

theorem InfoState.Consistent.table_ne {owned : List (VariantType × Pointer)} {dying : List Nat}
    (h : s.Consistent owned dying) {type : VariantType} {address : Nat} (isInfo : s.IsInfo type (.heap address)) :
    s.table ≠ some [] := by
  obtain ⟨-, info, live, spelled⟩ := isInfo
  intro empty
  have entry := (h.entries type.string address).mpr ⟨info, live, spelled⟩
  simp [empty] at entry

theorem getStatic_state (c : UInt8) (s : InfoState) : (getStatic c s).2 = s := by
  have same := xvariantTypeInfoCheck_state (.static c) s
  rw [getStatic, Action.run_bind]
  revert same
  rcases xvariantTypeInfoCheck (.static c) s with ⟨_ | _, s'⟩ <;> exact fun same => same

theorem get_sound {s : InfoState} {held : List Pointer} (sound : s.Sound held) (type : VariantType) :
    Lost (xvariantTypeInfoGet type s).2 ∨ ∃ pointer, (xvariantTypeInfoGet type s).1 = some pointer ∧
      (xvariantTypeInfoGet type s).2.Sound (pointer :: held) := by
  obtain ⟨owned, same, h, settled⟩ := sound
  have acquired := (xvariantTypeInfoGet_acquires type owned [] (by simp)).ends s ⟨h, by simp [InfoState.Awaits]⟩
  refine acquired.imp_right fun ⟨pointer, ran, after, _⟩ => ⟨pointer, ran, (type, pointer) :: owned, same.cons _, after, ?_⟩
  have isInfo := after.obtained _ List.mem_cons_self
  cases pointer with
  | heap address => exact after.table_ne isInfo
  | static c =>
    -- A static info is found without a change of state.
    have plain := isInfo.1
    have unchanged : (xvariantTypeInfoGet type s).2 = s := by
      cases type with
      | basic b => rw [xvariantTypeInfoGet, getStatic_state]
      | variant => rw [xvariantTypeInfoGet, getStatic_state]
      | _ => simp [VariantType.isContainer] at plain
    rw [unchanged]
    exact settled

theorem ref_sound {s : InfoState} {held : List Pointer} (sound : s.Sound held) {type : VariantType}
    {pointer : Pointer} (isInfo : s.IsInfo type pointer) :
    Lost (xvariantTypeInfoRef pointer s).2 ∨ ∃ result, (xvariantTypeInfoRef pointer s).1 = some result ∧
      (xvariantTypeInfoRef pointer s).2.Sound (result :: held) := by
  obtain ⟨owned, same, h, settled⟩ := sound
  have acquired := (xvariantTypeInfoRef_triple owned type pointer []).ends s ⟨h, isInfo, by simp [InfoState.Awaits]⟩
  refine acquired.imp_right fun ⟨result, ran, equal, after, _⟩ =>
    ⟨result, ran, (type, pointer) :: owned, equal ▸ same.cons _, after, ?_⟩
  cases pointer with
  | heap address => exact after.table_ne (after.obtained _ List.mem_cons_self)
  | static c =>
    have unchanged : (xvariantTypeInfoRef (.static c) s).2 = s := by
      have kept := xvariantTypeInfoCheck_state (.static c) s
      rw [xvariantTypeInfoRef, Action.run_bind]
      revert kept
      rcases xvariantTypeInfoCheck (.static c) s with ⟨_ | _, s'⟩ <;> exact fun kept => kept
    rw [unchanged]
    exact settled

theorem unref_sound {s : InfoState} {held : List Pointer} (sound : s.Sound held) {pointer : Pointer}
    (obtained : pointer ∈ held) :
    Lost (xvariantTypeInfoUnref pointer s).2 ∨ (xvariantTypeInfoUnref pointer s).1 = some ⟨⟩ ∧
      (xvariantTypeInfoUnref pointer s).2.Sound (held.erase pointer) := by
  obtain ⟨owned, same, h, settled⟩ := sound
  obtain ⟨⟨type, target⟩, member, rfl⟩ := List.mem_map.mp (same.mem_iff.mpr obtained)
  have split := List.perm_cons_erase member
  have enough : type.string.length < unrefFuel s target := by
    have isInfo := h.obtained _ member
    cases target with
    | static c =>
      obtain ⟨-, spelled⟩ := isInfo
      simp [unrefFuel, spelled]
    | heap address =>
      obtain ⟨-, info, live, spelled⟩ := isInfo
      obtain ⟨alloc, -⟩ := InfoState.live_eq_some.mp live
      simp [unrefFuel, alloc, spelled]
  have released := (unrefFrom_triple _ type target (owned.erase (type, target)) [] enough).ends s ⟨h.perm split, settled⟩
  refine released.imp_right fun ⟨_, ran, after, kept⟩ => ⟨ran, _, ?_, after, kept⟩
  have rest : (target :: (owned.erase (type, target)).map Prod.snd).Perm held :=
    (split.map Prod.snd).symm.trans same
  simpa using rest.erase target

theorem Reaches.sound {held : List Pointer} (run : Reaches s held)
    (unsaturated : s.saturated = false) : s.Sound held := by
  have lost : ∀ {s : InfoState}, s.saturated = false → ¬Lost s := fun clear full => by simp [Lost, clear] at full
  have clear : ∀ {s : InfoState}, ¬Lost s → s.saturated = false := fun h => by simpa [Lost] using h
  induction run with
  | start => exact ⟨[], .nil, InfoState.initial_consistent, by simp [InfoState.initial]⟩
  | @get s s' held pointer type _ ran ih =>
    have stays := (xvariantTypeInfoGet_acquires type [] [] (by simp)).stays s
    have step := fun sound => @get_sound s held sound type
    rw [ran] at stays step
    rcases step (ih (clear fun before => lost unsaturated (stays before))) with full | ⟨result, same, sound⟩
    · exact absurd full (lost unsaturated)
    · exact Option.some.inj same ▸ sound
  | @ref s s' held pointer result type _ isInfo ran ih =>
    have stays := (xvariantTypeInfoRef_triple [] type pointer []).stays s
    have step := fun sound => @ref_sound s held sound type pointer isInfo
    rw [ran] at stays step
    rcases step (ih (clear fun before => lost unsaturated (stays before))) with full | ⟨result, same, sound⟩
    · exact absurd full (lost unsaturated)
    · exact Option.some.inj same ▸ sound
  | @unref s s' held pointer _ obtained ran ih =>
    have stays : Lost s → Lost (xvariantTypeInfoUnref pointer s).2 := unrefFrom_stays _ pointer s
    have step := fun sound => @unref_sound s held sound pointer obtained
    rw [ran] at stays step
    rcases step (ih (clear fun before => lost unsaturated (stays before))) with full | ⟨-, sound⟩
    · exact absurd full (lost unsaturated)
    · exact sound

theorem InfoState.Consistent.exists_owned {owned : List (VariantType × Pointer)}
    {dying : List Nat} (h : s.Consistent owned dying) {address : Nat} {info : ContainerInfo}
    (live : s.live address = some info) : ∃ other, 0 < external owned other := by
  let length := fun b => ((s.live b).map fun info => info.typeString.length).getD 0
  let alive := (Finset.range s.next).filter fun b => (s.live b).isSome
  have inside : address ∈ alive := by simp [alive, live, h.lt_next live]
  obtain ⟨top, member, longest⟩ := Finset.exists_max_image alive length ⟨address, inside⟩
  obtain ⟨-, some_live⟩ := Finset.mem_filter.mp member
  obtain ⟨found, top_live⟩ := Option.isSome_iff_exists.mp some_live
  refine ⟨top, ?_⟩
  by_contra unowned
  have count := h.counts top found top_live
  have positive := (InfoState.live_eq_some.mp top_live).2
  have held : s.held top ≠ 0 := by omega
  obtain ⟨holder, bound, refers⟩ := Finset.exists_ne_zero_of_sum_ne_zero held
  cases holder_live : s.live holder with
  | none => simp [holder_live, references] at refers
  | some container =>
    simp only [holder_live, references] at refers
    have pointer := List.count_pos_iff.mp (Nat.pos_of_ne_zero refers)
    obtain ⟨-, type, -, spelled, members⟩ := h.typed holder container holder_live
    obtain ⟨item, subtype, -, target, target_live, same⟩ := exists_of_mem_forall₂ members pointer
    rw [top_live, Option.some.injEq] at target_live
    subst target_live
    have shorter := VariantType.length_subtype subtype
    have below := longest holder (by simp [alive, holder_live, Finset.mem_range.mp bound])
    simp only [length, holder_live, top_live, Option.map_some, Option.getD_some, spelled, same] at below
    omega

structure InfoState.TableInvariant (s : InfoState) (held : List Pointer) : Prop where
  unique : ((s.table.getD []).map Prod.fst).Nodup
  listed : ∀ string address, (string, address) ∈ s.table.getD [] ↔
    ∃ info, s.heap address = some info ∧ 0 < info.refCount ∧ info.typeString = string
  typed : ∀ address info, s.heap address = some info → ∃ type : VariantType, type.isContainer = true ∧
    info.typeString = type.string ∧ List.Forall₂ s.IsInfo type.subtypes info.contents.pointers
  counts : ∀ address info, s.heap address = some info →
    0 < info.refCount ∧ info.refCount = held.count (.heap address) + s.held address
  emptied : (∀ address, Pointer.heap address ∉ held) → xvariantTypeInfoAssertNoInfos s = true

theorem InfoState.Sound.tableInvariant {held : List Pointer} (sound : s.Sound held) :
    s.TableInvariant held := by
  obtain ⟨owned, same, h, settled⟩ := sound
  have live : ∀ address info, s.heap address = some info → s.live address = some info := by
    intro address info alloc
    cases alive : s.live address with
    | none => exact absurd (h.freed address info alloc alive) List.not_mem_nil
    | some found =>
      rw [(InfoState.live_eq_some.mp alive).1] at alloc
      exact alloc
  exact {
    unique := h.keys
    listed := by
      intro string address
      simp only [h.entries, InfoState.live_eq_some, and_assoc]
    typed := fun address info alloc => (h.typed address info (live address info alloc)).2
    counts := by
      intro address info alloc
      refine ⟨(InfoState.live_eq_some.mp (live address info alloc)).2, ?_⟩
      rw [h.counts address info (live address info alloc), external, same.count_eq]
    emptied := by
      intro released
      have nothing : s.table.getD [] = [] := by
        rw [List.eq_nil_iff_forall_not_mem]
        rintro ⟨string, address⟩ member
        obtain ⟨info, alive, -⟩ := (h.entries string address).mp member
        obtain ⟨other, positive⟩ := h.exists_owned alive
        exact released other (same.mem_iff.mp (List.count_pos_iff.mp positive))
      rw [xvariantTypeInfoAssertNoInfos, Option.isNone_iff_eq_none]
      cases table : s.table with
      | none => rfl
      | some entries =>
        rw [table, Option.getD_some] at nothing
        exact absurd (table.trans (congrArg some nothing)) settled }

/-- After every sequence of calls in which no count has saturated the invariant
holds, and no call that may follow fails unless it saturates a count. -/
theorem typeInfoTable_invariant {s : InfoState} {held : List Pointer} (run : Reaches s held)
    (unsaturated : s.saturated = false) :
    s.TableInvariant held ∧
    (∀ type, Lost (xvariantTypeInfoGet type s).2 ∨ (xvariantTypeInfoGet type s).1 ≠ none) ∧
    (∀ type pointer, s.IsInfo type pointer →
      Lost (xvariantTypeInfoRef pointer s).2 ∨ (xvariantTypeInfoRef pointer s).1 ≠ none) ∧
    (∀ pointer ∈ held, Lost (xvariantTypeInfoUnref pointer s).2 ∨ (xvariantTypeInfoUnref pointer s).1 ≠ none) := by
  have sound := run.sound unsaturated
  refine ⟨sound.tableInvariant, fun type => ?_, fun type pointer isInfo => ?_, fun pointer obtained => ?_⟩
  · exact (get_sound sound type).imp_right fun ⟨_, ran, _⟩ => by simp [ran]
  · exact (ref_sound sound isInfo).imp_right fun ⟨_, ran, _⟩ => by simp [ran]
  · exact (unref_sound sound obtained).imp_right fun ⟨ran, _⟩ => by simp [ran]

/-- The info of `(ayu)` and the one of its first member, which is obtained again; a second reference to the tuple is
taken, and both are given up. -/
theorem typeInfoTable_after_get : ∃ s held, Reaches s held ∧ s.saturated = false ∧
    held = [.heap 0] ∧ s.TableInvariant held := by
  let tuple : VariantType := .tuple [.array (.basic .byte), .basic .uint32]
  have got : Reaches _ _ := .get tuple .start rfl
  have member : Reaches _ _ := .get (.array (.basic .byte)) got rfl
  have taken : Reaches _ _ := @Reaches.ref _ _ _ (.heap 1) _ tuple member ⟨rfl, _, rfl, rfl⟩ rfl
  have one_left : Reaches _ _ := @Reaches.unref _ _ _ (.heap 1) taken (by decide) rfl
  have released : Reaches _ _ := @Reaches.unref _ _ _ (.heap 1) one_left (by decide) rfl
  exact ⟨_, _, released, rfl, rfl, (typeInfoTable_invariant released rfl).1⟩

/-- The info of `ay` after `extra` further references. -/
def byteArrayInfo (extra : Nat) : ContainerInfo :=
  { contents := .array (.static (ascii 'y')), typeString := [ascii 'a', ascii 'y'], refCount := wrapInt (extra + 1) }

theorem reaches_references (extra : Nat) (bounded : extra < 2 ^ 31) :
    ∃ s, Reaches s (List.replicate (extra + 1) (.heap 0)) ∧ s.heap 0 = some (byteArrayInfo extra) := by
  induction extra with
  | zero => exact ⟨_, .get (.array (.basic .byte)) .start rfl, rfl⟩
  | succ extra ih =>
    obtain ⟨s, run, alloc⟩ := ih (by omega)
    have count : (byteArrayInfo extra).refCount = extra + 1 := wrapInt_of_mem (by omega) (by simp only [maxInt]; omega)
    have isInfo : s.IsInfo (.array (.basic .byte)) (.heap 0) :=
      ⟨rfl, byteArrayInfo extra, InfoState.live_eq_some.mpr ⟨alloc, by omega⟩, rfl⟩
    have checked : xvariantTypeInfoCheck (.heap 0) s = (some (), s) := by
      simp only [xvariantTypeInfoCheck, Action.run_bind, load, alloc]
      rw [if_pos (by omega)]
      rfl
    have ran : xvariantTypeInfoRef (.heap 0) s = (some (.heap 0),
        { s.recount 0 (byteArrayInfo extra) (wrapInt ((byteArrayInfo extra).refCount + 1)) with
          saturated := s.saturated || decide ((byteArrayInfo extra).refCount = maxInt) }) := by
      simp only [xvariantTypeInfoRef, Action.run_bind, checked, run_gAtomicRefCountInc alloc]
      rfl
    refine ⟨_, .ref _ run isInfo ran, ?_⟩
    simp only [InfoState.recount, Function.update_self, count]
    simp [byteArrayInfo]

/-- With `2 ^ 31` references the count is negative. -/
theorem refCount_saturates : ¬∀ s held, Reaches s held → ∀ address info, s.heap address = some info →
    info.refCount = held.count (.heap address) + s.held address := by
  intro claim
  obtain ⟨s, run, alloc⟩ := reaches_references (2 ^ 31 - 1) (by decide)
  have count := claim s _ run 0 _ alloc
  have negative : (byteArrayInfo (2 ^ 31 - 1)).refCount = -2 ^ 31 := by
    simp [byteArrayInfo, wrapInt]
  omega

end Runs

end Xpl.Variant
