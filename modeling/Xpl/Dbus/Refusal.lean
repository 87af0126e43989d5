import Xpl.Dbus.Writing

/-! What the wire format cannot represent, and what of it the writer refuses. -/

set_option autoImplicit false

namespace Xpl.Dbus
open Xpl.Library Xpl.Variant

/-! ## What cannot be represented -/

mutual
/-- A maybe type or an empty structure at any depth. -/
def foreignType : VariantType → Bool
  | .basic _ | .variant => false
  | .maybe _ => true
  | .array element => foreignType element
  | .tuple items => items.isEmpty || someForeignType items
  | .dictEntry _ value => foreignType value

def someForeignType : List VariantType → Bool
  | [] => false
  | item :: items => foreignType item || someForeignType items
end

mutual
/-- A foreign type, or a signature or the type of a variant that takes more than 255 bytes. -/
def unrepresentable : Value → Bool
  | .leaf .signature stored => 255 < stored.length - 1
  | .leaf _ _ => false
  | .node .variant children => (Value.types children).any (fun type => 255 < type.string.length) || someUnrepresentable children
  | .node type children => foreignType type || someUnrepresentable children

def someUnrepresentable : List Value → Bool
  | [] => false
  | child :: children => unrepresentable child || someUnrepresentable children
end

/-! ## What the writer refuses -/

def refusedType : VariantType → Bool
  | .maybe _ | .tuple [] => true
  | _ => false

mutual
/-- The writer comes to a value of a refused type, or to an empty array of one. -/
def refused : Value → Bool
  | .leaf _ _ => false
  | .node (.array element) [] => refusedType element
  | .node type children => refusedType type || someRefused children

def someRefused : List Value → Bool
  | [] => false
  | child :: children => refused child || someRefused children
end

theorem refused_node {type : VariantType} {children : List Value} (other : children ≠ [] ∨ ∀ element, type ≠ .array element) :
    refused (.node type children) = (refusedType type || someRefused children) := by
  rw [refused]
  intro element same none
  subst same none
  rcases other with some_child | notArray
  · exact some_child rfl
  · exact notArray element rfl

section Outcome
variable {α β : Type} {order : ByteOrder} {buffer : Bytes}

theorem isOk_bind {x : Except Failure α} {f : α → Except Failure β} {ok : Bool} (next : ∀ a, (f a).isOk = ok) :
    (x >>= f).isOk = (x.isOk && ok) := by
  cases x with
  | error failure => rfl
  | ok a => exact next a

theorem isOk_bind_pure (x : Except Failure α) (f : α → β) : (x >>= fun a => pure (f a)).isOk = x.isOk := by
  cases x with
  | error failure => rfl
  | ok a => rfl

theorem isOk_eq_false {x : Except Failure α} : x.isOk = false ↔ ∃ failure, x = .error failure := by
  cases x with
  | error failure => exact iff_of_true rfl ⟨failure, rfl⟩
  | ok a => exact iff_of_false Bool.noConfusion nofun

theorem isOk_appendNoValue (buffer : Bytes) (type : VariantType) : (appendNoValue buffer type).isOk = !refusedType type := by
  cases type with
  | tuple items => cases items <;> rfl
  | _ => rfl

theorem wellFormed_leaf {v : Value} {b : Basic} (valid : v.wellFormed = true) (basic : v.type = .basic b) : refused v = false := by
  cases v with
  | leaf basic stored => rfl
  | node type children =>
    obtain rfl : type = .basic b := basic
    exact absurd ((Value.wellFormed_node _ _).mp valid).1 Bool.false_ne_true

theorem isOk_appendItems {items : List Value} (each : ∀ item ∈ items, ∀ buffer, (appendValue order buffer item).isOk = !refused item)
    (buffer : Bytes) : (appendItems order buffer items).isOk = !someRefused items := by
  induction items generalizing buffer with
  | nil => rfl
  | cons item items ih =>
    have rest := ih fun item member => each item (List.mem_cons_of_mem _ member)
    rw [appendItems, someRefused, Bool.not_or, ← each item List.mem_cons_self buffer]
    apply isOk_bind
    intro written
    exact (isOk_bind_pure _ _).trans (rest written.1)

theorem someRefused_eq_false {items : List Value} (each : ∀ item ∈ items, refused item = false) : someRefused items = false := by
  induction items with
  | nil => rfl
  | cons item items ih =>
    rw [someRefused, each item List.mem_cons_self, ih fun item member => each item (List.mem_cons_of_mem _ member)]
    rfl

theorem fixed_basic {type : VariantType} (fixed : getTypeFixedSize type ≠ 0) : ∃ b, type = .basic b := by
  cases type with
  | basic b => exact ⟨b, rfl⟩
  | _ => exact absurd rfl fixed

/-- The writer fails exactly where it refuses something, whatever it has written before. -/
theorem isOk_appendValue {v : Value} (valid : v.wellFormed = true) (buffer : Bytes) :
    (appendValue order buffer v).isOk = !refused v := by
  -- over the value: a container is refused where its type or one of its members is
  induction v generalizing buffer with
  | leaf basic stored =>
    rfl
  | node type children ih =>
    obtain ⟨admits, all⟩ := (Value.wellFormed_node _ _).mp valid
    have items := @isOk_appendItems order children fun item member => ih item member (all item member)
    cases type with
    | basic b => exact absurd admits Bool.false_ne_true
    | variant =>
      exact (isOk_bind_pure _ _).trans (items _)
    | maybe element =>
      rfl
    | array element =>
      have elements : (appendElements order ((ensureOutputPadding buffer 4).1 ++ order.put 4 placeholder) element children
          (appendItems order ((ensureOutputPadding buffer 4).1 ++ order.put 4 placeholder) children)).isOk =
          !refused (.node (.array element) children) := by
        rw [appendElements]
        cases children with
        | nil => exact isOk_appendNoValue _ element
        | cons child children =>
          rw [if_neg (by simp), refused_node (Or.inl (List.cons_ne_nil _ _))]
          split
          · rename_i fixed
            obtain ⟨b, rfl⟩ := fixed_basic fixed
            have leaves : someRefused (child :: children) = false := someRefused_eq_false fun item member => by
              have types := List.all_eq_true.mp admits item.type (List.mem_map_of_mem member)
              exact wellFormed_leaf (all item member) (of_decide_eq_true types)
            rw [leaves]
            rfl
          · exact items _
      exact (isOk_bind_pure _ _).trans elements
    | tuple types =>
      cases types with
      | nil =>
        rfl
      | cons type types =>
        rw [appendValue, @refused_node (.tuple (type :: types)) children (Or.inr fun _ => nofun)]
        · exact (isOk_bind_pure _ _).trans (items _)
        · exact List.cons_ne_nil type types
    | dictEntry key value =>
      exact (isOk_bind_pure _ _).trans (items _)

end Outcome

/-! ## Messages -/

namespace Message

variable (m : Message)

/-- The arguments of the message: the tuple around them is not on the wire. -/
def bodyItems : List Value :=
  match m.body with
  | some (.node (.tuple _) children) => children
  | _ => []

def bodyIsTuple : Bool :=
  match m.body with
  | some (.node (.tuple _) _) | none => true
  | _ => false

def hasUnrepresentable : Bool := unrepresentable m.headerFields || someUnrepresentable m.bodyItems

def meetsRefused : Bool := refused m.headerFields || someRefused m.bodyItems

/-- Nothing is wrong with the message but for what its values contain. -/
def acceptable : Bool := m.checkBefore.isOk && (m.signatureHeader >>= m.checkSignature).isOk && m.bodyIsTuple

theorem isOk_appendOwnBody (opened : Bytes) : (m.appendOwnBody opened).isOk = (m.bodyIsTuple && !someRefused m.bodyItems) := by
  have valid := m.bodyValid
  unfold appendOwnBody bodyIsTuple bodyItems
  cases known : m.body with
  | none => rfl
  | some body =>
    cases body with
    | leaf basic stored => rfl
    | node type children =>
      have each := ((Value.wellFormed_node _ _).mp (valid _ known)).2
      cases type with
      | tuple types =>
        have items := @isOk_appendItems m.byteOrder _ (fun item member buffer => isOk_appendValue (each item member) buffer) opened
        exact (isOk_bind_pure _ _).trans items
      | _ => rfl

theorem isOk_toBlob : m.toBlob.isOk = (m.acceptable && !m.meetsRefused) := by
  have headers := @isOk_appendValue m.byteOrder _ m.headerFields_wellFormed (m.coreHeader placeholder)
  unfold toBlob acceptable meetsRefused
  cases before : m.checkBefore with
  | error failure => rfl
  | ok _ =>
    cases written : appendValue m.byteOrder (m.coreHeader placeholder) m.headerFields with
    | error failure =>
      rw [written] at headers
      have stopped : refused m.headerFields = true := by simpa [Except.isOk, Except.toBool] using headers
      rw [stopped, Bool.true_or, Bool.not_true, Bool.and_false]
      rfl
    | ok result =>
      rw [written] at headers
      have passed : refused m.headerFields = false := by simpa [Except.isOk, Except.toBool] using headers
      rw [passed, Bool.false_or]
      cases signed : m.signatureHeader with
      | error failure => rfl
      | ok signature =>
        cases checked : m.checkSignature signature with
        | error failure => simp [checked, bind, Except.bind, Except.isOk, Except.toBool]
        | ok _ =>
          have body := m.isOk_appendOwnBody (ensureOutputPadding result.1 8).1
          have whole := (isOk_bind_pure (m.appendOwnBody (ensureOutputPadding result.1 8).1) fun written =>
            splice written 4 (m.byteOrder.put 4 (written.length - (ensureOutputPadding result.1 8).1.length))).trans body
          simp only [bind, Except.bind, checked, Except.isOk, Except.toBool] at whole ⊢
          simpa using whole

/-- What the wire format cannot represent is refused exactly where the writer comes to it, or where the message is
refused for another reason. -/
theorem refusal_iff :
    (m.hasUnrepresentable = true → ∃ failure, m.toBlob = .error failure) ↔
      (m.hasUnrepresentable = true → m.meetsRefused = true ∨ m.acceptable = false) := by
  rw [← isOk_eq_false, isOk_toBlob]
  cases m.acceptable <;> cases m.meetsRefused <;> simp

end Message

/-- A message whose only argument is a variant of an empty array of arrays of maybe strings. -/
def hiddenMaybe : Message where
  byteOrder := .littleEndian
  type := 5
  flags := 0
  serial := 1
  headers := [(fieldSignature, .leaf .signature [ascii 'v', 0])]
  body := some (.node (.tuple [.variant]) [.node .variant [.node (.array (.array (.maybe (.basic .string)))) []]])
  numFds := 0
  distinct := List.nodup_singleton _
  headersValid := by decide
  bodyValid := by decide

theorem noBody_valid : ∀ value ∈ (none : Option Value), value.wellFormed = true := by
  rintro value ⟨⟩

def longSignature : Message where
  byteOrder := .littleEndian
  type := 5
  flags := 0
  serial := 1
  headers := [(10, .leaf .signature (List.replicate 256 (ascii 'y') ++ [0]))]
  body := none
  numFds := 0
  distinct := List.nodup_singleton _
  headersValid := by decide +kernel
  bodyValid := noBody_valid

/-- Both messages are written. -/
theorem refusal_misses :
    (hiddenMaybe.hasUnrepresentable = true ∧ ¬∃ failure, hiddenMaybe.toBlob = .error failure) ∧
      longSignature.hasUnrepresentable = true ∧ ¬∃ failure, longSignature.toBlob = .error failure := by
  rw [← isOk_eq_false, ← isOk_eq_false, Message.isOk_toBlob, Message.isOk_toBlob]
  decide +kernel

end Xpl.Dbus
