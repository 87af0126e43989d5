import Xpl.Text.Exactness
import Xpl.Variant.Strings

/-! The strings that pass as signatures, against the type strings of D-Bus. -/

set_option autoImplicit false

namespace Xpl.Variant
open Xpl.Library Xpl.Text

mutual
def VariantType.withoutMaybe : VariantType → Bool
  | .basic _ => true
  | .variant => true
  | .maybe _ => false
  | .array element => element.withoutMaybe
  | .tuple items => VariantType.allWithoutMaybe items
  | .dictEntry _ value => value.withoutMaybe

def VariantType.allWithoutMaybe : List VariantType → Bool
  | [] => true
  | item :: items => item.withoutMaybe && VariantType.allWithoutMaybe items
end

mutual
/-- The single complete types of D-Bus: a structure has a member, and a dictionary entry is the
element of an array. -/
def VariantType.isDBus : VariantType → Bool
  | .basic _ => true
  | .variant => true
  | .maybe _ => false
  | .array (.dictEntry _ value) => value.isDBus
  | .array element => element.isDBus
  | .tuple items => !items.isEmpty && VariantType.allDBus items
  | .dictEntry _ _ => false

def VariantType.allDBus : List VariantType → Bool
  | [] => true
  | item :: items => item.isDBus && VariantType.allDBus items
end

/-- A terminated sequence of single complete types of D-Bus. -/
def DBusSignature (data : Bytes) : Prop :=
  ∃ types : List VariantType, data = types.flatMap VariantType.string ++ [0] ∧ ∀ t ∈ types, t.isDBus

/-! ## Strings -/

theorem xvariantSerialiserIsString_iff (data : Bytes) :
    xvariantSerialiserIsString data = true ↔ ∃ text, data = text ++ [0] ∧ IsUtf8 text := by
  unfold xvariantSerialiserIsString xutf8ValidateLen
  constructor
  · intro accepted
    cases found : data.getLast? with
    | none =>
      rw [found] at accepted
      exact nomatch accepted
    | some last =>
      rw [found] at accepted
      obtain ⟨zero, whole⟩ : last = 0 ∧ fastValidateLen data = data.length - 1 := by simpa using accepted
      obtain ⟨text, rfl⟩ := List.getLast?_eq_some_iff.mp found
      have valid := (isUtf8_take (text ++ [last])).2
      rw [whole, List.length_append, List.length_singleton, Nat.add_sub_cancel, List.take_left] at valid
      exact ⟨text, by rw [zero], valid⟩
  · rintro ⟨text, rfl, points, isText, rfl⟩
    have last : (points.flatMap utf8 ++ [(0 : UInt8)]).getLast? = some 0 := List.getLast?_append_of_ne_nil _ (List.cons_ne_nil _ _)
    rw [last, fastValidateLen_text isText, List.length_append, List.length_singleton, Nat.add_sub_cancel]
    simp [fastValidateLen]

theorem isUtf8_ascii {text : Bytes} (plain : ∀ c ∈ text, c ≠ 0 ∧ c.toNat < 128) : IsUtf8 text := by
  refine ⟨text.map UInt8.toNat, ?_, ?_⟩
  · intro point member
    obtain ⟨c, held, rfl⟩ := List.mem_map.mp member
    obtain ⟨nonzero, small⟩ := plain c held
    exact ⟨Or.inl (by omega), fun zero => nonzero (UInt8.toNat_inj.mp zero)⟩
  · induction text with
    | nil => rfl
    | cons c text ih =>
      have small := (plain c List.mem_cons_self).2
      rw [List.map_cons, List.flatMap_cons, utf8_one small, UInt8.ofNat_toNat, List.singleton_append,
        ← ih fun other member => plain other (List.mem_cons_of_mem _ member)]

/-! ## The sequence of types -/

theorem strings_map (types : List VariantType) :
    TypeExpr.strings (types.map VariantType.toExpr) = types.flatMap VariantType.string := by
  induction types with
  | nil => rfl
  | cons t types ih => rw [List.map_cons, TypeExpr.strings, ih, List.flatMap_cons, VariantType.string]

theorem scanSignature_iff {fuel : Nat} {string : Bytes} (enough : string.length ≤ fuel) :
    scanSignature fuel string = true ↔
      ∃ items : List TypeExpr, string = TypeExpr.strings items ∧ ∀ item ∈ items, item.nesting ≤ maxRecursionDepth := by
  -- on the length: a type that was scanned is never empty
  induction fuel generalizing string with
  | zero =>
    obtain rfl := List.length_eq_zero_iff.mp (Nat.le_zero.mp enough)
    exact ⟨fun _ => ⟨[], rfl, List.forall_mem_nil _⟩, fun _ => rfl⟩
  | succ fuel ih =>
    cases string with
    | nil => exact ⟨fun _ => ⟨[], rfl, List.forall_mem_nil _⟩, fun _ => rfl⟩
    | cons c string =>
      rw [scanSignature, if_neg (by exact Bool.false_ne_true)]
      constructor
      · intro accepted
        cases scanned : xvariantTypeStringScan (c :: string) with
        | none =>
          rw [scanned] at accepted
          cases accepted
        | some rest =>
          rw [scanned] at accepted
          obtain ⟨⟨depth, tail⟩, scan, same⟩ := Option.map_eq_some_iff.mp scanned
          obtain rfl : tail = rest := same
          obtain ⟨item, spelled, -, shallow⟩ := scan_sound scan
          have shorter := congrArg List.length spelled
          have positive := item.length_string_pos
          rw [List.length_append] at shorter
          obtain ⟨items, same, each⟩ := (ih (by omega)).mp accepted
          refine ⟨item :: items, ?_, List.forall_mem_cons.mpr ⟨shallow, each⟩⟩
          rw [spelled, same, TypeExpr.strings]
      · rintro ⟨items, spelled, each⟩
        cases items with
        | nil => cases spelled
        | cons item items =>
          have shorter := congrArg List.length spelled
          have positive := item.length_string_pos
          rw [TypeExpr.strings, List.length_append] at shorter
          rw [spelled, TypeExpr.strings, xvariantTypeStringScan, scan_string item _ (each item List.mem_cons_self),
            Option.map_some]
          change scanSignature fuel (TypeExpr.strings items) = true
          exact (ih (by omega)).mpr ⟨items, rfl, fun other member => each other (List.mem_cons_of_mem _ member)⟩

/-! ## The characters -/

def isSignatureChar (c : UInt8) : Bool := c ∈ signatureChars

theorem Basic.char_signature (b : Basic) : isSignatureChar b.char = true := by
  cases b <;> decide

theorem TypeExpr.all_strings (p : UInt8 → Bool) (items : List TypeExpr) :
    (TypeExpr.strings items).all p = items.all fun item => item.string.all p := by
  induction items with
  | nil => rfl
  | cons item items ih => rw [TypeExpr.strings, List.all_append, ih, List.all_cons]

theorem VariantType.allWithoutMaybe_eq (items : List VariantType) :
    VariantType.allWithoutMaybe items = items.all VariantType.withoutMaybe := by
  induction items with
  | nil => rfl
  | cons item items ih => rw [VariantType.allWithoutMaybe, ih, List.all_cons]

theorem VariantType.string_signature (t : VariantType) : t.toExpr.string.all isSignatureChar = t.withoutMaybe := by
  induction t with
  | basic b =>
    rw [VariantType.toExpr, TypeExpr.string, List.all_cons, b.char_signature]
    rfl
  | variant => decide
  | maybe element ih =>
    rfl
  | array element ih =>
    rw [VariantType.toExpr, TypeExpr.string, List.all_cons, ih, show isSignatureChar (ascii 'a') = true by decide]
    rfl
  | tuple items ih =>
    have each : (VariantType.toExprs items).all (fun item => item.string.all isSignatureChar) = items.all VariantType.withoutMaybe := by
      rw [VariantType.toExprs_eq_map, List.all_map, Bool.eq_iff_iff, List.all_eq_true, List.all_eq_true]
      apply forall₂_congr
      intro item member
      rw [Function.comp_apply, ih item member]
    rw [VariantType.toExpr, TypeExpr.string, List.all_cons, List.all_append, TypeExpr.all_strings, each, VariantType.withoutMaybe,
      VariantType.allWithoutMaybe_eq, show isSignatureChar (ascii '(') = true by decide,
      show [ascii ')'].all isSignatureChar = true by decide, Bool.true_and, Bool.and_true]
  | dictEntry key value ih =>
    have keyed : isSignatureChar (keyChar (some key)) = true := key.char_signature
    rw [VariantType.toExpr, TypeExpr.string, List.all_cons, List.all_cons, List.all_append, ih, keyed,
      show isSignatureChar (ascii '{') = true by decide, show [ascii '}'].all isSignatureChar = true by decide,
      Bool.true_and, Bool.true_and, Bool.and_true]
    rfl

theorem signatureChars_plain : ∀ c ∈ signatureChars, indefiniteChar c = false ∧ c ≠ 0 ∧ c.toNat < 128 := by decide +kernel

theorem indefinite_of_signature {string : Bytes} (all : string.all isSignatureChar = true) : string.any indefiniteChar = false := by
  rw [List.any_eq_false]
  intro c member
  have held := of_decide_eq_true (List.all_eq_true.mp all c member)
  rw [(signatureChars_plain c held).1]
  exact Bool.false_ne_true

theorem TypeExpr.signature_iff (e : TypeExpr) :
    e.string.all isSignatureChar = true ↔ ∃ t : VariantType, t.toExpr = e ∧ t.withoutMaybe = true := by
  constructor
  · intro all
    obtain ⟨t, rfl⟩ := e.definite_of_string (indefinite_of_signature all)
    rw [t.string_signature] at all
    exact ⟨t, rfl, all⟩
  · rintro ⟨t, rfl, plain⟩
    rw [t.string_signature, plain]

/-- `xvariant_serialiser_is_signature` accepts the terminated sequences of definite type strings that have no maybe
type and are no deeper than the scanner goes. -/
theorem xvariantSerialiserIsSignature_iff (data : Bytes) :
    xvariantSerialiserIsSignature data = true ↔
      ∃ types : List VariantType, data = types.flatMap VariantType.string ++ [0] ∧
        ∀ t ∈ types, t.withoutMaybe = true ∧ t.toExpr.nesting ≤ maxRecursionDepth := by
  have cut : ∀ text : Bytes, (∀ c ∈ text, c ≠ 0) → (text ++ [0]).takeWhile (· ≠ 0) = text := by
    intro text nonzero
    rw [List.takeWhile_append_of_pos fun c member => decide_eq_true (nonzero c member),
      List.takeWhile_cons_of_neg (by simp), List.append_nil]
  unfold xvariantSerialiserIsSignature
  rw [Bool.and_eq_true, xvariantSerialiserIsString_iff]
  constructor
  · rintro ⟨⟨text, rfl, valid⟩, rest⟩
    rw [cut text valid.no_zero, Bool.and_eq_true] at rest
    obtain ⟨items, rfl, shallow⟩ := (scanSignature_iff (Nat.le_refl _)).mp rest.2
    have each : ∀ item ∈ items, ∃ t : VariantType, t.toExpr = item ∧ t.withoutMaybe = true := by
      have all : (TypeExpr.strings items).all isSignatureChar = true := rest.1
      rw [TypeExpr.all_strings, List.all_eq_true] at all
      exact fun item member => item.signature_iff.mp (all item member)
    obtain ⟨types, same, plain⟩ : ∃ types : List VariantType, types.map VariantType.toExpr = items ∧
        ∀ t ∈ types, t.withoutMaybe = true := by
      clear valid rest shallow
      induction items with
      | nil => exact ⟨[], rfl, fun _ member => nomatch member⟩
      | cons item items ih =>
        obtain ⟨t, rfl, plain⟩ := each item List.mem_cons_self
        obtain ⟨types, rfl, others⟩ := ih fun other member => each other (List.mem_cons_of_mem _ member)
        exact ⟨t :: types, rfl, List.forall_mem_cons.mpr ⟨plain, others⟩⟩
    subst same
    refine ⟨types, ?_, fun t member => ⟨plain t member, shallow _ (List.mem_map_of_mem member)⟩⟩
    rw [strings_map]
  · rintro ⟨types, rfl, each⟩
    have chars : (types.flatMap VariantType.string).all isSignatureChar = true := by
      rw [List.all_flatMap, List.all_eq_true]
      exact fun t member => t.string_signature.trans (each t member).1
    have plain : ∀ c ∈ types.flatMap VariantType.string, c ≠ 0 ∧ c.toNat < 128 := fun c member =>
      (signatureChars_plain c (of_decide_eq_true (List.all_eq_true.mp chars c member))).2
    refine ⟨⟨_, rfl, isUtf8_ascii plain⟩, ?_⟩
    rw [cut _ fun c member => (plain c member).1, Bool.and_eq_true]
    refine ⟨chars, (scanSignature_iff (Nat.le_refl _)).mpr ⟨types.map VariantType.toExpr, (strings_map types).symm, ?_⟩⟩
    intro item member
    obtain ⟨t, held, rfl⟩ := List.mem_map.mp member
    exact (each t held).2

theorem arrays_nesting {n : Nat} {t : TypeExpr} {rest : Bytes} (spelled : t.string ++ rest = List.replicate n (ascii 'a') ++ [ascii 'y']) :
    t.nesting = n := by
  induction n generalizing t rest with
  | zero =>
    cases t with
    | basic b => rfl
    | _ => exact absurd (List.cons.inj spelled).1 (by decide)
  | succ n ih =>
    cases t with
    | array element =>
      have deeper := @ih element rest (List.cons.inj spelled).2
      rw [TypeExpr.nesting, deeper]
    | basic b => cases b <;> exact absurd (List.cons.inj spelled).1 (by decide)
    | _ => exact absurd (List.cons.inj spelled).1 (by decide)

def arrays : Nat → VariantType
  | 0 => .basic .byte
  | n + 1 => .array (arrays n)

theorem arrays_string (n : Nat) : (arrays n).string = List.replicate n (ascii 'a') ++ [ascii 'y'] := by
  induction n with
  | zero => rfl
  | succ n ih =>
    rw [List.replicate_succ, List.cons_append, ← ih]
    rfl

theorem arrays_dbus (n : Nat) : (arrays n).isDBus = true := by
  induction n with
  | zero => rfl
  | succ n ih => cases n <;> exact ih

/-- A dictionary entry outside of an array passes, and an array with 129 levels does not. -/
theorem xvariantSerialiserIsSignature_entry :
    (xvariantSerialiserIsSignature ("{sv}".toList.map ascii ++ [0]) = true ∧ ¬ DBusSignature ("{sv}".toList.map ascii ++ [0])) ∧
    (xvariantSerialiserIsSignature ((arrays 129).string ++ [0]) = false ∧ DBusSignature ((arrays 129).string ++ [0])) := by
  refine ⟨⟨by decide, ?_⟩, ?_, [arrays 129], ?_, ?_⟩
  · rintro ⟨types, spelled, each⟩
    cases types with
    | nil => exact absurd spelled (by decide)
    | cons t types =>
      have proper := each t List.mem_cons_self
      cases t with
      | dictEntry key value => exact Bool.false_ne_true proper
      | basic b => cases b <;> exact absurd (List.cons.inj spelled).1 (by decide)
      | _ => exact absurd (List.cons.inj spelled).1 (by decide)
  · rw [Bool.eq_false_iff]
    intro accepted
    have scanned := (Bool.and_eq_true_iff.mp (Bool.and_eq_true_iff.mp accepted).2).2
    have cut : ((arrays 129).string ++ [0]).takeWhile (· ≠ 0) = (arrays 129).string := by
      have plain : ∀ c ∈ (arrays 129).string, decide (c ≠ 0) = true := by
        intro c member
        rw [arrays_string, List.mem_append, List.mem_replicate, List.mem_singleton] at member
        rcases member with ⟨-, rfl⟩ | rfl <;> rfl
      rw [List.takeWhile_append_of_pos plain, List.takeWhile_cons_of_neg (by simp), List.append_nil]
    rw [cut, scanSignature_iff (Nat.le_refl _), arrays_string] at scanned
    obtain ⟨items, spelled, shallow⟩ := scanned
    cases items with
    | nil => exact absurd spelled (by decide)
    | cons item items =>
      have deep := arrays_nesting spelled.symm
      exact absurd (shallow item List.mem_cons_self) (by rw [deep]; decide)
  · rw [List.flatMap_singleton]
  · exact List.forall_mem_singleton.mpr (arrays_dbus 129)

end Xpl.Variant
