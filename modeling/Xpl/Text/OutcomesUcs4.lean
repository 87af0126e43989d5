import Xpl.Text.OutcomesUtf16
import Xpl.Text.OutcomesUtf8

/-! The reports of the converters from UCS-4, and those of all six converters. -/

set_option autoImplicit false

namespace Xpl.Text
open Xpl.Library

/-- How the units behind the characters that the target can express end an input. No unit is a part of a character. -/
inductive Ucs4Ends (target : Nat → Prop) : List Nat → Ending → Prop where
  | complete : Ucs4Ends target [] .complete
  | refused {c : Nat} {rest : List Nat} : ¬target c → Ucs4Ends target (c :: rest) .illFormed

structure Ucs4Input (target : Nat → Prop) (memory : List Nat) (len : Option Nat) (text tail : List Nat) (ending : Ending) : Prop where
  content : Content memory len (text ++ tail)
  accepted : ∀ c ∈ text, target c
  ends : Ucs4Ends target tail ending

theorem exists_ucs4Input (target : Nat → Prop) {memory content : List Nat} {len : Option Nat}
    (input : Content memory len content) : ∃ text tail ending, Ucs4Input target memory len text tail ending := by
  have parse : ∃ text tail ending, content = text ++ tail ∧ (∀ c ∈ text, target c) ∧ Ucs4Ends target tail ending := by
    clear input
    induction content with
    | nil => exact ⟨[], [], .complete, rfl, fun c none => absurd none List.not_mem_nil, .complete⟩
    | cons c content ih =>
      by_cases fits : target c
      · obtain ⟨text, tail, ending, split, accepted, ends⟩ := ih
        exact ⟨c :: text, tail, ending, by rw [split]; rfl, List.forall_mem_cons.mpr ⟨fits, accepted⟩, ends⟩
      · exact ⟨[], c :: content, .illFormed, rfl, fun c none => absurd none List.not_mem_nil, .refused fits⟩
  obtain ⟨text, tail, ending, rfl, accepted, ends⟩ := parse
  exact ⟨text, tail, ending, input, accepted, ends⟩

section Scan
variable {size : Nat → Except ConvertError Nat} {amount : Nat → Nat} {before text after : List Nat} {len : Option Nat}

theorem not_any_reached {index : Nat} (going : ∀ n, len = some n → index < n) :
    ¬(len.any fun (length : Nat) => decide ((length : Int) ≤ (index : Int))) = true := by
  cases len with
  | none => exact Bool.false_ne_true
  | some n =>
    have before := going n rfl
    simp only [Option.any_some, decide_eq_true_eq]
    omega

/-- The counting pass over units that are accepted. -/
theorem ucs4Scan_units (sizes : ∀ c ∈ text, c ≠ 0 ∧ size c = .ok (amount c)) (room : ∀ n, len = some n → before.length + text.length ≤ n)
    (small : before.length + text.length < 2 ^ 31) (fuel : Nat) (k : Int) :
    ucs4Scan (before ++ (text ++ after)) size len (fuel + text.length) before.length (wrapInt k) =
      ucs4Scan (before ++ (text ++ after)) size len fuel ((before.length + text.length : Nat) : Int) (wrapInt (k + total amount text)) := by
  induction text generalizing before k with
  | nil =>
    have sum : k + (total amount [] : Nat) = k := by simp [total]
    rw [sum]
    rfl
  | cons c text ih =>
    obtain ⟨nonzero, known⟩ := sizes c List.mem_cons_self
    rw [List.length_cons] at room small
    have going := @not_any_reached len before.length fun n limit => by
      have enough := room n limit
      omega
    have index : wrapInt (before.length + 1) = (before.length + 1 : Nat) := wrapInt_of_lt (by omega) (by omega)
    have next := @ih (before ++ [c]) (fun other member => sizes other (List.mem_cons_of_mem _ member))
      (fun n limit => by
        have enough := room n limit
        rw [List.length_append, List.length_singleton]
        omega)
      (by rw [List.length_append, List.length_singleton]; omega) (k + amount c)
    rw [List.append_assoc, List.singleton_append, List.length_append, List.length_singleton] at next
    rw [List.cons_append, List.length_cons, ← Nat.add_assoc, ucs4Scan, if_neg going, unitAt_append]
    simp only [some_bind, if_neg nonzero, known, wrapInt_add, index]
    rw [next, total_cons]
    simp only [Nat.cast_add, Int.add_assoc, Nat.add_assoc, Nat.add_comm 1]

/-- The index becomes negative after 2^31 units. -/
theorem ucs4Scan_outside (sizes : ∀ c ∈ text, c ≠ 0 ∧ size c = .ok (amount c)) (room : ∀ n, len = some n → text.length ≤ n)
    (large : 2 ^ 31 ≤ text.length) : ucs4Scan (text ++ after) size len ((text ++ after).length + 1) 0 0 = none := by
  obtain ⟨front, c, back, rfl, exactly⟩ : ∃ front c back, text = front ++ c :: back ∧ front.length = 2 ^ 31 - 1 := by
    have inside : 2 ^ 31 - 1 < text.length := by omega
    refine ⟨text.take (2 ^ 31 - 1), text[2 ^ 31 - 1], text.drop (2 ^ 31 - 1 + 1), ?_, by rw [List.length_take]; omega⟩
    rw [← List.drop_eq_getElem_cons inside, List.take_append_drop]
  obtain ⟨nonzero, known⟩ := sizes c (List.mem_append_right _ List.mem_cons_self)
  have fuel : (front ++ c :: back ++ after).length + 1 = ((c :: back ++ after).length - 1 + 2) + front.length := by
    rw [List.append_assoc, List.length_append, List.cons_append, List.length_cons]
    omega
  have scanned := @ucs4Scan_units size amount [] front (c :: back ++ after) len (fun other member => sizes other (List.mem_append_left _ member))
    (fun n limit => by
      have enough := room n limit
      rw [List.length_nil]
      omega)
    (by rw [List.length_nil, exactly]; decide) ((c :: back ++ after).length - 1 + 2) 0
  rw [wrapInt_zero, List.nil_append, List.length_nil, Nat.zero_add] at scanned
  have going := @not_any_reached len front.length fun n limit => by
    have enough := room n limit
    omega
  have here : unitAt (front ++ (c :: back ++ after)) front.length = some c := unitAt_append front c (back ++ after)
  have wrapped : wrapInt ((front.length : Int) + 1) = -2 ^ 31 := by
    rw [exactly]
    decide
  rw [fuel, List.append_assoc]
  refine scanned.trans ?_
  rw [ucs4Scan, if_neg going, here]
  simp only [some_bind, if_neg nonzero, known, wrapped]
  have further : ¬(len.any fun (length : Nat) => decide ((length : Int) ≤ -2 ^ 31)) = true := by
    cases len with
    | none => exact Bool.false_ne_true
    | some n =>
      simp only [Option.any_some, decide_eq_true_eq]
      omega
  rw [ucs4Scan, if_neg further]
  rfl

variable {α : Type} {emit : Nat → List α} {target : Nat → Prop} {memory tail : List Nat} {ending : Ending}

theorem Ucs4Input.sizes (input : Ucs4Input target memory len text tail ending) (counts : Counts size emit target) :
    ∀ c ∈ text, c ≠ 0 ∧ size c = .ok (emit c).length :=
  fun c member => ⟨fun zero => input.content.1 (List.mem_append_left _ (zero ▸ member)), counts.accepts c (input.accepted c member)⟩

/-- The length leaves room for the accepted units, and for one more where one is left. -/
theorem Content.room (content : Content memory len (text ++ tail)) :
    (∀ n, len = some n → text.length ≤ n) ∧ (tail ≠ [] → ∀ n, len = some n → text.length < n) := by
  obtain ⟨_, after, _, stops⟩ := content
  rw [List.length_append] at stops
  constructor
  · intro n limit
    rcases stops with exactly | ⟨more, _⟩
    · have value := Option.some.inj (limit.symm.trans exactly)
      omega
    · have before := more n limit
      omega
  · intro nonempty n limit
    have positive := List.length_pos_of_ne_nil nonempty
    rcases stops with exactly | ⟨more, _⟩
    · have value := Option.some.inj (limit.symm.trans exactly)
      omega
    · have before := more n limit
      omega

/-- The counting pass up to the end of the accepted units. -/
theorem Ucs4Input.counted (input : Ucs4Input target memory len text tail ending) (counts : Counts size emit target)
    (small : text.length < 2 ^ 31) :
    ∃ after fuel, memory = text ++ (tail ++ after) ∧ (tail = [] → len = some text.length ∨ (∀ n, len = some n → text.length < n) ∧ after.head? = some 0) ∧
      ucs4Scan memory size len (memory.length + 1) 0 0 =
        ucs4Scan memory size len (fuel + 1) text.length (wrapInt (total (fun c => (emit c).length) text : Nat)) := by
  obtain ⟨room, _⟩ := input.content.room
  obtain ⟨_, after, split, stops⟩ := input.content
  rw [List.append_assoc] at split
  have scanned := @ucs4Scan_units size (fun c => (emit c).length) [] text (tail ++ after) len (input.sizes counts)
    (fun n limit => by
      have enough := room n limit
      rwa [List.length_nil, Nat.zero_add])
    (by rwa [List.length_nil, Nat.zero_add]) ((tail ++ after).length + 1) 0
  rw [List.nil_append, List.length_nil, Nat.zero_add, wrapInt_zero, Int.zero_add, ← split] at scanned
  refine ⟨after, (tail ++ after).length, split, ?_, ?_⟩
  · rintro rfl
    rwa [List.append_nil] at stops
  · have size_memory := congrArg List.length split
    rw [List.length_append] at size_memory
    rwa [show memory.length + 1 = (tail ++ after).length + 1 + text.length by omega]

theorem ucs4Scan_complete (input : Ucs4Input target memory len text [] .complete) (counts : Counts size emit target)
    (small : text.length < 2 ^ 31) :
    ucs4Scan memory size len (memory.length + 1) 0 0 = some (.ok (wrapInt (total (fun c => (emit c).length) text : Nat)), (text.length : Int)) := by
  obtain ⟨after, fuel, split, stops, scanned⟩ := input.counted counts small
  rw [scanned, ucs4Scan]
  rcases stops rfl with exactly | ⟨more, zero⟩
  · exact if_pos (by simp [exactly])
  · cases after with
    | nil => cases zero
    | cons first after =>
      cases zero
      rw [if_neg (not_any_reached more), split, List.nil_append, unitAt_append]
      rfl

theorem ucs4Scan_refused {c : Nat} {rest : List Nat} {error : ConvertError} (input : Ucs4Input target memory len text (c :: rest) .illFormed)
    (refusal : size c = .error error) (counts : Counts size emit target) (small : text.length < 2 ^ 31) :
    ucs4Scan memory size len (memory.length + 1) 0 0 = some (.error error, (text.length : Int)) := by
  obtain ⟨after, fuel, split, _, scanned⟩ := input.counted counts small
  have nonzero : c ≠ 0 := fun zero => input.content.1 (List.mem_append_right _ (zero ▸ List.mem_cons_self))
  rw [scanned, ucs4Scan, if_neg (not_any_reached (input.content.room.2 (List.cons_ne_nil c rest))), split, List.cons_append, unitAt_append]
  simp only [some_bind, if_neg nonzero, refusal]
  rfl

end Scan

section Write
variable {α : Type} {emit : Nat → List α}

/-- The writing pass ends well when a character ends where the count does. -/
theorem ucs4Write_ne_none (some_unit : ∀ c, emit c ≠ []) (zero : α) {text before after : List Nat} {count out fuel : Nat}
    (small : before.length + text.length < 2 ^ 31) (less : count ≤ total (fun c => (emit c).length) text) (enough : text.length < fuel) :
    ucs4Write (before ++ (text ++ after)) emit zero (out + count : Nat) (out + count + 1) fuel before.length out ≠ none ↔
      Reaches (fun c => (emit c).length) text count := by
  -- over the text: the loop has room as long as no character passes the counted end
  induction text generalizing before count out fuel with
  | nil =>
    obtain ⟨fuel, rfl⟩ := Nat.exists_eq_succ_of_ne_zero (Nat.ne_of_gt enough)
    obtain rfl : count = 0 := Nat.le_zero.mp less
    rw [ucs4Write, if_neg (by omega), if_pos (by omega)]
    exact ⟨fun _ => reaches_zero _ _, fun _ => Option.some_ne_none _⟩
  | cons c text ih =>
    obtain ⟨fuel, rfl⟩ := Nat.exists_eq_succ_of_ne_zero (Nat.ne_of_gt (Nat.zero_lt_of_lt enough))
    by_cases more : 0 < count
    · have positive := List.length_pos_of_ne_nil (some_unit c)
      rw [List.length_cons] at small enough
      rw [total_cons] at less
      have index : wrapInt (before.length + 1) = (before.length + 1 : Nat) := wrapInt_of_lt (by omega) (by omega)
      rw [List.cons_append, ucs4Write, if_pos (by omega), unitAt_append, some_bind, reaches_cons positive more,
        index]
      by_cases room : (emit c).length ≤ count
      · have rest := @ih (before ++ [c]) (count - (emit c).length) (out + (emit c).length) fuel
          (by rw [List.length_append, List.length_singleton]; omega) (by omega) (Nat.lt_of_succ_lt_succ enough)
        rw [show out + (emit c).length + (count - (emit c).length) = out + count by omega, List.append_assoc, List.singleton_append,
          List.length_append, List.length_singleton] at rest
        rw [if_pos (by omega), and_iff_right room, ← rest]
        exact bind_ne_none fun _ => Option.some_ne_none _
      · -- the character leaves no room for the terminator
        refine iff_of_false (fun wrote => wrote ?_) fun both => room both.1
        by_cases last : out + (emit c).length ≤ out + count + 1
        · obtain ⟨turns, rfl⟩ := Nat.exists_eq_succ_of_ne_zero (Nat.ne_of_gt (Nat.zero_lt_of_lt (Nat.lt_of_succ_lt_succ enough)))
          rw [if_pos last, ucs4Write, if_neg (by omega), if_neg (by omega)]
          rfl
        · rw [if_neg last]
    · obtain rfl : count = 0 := Nat.eq_zero_of_not_pos more
      rw [ucs4Write, if_neg (by omega), if_pos (by omega)]
      exact ⟨fun _ => reaches_zero _ _, fun _ => Option.some_ne_none _⟩

end Write

section Reports
variable {alloc : Nat → Bool} {α : Type} {size : Nat → Except ConvertError Nat} {emit : Nat → List α} {zero : α} {unitBytes : Nat}
  {wantsRead : Bool} {memory text tail : List Nat} {len : Option Nat} {ending : Ending} {target : Nat → Prop}

def Ucs4Reported (emit : Nat → List α) (text : List Nat) : Ending → Prop
  | .complete => text.length < 2 ^ 31 ∧ Finishes (fun c => (emit c).length) 1 text
  | _ => text.length < 2 ^ 31

/-- What becomes of a count, however large. -/
theorem convertUcs4_counted (allocator : Allocator alloc) (unitSize : 0 < unitBytes ∧ unitBytes ≤ 4) {n : Nat} {index : Int}
    (scanned : ucs4Scan memory size len (memory.length + 1) 0 0 = some (.ok (wrapInt n), index)) :
    convertUcs4 alloc memory size emit zero unitBytes len =
      if n % 2 ^ 32 + 1 < 2 ^ 31 then
        (ucs4Write memory emit zero (n % 2 ^ 32 : Nat) (n % 2 ^ 32 + 1) (memory.length + 1) 0 0).bind fun wrote =>
          some (.written wrote.1 wrote.2.1.toNat wrote.2.2)
      else some (.failed outOfMemory index.toNat) := by
  have count := wrapInt_cases n
  have block := wrapInt_cases (wrapInt n + 1)
  rw [convertUcs4, scanned, some_bind]
  dsimp only
  by_cases fits : n % 2 ^ 32 + 1 < 2 ^ 31
  · have value : wrapInt n = (n % 2 ^ 32 : Nat) := by omega
    have more : wrapInt (wrapInt n + 1) = (n % 2 ^ 32 + 1 : Nat) := by omega
    rw [if_pos fits, more, if_pos (tryMallocN_moderate allocator fits unitSize (Nat.succ_pos _)), value, Int.toNat_natCast]
    rfl
  · have negative : wrapInt (wrapInt n + 1) ≤ 0 := by omega
    rw [if_neg fits, if_neg (Bool.eq_false_iff.mp (tryMallocN_refused allocator negative unitSize.1))]
    rfl

theorem convertUcs4_reports_iff (allocator : Allocator alloc) (unitSize : 0 < unitBytes ∧ unitBytes ≤ 4) (some_unit : ∀ c, emit c ≠ [])
    (counts : Counts size emit target) (input : Ucs4Input target memory len text tail ending) :
    Reports (text.flatMap emit) text.length wantsRead (convertUcs4 alloc memory size emit zero unitBytes len) zero ending ↔
      Ucs4Reported emit text ending := by
  by_cases small : text.length < 2 ^ 31
  · cases input.ends with
    | complete =>
      have converted := @convertUcs4_counted alloc α size emit zero unitBytes memory len allocator unitSize _ _
        (ucs4Scan_complete input counts small)
      obtain ⟨after, _, split, _⟩ := input.counted counts small
      rw [List.nil_append] at split
      change _ ≠ none ↔ _ ∧ Finishes _ 1 text
      rw [converted, Finishes, and_iff_right small]
      by_cases fits : total (fun c => (emit c).length) text % 2 ^ 32 + 1 < 2 ^ 31
      · have reaches := @ucs4Write_ne_none α emit some_unit zero text [] after (total (fun c => (emit c).length) text % 2 ^ 32) 0
          (memory.length + 1) (by rwa [List.length_nil, Nat.zero_add]) (Nat.mod_le _ _)
          (by rw [split, List.length_append]; omega)
        rw [Nat.zero_add, List.nil_append, List.length_nil, ← split] at reaches
        rw [if_pos fits, bind_ne_none fun _ => Option.some_ne_none _]
        exact reaches.trans ⟨Or.inr, fun either => either.resolve_left (by omega)⟩
      · rw [if_neg fits]
        exact iff_of_true (Option.some_ne_none _) (Or.inl (by omega))
    | @refused c _ unfit =>
      obtain ⟨error, illegal, refusal⟩ := counts.refuses c unfit
      refine iff_of_true ⟨error, text.length, illegal, ?_, fun _ => rfl⟩ small
      rw [convertUcs4, ucs4Scan_refused input refusal counts small]
      rfl
  · have undefined : convertUcs4 alloc memory size emit zero unitBytes len = none := by
      obtain ⟨_, after, rfl, _⟩ := input.content
      rw [convertUcs4, List.append_assoc, ucs4Scan_outside (input.sizes counts) input.content.room.1 (Nat.le_of_not_lt small)]
      rfl
    rw [undefined]
    cases input.ends with
    | complete => exact iff_of_false (fun wrong => wrong rfl) fun both => small both.1
    | refused refusal =>
      refine iff_of_false ?_ small
      rintro ⟨_, _, _, ⟨⟩, _⟩

end Reports

/-! ## All converters -/

theorem length_trailingBytes (count c : Nat) : (trailingBytes count c).2.length = count := by
  induction count generalizing c with
  | zero => rfl
  | succ count ih =>
    change ((trailingBytes count (c >>> 6)).2 ++ _).length = count + 1
    rw [List.length_append, ih, List.length_singleton]

theorem length_xunicharToUtf8 (c : Nat) : (xunicharToUtf8 c).length = utf8Length c := by
  unfold xunicharToUtf8 utf8Length
  rw [List.length_cons, length_trailingBytes]
  repeat' split
  all_goals rfl

theorem ucs4_counts : Counts (fun _ => .ok 1) (fun c => [c]) fun _ => True :=
  ⟨fun _ _ => rfl, fun _ refused => absurd trivial refused⟩

theorem utf8_counts : Counts utf8Size xunicharToUtf8 FitsUtf8 := by
  unfold FitsUtf8 utf8Size
  refine ⟨fun c fits => ?_, fun c unfit => ?_⟩
  · rw [if_neg (by omega), length_xunicharToUtf8]
  · exact ⟨beyondUtf8, rfl, if_pos (by omega)⟩

theorem utf16_counts : Counts utf16Units writeUtf16 IsScalar := by
  unfold IsScalar utf16Units writeUtf16
  refine ⟨fun c fits => ?_, fun c unfit => ?_⟩
  · by_cases small : c < 0x10000
    · rw [if_pos small]
      split_ifs
      · rfl
      · omega
      · rfl
    · rw [if_neg small, if_neg (by omega), if_neg (by omega), if_neg small, if_pos (by omega)]
      rfl
  · by_cases surrogate : c < 0xe000
    · exact ⟨invalidSequence, rfl, by rw [if_neg (by omega), if_pos surrogate]⟩
    · exact ⟨beyondUtf16, rfl, by rw [if_neg (by omega), if_neg surrogate, if_neg (by omega), if_neg (by omega)]⟩

theorem xunicharToUtf8_ne_nil (c : Nat) : xunicharToUtf8 c ≠ [] := List.cons_ne_nil _ _

/-- The call may read all up to the length, or up to a terminator. -/
def Readable {α : Type} [OfNat α 0] (memory : List α) (len : Option Nat) : Prop := len.elim (0 ∈ memory) (· ≤ memory.length)

/-- Every input of the six converters is made of characters and an end, and when the
converter reports what it should. -/
theorem converters_report_iff (alloc : Nat → Bool) (allocator : Allocator alloc) (len : Option Nat) (wantsRead : Bool) :
    (∀ string : Bytes, Readable string len →
      (∃ chars tail ending, Utf8Input (fun _ => True) string len chars tail ending) ∧
      ∀ chars tail ending, Utf8Input (fun _ => True) string len chars tail ending →
        (Reports (codes chars) (spell chars).length wantsRead (xutf8ToUcs4 alloc string len wantsRead) 0 ending ↔
          Utf8Reported (fun c => [c]) len chars tail wantsRead ending)) ∧
    (∀ string : Bytes, Readable string len →
      (∃ chars tail ending, Utf8Input IsScalar string len chars tail ending) ∧
      ∀ chars tail ending, Utf8Input IsScalar string len chars tail ending →
        (Reports ((codes chars).flatMap writeUtf16) (spell chars).length wantsRead (xutf8ToUtf16 alloc string len wantsRead) 0 ending ↔
          Utf8Reported writeUtf16 len chars tail wantsRead ending)) ∧
    (∀ units : List Nat, (∀ c ∈ units, c < 2 ^ 16) → Readable units len →
      (∃ text tail ending, Utf16Input units len text tail ending) ∧
      ∀ text tail ending, Utf16Input units len text tail ending →
        (Reports (text.flatMap xunicharToUtf8) (text.flatMap utf16).length wantsRead (xutf16ToUtf8 alloc units len wantsRead) 0 ending ↔
          Utf16Reported utf8Length 1 text tail wantsRead ending)) ∧
    (∀ units : List Nat, (∀ c ∈ units, c < 2 ^ 16) → Readable units len →
      (∃ text tail ending, Utf16Input units len text tail ending) ∧
      ∀ text tail ending, Utf16Input units len text tail ending →
        (Reports text (text.flatMap utf16).length wantsRead (xutf16ToUcs4 alloc units len wantsRead) 0 ending ↔
          Utf16Reported (fun _ => 4) 4 text tail wantsRead ending)) ∧
    (∀ units : List Nat, Readable units len →
      (∃ text tail ending, Ucs4Input FitsUtf8 units len text tail ending) ∧
      ∀ text tail ending, Ucs4Input FitsUtf8 units len text tail ending →
        (Reports (text.flatMap xunicharToUtf8) text.length wantsRead (gUcs4ToUtf8 alloc units len) 0 ending ↔
          Ucs4Reported xunicharToUtf8 text ending)) ∧
    (∀ units : List Nat, Readable units len →
      (∃ text tail ending, Ucs4Input IsScalar units len text tail ending) ∧
      ∀ text tail ending, Ucs4Input IsScalar units len text tail ending →
        (Reports (text.flatMap writeUtf16) text.length wantsRead (gUcs4ToUtf16 alloc units len) 0 ending ↔
          Ucs4Reported writeUtf16 text ending)) := by
  have few : 0 < 4 ∧ 4 ∣ 2 ^ 32 ∧ 4 < 2 ^ 31 := by decide
  have one : 0 < 1 ∧ 1 ∣ 2 ^ 32 ∧ 1 < 2 ^ 31 := by decide
  have parse8 : ∀ (target : Nat → Prop) (string : Bytes), Readable string len →
      ∃ chars tail ending, Utf8Input target string len chars tail ending := by
    intro target string readable
    obtain ⟨content, input⟩ := exists_content readable
    exact exists_utf8Input target input
  have parse16 : ∀ units : List Nat, (∀ c ∈ units, c < 2 ^ 16) → Readable units len →
      ∃ text tail ending, Utf16Input units len text tail ending := by
    intro units small readable
    obtain ⟨content, input⟩ := exists_content readable
    refine exists_utf16Input input fun c member => small c ?_
    obtain ⟨_, after, rfl, _⟩ := input
    exact List.mem_append_left _ member
  have parse4 : ∀ (target : Nat → Prop) (units : List Nat), Readable units len →
      ∃ text tail ending, Ucs4Input target units len text tail ending := by
    intro target units readable
    obtain ⟨content, input⟩ := exists_content readable
    exact exists_ucs4Input target input
  refine ⟨?_, ?_, ?_, ?_, ?_, ?_⟩
  · intro string readable
    refine ⟨parse8 _ string readable, fun chars tail ending input => ?_⟩
    have reports : Reports ((codes chars).flatMap fun c => [c]) (spell chars).length wantsRead (xutf8ToUcs4 alloc string len wantsRead) 0 ending ↔
        _ := convertUtf8_reports_iff allocator (by decide) (fun c => List.cons_ne_nil c []) ucs4_counts input
    rwa [List.flatMap_singleton'] at reports
  · intro string readable
    refine ⟨parse8 _ string readable, fun chars tail ending input => ?_⟩
    exact convertUtf8_reports_iff allocator (by decide) writeUtf16_ne_nil utf16_counts input
  · intro units small readable
    refine ⟨parse16 units small readable, fun text tail ending input => ?_⟩
    refine convertUtf16_reports_iff allocator one utf8Length_pos ?_ input
    rw [Nat.one_mul, ← total_length]
    exact congrArg (fun size => total size text) (funext fun c => (length_xunicharToUtf8 c).symm)
  · intro units small readable
    refine ⟨parse16 units small readable, fun text tail ending input => ?_⟩
    have reports := @convertUtf16_reports_iff alloc Nat (fun _ => 4) (fun c => [c]) 0 4 wantsRead units text tail len ending allocator few
      (fun _ => by decide) (by rw [total_four, List.flatMap_singleton']) input
    rwa [List.flatMap_singleton'] at reports
  · intro units readable
    refine ⟨parse4 _ units readable, fun text tail ending input => ?_⟩
    exact convertUcs4_reports_iff allocator (by decide) xunicharToUtf8_ne_nil utf8_counts input
  · intro units readable
    refine ⟨parse4 _ units readable, fun text tail ending input => ?_⟩
    exact convertUcs4_reports_iff allocator (by decide) writeUtf16_ne_nil utf16_counts input

theorem converters_report_iff_high : Reports [0x61] 1 true (xutf16ToUtf8 halfSpace [0x61, 0xd801] (some 2) true) 0 .truncated :=
  ((converters_report_iff halfSpace halfSpace_allocator (some 2) true).2.2.1 [0x61, 0xd801] (by decide) (Nat.le_refl 2)).2 [0x61] [0xd801] _
    ⟨⟨by decide, [], rfl, Or.inl rfl⟩, by unfold IsText IsScalar; decide, .truncated (by unfold IsHigh; decide)⟩ |>.mpr fun _ => by decide

/-- A high surrogate that a letter follows is reported at the letter. -/
theorem unpaired_surrogate_misreported :
    xutf16ToUtf8 halfSpace [0xd800, 0x61] (some 2) true = some (.failed invalidSequence 1) ∧
      ¬∀ alloc : Nat → Bool, Allocator alloc → ∀ units len text tail ending wantsRead, (∀ c ∈ units, c < 2 ^ 16) →
        Utf16Input units len text tail ending →
        Reports (text.flatMap xunicharToUtf8) (text.flatMap utf16).length wantsRead (xutf16ToUtf8 alloc units len wantsRead) 0 ending := by
  have found : xutf16ToUtf8 halfSpace [0xd800, 0x61] (some 2) true = some (.failed invalidSequence 1) := by decide
  refine ⟨found, fun always => ?_⟩
  obtain ⟨error, position, -, same, stored⟩ := always halfSpace halfSpace_allocator [0xd800, 0x61] (some 2) [] [0xd800, 0x61] .illFormed true (by decide)
    ⟨⟨by decide, [], rfl, Or.inl rfl⟩, fun c none => absurd none List.not_mem_nil, .unpaired (by unfold IsHigh; decide) (by unfold IsLow; decide)⟩
  rw [found] at same
  have other := (Conversion.failed.inj (Option.some.inj same)).2.trans (stored rfl)
  cases other

end Xpl.Text
