import Xpl.Text.Outcomes

/-! The reports of the converters from UTF-8. -/

set_option autoImplicit false

namespace Xpl.Text
open Xpl.Library

/-- How the bytes behind the characters end an input: ill-formed is what is no character, or none that the target can
express. -/
inductive Utf8Ends (target : Nat → Prop) : Bytes → Ending → Prop where
  | complete : Utf8Ends target [] .complete
  | broken {tail : Bytes} : Broken tail → Utf8Ends target tail .illFormed
  | refused {c : Nat} {character rest : Bytes} : Encoded c character → ¬target c → Utf8Ends target (character ++ rest) .illFormed
  | truncated {tail : Bytes} : Truncated tail → Utf8Ends target tail .truncated

/-- An input as characters that the target has room for, and an end. -/
structure Utf8Input (target : Nat → Prop) (memory : Bytes) (len : Option Nat) (chars : List (Nat × Bytes)) (tail : Bytes)
    (ending : Ending) : Prop where
  content : Content memory len (spell chars ++ tail)
  encoded : AllEncoded chars
  accepted : ∀ char ∈ chars, target char.1
  ends : Utf8Ends target tail ending

theorem exists_utf8Input (target : Nat → Prop) {memory content : Bytes} {len : Option Nat}
    (input : Content memory len content) : ∃ chars tail ending, Utf8Input target memory len chars tail ending := by
  obtain ⟨chars, tail, split, all, ends⟩ := exists_characters content
  rw [split] at input
  have parse : ∃ front back ending, spell chars ++ tail = spell front ++ back ∧ AllEncoded front ∧
      (∀ char ∈ front, target char.1) ∧ Utf8Ends target back ending := by
    clear input split
    induction chars with
    | nil =>
      rcases ends with rfl | cut | broken
      · exact ⟨[], [], .complete, rfl, all, fun char none => absurd none List.not_mem_nil, .complete⟩
      · exact ⟨[], tail, .truncated, rfl, all, fun char none => absurd none List.not_mem_nil, .truncated cut⟩
      · exact ⟨[], tail, .illFormed, rfl, all, fun char none => absurd none List.not_mem_nil, .broken broken⟩
    | cons char chars ih =>
      by_cases fits : target char.1
      · obtain ⟨front, back, ending, split, allFront, sizes, ends⟩ := ih all.tail
        refine ⟨char :: front, back, ending, ?_, List.forall_mem_cons.mpr ⟨all.head, allFront⟩,
          List.forall_mem_cons.mpr ⟨fits, sizes⟩, ends⟩
        rw [spell_cons, spell_cons, List.append_assoc, List.append_assoc, split]
      · refine ⟨[], spell (char :: chars) ++ tail, .illFormed, rfl, fun char none => absurd none List.not_mem_nil,
          fun char none => absurd none List.not_mem_nil, ?_⟩
        rw [spell_cons, List.append_assoc]
        exact .refused all.head fits
  obtain ⟨front, back, ending, same, allFront, sizes, ends⟩ := parse
  rw [same] at input
  exact ⟨front, back, ending, input, allFront, sizes, ends⟩

section Writing
variable {string : Bytes} {emit : Nat → List Nat}

theorem bind_ne_none {α β : Type} {found : Option α} {next : α → Option β} (always : ∀ a, next a ≠ none) :
    found.bind next ≠ none ↔ found ≠ none := by
  cases found with
  | none => exact ⟨fun wrong => absurd rfl wrong, fun wrong => absurd rfl wrong⟩
  | some a => exact ⟨fun _ => Option.some_ne_none a, fun _ => always a⟩

theorem utf8Write_ne_none (some_unit : ∀ c, emit c ≠ []) {chars : List (Nat × Bytes)} (all : AllEncoded chars) {position : Nat}
    (reads : Reads string position (spell chars)) {count index fuel : Nat}
    (less : count ≤ total (fun c => (emit c).length) (codes chars)) (enough : chars.length < fuel) :
    utf8Write string emit (index + count : Nat) (index + count + 1) fuel position index ≠ none ↔
      Reaches (fun c => (emit c).length) (codes chars) count := by
  -- over the characters: the loop has room as long as none passes the counted end
  induction chars generalizing position count index fuel with
  | nil =>
    obtain ⟨fuel, rfl⟩ := Nat.exists_eq_succ_of_ne_zero (Nat.ne_of_gt enough)
    obtain rfl : count = 0 := Nat.le_zero.mp less
    rw [utf8Write, if_neg (by omega), if_pos (by omega)]
    exact ⟨fun _ => reaches_zero _ _, fun _ => Option.some_ne_none _⟩
  | cons char chars ih =>
    obtain ⟨fuel, rfl⟩ := Nat.exists_eq_succ_of_ne_zero (Nat.ne_of_gt (Nat.zero_lt_of_lt enough))
    by_cases more : 0 < count
    · have positive := List.length_pos_of_ne_nil (some_unit char.1)
      obtain ⟨a, tail, shape, nonzero, skip, _⟩ := all.head.lead
      have here : string[position]? = some a := by
        have read := reads.left 0 all.head.length_pos
        rwa [shape] at read
      change count ≤ (emit char.1).length + total (fun c => (emit c).length) (codes chars) at less
      rw [utf8Write, if_pos (by omega), all.head.getChar reads.left, some_bind, here]
      change _ ↔ Reaches _ (char.1 :: codes chars) count
      rw [some_bind, skip, reaches_cons positive more]
      by_cases room : (emit char.1).length ≤ count
      · have rest := @ih all.tail (position + char.2.length) reads.right (count - (emit char.1).length)
          (index + (emit char.1).length) fuel (by omega) (Nat.lt_of_succ_lt_succ enough)
        rw [show index + (emit char.1).length + (count - (emit char.1).length) = index + count by omega] at rest
        rw [if_pos (by omega), and_iff_right room, ← rest]
        exact bind_ne_none fun _ => Option.some_ne_none _
      · -- the character leaves no room for the terminator
        refine iff_of_false (fun wrote => wrote ?_) fun both => room both.1
        by_cases last : index + (emit char.1).length ≤ index + count + 1
        · obtain ⟨turns, rfl⟩ := Nat.exists_eq_succ_of_ne_zero (Nat.ne_of_gt (Nat.zero_lt_of_lt (Nat.lt_of_succ_lt_succ enough)))
          rw [if_pos last, utf8Write, if_neg (by omega), if_neg (by omega)]
          rfl
        · rw [if_neg last]
    · obtain rfl : count = 0 := Nat.eq_zero_of_not_pos more
      rw [utf8Write, if_neg (by omega), if_pos (by omega)]
      exact ⟨fun _ => reaches_zero _ _, fun _ => Option.some_ne_none _⟩

end Writing

section Reports
variable {alloc : Nat → Bool} {string tail : Bytes} {len : Option Nat} {units : Nat → Except ConvertError Nat} {emit : Nat → List Nat}
  {unitBytes : Nat} {wantsRead : Bool} {chars : List (Nat × Bytes)} {ending : Ending} {target : Nat → Prop}

/-- What becomes of a count, however large. -/
theorem convertUtf8_counted (emit : Nat → List Nat) (allocator : Allocator alloc) (unitSize : 0 < unitBytes ∧ unitBytes ≤ 4) {n position : Nat}
    (scanned : utf8Scan string len units wantsRead (string.length + 1) 0 0 = some (.ok (wrapInt n), position)) :
    convertUtf8 alloc string len units emit unitBytes wantsRead =
      if n % 2 ^ 32 + 1 < 2 ^ 31 then
        (utf8Write string emit (n % 2 ^ 32 : Nat) (n % 2 ^ 32 + 1) (string.length + 1) 0 0).bind fun wrote =>
          some (.written wrote.1 wrote.2.1 (n % 2 ^ 32))
      else some (.failed outOfMemory position) := by
  have count := wrapInt_cases n
  have block := wrapInt_cases (wrapInt n + 1)
  rw [convertUtf8, scanned, some_bind]
  dsimp only
  by_cases fits : n % 2 ^ 32 + 1 < 2 ^ 31
  · have value : wrapInt n = (n % 2 ^ 32 : Nat) := by omega
    have more : wrapInt (wrapInt n + 1) = (n % 2 ^ 32 + 1 : Nat) := by omega
    rw [if_pos fits, more, if_pos (tryMallocN_moderate allocator fits unitSize (Nat.succ_pos _)), value, Int.toNat_natCast,
      Int.toNat_natCast]
    rfl
  · have negative : wrapInt (wrapInt n + 1) ≤ 0 := by omega
    rw [if_neg fits, if_neg (Bool.eq_false_iff.mp (tryMallocN_refused allocator negative unitSize.1))]
    rfl

/-- A NUL cuts the last character off before the length, and the character would reach beyond the length. -/
def Cramped (len : Option Nat) (start : Nat) (tail : Bytes) : Prop :=
  ∃ n a rest length wc minCode, len = some n ∧ tail = a :: rest ∧ leadClass a.toNat = some (length, wc, minCode) ∧
    start + tail.length < n ∧ n < start + length

/-- The counting pass up to the end of the characters. -/
theorem utf8Scan_characters (wantsRead : Bool) (counts : Counts units emit target) (input : Utf8Input target string len chars tail ending) :
    ∃ fuel, utf8Scan string len units wantsRead (string.length + 1) 0 0 =
      utf8Scan string len units wantsRead (fuel + 1) (spell chars).length
        (wrapInt (total (fun c => (emit c).length) (codes chars) : Nat)) := by
  obtain ⟨clean, after, split, ends⟩ := input.content
  have fewer := length_le_spell input.encoded
  have size := congrArg List.length split
  rw [List.length_append, List.length_append] at size
  have reads : Reads string 0 (spell chars) := by
    rw [split, List.append_assoc]
    exact reads_start _ _
  have room : ∀ n, len = some n → 0 + (spell chars).length ≤ n := by
    intro n limit
    rcases ends with exact | ⟨more, _⟩
    · rw [exact] at limit
      have value := Option.some.inj limit
      rw [List.length_append] at value
      omega
    · have before := more n limit
      rw [List.length_append] at before
      omega
  refine ⟨string.length - chars.length, ?_⟩
  have scanned := utf8Scan_spell units wantsRead (fun c => (emit c).length) input.encoded (fun char member =>
    counts.accepts _ (input.accepted char member)) reads room (string.length - chars.length + 1) 0
  rw [wrapInt_zero, Int.zero_add, Nat.zero_add, show string.length - chars.length + 1 + chars.length = string.length + 1 by omega] at scanned
  exact scanned

theorem Utf8Input.reads (input : Utf8Input target string len chars tail ending) :
    Reads string 0 (spell chars) ∧ (spell chars).length ≤ string.length := by
  obtain ⟨_, after, split, _⟩ := input.content
  rw [split, List.append_assoc]
  refine ⟨reads_start _ _, ?_⟩
  rw [List.length_append]
  exact Nat.le_add_right _ _

/-- The bytes behind the characters, and how far the decoder may look there. -/
theorem Utf8Input.behind (input : Utf8Input target string len chars tail ending) :
    Reads string (spell chars).length tail ∧ (tail ≠ [] → ∀ n, len = some n → (spell chars).length < n) ∧ 0 ∉ tail ∧
      (len.elim 6 (· - (spell chars).length) = tail.length ∧ len = some ((spell chars).length + tail.length) ∨
        (len = none ∨ tail.length < len.elim 6 (· - (spell chars).length)) ∧
          (∀ n, len = some n → (spell chars).length + tail.length < n) ∧ string[(spell chars).length + tail.length]? = some 0) := by
  obtain ⟨clean, after, split, ends⟩ := input.content
  have reads : Reads string (spell chars).length (tail ++ after) := by
    have whole := reads_start (spell chars ++ (tail ++ after)) []
    rw [List.append_nil, ← List.append_assoc, ← split] at whole
    rw [split, List.append_assoc] at whole
    have right := whole.right
    rw [Nat.zero_add] at right
    rwa [split, List.append_assoc]
  refine ⟨reads.left, fun nonempty n limit => ?_, fun held => clean (List.mem_append_right _ held), ?_⟩
  · have positive := List.length_pos_of_ne_nil nonempty
    rcases ends with exact | ⟨more, _⟩
    · rw [exact, List.length_append] at limit
      have value := Option.some.inj limit
      omega
    · have before := more n limit
      rw [List.length_append] at before
      omega
  · rcases ends with exact | ⟨more, nul⟩
    · rw [List.length_append] at exact
      refine Or.inl ⟨?_, exact⟩
      rw [exact, Option.elim_some, Nat.add_sub_cancel_left]
    · have further : ∀ n, len = some n → (spell chars).length + tail.length < n := by
        intro n limit
        have before := more n limit
        rwa [List.length_append] at before
      refine Or.inr ⟨?_, further, ?_⟩
      · cases len with
        | none => exact Or.inl rfl
        | some n =>
          have before := further n rfl
          exact Or.inr (Nat.lt_sub_of_add_lt (by omega))
      · cases after with
        | nil => cases nul
        | cons first after =>
          cases nul
          have stop := reads.right 0 (Nat.succ_pos _)
          exact stop

/-- The counting pass finds the end of the input, or what is wrong there. -/
theorem utf8Scan_ends (wantsRead : Bool) (counts : Counts units emit target) (input : Utf8Input target string len chars tail ending) (fuel : Nat) (count : Int) :
    match ending with
    | .complete => utf8Scan string len units wantsRead (fuel + 1) (spell chars).length count = some (.ok count, (spell chars).length)
    | .illFormed => ∃ error : ConvertError, error.code = .illegalSequence ∧
        utf8Scan string len units wantsRead (fuel + 1) (spell chars).length count = some (.error error, (spell chars).length)
    | .truncated => ∃ code, (code = partialSequence ↔ ¬Cramped len (spell chars).length tail) ∧
        utf8Scan string len units wantsRead (fuel + 1) (spell chars).length count =
          some (if code = partialSequence then if wantsRead then .ok count else .error partialCharacter else .error invalidBytes,
            (spell chars).length) := by
  obtain ⟨reads, going, clean, room⟩ := input.behind
  cases input.ends with
  | complete =>
    refine utf8Scan_end ?_ fuel count
    rcases room with ⟨_, exact⟩ | ⟨_, more, nul⟩
    · exact Or.inl exact
    · exact Or.inr ⟨more, nul⟩
  | broken broken =>
    obtain ⟨a, rest, rfl⟩ := List.exists_cons_of_ne_nil broken.1
    have here : string[(spell chars).length]? = some a := reads 0 (Nat.succ_pos _)
    have nonzero : a ≠ 0 := fun zero => clean (zero ▸ List.mem_cons_self)
    have within : (a :: rest).length ≤ len.elim 6 (· - (spell chars).length) ∨ 6 ≤ len.elim 6 (· - (spell chars).length) := by
      rcases room with ⟨exact, _⟩ | ⟨rfl | more, _⟩
      · exact Or.inl (Nat.le_of_eq exact.symm)
      · exact Or.inr (Nat.le_refl 6)
      · exact Or.inl (Nat.le_of_lt more)
    have found := broken_found broken clean reads within
    refine ⟨invalidBytes, rfl, ?_⟩
    rw [utf8Scan_error (going (List.cons_ne_nil a rest)) here nonzero found (Or.inl rfl), if_neg (by decide)]
  | @refused c character rest encoded unfit =>
    obtain ⟨error, illegal, size⟩ := counts.refuses c unfit
    obtain ⟨a, others, shape, nonzero, _, most⟩ := encoded.lead
    have positive := encoded.length_pos
    have here : string[(spell chars).length]? = some a := by
      have read := reads.left 0 positive
      rwa [shape] at read
    have onwards : ∀ n, len = some n → (spell chars).length < n := going (by rw [shape]; exact List.cons_ne_nil _ _)
    have decoded := @Encoded.extended string character (spell chars).length c encoded (some (len.elim 6 (· - (spell chars).length))) reads.left (by
      rintro _ ⟨⟩
      rw [List.length_append] at room
      rcases room with ⟨exact, _⟩ | ⟨rfl | more, _⟩
      · rw [exact]
        exact Nat.le_add_right _ _
      · exact most
      · exact Nat.le_trans (Nat.le_add_right _ _) (Nat.le_of_lt more))
    refine ⟨error, illegal, ?_⟩
    rw [utf8Scan, if_neg (not_reached onwards), here]
    simp only [some_bind, if_neg nonzero, decoded, no_error_bit encoded.bounds.2, ne_eq, not_true_eq_false,
      if_false, size]
    rfl
  | truncated cut =>
    obtain ⟨a, rest, length, wc, minCode, rfl, announced, continued, short⟩ := cut
    have here : string[(spell chars).length]? = some a := reads 0 (Nat.succ_pos _)
    have nonzero : a ≠ 0 := fun zero => clean (zero ▸ List.mem_cons_self)
    have most := (leadClass_facts announced).2.2.2
    rw [List.length_cons] at room short
    have ends : len.elim 6 (· - (spell chars).length) = rest.length + 1 ∨
        rest.length + 1 < len.elim 6 (· - (spell chars).length) ∧ string[(spell chars).length + (rest.length + 1)]? = some 0 := by
      rcases room with ⟨exact, _⟩ | ⟨rfl | more, _, nul⟩
      · exact Or.inl exact
      · exact Or.inr ⟨by rw [Option.elim_none]; omega, nul⟩
      · exact Or.inr ⟨more, nul⟩
    have found := truncated_found announced continued short reads ends
    have cramped : rest.length + 1 < len.elim 6 (· - (spell chars).length) ∧ len.elim 6 (· - (spell chars).length) < length ↔
        Cramped len (spell chars).length (a :: rest) := by
      constructor
      · rintro ⟨inside, outside⟩
        cases len with
        | none => exact absurd outside (by rw [Option.elim_none]; omega)
        | some n =>
          rw [Option.elim_some] at inside outside
          exact ⟨n, a, rest, length, wc, minCode, rfl, rfl, announced, by rw [List.length_cons]; omega, by omega⟩
      · rintro ⟨n, a', rest', length', wc', minCode', rfl, shape, announced', inside, outside⟩
        obtain ⟨rfl, rfl⟩ := List.cons.inj shape
        have same := (Prod.mk.inj (Option.some.inj (announced.symm.trans announced'))).1
        rw [List.length_cons] at inside
        rw [Option.elim_some]
        omega
    refine ⟨_, ?_, utf8Scan_error (going (List.cons_ne_nil a rest)) here nonzero found ?_ fuel count⟩
    · rw [← cramped]
      split
      · next both => exact ⟨fun wrong => absurd wrong (by decide), fun not => absurd both not⟩
      · next not => exact ⟨fun _ => not, fun _ => rfl⟩
    · split
      · exact Or.inl rfl
      · exact Or.inr rfl

def Utf8Reported (emit : Nat → List Nat) (len : Option Nat) (chars : List (Nat × Bytes)) (tail : Bytes) (wantsRead : Bool) : Ending → Prop
  | .complete => Finishes (fun c => (emit c).length) 1 (codes chars)
  | .illFormed => True
  | .truncated => ¬Cramped len (spell chars).length tail ∧
      (wantsRead = true → total (fun c => (emit c).length) (codes chars) + 1 < 2 ^ 31)

theorem convertUtf8_error {error : ConvertError} {position : Nat}
    (scanned : utf8Scan string len units wantsRead (string.length + 1) 0 0 = some (.error error, position)) :
    convertUtf8 alloc string len units emit unitBytes wantsRead = some (.failed error position) := by
  rw [convertUtf8, scanned]
  rfl

theorem convertUtf8_reports_iff (allocator : Allocator alloc) (unitSize : 0 < unitBytes ∧ unitBytes ≤ 4) (some_unit : ∀ c, emit c ≠ [])
    (counts : Counts units emit target) (input : Utf8Input target string len chars tail ending) :
    Reports ((codes chars).flatMap emit) (spell chars).length wantsRead (convertUtf8 alloc string len units emit unitBytes wantsRead) 0 ending ↔
      Utf8Reported emit len chars tail wantsRead ending := by
  obtain ⟨fuel, counted⟩ := utf8Scan_characters wantsRead counts input
  have ended := utf8Scan_ends wantsRead counts input fuel (wrapInt (total (fun c => (emit c).length) (codes chars) : Nat))
  obtain ⟨reads, within⟩ := input.reads
  have fewer := length_le_spell input.encoded
  have written := total_length emit (codes chars)
  cases ending with
  | complete =>
    rw [ended] at counted
    have converted := convertUtf8_counted emit allocator unitSize counted
    change _ ≠ none ↔ Finishes _ 1 _
    rw [converted, Finishes]
    by_cases fits : total (fun c => (emit c).length) (codes chars) % 2 ^ 32 + 1 < 2 ^ 31
    · have reaches := @utf8Write_ne_none string emit some_unit chars input.encoded 0 reads
        (total (fun c => (emit c).length) (codes chars) % 2 ^ 32) 0 (string.length + 1) (Nat.mod_le _ (2 ^ 32)) (by omega)
      rw [Nat.zero_add] at reaches
      rw [if_pos fits, bind_ne_none fun _ => Option.some_ne_none _, reaches]
      exact ⟨Or.inr, fun either => either.resolve_left (by omega)⟩
    · rw [if_neg fits]
      exact ⟨fun _ => Or.inl (by omega), fun _ => Option.some_ne_none _⟩
  | illFormed =>
    obtain ⟨error, illegal, found⟩ := ended
    rw [found] at counted
    exact iff_of_true ⟨error, _, illegal, convertUtf8_error counted, fun _ => rfl⟩ trivial
  | truncated =>
    obtain ⟨code, isPartial, found⟩ := ended
    rw [found] at counted
    change (if wantsRead then _ else _) ↔ _ ∧ _
    by_cases cramped : Cramped len (spell chars).length tail
    · have malformed : code ≠ partialSequence := fun same => isPartial.mp same cramped
      rw [if_neg malformed] at counted
      rw [convertUtf8_error counted]
      refine iff_of_false ?_ fun both => both.1 cramped
      split
      · exact nofun
      · rintro ⟨position, same⟩
        cases same
    · rw [if_pos (isPartial.mpr cramped)] at counted
      cases wantsRead with
      | false =>
        rw [convertUtf8_error counted]
        exact iff_of_true ⟨_, rfl⟩ ⟨cramped, nofun⟩
      | true =>
        have converted := convertUtf8_counted emit allocator unitSize counted
        rw [if_pos rfl, converted]
        by_cases fits : total (fun c => (emit c).length) (codes chars) + 1 < 2 ^ 31
        · refine iff_of_true ?_ ⟨cramped, fun _ => fits⟩
          have value : total (fun c => (emit c).length) (codes chars) % 2 ^ 32 = ((codes chars).flatMap emit).length := by omega
          have wrote := @utf8Write_spell string 0 emit some_unit chars input.encoded reads
            ((codes chars).flatMap emit).length (((codes chars).flatMap emit).length + 1) 0 (string.length + 1)
            (by omega) (by omega) (by omega)
          rw [value, if_pos (by omega), wrote, Nat.zero_add]
          rfl
        · refine iff_of_false (fun same => fits ?_) fun both => fits (both.2 rfl)
          split at same
          · obtain ⟨wrote, _, last⟩ := Option.bind_eq_some_iff.mp same
            have count := (Conversion.written.inj (Option.some.inj last)).2.2
            omega
          · cases same

end Reports

end Xpl.Text
