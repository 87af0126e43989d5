import Xpl.Text.Outcomes

/-! The reports of the converters from UTF-16. -/

set_option autoImplicit false

namespace Xpl.Text
open Xpl.Library

def IsHigh (c : Nat) : Prop := 0xd800 ≤ c ∧ c < 0xdc00

def IsLow (c : Nat) : Prop := 0xdc00 ≤ c ∧ c < 0xe000

/-- How the units behind the characters end an input. -/
inductive Utf16Ends : List Nat → Ending → Prop where
  | complete : Utf16Ends [] .complete
  | low {c : Nat} {rest : List Nat} : IsLow c → Utf16Ends (c :: rest) .illFormed
  | unpaired {high c : Nat} {rest : List Nat} : IsHigh high → ¬IsLow c → Utf16Ends (high :: c :: rest) .illFormed
  | truncated {high : Nat} : IsHigh high → Utf16Ends [high] .truncated

structure Utf16Input (memory : List Nat) (len : Option Nat) (text tail : List Nat) (ending : Ending) : Prop where
  content : Content memory len (text.flatMap utf16 ++ tail)
  valid : IsText text
  ends : Utf16Ends tail ending

theorem isText_cons {c : Nat} {text : List Nat} (scalar : IsScalar c) (nonzero : c ≠ 0) (valid : IsText text) : IsText (c :: text) :=
  List.forall_mem_cons.mpr ⟨⟨scalar, nonzero⟩, valid⟩

theorem exists_utf16Input {memory content : List Nat} {len : Option Nat} (input : Content memory len content)
    (units : ∀ c ∈ content, c < 2 ^ 16) : ∃ text tail ending, Utf16Input memory len text tail ending := by
  have parse : ∀ (size : Nat) (content : List Nat), content.length ≤ size → 0 ∉ content → (∀ c ∈ content, c < 2 ^ 16) →
      ∃ text tail ending, content = text.flatMap utf16 ++ tail ∧ IsText text ∧ Utf16Ends tail ending := by
    intro size
    induction size with
    | zero =>
      intro content short _ _
      obtain rfl := List.length_eq_zero_iff.mp (Nat.le_zero.mp short)
      exact ⟨[], [], .complete, rfl, fun c none => absurd none List.not_mem_nil, .complete⟩
    | succ size ih =>
      intro content short clean units
      cases content with
      | nil => exact ⟨[], [], .complete, rfl, fun c none => absurd none List.not_mem_nil, .complete⟩
      | cons c content =>
        have nothing : IsText [] := fun c none => absurd none List.not_mem_nil
        have nonzero : c ≠ 0 := fun zero => clean (zero ▸ List.mem_cons_self)
        have small := units c List.mem_cons_self
        rw [List.length_cons] at short
        by_cases low : IsLow c
        · exact ⟨[], c :: content, .illFormed, rfl, nothing, .low low⟩
        · by_cases high : IsHigh c
          · cases content with
            | nil => exact ⟨[], [c], .truncated, rfl, nothing, .truncated high⟩
            | cons d content =>
              by_cases pair : IsLow d
              · obtain ⟨text, tail, ending, split, valid, ends⟩ := ih content (by rw [List.length_cons] at short; omega)
                  (fun held => clean (List.mem_cons_of_mem _ (List.mem_cons_of_mem _ held)))
                  (fun e member => units e (List.mem_cons_of_mem _ (List.mem_cons_of_mem _ member)))
                unfold IsHigh at high
                unfold IsLow at pair
                refine ⟨(0x10000 + (c - 0xd800) * 0x400 + (d - 0xdc00)) :: text, tail, ending, ?_, ?_, ends⟩
                · have shape : utf16 (0x10000 + (c - 0xd800) * 0x400 + (d - 0xdc00)) = [c, d] := by
                    have first : 0xd800 + (0x10000 + (c - 0xd800) * 0x400 + (d - 0xdc00) - 0x10000) / 0x400 = c := by omega
                    have second : 0xdc00 + (0x10000 + (c - 0xd800) * 0x400 + (d - 0xdc00) - 0x10000) % 0x400 = d := by omega
                    rw [utf16, if_neg (by omega), first, second]
                  rw [List.flatMap_cons, shape, split]
                  rfl
                · exact isText_cons (by unfold IsScalar; omega) (by omega) valid
              · exact ⟨[], c :: d :: content, .illFormed, rfl, nothing, .unpaired high pair⟩
          · obtain ⟨text, tail, ending, split, valid, ends⟩ := ih content (by omega)
              (fun held => clean (List.mem_cons_of_mem _ held)) (fun e member => units e (List.mem_cons_of_mem _ member))
            unfold IsHigh at high
            unfold IsLow at low
            refine ⟨c :: text, tail, ending, ?_, ?_, ends⟩
            · have shape : utf16 c = [c] := if_pos small
              rw [List.flatMap_cons, shape, split]
              rfl
            · exact isText_cons (by unfold IsScalar; omega) nonzero valid
  obtain ⟨text, tail, ending, rfl, valid, ends⟩ := parse content.length content (Nat.le_refl _) input.1 units
  exact ⟨text, tail, ending, input, valid, ends⟩

section Scan
variable {size : Nat → Nat} {text tail : List Nat} {len : Option Nat} {memory : List Nat} {ending : Ending}

/-- The counting pass up to the end of the characters. -/
theorem utf16Scan_characters (valid : IsText text) (after : List Nat) (room : ∀ n, len = some n → (text.flatMap utf16).length ≤ n) (k : Int)
    (position : Nat) :
    utf16Scan size (text.flatMap utf16 ++ after) len position 0 (wrapInt k) =
      utf16Scan size after (len.map (· - (text.flatMap utf16).length)) (position + (text.flatMap utf16).length) 0
        (wrapInt (k + total size text)) := by
  -- over the characters; a pair of surrogates takes two turns, and between them the high one is kept
  induction text generalizing len k position with
  | nil =>
    have sum : k + (total size [] : Nat) = k := by simp [total]
    rw [List.flatMap_nil, List.nil_append, sum]
    cases len <;> rfl
  | cons c text ih =>
    obtain ⟨scalar, nonzero⟩ := valid.head
    have below := scalar.lt
    unfold IsScalar at scalar
    rw [List.flatMap_cons, List.append_assoc, List.length_append]
    rw [List.flatMap_cons, List.length_append] at room
    have going (used : Nat) (fewer : used < (utf16 c).length) : len.map (· - used) ≠ some 0 := by
      intro zero
      cases len with
      | none => cases zero
      | some n =>
        have enough := room n rfl
        have none_left : n - used = 0 := Option.some.inj zero
        omega
    have later (used : Nat) (all : used = (utf16 c).length) : ∀ n, len.map (· - used) = some n → (text.flatMap utf16).length ≤ n := by
      intro n limit
      cases len with
      | none => cases limit
      | some m =>
        have enough := room m rfl
        have exactly : m - used = n := Option.some.inj limit
        omega
    have steps (used more : Nat) : (len.map (· - used)).map (· - more) = len.map (· - (used + more)) := by
      cases len with
      | none => rfl
      | some n => exact congrArg some (Nat.sub_sub n used more)
    have start : len.map (· - 0) = len := by cases len <;> rfl
    by_cases one : c < 0x10000
    · have shape : utf16 c = [c] := if_pos one
      have first := going 0 (by rw [shape]; exact Nat.succ_pos _)
      rw [start] at first
      rw [shape, List.singleton_append, utf16Scan, if_neg (by simp [first, nonzero]), if_neg (by omega), if_neg (not_not.mpr rfl),
        if_neg (by omega), wrapInt_add, ih valid.tail (later 1 (by rw [shape]; rfl)), steps, total_cons, List.length_singleton]
      simp only [Nat.cast_add, Nat.add_assoc, Int.add_assoc]
    · have shape : utf16 c = [0xd800 + (c - 0x10000) / 0x400, 0xdc00 + (c - 0x10000) % 0x400] := if_neg one
      have first := going 0 (by rw [shape]; exact Nat.succ_pos _)
      have second := going 1 (by rw [shape]; exact Nat.lt_succ_self 1)
      rw [start] at first
      have high : 0xd800 + (c - 0x10000) / 0x400 ≠ 0 := by omega
      rw [shape, List.cons_append, List.singleton_append, utf16Scan, if_neg (by simp [first]), if_neg (by omega),
        if_neg (not_not.mpr rfl), if_pos (by omega), utf16Scan, if_neg (by simp [second]), if_pos (by omega),
        if_pos high, surrogateValue_eq (by omega) below, wrapInt_add, steps, ih valid.tail (later (1 + 1) (by rw [shape]; rfl)), steps,
        total_cons]
      simp only [Nat.cast_add, Nat.add_assoc, Int.add_assoc, List.length_cons, List.length_nil, Nat.zero_add, Nat.reduceAdd]

theorem utf16Scan_end {after : List Nat} (ends : len = some 0 ∨ after.head? = some 0) (position high : Nat) (count : Int) :
    utf16Scan size after len position high count = some (.ok (count, high), position) := by
  cases after with
  | nil => exact if_pos (ends.resolve_right nofun)
  | cons first after =>
    refine if_pos (ends.imp_right fun zero => ?_)
    exact Option.some.inj zero

theorem Utf16Input.behind (input : Utf16Input memory len text tail ending) :
    ∃ (after : List Nat) (left : Option Nat), memory = text.flatMap utf16 ++ (tail ++ after) ∧ 0 ∉ tail ∧
      (∀ n, len = some n → (text.flatMap utf16).length ≤ n) ∧ left = len.map (· - (text.flatMap utf16).length) ∧
      (∀ n, left = some n → tail.length ≤ n) ∧ (left = some tail.length ∨ after.head? = some 0) := by
  obtain ⟨clean, after, split, ends⟩ := input.content
  refine ⟨after, _, by rw [split, List.append_assoc], fun held => clean (List.mem_append_right _ held), ?_, rfl, ?_, ?_⟩
  · intro n limit
    rcases ends with exactly | ⟨more, _⟩
    · rw [exactly, List.length_append] at limit
      have value := Option.some.inj limit
      omega
    · have before := more n limit
      rw [List.length_append] at before
      omega
  · intro n limit
    cases len with
    | none => cases limit
    | some m =>
      have value : m - (text.flatMap utf16).length = n := Option.some.inj limit
      rcases ends with exactly | ⟨more, _⟩
      · have all := Option.some.inj exactly
        rw [List.length_append] at all
        omega
      · have before := more m rfl
        rw [List.length_append] at before
        omega
  · rcases ends with exactly | ⟨_, zero⟩
    · refine Or.inl ?_
      rw [exactly, List.length_append]
      exact congrArg some (Nat.add_sub_cancel_left _ _)
    · exact Or.inr zero

/-- The counting pass finds the end of the input, or what is wrong there: an unpaired high surrogate one unit too late. -/
theorem utf16Scan_ends (size : Nat → Nat) (input : Utf16Input memory len text tail ending) :
    match ending with
    | .complete => utf16Scan size memory len 0 0 0 = some (.ok (wrapInt (total size text : Nat), 0), (text.flatMap utf16).length)
    | .illFormed => ∃ position, (position = (text.flatMap utf16).length ↔ ∃ c ∈ tail.head?, IsLow c) ∧
        utf16Scan size memory len 0 0 0 = some (.error invalidSequence, position)
    | .truncated => ∃ high position, high ≠ 0 ∧
        utf16Scan size memory len 0 0 0 = some (.ok (wrapInt (total size text : Nat), high), position) := by
  obtain ⟨after, left, rfl, clean, room, rest, going, stops⟩ := input.behind
  have counted := @utf16Scan_characters size text len input.valid (tail ++ after) room 0 0
  rw [wrapInt_zero, Int.zero_add, Nat.zero_add, ← rest] at counted
  rw [counted]
  cases input.ends with
  | complete => exact utf16Scan_end stops _ 0 _
  | @low c others low =>
    have nonzero : c ≠ 0 := fun zero => clean (zero ▸ List.mem_cons_self)
    have onwards : left ≠ some 0 := fun zero => absurd (going 0 zero) (Nat.not_succ_le_zero _)
    refine ⟨_, iff_of_true rfl ⟨c, rfl, low⟩, ?_⟩
    rw [List.cons_append, utf16Scan, if_neg (by simp [onwards, nonzero]), if_pos (show 0xdc00 ≤ c ∧ c < 0xe000 from low), if_neg (not_not.mpr rfl)]
  | @unpaired high c others isHigh notLow =>
    have nonzero : high ≠ 0 := fun zero => clean (zero ▸ List.mem_cons_self)
    have nonzero' : c ≠ 0 := fun zero => clean (zero ▸ List.mem_cons_of_mem _ List.mem_cons_self)
    have onwards : left ≠ some 0 := fun zero => absurd (going 0 zero) (Nat.not_succ_le_zero _)
    have onwards' : left.map (· - 1) ≠ some 0 := by
      intro zero
      cases left with
      | none => cases zero
      | some n =>
        have enough := going n rfl
        rw [List.length_cons, List.length_cons] at enough
        have none_left : n - 1 = 0 := Option.some.inj zero
        omega
    have apart : ¬(0xdc00 ≤ high ∧ high < 0xe000) := fun both => Nat.not_lt.mpr both.1 isHigh.2
    refine ⟨_, iff_of_false (Nat.succ_ne_self _) ?_, ?_⟩
    · rintro ⟨_, ⟨⟩, low⟩
      exact apart low
    · rw [List.cons_append, List.cons_append, utf16Scan, if_neg (by simp [onwards, nonzero]), if_neg apart, if_neg (not_not.mpr rfl),
        if_pos (show 0xd800 ≤ high ∧ high < 0xdc00 from isHigh), utf16Scan, if_neg (by simp [onwards', nonzero']),
        if_neg (show ¬(0xdc00 ≤ c ∧ c < 0xe000) from notLow), if_pos nonzero]
  | @truncated high isHigh =>
    have nonzero : high ≠ 0 := fun zero => clean (zero ▸ List.mem_cons_self)
    have onwards : left ≠ some 0 := fun zero => absurd (going 0 zero) (Nat.not_succ_le_zero _)
    have apart : ¬(0xdc00 ≤ high ∧ high < 0xe000) := fun both => Nat.not_lt.mpr both.1 isHigh.2
    have stops' : left.map (· - 1) = some 0 ∨ after.head? = some 0 := stops.imp_left fun one => by rw [one]; rfl
    refine ⟨high, (text.flatMap utf16).length + 1, nonzero, ?_⟩
    rw [List.cons_append, utf16Scan, if_neg (by simp [onwards, nonzero]), if_neg apart, if_neg (not_not.mpr rfl),
      if_pos (show 0xd800 ≤ high ∧ high < 0xdc00 from isHigh)]
    exact utf16Scan_end stops' _ high _

end Scan

section Write
variable {α : Type} {size : Nat → Nat} {emit : Nat → List α}

theorem utf16Write_reaches (some_size : ∀ c, 0 < size c) {text : List Nat} (valid : IsText text) (after : List Nat) {count unit : Nat}
    (less : count ≤ total size text) (out position : Nat) :
    (∃ written stop sum, utf16Write size emit (out + count : Nat) (out + count + unit) (text.flatMap utf16 ++ after) position 0 out =
        some (written, stop, sum) ∧ sum ≤ out + count) ↔ Reaches size text count := by
  induction text generalizing count out position with
  | nil =>
    obtain rfl : count = 0 := Nat.le_zero.mp less
    refine iff_of_true ⟨[], position, out, ?_, Nat.le_refl out⟩ (reaches_zero _ _)
    cases after with
    | nil => exact if_neg (by omega)
    | cons first after => exact if_neg (by omega)
  | cons c text ih =>
    by_cases more : 0 < count
    · obtain ⟨scalar, nonzero⟩ := valid.head
      have below := scalar.lt
      have positive := some_size c
      unfold IsScalar at scalar
      rw [total_cons] at less
      rw [reaches_cons positive more, List.flatMap_cons, List.append_assoc]
      -- one character further
      have turn : ∀ position, (∃ written stop sum, (if out + size c ≤ out + count + unit then
            (utf16Write size emit (out + count : Nat) (out + count + unit) (text.flatMap utf16 ++ after) position 0 (out + size c)).bind
              fun rest => some (emit c ++ rest.1, rest.2.1, rest.2.2)
          else none) = some (written, stop, sum) ∧ sum ≤ out + count) ↔ size c ≤ count ∧ Reaches size text (count - size c) := by
        intro position
        by_cases fits : size c ≤ count
        · have rest := @ih valid.tail (count - size c) (by omega) (out + size c) position
          rw [show out + size c + (count - size c) = out + count by omega] at rest
          rw [if_pos (by omega), and_iff_right fits, ← rest]
          constructor
          · rintro ⟨written, stop, sum, done, small⟩
            obtain ⟨⟨inner, last, all⟩, wrote, same⟩ := Option.bind_eq_some_iff.mp done
            obtain ⟨-, rfl, rfl⟩ : emit c ++ inner = written ∧ last = stop ∧ all = sum := by simpa using same
            exact ⟨inner, last, all, wrote, small⟩
          · rintro ⟨inner, last, all, wrote, small⟩
            exact ⟨emit c ++ inner, last, all, by rw [wrote]; rfl, small⟩
        · refine iff_of_false ?_ fun both => fits both.1
          rintro ⟨written, stop, sum, done, small⟩
          split at done
          · obtain ⟨⟨inner, last, all⟩, wrote, same⟩ := Option.bind_eq_some_iff.mp done
            obtain ⟨-, rfl, rfl⟩ : emit c ++ inner = written ∧ last = stop ∧ all = sum := by simpa using same
            have stopped : utf16Write size emit (out + count : Nat) (out + count + unit) (text.flatMap utf16 ++ after) position 0 (out + size c) =
                some ([], position, out + size c) := by
              cases text.flatMap utf16 ++ after with
              | nil => exact if_neg (by omega)
              | cons first rest => exact if_neg (by omega)
            rw [stopped] at wrote
            obtain ⟨-, -, rfl⟩ : [] = inner ∧ position = last ∧ out + size c = all := by simpa using wrote
            omega
          · cases done
      by_cases one : c < 0x10000
      · have shape : utf16 c = [c] := if_pos one
        rw [shape, List.singleton_append, utf16Write, if_pos (by omega), if_neg (by omega)]
        simp only [if_neg (by omega : ¬(0xdc00 ≤ c ∧ c < 0xe000))]
        exact turn (position + 1)
      · have shape : utf16 c = [0xd800 + (c - 0x10000) / 0x400, 0xdc00 + (c - 0x10000) % 0x400] := if_neg one
        have low : 0xdc00 ≤ 0xdc00 + (c - 0x10000) % 0x400 ∧ 0xdc00 + (c - 0x10000) % 0x400 < 0xe000 := by omega
        rw [shape, List.cons_append, List.singleton_append, utf16Write, if_pos (by omega), if_pos (by omega), utf16Write,
          if_pos (by omega), if_neg (by omega)]
        simp only [if_pos low, surrogateValue_eq (by omega : 0x10000 ≤ c) below]
        exact turn (position + 1 + 1)
    · obtain rfl : count = 0 := Nat.eq_zero_of_not_pos more
      refine iff_of_true ⟨[], position, out, ?_, Nat.le_refl out⟩ (reaches_zero _ _)
      cases (c :: text).flatMap utf16 ++ after with
      | nil => exact if_neg (by omega)
      | cons first rest => exact if_neg (by omega)

end Write

section Reports
variable {alloc : Nat → Bool} {α : Type} {size : Nat → Nat} {emit : Nat → List α} {zero : α} {unitBytes : Nat} {wantsRead : Bool}
  {memory text tail : List Nat} {len : Option Nat} {ending : Ending}

/-- What becomes of a count, however large. -/
theorem convertUtf16_counted (allocator : Allocator alloc) (unitSize : 0 < unitBytes ∧ unitBytes ∣ 2 ^ 32 ∧ unitBytes < 2 ^ 31) {n position high : Nat}
    (whole : unitBytes ∣ n) (fine : ¬(high ≠ 0 ∧ !wantsRead)) (scanned : utf16Scan size memory len 0 0 0 = some (.ok (wrapInt n, high), position)) :
    convertUtf16 alloc size emit zero unitBytes memory len wantsRead =
      if n % 2 ^ 32 + unitBytes < 2 ^ 31 then
        (utf16Write size emit (n % 2 ^ 32 : Nat) (n % 2 ^ 32 + unitBytes) memory 0 0 0).bind fun wrote =>
          if wrote.2.2 + unitBytes ≤ n % 2 ^ 32 + unitBytes then some (.written (wrote.1 ++ [zero]) wrote.2.1 (wrote.2.2 / unitBytes)) else none
      else some (.failed outOfMemory position) := by
  have count := wrapInt_cases n
  have block := wrapInt_cases (wrapInt n + unitBytes)
  rw [convertUtf16, scanned, some_bind]
  dsimp only
  rw [if_neg fine]
  by_cases fits : n % 2 ^ 32 + unitBytes < 2 ^ 31
  · have value : wrapInt n = (n % 2 ^ 32 : Nat) := by omega
    have more : wrapInt (wrapInt n + unitBytes) = (n % 2 ^ 32 + unitBytes : Nat) := by omega
    rw [if_pos fits, more, if_pos (tryMallocN_moderate allocator fits ⟨Nat.one_pos, by decide⟩ (by omega)), value, Int.toNat_natCast]
    rfl
  · -- the count is a multiple of the unit, so that the sum does not become positive again
    have remainder : n % 2 ^ 32 + unitBytes ≤ 2 ^ 32 := by
      obtain ⟨k, all⟩ := unitSize.2.1
      obtain ⟨j, part⟩ := (Nat.dvd_mod_iff unitSize.2.1).mpr whole
      have less := Nat.mod_lt n (show 0 < 2 ^ 32 by decide)
      rw [part, all] at less ⊢
      have fewer : j < k := Nat.lt_of_mul_lt_mul_left less
      calc unitBytes * j + unitBytes = unitBytes * (j + 1) := (Nat.mul_succ _ _).symm
        _ ≤ unitBytes * k := Nat.mul_le_mul_left _ fewer
    have negative : wrapInt (wrapInt n + unitBytes) ≤ 0 := by omega
    rw [if_neg fits, if_neg (Bool.eq_false_iff.mp (tryMallocN_refused allocator negative Nat.one_pos))]
    rfl

def Utf16Reported (size : Nat → Nat) (unitBytes : Nat) (text tail : List Nat) (wantsRead : Bool) : Ending → Prop
  | .complete => Finishes size unitBytes text
  | .illFormed => wantsRead = true → ∃ c ∈ tail.head?, IsLow c
  | .truncated => wantsRead = true → total size text + unitBytes < 2 ^ 31

theorem convertUtf16_reports_iff (allocator : Allocator alloc) (unitSize : 0 < unitBytes ∧ unitBytes ∣ 2 ^ 32 ∧ unitBytes < 2 ^ 31)
    (some_size : ∀ c, 0 < size c) (sizes : total size text = unitBytes * (text.flatMap emit).length)
    (input : Utf16Input memory len text tail ending) :
    Reports (text.flatMap emit) (text.flatMap utf16).length wantsRead
        (convertUtf16 alloc size emit zero unitBytes memory len wantsRead) zero ending ↔
      Utf16Reported size unitBytes text tail wantsRead ending := by
  have ended := utf16Scan_ends size input
  obtain ⟨after, left, split, _⟩ := input.behind
  have whole : unitBytes ∣ total size text := ⟨_, sizes⟩
  cases ending with
  | complete =>
    have converted := @convertUtf16_counted alloc α size emit zero unitBytes wantsRead memory len allocator unitSize _ _ _ whole
      (fun both => both.1 rfl) ended
    change _ ≠ none ↔ Finishes size unitBytes text
    rw [converted, Finishes]
    by_cases fits : total size text % 2 ^ 32 + unitBytes < 2 ^ 31
    · have reaches := @utf16Write_reaches α size emit some_size text input.valid (tail ++ after) (total size text % 2 ^ 32) unitBytes
        (Nat.mod_le _ _) 0 0
      rw [Nat.zero_add, ← split] at reaches
      rw [if_pos fits, ← reaches]
      constructor
      · intro done
        obtain ⟨result, converted⟩ := Option.ne_none_iff_exists'.mp done
        obtain ⟨⟨written, stop, sum⟩, wrote, last⟩ := Option.bind_eq_some_iff.mp converted
        dsimp only at last
        split at last
        · exact Or.inr ⟨written, stop, sum, wrote, by omega⟩
        · cases last
      · intro either
        obtain ⟨written, stop, sum, wrote, small⟩ := either.resolve_left (by omega)
        rw [wrote, Option.bind_some, if_pos (Nat.add_le_add_right small _)]
        exact Option.some_ne_none _
    · rw [if_neg fits]
      exact iff_of_true (Option.some_ne_none _) (Or.inl (by omega))
  | illFormed =>
    obtain ⟨position, exactly, found⟩ := ended
    have failed : convertUtf16 alloc size emit zero unitBytes memory len wantsRead = some (.failed invalidSequence position) := by
      rw [convertUtf16, found]
      rfl
    change (∃ (error : ConvertError) (position : Nat), _) ↔ (wantsRead = true → ∃ c ∈ tail.head?, IsLow c)
    rw [← exactly, failed]
    constructor
    · rintro ⟨error, reported, -, same, stored⟩ wanted
      exact (Conversion.failed.inj (Option.some.inj same)).2.trans (stored wanted)
    · exact fun stored => ⟨invalidSequence, position, rfl, rfl, stored⟩
  | truncated =>
    obtain ⟨high, position, nonzero, found⟩ := ended
    change (if wantsRead then _ else _) ↔ (_ → _)
    cases wantsRead with
    | false =>
      refine iff_of_true ⟨position, ?_⟩ (by rintro ⟨⟩)
      rw [convertUtf16, found, some_bind]
      exact if_pos ⟨nonzero, rfl⟩
    | true =>
      have converted := @convertUtf16_counted alloc α size emit zero unitBytes true memory len allocator unitSize _ _ _ whole
        (fun both => absurd both.2 (by decide)) found
      have quotient : total size text / unitBytes = (text.flatMap emit).length := by rw [sizes, Nat.mul_div_cancel_left _ unitSize.1]
      rw [if_pos rfl, converted]
      constructor
      · intro same _
        split at same
        · rename_i fits
          obtain ⟨⟨written, stop, sum⟩, _, last⟩ := Option.bind_eq_some_iff.mp same
          dsimp only at last
          split at last
          · rename_i small
            have count := (Conversion.written.inj (Option.some.inj last)).2.2
            have below : (text.flatMap emit).length * unitBytes ≤ total size text % 2 ^ 32 := by
              rw [← count]
              exact Nat.le_trans (Nat.div_mul_le_self sum unitBytes) (by omega)
            rw [Nat.mul_comm, ← sizes] at below
            omega
          · cases last
        · cases same
      · intro always
        have fits := always rfl
        have value : total size text % 2 ^ 32 = total size text := Nat.mod_eq_of_lt (by omega)
        have wrote := @utf16Write_text α size emit some_size text input.valid (tail ++ after) (total size text : Nat)
          (total size text + unitBytes) 0 (by simp) (by omega) 0
        rw [Nat.zero_add, Nat.zero_add, ← split] at wrote
        rw [value, if_pos fits, wrote, Option.bind_some, if_pos (Nat.le_refl _), quotient]

end Reports

end Xpl.Text
