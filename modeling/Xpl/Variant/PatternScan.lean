import Xpl.Variant.Coalesce
import Xpl.Variant.Pattern

/-! `pattern_coalesce` on the strings of patterns: it computes their meet. -/

set_option autoImplicit false

namespace Xpl.Variant
open Xpl.Library
variable {c : UInt8} {right : Bytes}
variable {s left : Bytes}

/-! ## Copying one pattern -/

def CopiedInside (s : Bytes) : Prop :=
  ∀ (brackets : Int) (rest : Bytes), 1 ≤ brackets →
    copyBrackets brackets (s ++ rest) = (copyBrackets brackets rest).map fun (copied, left) => (s ++ copied, left)

theorem CopiedInside.nil : CopiedInside [] := by
  intro brackets rest _
  rw [List.nil_append]
  cases copyBrackets brackets rest <;> rfl

theorem CopiedInside.append {t : Bytes} (first : CopiedInside s) (second : CopiedInside t) : CopiedInside (s ++ t) := by
  intro brackets rest inside
  rw [List.append_assoc, first brackets _ inside, second brackets rest inside, Option.map_map]
  congr 1
  funext pair
  exact Prod.ext (List.append_assoc _ _ _).symm rfl

def isBracket (c : UInt8) : Bool := c = ascii '(' || c = ascii '{' || c = ascii ')' || c = ascii '}'

theorem copyBrackets_plain (plain : isBracket c = false) (brackets : Int) (rest : Bytes) :
    copyBrackets brackets (c :: rest) =
      if brackets = 0 then some ([c], rest) else (copyBrackets brackets rest).map fun (copied, left) => (c :: copied, left) := by
  simp only [isBracket, Bool.or_eq_false_iff, decide_eq_false_iff_not] at plain
  obtain ⟨⟨⟨round, curly⟩, roundEnd⟩, curlyEnd⟩ := plain
  rw [copyBrackets]
  rw [if_neg (not_or.mpr ⟨round, curly⟩), if_neg (not_or.mpr ⟨roundEnd, curlyEnd⟩)]

theorem CopiedInside.plain (plain : isBracket c = false) : CopiedInside [c] := by
  intro brackets rest inside
  rw [List.singleton_append, copyBrackets_plain plain, if_neg (by omega)]
  rfl

theorem copyBrackets_open (bracket : c = ascii '(' ∨ c = ascii '{') {brackets : Int} (counted : 0 ≤ brackets) (rest : Bytes) :
    copyBrackets brackets (c :: rest) = (copyBrackets (brackets + 1) rest).map fun (copied, left) => (c :: copied, left) := by
  rw [copyBrackets]
  rw [if_pos bracket, if_neg (by omega)]
theorem copyBrackets_close {c : UInt8} (bracket : c = ascii ')' ∨ c = ascii '}') (brackets : Int) (rest : Bytes) :
    copyBrackets (brackets + 1) (c :: rest) =
      if brackets = 0 then some ([c], rest) else (copyBrackets brackets rest).map fun (copied, left) => (c :: copied, left) := by
  have closing : ¬ (c = ascii '(' ∨ c = ascii '{') := by rcases bracket with rfl | rfl <;> decide
  rw [copyBrackets]
  rw [if_neg closing, if_pos bracket, Int.add_sub_cancel]

theorem CopiedInside.bracket {d : UInt8} (opens : c = ascii '(' ∨ c = ascii '{') (closes : d = ascii ')' ∨ d = ascii '}')
    (inside : CopiedInside s) {brackets : Int} (counted : 0 ≤ brackets) (rest : Bytes) :
    copyBrackets brackets (c :: (s ++ d :: rest)) =
      if brackets = 0 then some (c :: (s ++ [d]), rest)
      else (copyBrackets brackets rest).map fun (copied, left) => (c :: (s ++ d :: copied), left) := by
  rw [copyBrackets_open opens counted, inside _ _ (by omega), copyBrackets_close closes]
  split
  · rfl
  · rw [Option.map_map, Option.map_map]
    rfl

theorem Leaf.char_plain (a : Leaf) : isBracket a.char = false ∧ isPrefixChar a.char = false := by
  cases a with
  | basic b => cases b <;> decide
  | number => decide
  | string => decide

theorem patternKey_plain (key : Option Leaf) : isBracket (patternKey key) = false ∧ isPrefixChar (patternKey key) = false := by
  cases key with
  | none => decide
  | some a => exact a.char_plain

theorem copiedInside_replicate (n : Nat) (plain : isBracket c = false) : CopiedInside (List.replicate n c) := by
  induction n with
  | zero => exact CopiedInside.nil
  | succ n ih => exact (CopiedInside.plain plain).append ih

theorem Levels.copied (levels : Levels) : CopiedInside levels.string := by
  apply (copiedInside_replicate _ (by decide)).append
  split
  · exact CopiedInside.plain (by decide)
  · exact CopiedInside.nil

theorem Pattern.copied (p : Pattern) : CopiedInside p.string := by
  induction p with
  | any least => exact (copiedInside_replicate _ (by decide)).append (CopiedInside.plain (by decide))
  | leaf levels a => exact levels.copied.append (CopiedInside.plain a.char_plain.1)
  | variant levels => exact levels.copied.append (CopiedInside.plain (by decide))
  | array levels e ih => exact levels.copied.append ((CopiedInside.plain (by decide)).append ih)
  | tuple levels items ih =>
    have inside : CopiedInside (Pattern.strings items) := by
      induction items with
      | nil => exact CopiedInside.nil
      | cons item items later =>
        exact (ih item List.mem_cons_self).append (later fun other member => ih other (List.mem_cons_of_mem _ member))
    apply levels.copied.append
    intro brackets rest counted
    have whole := CopiedInside.bracket (Or.inl rfl) (Or.inl rfl) inside (Int.le_of_lt counted) rest
    rw [List.cons_append, List.append_assoc, List.singleton_append, whole, if_neg (by omega)]
    simp only [List.cons_append, List.append_assoc, List.nil_append]
  | entry levels key value ih =>
    apply levels.copied.append
    intro brackets rest counted
    have inside : CopiedInside (patternKey key :: value.string) := (CopiedInside.plain (patternKey_plain key).1).append ih
    have whole := CopiedInside.bracket (Or.inr rfl) (Or.inr rfl) inside (Int.le_of_lt counted) rest
    rw [List.cons_append, List.cons_append, List.append_assoc, List.singleton_append]
    rw [List.cons_append] at whole
    rw [whole, if_neg (by omega)]
    simp only [List.cons_append, List.append_assoc, List.nil_append]

theorem patternCopy_prefix (chars : ∀ c ∈ s, isPrefixChar c = true) (rest : Bytes) :
    patternCopy (s ++ rest) = (patternCopy rest).map fun (copied, left) => (s ++ copied, left) := by
  induction s with
  | nil => cases same : patternCopy rest <;> rw [List.nil_append, same] <;> rfl
  | cons c s ih =>
    rw [List.cons_append, patternCopy, if_pos (chars c List.mem_cons_self), ih fun d member => chars d (List.mem_cons_of_mem _ member),
      Option.map_map]
    rfl

theorem Levels.chars (levels : Levels) : ∀ c ∈ levels.string, isPrefixChar c = true := by
  intro c member
  rcases List.mem_append.mp member with first | last
  · rw [List.eq_of_mem_replicate first]
    decide
  · split at last
    · rw [List.mem_singleton.mp last]
      decide
    · exact nomatch last

theorem patternCopy_string (p : Pattern) (rest : Bytes) : patternCopy (p.string ++ rest) = some (p.string, rest) := by
  induction p generalizing rest with
  | any least =>
    have chars : ∀ c ∈ List.replicate least (ascii 'm'), isPrefixChar c = true := by
      intro c member
      rw [List.eq_of_mem_replicate member]
      decide
    rw [Pattern.string, List.append_assoc, patternCopy_prefix chars]
    rfl
  | leaf levels a =>
    rw [Pattern.string, List.append_assoc, patternCopy_prefix levels.chars, List.singleton_append, patternCopy,
      if_neg (by rw [a.char_plain.2]; exact Bool.false_ne_true), copyBrackets_plain a.char_plain.1, if_pos rfl]
    rfl
  | variant levels =>
    rw [Pattern.string, List.append_assoc, patternCopy_prefix levels.chars]
    rfl
  | array levels e ih =>
    have first : isPrefixChar (ascii 'a') = true := by decide
    rw [Pattern.string, List.append_assoc, patternCopy_prefix levels.chars, List.cons_append, patternCopy, if_pos first, ih]
    rfl
  | tuple levels items ih =>
    have inside : CopiedInside (Pattern.strings items) := by
      clear ih
      induction items with
      | nil => exact CopiedInside.nil
      | cons item items later => exact item.copied.append later
    have first : ¬ isPrefixChar (ascii '(') = true := by decide
    rw [Pattern.string, List.append_assoc, patternCopy_prefix levels.chars, List.cons_append, patternCopy, if_neg first,
      List.append_assoc, List.singleton_append, CopiedInside.bracket (Or.inl rfl) (Or.inl rfl) inside (Int.le_refl 0), if_pos rfl]
    rfl
  | entry levels key value ih =>
    have inside : CopiedInside (patternKey key :: value.string) := (CopiedInside.plain (patternKey_plain key).1).append value.copied
    have first : ¬ isPrefixChar (ascii '{') = true := by decide
    have whole := CopiedInside.bracket (Or.inr rfl) (Or.inr rfl) inside (Int.le_refl 0) rest
    rw [List.cons_append] at whole
    rw [Pattern.string, List.append_assoc, patternCopy_prefix levels.chars, List.cons_append, patternCopy, if_neg first,
      List.cons_append, List.append_assoc, List.singleton_append, whole, if_pos rfl]
    rfl

/-! ## The levels -/

/-- The first byte of a shape: not one of the bytes of the levels, nor a star. -/
def ShapeHead (s : Bytes) : Prop := ∃ c rest, s = c :: rest ∧ c ≠ ascii 'm' ∧ c ≠ ascii 'M' ∧ c ≠ ascii '*' ∧ c ≠ ascii ')'

def Levels.up (levels : Levels) : Levels := { levels with least := levels.least + 1 }

theorem Levels.meet_up (a b : Levels) : a.up.meet b.up = (a.meet b).map Levels.up := by
  obtain ⟨i, more_a⟩ := a
  obtain ⟨j, more_b⟩ := b
  cases more_a <;> cases more_b <;> simp only [Levels.meet, Levels.up, if_true, if_false, Bool.false_eq_true]
  · by_cases same : i = j
    · simp [same, Levels.up]
    · simp [same]
  · by_cases below : j ≤ i
    · simp [below, Levels.up]
    · simp [below]
  · by_cases below : i ≤ j
    · simp [below, Levels.up]
    · simp [below]
  · rw [Option.map_some, Nat.add_max_add_right]
    rfl

theorem merge_maybe (left right : Bytes) : merge (ascii 'M' :: left) (ascii 'm' :: right) = after [ascii 'm'] (merge (ascii 'M' :: left) right) :=
  merge_turn (by decide) rfl

theorem merge_drop (left : Bytes) (shape : ShapeHead right) : merge (ascii 'M' :: left) right = merge left right := by
  obtain ⟨c, rest, rfl, no_maybe, no_more, no_star, _⟩ := shape
  have turn : coalesceTurn (ascii 'M' :: left) (c :: rest) = some (some ([], left, c :: rest)) := by
    unfold coalesceTurn
    dsimp only
    rw [if_neg (fun both => absurd both.1 (by decide)), if_neg (fun both => no_maybe both.2), if_pos ⟨rfl, no_maybe, no_star⟩]
  rw [merge_turn (Ne.symm no_more) turn, after_nil]

theorem merge_maybe_shape (right : Bytes) (shape : ShapeHead left) : merge left (ascii 'm' :: right) = some none := by
  obtain ⟨c, rest, rfl, no_maybe, no_more, no_star, _⟩ := shape
  apply merge_stuck no_maybe
  · exact coalesceTurn_none (absurd · no_star) (absurd · no_more) (fun _ => by decide) (fun _ => by decide)
  · exact coalesceTurn_none (fun same => absurd same (by decide)) (fun same => absurd same (by decide))
      (fun same => absurd same (by decide)) (fun same => absurd same (by decide))

def belowLevels (levels : Option Levels) (left right : Bytes) : Option (Option Bytes) :=
  match levels with
  | some levels => after levels.string (merge left right)
  | none => some none

theorem belowLevels_up (levels : Option Levels) (left right : Bytes) :
    belowLevels (levels.map Levels.up) left right = after [ascii 'm'] (belowLevels levels left right) := by
  cases levels with
  | none => rfl
  | some levels =>
    rw [Option.map_some, belowLevels, belowLevels, after_after]
    rfl

/-- Any number of maybes, against levels. -/
theorem merge_more (left : Bytes) (rightShape : ShapeHead right) (levels : Levels) :
    merge (ascii 'M' :: left) (levels.string ++ right) = after levels.string (merge left right) := by
  obtain ⟨least, more⟩ := levels
  induction least with
  | zero =>
    cases more with
    | false => exact (merge_drop left rightShape).trans (after_nil _).symm
    | true => exact merge_same _ _ _
  | succ least ih =>
    change merge (ascii 'M' :: left) (ascii 'm' :: (Levels.string { least, more } ++ right)) = _
    rw [merge_maybe, ih, after_after]
    rfl

theorem merge_levels_zero (leftShape : ShapeHead left) (rightShape : ShapeHead right) (more : Bool) (levels : Levels) :
    merge (Levels.string { least := 0, more } ++ left) (levels.string ++ right) =
      belowLevels (Levels.meet { least := 0, more } levels) left right := by
  cases more with
  | true =>
    rw [show Levels.meet { least := 0, more := true } levels = some levels by
      obtain ⟨least, more⟩ := levels
      cases more <;> simp [Levels.meet]]
    exact merge_more left rightShape levels
  | false =>
    obtain ⟨least, more⟩ := levels
    cases least with
    | zero =>
      cases more with
      | false => exact (after_nil _).symm
      | true =>
        change merge left (ascii 'M' :: right) = after [] (merge left right)
        rw [merge_comm, merge_drop right leftShape, merge_comm, after_nil]
    | succ least =>
      have none_met : Levels.meet { least := 0, more := false } { least := least + 1, more } = none := by
        cases more <;> simp [Levels.meet]
      rw [none_met]
      exact merge_maybe_shape _ leftShape

theorem Levels.meet_comm (a b : Levels) : a.meet b = b.meet a := by
  obtain ⟨i, more_a⟩ := a
  obtain ⟨j, more_b⟩ := b
  cases more_a <;> cases more_b <;> simp only [Levels.meet, if_true, if_false, Bool.false_eq_true]
  · by_cases same : i = j
    · rw [if_pos same, if_pos same.symm, same]
    · rw [if_neg same, if_neg (Ne.symm same)]
  · rw [Nat.max_comm]

theorem merge_levels (leftShape : ShapeHead left) (rightShape : ShapeHead right) (a b : Levels) :
    merge (a.string ++ left) (b.string ++ right) = belowLevels (a.meet b) left right := by
  obtain ⟨i, more_a⟩ := a
  obtain ⟨j, more_b⟩ := b
  induction i generalizing j with
  | zero => exact merge_levels_zero leftShape rightShape more_a _
  | succ i ih =>
    cases j with
    | zero =>
      rw [merge_comm, Levels.meet_comm, merge_levels_zero rightShape leftShape more_b]
      cases Levels.meet { least := 0, more := more_b } { least := i + 1, more := more_a } with
      | none => rfl
      | some levels => exact congrArg (after levels.string) (merge_comm _ _)
    | succ j =>
      change merge (ascii 'm' :: (Levels.string { least := i, more := more_a } ++ left))
        (ascii 'm' :: (Levels.string { least := j, more := more_b } ++ right)) = _
      have up := Levels.meet_up { least := i, more := more_a } { least := j, more := more_b }
      rw [merge_same, ih, ← belowLevels_up, ← up]
      rfl

/-! ## Anything -/

namespace Pattern
variable {p : Pattern}

/-- A pattern without its levels. -/
def body : Pattern → Bytes
  | .any _ => [ascii '*']
  | .leaf _ a => [a.char]
  | .variant _ => [ascii 'v']
  | .array _ element => ascii 'a' :: element.string
  | .tuple _ items => ascii '(' :: (strings items ++ [ascii ')'])
  | .entry _ key value => ascii '{' :: patternKey key :: (value.string ++ [ascii '}'])

theorem string_body (shaped : p.isAny = false) : p.string = p.levels.string ++ p.body := by
  cases p with
  | any least => exact nomatch shaped
  | _ =>
    rfl

theorem withLevels_string (shaped : p.isAny = false) (levels : Levels) : (p.withLevels levels).string = levels.string ++ p.body := by
  cases p with
  | any least => exact nomatch shaped
  | _ =>
    rfl

theorem withLevels_self (p : Pattern) : p.withLevels p.levels = p := by
  cases p <;> rfl

theorem body_head (p : Pattern) (shaped : p.isAny = false) (rest : Bytes) : ShapeHead (p.body ++ rest) := by
  cases p with
  | any least => exact nomatch shaped
  | leaf levels a =>
    refine ⟨a.char, rest, rfl, ?_⟩
    cases a with
    | basic b => cases b <;> decide
    | number => decide
    | string => decide
  | _ => exact ⟨_, _, rfl, by decide⟩

/-- No pattern starts with a closing parenthesis, and only a star starts with a star. -/
theorem string_front (p : Pattern) (rest : Bytes) :
    ∃ c tail, p.string ++ rest = c :: tail ∧ c ≠ ascii ')' ∧ (c = ascii '*' → p.string = [ascii '*']) := by
  cases any : p.isAny with
  | true =>
    cases p with
    | any least =>
      cases least with
      | zero => exact ⟨_, _, rfl, by decide, fun _ => rfl⟩
      | succ least => exact ⟨ascii 'm', _, rfl, by decide, fun same => absurd same (by decide)⟩
    | _ => exact nomatch any
  | false =>
    obtain ⟨c, tail, head, -, -, no_star, no_close⟩ := p.body_head any rest
    rw [string_body any, List.append_assoc, head]
    obtain ⟨least, more⟩ := p.levels
    cases least with
    | zero =>
      cases more with
      | false => exact ⟨c, tail, rfl, no_close, fun same => absurd same no_star⟩
      | true => exact ⟨ascii 'M', _, rfl, by decide, fun same => absurd same (by decide)⟩
    | succ least => exact ⟨ascii 'm', _, rfl, by decide, fun same => absurd same (by decide)⟩

theorem merge_star (p : Pattern) (left right : Bytes) : merge (ascii '*' :: left) (p.string ++ right) = after p.string (merge left right) := by
  obtain ⟨c, tail, front, no_close, star⟩ := p.string_front right
  by_cases same : c = ascii '*'
  · rw [star same]
    exact merge_same _ _ _
  · have turn : coalesceTurn (ascii '*' :: left) (c :: tail) = some (some (p.string, left, right)) := by
      unfold coalesceTurn
      dsimp only
      rw [if_pos ⟨rfl, no_close⟩, ← front, patternCopy_string]
      rfl
    rw [front]
    exact merge_turn (Ne.symm same) turn

theorem down {n : Nat} (deep : p.levels.least = n + 1) :
    ∃ q : Pattern, p.string = ascii 'm' :: q.string ∧ p.levels = q.levels.up ∧ ∀ levels, p.withLevels levels = q.withLevels levels := by
  cases p with
  | any least =>
    obtain rfl : least = n + 1 := deep
    exact ⟨any n, rfl, rfl, fun _ => rfl⟩
  | leaf levels a =>
    obtain ⟨least, more⟩ := levels
    obtain rfl : least = n + 1 := deep
    exact ⟨leaf { least := n, more } a, rfl, rfl, fun _ => rfl⟩
  | variant levels =>
    obtain ⟨least, more⟩ := levels
    obtain rfl : least = n + 1 := deep
    exact ⟨variant { least := n, more }, rfl, rfl, fun _ => rfl⟩
  | array levels e =>
    obtain ⟨least, more⟩ := levels
    obtain rfl : least = n + 1 := deep
    refine ⟨array { least := n, more } e, ?_, rfl, fun _ => rfl⟩
    rfl
  | tuple levels items =>
    obtain ⟨least, more⟩ := levels
    obtain rfl : least = n + 1 := deep
    refine ⟨tuple { least := n, more } items, ?_, rfl, fun _ => rfl⟩
    rfl
  | entry levels key value =>
    obtain ⟨least, more⟩ := levels
    obtain rfl : least = n + 1 := deep
    refine ⟨entry { least := n, more } key value, ?_, rfl, fun _ => rfl⟩
    rfl

theorem withLevels_up (p : Pattern) (levels : Levels) : (p.withLevels levels.up).string = ascii 'm' :: (p.withLevels levels).string := by
  cases shaped : p.isAny with
  | true =>
    cases p with
    | any least => rfl
    | _ => exact nomatch shaped
  | false =>
    rw [withLevels_string shaped, withLevels_string shaped]
    rfl

/-- Anything below some maybes, against any pattern. -/
theorem merge_any (least : Nat) (q : Pattern) (left right : Bytes) :
    merge ((any least).string ++ left) (q.string ++ right) =
      match Levels.meet { least, more := true } q.levels with
      | some levels => after (q.withLevels levels).string (merge left right)
      | none => some none := by
  induction least generalizing q with
  | zero =>
    have whole : Levels.meet { least := 0, more := true } q.levels = some q.levels := by
      obtain ⟨j, more⟩ := q.levels
      cases more <;> simp [Levels.meet]
    rw [whole]
    dsimp only
    rw [withLevels_self]
    exact q.merge_star left right
  | succ least ih =>
    cases deep : q.levels.least with
    | succ n =>
      obtain ⟨r, spelled, levels, same⟩ := down deep
      change merge (ascii 'm' :: ((any least).string ++ left)) (q.string ++ right) = _
      have up := Levels.meet_up { least, more := true } r.levels
      rw [spelled, List.cons_append, merge_same, ih r, levels, show Levels.meet { least := least + 1, more := true } r.levels.up = _ from up]
      cases Levels.meet { least, more := true } r.levels with
      | none => rfl
      | some found =>
        dsimp only [Option.map_some]
        rw [same, withLevels_up, after_after]
        rfl
    | zero =>
      cases shaped : q.isAny with
      | true =>
        cases q with
        | any other =>
          obtain rfl : other = 0 := deep
          rw [merge_comm]
          change merge (ascii '*' :: right) ((any (least + 1)).string ++ left) = after (any (least + 1)).string (merge left right)
          rw [merge_star, merge_comm]
        | _ => cases shaped
      | false =>
        have head := q.body_head shaped right
        have whole : q.levels = { least := 0, more := q.levels.more } := by rw [← deep]
        have below := ih q
        rw [string_body shaped, whole] at below
        rw [merge_comm, string_body shaped, whole]
        generalize q.levels.more = more at below ⊢
        cases more with
        | false =>
          exact merge_maybe_shape _ head
        | true =>
          change merge (ascii 'M' :: (q.body ++ right)) (ascii 'm' :: ((any least).string ++ left)) =
            after (q.withLevels { least := least + 1, more := true }).string (merge left right)
          rw [show Levels.meet { least, more := true } { least := 0, more := true } = some { least, more := true } by simp [Levels.meet]] at below
          change merge ((any least).string ++ left) (ascii 'M' :: (q.body ++ right)) =
            after (q.withLevels { least, more := true }).string (merge left right) at below
          rw [merge_maybe, merge_comm, below, after_after]
          exact congrArg (after · _) (withLevels_up q { least, more := true }).symm

/-- What is left of two patterns after what they have in common. -/
def belowMeet (m : Option Pattern) (left right : Bytes) : Option (Option Bytes) :=
  match m with
  | some r => after r.string (merge left right)
  | none => some none

/-! ## The shapes -/

/-- Nothing is taken where a tuple of one pattern ends. -/
theorem merge_close (p : Pattern) (left right : Bytes) : merge (ascii ')' :: left) (p.string ++ right) = some none := by
  have closing : ∀ (d : UInt8) (rest : Bytes), coalesceTurn (ascii ')' :: left) (d :: rest) = some none := fun d rest =>
    coalesceTurn_none (absurd · (by decide)) (absurd · (by decide)) (absurd · (by decide)) (absurd · (by decide))
  have stuck : ∀ (c : UInt8) (rest : Bytes), c ≠ ascii ')' → c ≠ ascii 'M' → merge (ascii ')' :: left) (c :: rest) = some none := by
    intro c rest open_bracket no_more
    apply merge_stuck (Ne.symm open_bracket) (closing c rest)
    exact coalesceTurn_none (fun _ => rfl) (absurd · no_more) (fun _ => by decide) (fun _ => by decide)
  cases shaped : p.isAny with
  | true =>
    cases p with
    | any least =>
      cases least with
      | zero => exact stuck _ _ (by decide) (by decide)
      | succ least => exact stuck (ascii 'm') _ (by decide) (by decide)
    | _ => exact nomatch shaped
  | false =>
    have head := p.body_head shaped right
    obtain ⟨c, tail, front, -, no_more, -, no_close⟩ := head
    rw [string_body shaped, List.append_assoc]
    obtain ⟨least, more⟩ := p.levels
    cases least with
    | succ least => exact stuck (ascii 'm') _ (by decide) (by decide)
    | zero =>
      cases more with
      | false =>
        rw [front]
        exact stuck c tail no_close no_more
      | true =>
        change merge (ascii ')' :: left) (ascii 'M' :: (p.body ++ right)) = some none
        have turn : coalesceTurn (ascii 'M' :: (p.body ++ right)) (ascii ')' :: left) =
          some (some ([], p.body ++ right, ascii ')' :: left)) := rfl
        rw [merge_swap (by decide) turn, after_nil, front]
        exact stuck c tail no_close no_more

theorem leaf_apart {b c : Basic} (differ : b ≠ c) (left right : Bytes) : merge (b.char :: left) (c.char :: right) = some none := by
  have plain : ∀ x : Basic, x.char ≠ ascii '*' ∧ x.char ≠ ascii 'M' ∧ x.char ≠ ascii 'N' ∧ x.char ≠ ascii 'S' := by
    intro x
    cases x <;> decide
  have turn : ∀ (x y : Basic) (one theOther : Bytes), coalesceTurn (x.char :: one) (y.char :: theOther) = some none := fun x y one theOther =>
    coalesceTurn_none (absurd · (plain x).1) (absurd · (plain x).2.1) (absurd · (plain x).2.2.1) (absurd · (plain x).2.2.2)
  exact merge_stuck (fun same => differ (Basic.char_injective same)) (turn b c left right) (turn c b right left)

/-- A leaf that stands for several basic types, against one of them. -/
theorem leaf_basic (a : Leaf) (b : Basic) (left right : Bytes) :
    merge (a.char :: left) (b.char :: right) = if a.matching b then after [b.char] (merge left right) else some none := by
  have numeric : ∀ x : Basic, x ∈ Leaf.numbers ↔ x.char ∈ numberChars := by
    intro x
    cases x <;> decide
  have textual : ∀ x : Basic, x ∈ Leaf.strings ↔ x.char ∈ stringChars := by
    intro x
    cases x <;> decide
  have plain : b.char ≠ ascii '*' ∧ b.char ≠ ascii 'M' ∧ b.char ≠ ascii 'N' ∧ b.char ≠ ascii 'S' := by cases b <;> decide
  have swapped : ∀ (d : UInt8) (rest : Bytes), coalesceTurn (b.char :: right) (d :: rest) = some none := fun d rest =>
    coalesceTurn_none (absurd · plain.1) (absurd · plain.2.1) (absurd · plain.2.2.1) (absurd · plain.2.2.2)
  cases a with
  | basic c =>
    by_cases same : c = b
    · have matched : (Leaf.basic c).matching b = true := decide_eq_true same
      rw [if_pos matched, ← same]
      exact merge_same _ _ _
    · rw [if_neg (by simpa [Leaf.matching] using same)]
      exact leaf_apart same left right
  | number =>
    by_cases member : b ∈ Leaf.numbers
    · have matched : Leaf.number.matching b = true := decide_eq_true member
      rw [if_pos matched]
      apply merge_turn (Ne.symm plain.2.2.1)
      unfold coalesceTurn
      dsimp only
      rw [if_neg (fun both => absurd both.1 (by decide)), if_neg (fun both => absurd both.1 (by decide)),
        if_neg (fun both => absurd both.1 (by decide)), if_pos ⟨rfl, (numeric b).mp member⟩]
    · rw [if_neg (by simpa [Leaf.matching] using member)]
      apply merge_stuck (Ne.symm plain.2.2.1) _ (swapped _ _)
      exact coalesceTurn_none (absurd · (by decide)) (absurd · (by decide)) (fun _ => (numeric b).not.mp member) (absurd · (by decide))
  | string =>
    by_cases member : b ∈ Leaf.strings
    · have matched : Leaf.string.matching b = true := decide_eq_true member
      rw [if_pos matched]
      apply merge_turn (Ne.symm plain.2.2.2)
      unfold coalesceTurn
      dsimp only
      rw [if_neg (fun both => absurd both.1 (by decide)), if_neg (fun both => absurd both.1 (by decide)),
        if_neg (fun both => absurd both.1 (by decide)), if_neg (fun both => absurd both.1 (by decide)),
        if_pos ⟨rfl, (textual b).mp member⟩]
    · rw [if_neg (by simpa [Leaf.matching] using member)]
      apply merge_stuck (Ne.symm plain.2.2.2) _ (swapped _ _)
      exact coalesceTurn_none (absurd · (by decide)) (absurd · (by decide)) (absurd · (by decide)) (fun _ => (textual b).not.mp member)

theorem merge_leaf (a b : Leaf) (left right : Bytes) :
    merge (a.char :: left) (b.char :: right) =
      match a.meet b with
      | some m => after [m.char] (merge left right)
      | none => some none := by
  have known : ∀ (leaf : Leaf) (x : Basic) (one theOther : Bytes),
      (match (if leaf.matching x then some (Leaf.basic x) else none) with
        | some m => after [m.char] (merge one theOther)
        | none => some none) = if leaf.matching x then after [x.char] (merge one theOther) else some none := by
    intro leaf x one theOther
    split_ifs <;> rfl
  cases a with
  | basic x =>
    rw [merge_comm, Leaf.char.eq_1, leaf_basic, Leaf.meet, known, merge_comm]
  | number =>
    cases b with
    | basic x => exact (leaf_basic _ _ _ _).trans (known .number x left right).symm
    | number => exact merge_same _ _ _
    | string => exact merge_stuck (by decide) rfl rfl
  | string =>
    cases b with
    | basic x => exact (leaf_basic _ _ _ _).trans (known .string x left right).symm
    | number => exact merge_stuck (by decide) rfl rfl
    | string => exact merge_same _ _ _

theorem merge_key (a b : Option Leaf) (left right : Bytes) :
    merge (patternKey a :: left) (patternKey b :: right) =
      match keyMeet a b with
      | some m => after [patternKey m] (merge left right)
      | none => some none := by
  have star : ∀ (x : Leaf) (one theOther : Bytes), merge (ascii '*' :: one) (x.char :: theOther) = after [x.char] (merge one theOther) :=
    fun x => merge_star (leaf { least := 0, more := false } x)
  cases a with
  | none =>
    cases b with
    | none => exact merge_same _ _ _
    | some b => exact star b left right
  | some a =>
    cases b with
    | none =>
      rw [merge_comm]
      exact (star a right left).trans (congrArg (after [a.char]) (merge_comm _ _))
    | some b =>
      refine (merge_leaf a b left right).trans ?_
      rw [keyMeet]
      cases a.meet b <;> rfl

theorem merge_apart {q : Pattern} {s s' : Shape} (leftShape : p.shape = some s) (rightShape : q.shape = some s') (differ : s ≠ s')
    (left right : Bytes) : merge (p.body ++ left) (q.body ++ right) = some none := by
  have stuck : ∀ (c d : UInt8) (one theOther : Bytes), c ≠ ascii '*' ∧ c ≠ ascii 'M' → d ∈ "va(\x7b".toList.map ascii → c ≠ d →
      merge (c :: one) (d :: theOther) = some none := by
    intro c d one theOther plain member differ
    have known : ∀ x ∈ "va(\x7b".toList.map ascii, (x ≠ ascii '*' ∧ x ≠ ascii 'M' ∧ x ≠ ascii 'N' ∧ x ≠ ascii 'S') ∧
      x ∉ numberChars ∧ x ∉ stringChars := by decide +kernel
    obtain ⟨⟨star, more, number, string⟩, no_number, no_string⟩ := known d member
    exact merge_stuck differ (coalesceTurn_none (absurd · plain.1) (absurd · plain.2) (fun _ => no_number) (fun _ => no_string))
      (coalesceTurn_none (absurd · star) (absurd · more) (absurd · number) (absurd · string))
  have chars : ∀ a : Leaf, (a.char ≠ ascii '*' ∧ a.char ≠ ascii 'M') ∧ ∀ d ∈ "va(\x7b".toList.map ascii, a.char ≠ d := by
    intro a
    cases a with
    | basic b => cases b <;> decide +kernel
    | number => decide +kernel
    | string => decide +kernel
  have kinds : p.shape ≠ q.shape := by
    rw [leftShape, rightShape]
    exact fun same => differ (Option.some.inj same)
  cases p with
  | any least => exact nomatch (show none = some s from leftShape)
  | leaf levels a =>
    cases q with
    | any least => exact nomatch (show none = some s' from rightShape)
    | leaf other b => exact absurd rfl kinds
    | _ => exact stuck _ _ _ _ (chars a).1 (by decide) ((chars a).2 _ (by decide))
  | variant levels =>
    cases q with
    | any least => exact nomatch (show none = some s' from rightShape)
    | leaf other b => exact (merge_comm _ _).trans (stuck _ _ _ _ (chars b).1 (by decide) ((chars b).2 _ (by decide)))
    | variant other => exact absurd rfl kinds
    | _ => exact stuck _ _ _ _ (by decide) (by decide) (by decide)
  | array levels e =>
    cases q with
    | any least => exact nomatch (show none = some s' from rightShape)
    | leaf other b => exact (merge_comm _ _).trans (stuck _ _ _ _ (chars b).1 (by decide) ((chars b).2 _ (by decide)))
    | array other f => exact absurd rfl kinds
    | _ => exact stuck _ _ _ _ (by decide) (by decide) (by decide)
  | tuple levels items =>
    cases q with
    | any least => exact nomatch (show none = some s' from rightShape)
    | leaf other b => exact (merge_comm _ _).trans (stuck _ _ _ _ (chars b).1 (by decide) ((chars b).2 _ (by decide)))
    | tuple other others => exact absurd rfl kinds
    | _ => exact stuck _ _ _ _ (by decide) (by decide) (by decide)
  | entry levels key value =>
    cases q with
    | any least => exact nomatch (show none = some s' from rightShape)
    | leaf other b => exact (merge_comm _ _).trans (stuck _ _ _ _ (chars b).1 (by decide) ((chars b).2 _ (by decide)))
    | entry other j r => exact absurd rfl kinds
    | _ => exact stuck _ _ _ _ (by decide) (by decide) (by decide)

def belowShape (m : Option Pattern) (left right : Bytes) : Option (Option Bytes) :=
  match m with
  | some r => after r.body (merge left right)
  | none => some none

theorem merge_leveled {q : Pattern} (left right : Bytes)
    (shapes : p.isAny = false → q.isAny = false → merge (p.body ++ left) (q.body ++ right) = belowShape (meetShape p q) left right) :
    merge (p.string ++ left) (q.string ++ right) = belowMeet (leveled p q (meetShape p q)) left right := by
  cases leftAny : p.isAny with
  | true =>
    cases p with
    | any least =>
      rw [merge_any, leveled, show meetShape (any least) q = some q from rfl, show (any least).levels = { least, more := true } from rfl]
      cases Levels.meet { least, more := true } q.levels <;> rfl
    | _ => cases leftAny
  | false =>
    cases rightAny : q.isAny with
    | true =>
      cases q with
      | any least =>
        have whole : meetShape p (any least) = some p := by
          cases p with
          | any other => cases leftAny
          | _ => rfl
        rw [merge_comm, merge_any, leveled, whole, Levels.meet_comm p.levels]
        change _ = belowMeet ((Levels.meet { least, more := true } p.levels).bind _) left right
        cases Levels.meet { least, more := true } p.levels with
        | none => rfl
        | some levels => exact congrArg (after _) (merge_comm _ _)
      | _ => cases rightAny
    | false =>
      rw [string_body leftAny, string_body rightAny, List.append_assoc, List.append_assoc,
        merge_levels (p.body_head leftAny left) (q.body_head rightAny right), leveled]
      cases p.levels.meet q.levels with
      | none => rfl
      | some levels =>
        rw [belowLevels, shapes leftAny rightAny]
        cases shape : meetShape p q with
        | none => rfl
        | some r =>
          have shaped : r.isAny = false := by
            by_contra any
            have both := meetShape_isAny shape (Bool.not_eq_false _ |>.mp any)
            rw [leftAny] at both
            exact Bool.false_ne_true both.1
          rw [belowShape, after_after, some_bind, some_bind, belowMeet,
            withLevels_string shaped]

theorem merge_items {ps : List Pattern}
    (each : ∀ p ∈ ps, ∀ (q : Pattern) (left right : Bytes),
      merge (p.string ++ left) (q.string ++ right) = belowMeet (leveled p q (meetShape p q)) left right)
    (qs : List Pattern) (left right : Bytes) :
    merge (strings ps ++ ascii ')' :: left) (strings qs ++ ascii ')' :: right) =
      match meetItems ps qs with
      | some rs => after (strings rs ++ [ascii ')']) (merge left right)
      | none => some none := by
  -- member by member; a bracket on one side alone is where the lists differ in length
  induction ps generalizing qs with
  | nil =>
    cases qs with
    | nil => exact merge_same _ _ _
    | cons q qs =>
      rw [strings, strings, List.append_assoc]
      exact merge_close q _ _
  | cons p ps ih =>
    cases qs with
    | nil =>
      rw [strings, strings, List.append_assoc, merge_comm]
      exact merge_close p _ _
    | cons q qs =>
      rw [strings, strings, List.append_assoc, List.append_assoc, each p List.mem_cons_self, meetItems]
      cases leveled p q (meetShape p q) with
      | none => rfl
      | some r =>
        rw [belowMeet, ih (fun other member => each other (List.mem_cons_of_mem _ member)) qs, some_bind]
        cases meetItems ps qs with
        | none => rfl
        | some rs =>
          rw [some_bind]
          dsimp only
          rw [after_after, strings, List.append_assoc]

theorem merge_string (p q : Pattern) (left right : Bytes) :
    merge (p.string ++ left) (q.string ++ right) = belowMeet (meet p q) left right := by
  -- over the first pattern: the two strings are used up together, whatever follows them
  induction p generalizing q left right with
  | any least => exact merge_leveled left right fun shaped => nomatch shaped
  | leaf levels a =>
    apply merge_leveled
    intro _ shaped
    cases q with
    | any least => exact nomatch shaped
    | leaf other b =>
      refine (merge_leaf a b left right).trans ?_
      change _ = belowShape ((a.meet b).map (leaf levels)) left right
      cases a.meet b <;> rfl
    | _ => exact merge_apart rfl rfl (by decide) left right
  | variant levels =>
    apply merge_leveled
    intro _ shaped
    cases q with
    | any least => exact nomatch shaped
    | variant other => exact merge_same _ _ _
    | _ => exact merge_apart rfl rfl (by decide) left right
  | array levels e ih =>
    apply merge_leveled
    intro _ shaped
    cases q with
    | any least => exact nomatch shaped
    | array other f =>
      rw [body, body, List.cons_append, List.cons_append, merge_same, ih f]
      change _ = belowShape ((meet e f).map (array levels)) left right
      cases meet e f with
      | none => rfl
      | some r => exact after_after _ _ _
    | _ => exact merge_apart rfl rfl (by decide) left right
  | tuple levels items ih =>
    apply merge_leveled
    intro _ shaped
    cases q with
    | any least => exact nomatch shaped
    | tuple other others =>
      rw [body, body, List.cons_append, List.cons_append, List.append_assoc, List.append_assoc, merge_same]
      refine (congrArg (after [ascii '(']) (merge_items ih others left right)).trans ?_
      change _ = belowShape ((meetItems items others).map (tuple levels)) left right
      cases meetItems items others with
      | none => rfl
      | some rs => exact after_after _ _ _
    | _ => exact merge_apart rfl rfl (by decide) left right
  | entry levels key value ih =>
    apply merge_leveled
    intro _ shaped
    cases q with
    | any least => exact nomatch shaped
    | entry other j r =>
      rw [body, body, List.cons_append, List.cons_append, List.cons_append, List.cons_append, List.append_assoc, List.append_assoc,
        merge_same, merge_key]
      change _ = belowShape ((keyMeet key j).bind fun k => (meet value r).bind fun v => some (entry levels k v)) left right
      cases keyMeet key j with
      | none => rfl
      | some k =>
        rw [ih r]
        cases meet value r with
        | none => rfl
        | some v =>
          rw [belowMeet, List.singleton_append, List.singleton_append, merge_same, after_after, after_after, after_after]
          rfl
    | _ => exact merge_apart rfl rfl (by decide) left right

end Pattern

end Xpl.Variant
