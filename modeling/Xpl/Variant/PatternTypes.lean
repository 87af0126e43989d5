import Xpl.Variant.PatternScan
import Xpl.Variant.TypeString

/-! What the string of a pattern stands for: the type strings that it matches, against the tree. -/

set_option autoImplicit false

namespace Xpl.Variant
open Xpl.Library

/-- A pattern matches a string: `*` any type, `M` zero or more `m`, `N` a numeric type, `S` a string type, any other byte itself. -/
def PatternMatches : Bytes → Bytes → Prop
  | [], s => s = []
  | c :: p, s =>
    if c = ascii '*' then ∃ (t : VariantType) (rest : Bytes), s = t.string ++ rest ∧ PatternMatches p rest
    else if c = ascii 'M' then ∃ (n : Nat) (rest : Bytes), s = List.replicate n (ascii 'm') ++ rest ∧ PatternMatches p rest
    else if c = ascii 'N' then ∃ (d : UInt8) (rest : Bytes), d ∈ numberChars ∧ s = d :: rest ∧ PatternMatches p rest
    else if c = ascii 'S' then ∃ (d : UInt8) (rest : Bytes), d ∈ stringChars ∧ s = d :: rest ∧ PatternMatches p rest
    else ∃ rest : Bytes, s = c :: rest ∧ PatternMatches p rest

/-- The characters that `N` and `S` stand for are those of basic types. -/
theorem leafChars : (∀ d ∈ numberChars, ∃ b ∈ Leaf.numbers, d = b.char) ∧ ∀ d ∈ stringChars, ∃ b ∈ Leaf.strings, d = b.char := by
  decide +kernel

section Bytes

variable {p s : Bytes}

theorem patternMatches_star : PatternMatches (ascii '*' :: p) s ↔ ∃ (t : VariantType) (rest : Bytes), s = t.string ++ rest ∧ PatternMatches p rest := by
  rw [PatternMatches, if_pos rfl]

theorem patternMatches_more :
    PatternMatches (ascii 'M' :: p) s ↔ ∃ (n : Nat) (rest : Bytes), s = List.replicate n (ascii 'm') ++ rest ∧ PatternMatches p rest := by
  rw [PatternMatches, if_neg (by decide), if_pos rfl]

theorem patternMatches_same {c : UInt8} (plain : c ≠ ascii '*' ∧ c ≠ ascii 'M' ∧ c ≠ ascii 'N' ∧ c ≠ ascii 'S') (d : UInt8) :
    PatternMatches (c :: p) (d :: s) ↔ d = c ∧ PatternMatches p s := by
  rw [PatternMatches, if_neg plain.1, if_neg plain.2.1, if_neg plain.2.2.1, if_neg plain.2.2.2]
  constructor
  · rintro ⟨rest, same, more⟩
    obtain ⟨rfl, rfl⟩ := List.cons.inj same
    exact ⟨rfl, more⟩
  · rintro ⟨rfl, more⟩
    exact ⟨s, rfl, more⟩

theorem patternMatches_maybe (d : UInt8) : PatternMatches (ascii 'm' :: p) (d :: s) ↔ d = ascii 'm' ∧ PatternMatches p s :=
  patternMatches_same (by decide) d

theorem patternMatches_leaf (a : Leaf) (d : UInt8) :
    PatternMatches (a.char :: p) (d :: s) ↔ (∃ b, d = b.char ∧ a.matching b) ∧ PatternMatches p s := by
  cases a with
  | basic b =>
    have plain : b.char ≠ ascii '*' ∧ b.char ≠ ascii 'M' ∧ b.char ≠ ascii 'N' ∧ b.char ≠ ascii 'S' := by cases b <;> decide
    rw [Leaf.char, patternMatches_same plain]
    constructor
    · exact fun both => ⟨⟨b, both.1, decide_eq_true rfl⟩, both.2⟩
    · rintro ⟨⟨c, rfl, same⟩, more⟩
      have same : b = c := of_decide_eq_true same
      exact ⟨by rw [same], more⟩
  | number =>
    have known : (∃ b : Basic, d = b.char ∧ Leaf.number.matching b) ↔ d ∈ numberChars := by
      constructor
      · rintro ⟨b, rfl, member⟩
        revert member
        cases b <;> decide
      · intro member
        obtain ⟨b, held, same⟩ := leafChars.1 d member
        exact ⟨b, same, decide_eq_true held⟩
    rw [known, Leaf.char, PatternMatches, if_neg (by decide), if_neg (by decide), if_pos rfl]
    constructor
    · rintro ⟨c, rest, member, same, more⟩
      obtain ⟨rfl, rfl⟩ := List.cons.inj same
      exact ⟨member, more⟩
    · exact fun both => ⟨d, s, both.1, rfl, both.2⟩
  | string =>
    have known : (∃ b : Basic, d = b.char ∧ Leaf.string.matching b) ↔ d ∈ stringChars := by
      constructor
      · rintro ⟨b, rfl, member⟩
        revert member
        cases b <;> decide
      · intro member
        obtain ⟨b, held, same⟩ := leafChars.2 d member
        exact ⟨b, same, decide_eq_true held⟩
    rw [known, Leaf.char, PatternMatches, if_neg (by decide), if_neg (by decide), if_neg (by decide), if_pos rfl]
    constructor
    · rintro ⟨c, rest, member, same, more⟩
      obtain ⟨rfl, rfl⟩ := List.cons.inj same
      exact ⟨member, more⟩
    · exact fun both => ⟨d, s, both.1, rfl, both.2⟩

end Bytes

/-! ## Type strings -/

theorem VariantType.string_split {t u : VariantType} {rest rest' : Bytes} (same : t.string ++ rest = u.string ++ rest') : t = u ∧ rest = rest' := by
  have first := parseType_string t (t.string.length + u.string.length) (Nat.le_add_right _ _) rest
  have second := parseType_string u (t.string.length + u.string.length) (Nat.le_add_left _ _) rest'
  rw [same, second] at first
  exact ⟨(Prod.mk.inj (Option.some.inj first)).1.symm, (Prod.mk.inj (Option.some.inj first)).2.symm⟩

theorem VariantType.string_core (t : VariantType) : t.string = List.replicate t.maybes (ascii 'm') ++ t.core.string := by
  induction t with
  | maybe element ih =>
    change ascii 'm' :: element.string = _
    rw [ih]
    rfl
  | _ => rfl

theorem VariantType.core_shape (t : VariantType) : t.core.shape ≠ .maybe := by
  induction t with
  | maybe element ih => exact ih
  | _ => exact fun same => nomatch same

theorem VariantType.string_head {t : VariantType} (shaped : t.shape ≠ .maybe) :
    ∃ c rest, t.string = c :: rest ∧ c ≠ ascii 'm' ∧ c ≠ ascii ')' := by
  cases t with
  | basic b => exact ⟨b.char, [], rfl, by cases b <;> decide, by cases b <;> decide⟩
  | maybe element => exact absurd rfl shaped
  | _ => exact ⟨_, _, rfl, by decide, by decide⟩

/-! ## The levels -/

def NoMaybe (s : Bytes) : Prop := ∀ rest, s ≠ ascii 'm' :: rest

theorem replicate_append {n k : Nat} {s s' : Bytes} (first : NoMaybe s) (second : NoMaybe s')
    (same : List.replicate n (ascii 'm') ++ s = List.replicate k (ascii 'm') ++ s') : n = k ∧ s = s' := by
  induction n generalizing k with
  | zero =>
    cases k with
    | zero => exact ⟨rfl, same⟩
    | succ k => exact absurd same (first _)
  | succ n ih =>
    cases k with
    | zero => exact absurd same.symm (second _)
    | succ k =>
      obtain ⟨equal, rest⟩ := ih (List.cons.inj same).2
      exact ⟨congrArg (· + 1) equal, rest⟩

theorem levels_matches (levels : Levels) {p s : Bytes} (shaped : NoMaybe s) (never : ∀ rest, ¬ PatternMatches p (ascii 'm' :: rest)) (n : Nat) :
    PatternMatches (levels.string ++ p) (List.replicate n (ascii 'm') ++ s) ↔ levels.Holds n ∧ PatternMatches p s := by
  obtain ⟨least, more⟩ := levels
  induction least generalizing n with
  | zero =>
    cases more with
    | false =>
      cases n with
      | zero => exact ⟨fun matched => ⟨rfl, matched⟩, fun both => both.2⟩
      | succ n => exact ⟨fun matched => absurd matched (never _), fun both => nomatch both.1⟩
    | true =>
      constructor
      · rintro ⟨k, rest, same, matched⟩
        have tail : NoMaybe rest := by
          rintro tail rfl
          exact never _ matched
        obtain ⟨rfl, rfl⟩ := replicate_append shaped tail same
        exact ⟨Nat.zero_le _, matched⟩
      · exact fun both => ⟨n, s, rfl, both.2⟩
  | succ least ih =>
    change PatternMatches (ascii 'm' :: (Levels.string { least, more } ++ p)) (List.replicate n (ascii 'm') ++ s) ↔ _
    cases n with
    | zero =>
      constructor
      · intro matched
        cases s with
        | nil =>
          rw [List.replicate_zero, List.nil_append, PatternMatches, if_neg (by decide), if_neg (by decide), if_neg (by decide),
            if_neg (by decide)] at matched
          obtain ⟨rest, same, _⟩ := matched
          exact nomatch same
        | cons d s =>
          obtain ⟨rfl, _⟩ := (patternMatches_maybe d).mp matched
          exact absurd rfl (shaped s)
      · rintro ⟨holds, _⟩
        cases more <;> simp [Levels.Holds] at holds
    | succ n =>
      rw [List.replicate_succ, List.cons_append, patternMatches_maybe, ih n]
      cases more <;> simp [Levels.Holds]

theorem any_matches (least : Nat) (p : Bytes) (t : VariantType) (s : Bytes) :
    PatternMatches ((Pattern.any least).string ++ p) (t.string ++ s) ↔ least ≤ t.maybes ∧ PatternMatches p s := by
  -- over the maybes that the star asks for; a type has them in front or is not matched
  induction least generalizing t with
  | zero =>
    constructor
    · rintro ⟨u, rest, same, matched⟩
      obtain ⟨rfl, rfl⟩ := VariantType.string_split same
      exact ⟨Nat.zero_le _, matched⟩
    · exact fun both => ⟨t, s, rfl, both.2⟩
  | succ least ih =>
    change PatternMatches (ascii 'm' :: ((Pattern.any least).string ++ p)) (t.string ++ s) ↔ _
    by_cases maybe : t.shape = .maybe
    · cases t with
      | maybe element =>
        refine (patternMatches_maybe (ascii 'm')).trans ?_
        change _ ∧ PatternMatches _ (element.string ++ s) ↔ least + 1 ≤ element.maybes + 1 ∧ _
        rw [ih element, Nat.add_le_add_iff_right]
        exact and_iff_right rfl
      | _ => exact nomatch maybe
    · obtain ⟨c, rest, front, no_maybe, _⟩ := VariantType.string_head maybe
      have none : t.maybes = 0 := by
        cases t with
        | maybe element => exact absurd rfl maybe
        | _ => rfl
      rw [front, none]
      constructor
      · exact fun matched => absurd ((patternMatches_maybe c).mp matched).1 no_maybe
      · exact fun both => nomatch both.1

/-! ## The shapes -/

namespace Pattern
variable {p : Pattern} {d : UInt8}

def Starts : Pattern → UInt8 → Prop
  | .any _, _ => True
  | .leaf _ a, d => ∃ b, d = b.char ∧ a.matching b
  | .variant _, d => d = ascii 'v'
  | .array _ _, d => d = ascii 'a'
  | .tuple _ _, d => d = ascii '('
  | .entry _ _ _, d => d = ascii '{'

theorem body_starts {rest s : Bytes} (matched : PatternMatches (p.body ++ rest) (d :: s)) : p.Starts d := by
  cases p with
  | any least => exact trivial
  | leaf levels a => exact ((patternMatches_leaf a d).mp matched).1
  | _ => exact ((patternMatches_same (by decide) d).mp matched).1

theorem Starts.plain (shaped : p.isAny = false) (starts : p.Starts d) : d ≠ ascii 'm' ∧ d ≠ ascii ')' := by
  cases p with
  | any least => exact nomatch shaped
  | leaf levels a =>
    obtain ⟨b, rfl, _⟩ := starts
    cases b <;> decide
  | _ =>
    obtain rfl := starts
    decide
theorem Starts.shape {p : Pattern} {d : UInt8} (starts : p.Starts d) {s : Shape} (known : p.shape = some s) {t : VariantType}
    {rest : Bytes} (front : t.string = d :: rest) : t.shape = s := by
  have basic : ∀ b : Basic, b.char ∉ "vma(\x7b".toList.map ascii := by
    intro b
    cases b <;> decide
  cases p with
  | any least => exact nomatch (show none = some s from known)
  | leaf levels a =>
    obtain ⟨b, rfl, _⟩ := starts
    cases t with
    | basic c => exact Option.some.inj known
    | _ =>
      have same := (List.cons.inj front).1
      exact absurd (by rw [← same]; decide) (basic b)
  | _ =>
    obtain rfl := starts
    cases t with
    | basic c =>
      have same := (List.cons.inj front).1
      exact absurd (by rw [same]; decide) (basic c)
    | _ => first
      | exact Option.some.inj known
      | exact absurd (List.cons.inj front).1 (by decide)

theorem not_close (p : Pattern) (rest s : Bytes) : ¬ PatternMatches (p.string ++ rest) (ascii ')' :: s) := by
  have levels : ∀ (levels : Levels) (x : Bytes), ¬ PatternMatches x (ascii ')' :: s) → ¬ PatternMatches (levels.string ++ x) (ascii ')' :: s) := by
    intro levels x never matched
    obtain ⟨least, more⟩ := levels
    cases least with
    | succ least => exact absurd ((patternMatches_maybe (ascii ')')).mp matched).1 (by decide)
    | zero =>
      cases more with
      | false => exact never matched
      | true =>
        obtain ⟨n, tail, same, later⟩ := patternMatches_more.mp matched
        cases n with
        | zero =>
          obtain rfl : ascii ')' :: s = tail := same
          exact never later
        | succ n => exact absurd (List.cons.inj same).1 (by decide)
  cases shaped : p.isAny with
  | true =>
    cases p with
    | any least =>
      intro matched
      cases least with
      | succ least => exact absurd ((patternMatches_maybe (ascii ')')).mp matched).1 (by decide)
      | zero =>
        obtain ⟨t, tail, same, _⟩ := patternMatches_star.mp matched
        obtain ⟨c, others, front, no_close, _⟩ := t.toExpr.string_head
        rw [VariantType.string, front] at same
        exact no_close (List.cons.inj same).1.symm
    | _ => cases shaped
  | false =>
    rw [string_body shaped, List.append_assoc]
    apply levels
    intro matched
    exact absurd rfl ((body_starts matched).plain shaped).2

theorem key_matches (key : Option Leaf) (b : Basic) (p s : Bytes) :
    PatternMatches (patternKey key :: p) (b.char :: s) ↔ keyMatching key b ∧ PatternMatches p s := by
  cases key with
  | none =>
    constructor
    · rintro ⟨t, rest, same, matched⟩
      obtain ⟨_, rfl⟩ := @VariantType.string_split (.basic b) t s rest same
      exact ⟨rfl, matched⟩
    · exact fun both => ⟨.basic b, s, rfl, both.2⟩
  | some a =>
    refine (patternMatches_leaf a b.char).trans ?_
    apply and_congr_left
    intro _
    constructor
    · rintro ⟨c, same, matched⟩
      rwa [Basic.char_injective same]
    · exact fun matched => ⟨b, rfl, matched⟩

theorem items_matches {ps : List Pattern}
    (each : ∀ p ∈ ps, ∀ (t : VariantType) (rest s : Bytes),
      PatternMatches (p.string ++ rest) (t.string ++ s) ↔ p.Matches t ∧ PatternMatches rest s)
    (types : List VariantType) (rest s : Bytes) :
    PatternMatches (strings ps ++ ascii ')' :: rest) (TypeExpr.strings (VariantType.toExprs types) ++ ascii ')' :: s) ↔
      FitsAll ps types ∧ PatternMatches rest s := by
  induction ps generalizing types with
  | nil =>
    cases types with
    | nil => exact (patternMatches_same (by decide) _).trans (and_congr_left fun _ => ⟨fun _ => trivial, fun _ => rfl⟩)
    | cons t types =>
      obtain ⟨c, tail, front, no_close, _⟩ := t.toExpr.string_head
      rw [VariantType.toExprs, TypeExpr.strings, front]
      constructor
      · exact fun matched => absurd ((patternMatches_same (by decide) c).mp matched).1 no_close
      · exact fun both => both.1.elim
  | cons p ps ih =>
    rw [strings, List.append_assoc]
    cases types with
    | nil => exact ⟨fun matched => absurd matched (p.not_close _ _), fun both => both.1.elim⟩
    | cons t types =>
      have first := each p List.mem_cons_self t (strings ps ++ ascii ')' :: rest)
        (TypeExpr.strings (VariantType.toExprs types) ++ ascii ')' :: s)
      have later := ih (fun other member => each other (List.mem_cons_of_mem _ member)) types
      rw [VariantType.toExprs, TypeExpr.strings, List.append_assoc]
      exact first.trans ((and_congr_right fun _ => later).trans and_assoc.symm)

theorem shape_apart {s : Shape} (known : p.shape = some s) {t : VariantType} (shaped : t.shape ≠ .maybe) (differ : t.shape ≠ s)
    (rest tail : Bytes) : PatternMatches (p.body ++ rest) (t.string ++ tail) ↔ p.Fits t ∧ PatternMatches rest tail := by
  obtain ⟨c, others, front, _⟩ := VariantType.string_head shaped
  constructor
  · intro matched
    rw [front] at matched
    exact absurd ((body_starts matched).shape known front) differ
  · exact fun both => absurd (both.1.shape known) differ

theorem leveled_string (shaped : p.isAny = false) (t : VariantType) (rest tail : Bytes)
    (shape : PatternMatches (p.body ++ rest) (t.core.string ++ tail) ↔ p.Fits t.core ∧ PatternMatches rest tail) :
    PatternMatches (p.string ++ rest) (t.string ++ tail) ↔ p.Matches t ∧ PatternMatches rest tail := by
  obtain ⟨c, others, front, no_maybe, _⟩ := VariantType.string_head t.core_shape
  have no_maybes : NoMaybe (t.core.string ++ tail) := by
    intro more same
    rw [front] at same
    exact no_maybe (List.cons.inj same).1
  have never : ∀ more, ¬ PatternMatches (p.body ++ rest) (ascii 'm' :: more) := fun more matched =>
    absurd rfl ((body_starts matched).plain shaped).1
  rw [string_body shaped, t.string_core, List.append_assoc, List.append_assoc, levels_matches _ no_maybes never, shape]
  exact and_assoc.symm

theorem string_matches (p : Pattern) (t : VariantType) (rest tail : Bytes) :
    PatternMatches (p.string ++ rest) (t.string ++ tail) ↔ p.Matches t ∧ PatternMatches rest tail := by
  -- over the pattern, with what follows it and the type string left open
  induction p generalizing t rest tail with
  | any least =>
    refine (any_matches least rest t tail).trans (and_congr_left fun _ => ?_)
    exact (and_iff_left trivial).symm
  | leaf levels a =>
    apply leveled_string rfl
    have shaped := t.core_shape
    cases same : t.core with
    | basic b =>
      refine (patternMatches_leaf a b.char).trans (and_congr_left fun _ => ?_)
      constructor
      · rintro ⟨c, equal, matched⟩
        exact ⟨c, by rw [Basic.char_injective equal], matched⟩
      · rintro ⟨c, equal, matched⟩
        exact ⟨c, by rw [VariantType.basic.inj equal], matched⟩
    | _ =>
      rw [same] at shaped
      exact shape_apart (s := .basic) rfl shaped (fun equal => nomatch equal) rest tail
  | variant levels =>
    apply leveled_string rfl
    have shaped := t.core_shape
    cases same : t.core with
    | variant =>
      exact (patternMatches_same (by decide) _).trans (and_congr_left fun _ => ⟨fun _ => rfl, fun _ => rfl⟩)
    | _ =>
      rw [same] at shaped
      exact shape_apart (s := .variant) rfl shaped (fun equal => nomatch equal) rest tail
  | array levels e ih =>
    apply leveled_string rfl
    have shaped := t.core_shape
    cases same : t.core with
    | array u =>
      refine (patternMatches_same (by decide) _).trans ?_
      refine (and_iff_right rfl).trans ((ih u rest tail).trans (and_congr_left fun _ => ?_))
      constructor
      · exact fun matched => ⟨u, rfl, matched⟩
      · rintro ⟨v, equal, matched⟩
        rwa [VariantType.array.inj equal]
    | _ =>
      rw [same] at shaped
      exact shape_apart (s := .array) rfl shaped (fun equal => nomatch equal) rest tail
  | tuple levels items ih =>
    apply leveled_string rfl
    have shaped := t.core_shape
    cases same : t.core with
    | tuple types =>
      have whole : (VariantType.tuple types).string ++ tail =
          ascii '(' :: (TypeExpr.strings (VariantType.toExprs types) ++ ascii ')' :: tail) :=
        congrArg (ascii '(' :: ·) (List.append_assoc _ _ _)
      have pattern : (tuple levels items).body ++ rest = ascii '(' :: (strings items ++ ascii ')' :: rest) :=
        congrArg (ascii '(' :: ·) (List.append_assoc _ _ _)
      rw [whole, pattern, patternMatches_same (by decide), and_iff_right rfl, items_matches ih]
      apply and_congr_left
      intro _
      constructor
      · exact fun matched => ⟨types, rfl, matched⟩
      · rintro ⟨again, equal, matched⟩
        rwa [VariantType.tuple.inj equal]
    | _ =>
      rw [same] at shaped
      exact shape_apart (s := .tuple) rfl shaped (fun equal => nomatch equal) rest tail
  | entry levels key value ih =>
    apply leveled_string rfl
    have shaped := t.core_shape
    cases same : t.core with
    | dictEntry b u =>
      have whole : (VariantType.dictEntry b u).string ++ tail = ascii '{' :: b.char :: (u.string ++ ascii '}' :: tail) :=
        congrArg (ascii '{' :: b.char :: ·) (List.append_assoc _ _ _)
      have pattern : (entry levels key value).body ++ rest = ascii '{' :: patternKey key :: (value.string ++ ascii '}' :: rest) :=
        congrArg (ascii '{' :: patternKey key :: ·) (List.append_assoc _ _ _)
      rw [whole, pattern, patternMatches_same (by decide), and_iff_right rfl, key_matches, ih, patternMatches_same (by decide),
        and_iff_right rfl, ← and_assoc]
      apply and_congr_left
      intro _
      constructor
      · exact fun matched => ⟨b, u, rfl, matched⟩
      · rintro ⟨c, v, equal, matched⟩
        obtain ⟨rfl, rfl⟩ := VariantType.dictEntry.inj equal
        exact matched
    | _ =>
      rw [same] at shaped
      exact shape_apart (s := .entry) rfl shaped (fun equal => nomatch equal) rest tail

theorem matches_iff (p : Pattern) (t : VariantType) : PatternMatches p.string t.string ↔ p.Matches t := by
  have whole := p.string_matches t [] []
  rw [List.append_nil, List.append_nil] at whole
  exact whole.trans (and_iff_left rfl)

end Pattern

end Xpl.Variant
