import Xpl.Variant.Ast

/-! Patterns that coalesce in pairs coalesce all together, so an array without a common type has two children without one. -/

set_option autoImplicit false

namespace Xpl.Variant
open Xpl.Library
variable {children before : List Ast} {q m p : Pattern} {ps : List Pattern} {e : ParseError}

/-- The left fold of `pattern_coalesce`; `NULL` where it is `NULL` on the way. -/
def coalesceAll (pattern : Bytes) : List Bytes → Option (Option Bytes)
  | [] => some (some pattern)
  | tmp :: patterns => do
    match ← patternCoalesce pattern tmp with
    | some merged => coalesceAll merged patterns
    | none => some none

def FoldMatches (pattern : Bytes) (patterns : List Bytes) (t : VariantType) : Prop :=
  ∃ r, coalesceAll pattern patterns = some (some r) ∧ PatternMatches r t.string

def Coalesce (left right : Bytes) : Prop := ∃ r, patternCoalesce left right = some (some r)

namespace Pattern

theorem coalesceAll_strings (p : Pattern) (ps : List Pattern) :
    coalesceAll p.string (ps.map string) = some ((meetAll p ps).map string) := by
  induction ps generalizing p with
  | nil => rfl
  | cons q ps ih =>
    rw [List.map_cons, coalesceAll, patternCoalesce_string, meetAll, some_bind]
    cases met : p.meet q with
    | none => rfl
    | some m => exact ih m

theorem coalesce_strings (p q : Pattern) : Coalesce p.string q.string ↔ (p.meet q).isSome := by
  rw [Coalesce, patternCoalesce_string]
  cases p.meet q with
  | none => simp
  | some m => simp

theorem foldMatches_strings (p : Pattern) (ps : List Pattern) (t : VariantType) :
    FoldMatches p.string (ps.map string) t ↔ ∀ q ∈ p :: ps, q.Matches t := by
  rw [FoldMatches, coalesceAll_strings, ← meetAll_matches]
  constructor
  · rintro ⟨r, found, matched⟩
    obtain ⟨m, met, rfl⟩ := Option.map_eq_some_iff.mp (Option.some.inj found)
    exact ⟨m, met, (m.matches_iff t).mp matched⟩
  · rintro ⟨m, met, matched⟩
    exact ⟨m.string, by rw [met]; rfl, (m.matches_iff t).mpr matched⟩

theorem meetAll_meet {p q m : Pattern} {ps : List Pattern} (met : meetAll p ps = some m) (each : ∀ x ∈ p :: ps, (meet x q).isSome) :
    (meet m q).isSome := by
  induction ps generalizing p with
  | nil =>
    obtain rfl := Option.some.inj (show some p = some m from met)
    exact each p List.mem_cons_self
  | cons r rs ih =>
    obtain ⟨x, first, rest⟩ := Option.bind_eq_some_iff.mp met
    obtain ⟨left, others⟩ := List.forall_mem_cons.mp each
    obtain ⟨right, later⟩ := List.forall_mem_cons.mp others
    exact ih rest (List.forall_mem_cons.mpr ⟨meet_three first left right, later⟩)

theorem meetAll_append (p : Pattern) (ps qs : List Pattern) : meetAll p (ps ++ qs) = (meetAll p ps).bind fun m => meetAll m qs := by
  induction ps generalizing p with
  | nil => rfl
  | cons r rs ih =>
    rw [List.cons_append, meetAll, meetAll]
    cases p.meet r with
    | none => rfl
    | some m => exact ih m

theorem meetAll_single (p q : Pattern) : meetAll p [q] = p.meet q := by
  rw [meetAll]
  cases p.meet q <;> rfl

theorem meet_symm_isSome (p q : Pattern) : (meet p q).isSome ↔ (meet q p).isSome := by
  have one_way : ∀ p q : Pattern, (meet p q).isSome → (meet q p).isSome := by
    intro p q some
    obtain ⟨m, met⟩ := Option.isSome_iff_exists.mp some
    obtain ⟨t, holds⟩ := m.exists_matches
    obtain ⟨left, right⟩ := (meet_matches p q t).mp ⟨m, met, holds⟩
    obtain ⟨m', met', _⟩ := (meet_matches q p t).mpr ⟨right, left⟩
    rw [met']
    rfl
  exact ⟨one_way p q, one_way q p⟩

end Pattern

theorem exists_patterns {patterns : List Bytes} (each : ∀ s ∈ patterns, IsPattern s) : ∃ ps : List Pattern, patterns = ps.map Pattern.string := by
  induction patterns with
  | nil => exact ⟨[], rfl⟩
  | cons s patterns ih =>
    obtain ⟨p, rfl⟩ := each s List.mem_cons_self
    obtain ⟨ps, rfl⟩ := ih fun other member => each other (List.mem_cons_of_mem _ member)
    exact ⟨p :: ps, rfl⟩

/-! ## The pair that an error names -/

def noCommonType (j : SourceRef) (i : Option SourceRef) : ParseError :=
  { location := j, other := i, code := .noCommonType, text := "unable to find a common type" }

def HasPatterns (children : List Ast) (patterns : List Bytes) : Prop := List.Forall₂ HasPattern children patterns

theorem HasPatterns.strings {patterns : List Bytes} (known : HasPatterns children patterns) :
    ∃ ps : List Pattern, patterns = ps.map Pattern.string := by
  apply exists_patterns
  induction known with
  | nil => exact fun s member => nomatch member
  | cons first _ ih => exact List.forall_mem_cons.mpr ⟨HasPattern.isPattern first, ih⟩

theorem HasPatterns.child {children : List Ast} {ps : List Pattern} (known : HasPatterns children (ps.map Pattern.string)) {i : Nat}
    {ast : Ast} {p : Pattern} (one : children[i]? = some ast) (two : ps[i]? = some p) : HasPattern ast p.string := by
  obtain ⟨below, rfl⟩ := List.getElem?_eq_some_iff.mp one
  obtain ⟨also, rfl⟩ := List.getElem?_eq_some_iff.mp two
  have pair := known.get below (by rwa [List.length_map])
  rwa [List.get_eq_getElem, List.get_eq_getElem, List.getElem_map] at pair

/-- The search finds the first child that does not coalesce with the last. -/
theorem findConflict_spec {i : SourceRef}
    (known : HasPatterns children (ps.map Pattern.string)) (conflict : ∃ p ∈ ps, (p.meet q).isSome = false) :
    ∃ (j : Nat) (child : Ast) (p : Pattern), children[j]? = some child ∧ ps[j]? = some p ∧ p.meet q = none ∧
      (findConflict i q.string (astPatterns children)).run = some (.error (noCommonType child.sourceRef (some i))) := by
  -- over the children: the first whose pattern has no meet with this one is named
  induction ps generalizing children with
  | nil =>
    obtain ⟨p, member, _⟩ := conflict
    exact nomatch member
  | cons p ps ih =>
    cases known with
    | @cons child _ children _ first rest =>
      have turn : findConflict i q.string (astPatterns (child :: children)) = (do
          match ← ExceptT.lift (patternCoalesce q.string p.string) with
          | some _ => findConflict i q.string (astPatterns children)
          | none => astSetError child.sourceRef (some i) .noCommonType "unable to find a common type") := by
        have found : (astGetPattern child).run = some (.ok p.string) := first
        rw [astPatterns, findConflict]
        generalize (astGetPattern child).run = outcome at found ⊢
        subst found
        rfl
      rw [turn, run_lift_bind (patternCoalesce_string q p)]
      cases met : q.meet p with
      | none =>
        refine ⟨0, child, p, rfl, rfl, ?_, rfl⟩
        have symm := (q.meet_symm_isSome p)
        rw [met] at symm
        exact Option.not_isSome_iff_eq_none.mp fun some => Bool.false_ne_true (symm.mpr some)
      | some m =>
        obtain ⟨x, member, apart⟩ := conflict
        have later : ∃ y ∈ ps, (y.meet q).isSome = false := by
          rcases List.mem_cons.mp member with rfl | member
          · have symm := (q.meet_symm_isSome x)
            rw [met, apart] at symm
            exact absurd (symm.mp rfl) Bool.false_ne_true
          · exact ⟨x, member, apart⟩
        obtain ⟨j, found, r, one, two, none, error⟩ := ih rest later
        exact ⟨j + 1, found, r, one, two, none, error⟩

theorem astPatterns_append (first second : List Ast) : astPatterns (first ++ second) = astPatterns first ++ astPatterns second := by
  induction first with
  | nil => rfl
  | cons ast asts ih => exact congrArg (_ :: ·) ih

theorem coalesceChildren_turn {child : Ast} (before after : List Ast) (first : HasPattern child q.string) :
    (coalesceChildren (astPatterns before) m.string (astPatterns (child :: after))).run =
      (match m.meet q with
        | some x => coalesceChildren (astPatterns (before ++ [child])) x.string (astPatterns after)
        | none => findConflict child.sourceRef q.string (astPatterns before)).run := by
  rw [astPatterns, coalesceChildren, ExceptT.run_bind]
  rw [show (astGetPattern child).run = some (.ok q.string) from first]
  rw [astPatterns_append]
  change (ExceptT.lift (patternCoalesce m.string q.string) >>= _).run = _
  rw [run_lift_bind (patternCoalesce_string m q)]
  cases m.meet q <;> rfl

/-- The children before a turn, with what they have in common. -/
structure Seen (before : List Ast) (p : Pattern) (ps : List Pattern) (m : Pattern) : Prop where
  known : HasPatterns before ((p :: ps).map Pattern.string)
  met : Pattern.meetAll p ps = some m

theorem Seen.next {x : Pattern} (seen : Seen before p ps m) {child : Ast}
    (first : HasPattern child q.string) (met : m.meet q = some x) : Seen (before ++ [child]) p (ps ++ [q]) x where
  known := by
    rw [← List.cons_append, List.map_append]
    exact List.rel_append seen.known (List.Forall₂.cons first List.Forall₂.nil)
  met := by rw [Pattern.meetAll_append, seen.met, Option.bind_some, Pattern.meetAll_single, met]

/-- A child that does not coalesce with the ones before it does not coalesce with one of them, and the error names it. -/
theorem Seen.conflict (seen : Seen before p ps m) (i : SourceRef)
    (apart : m.meet q = none) :
    ∃ (j : Nat) (child : Ast) (x : Pattern), before[j]? = some child ∧ (p :: ps)[j]? = some x ∧ x.meet q = none ∧
      (findConflict i q.string (astPatterns before)).run = some (.error (noCommonType child.sourceRef (some i))) := by
  apply findConflict_spec seen.known
  by_contra none_apart
  have each : ∀ x ∈ p :: ps, (x.meet q).isSome := by
    intro x member
    by_contra clash
    exact none_apart ⟨x, member, Bool.eq_false_iff.mpr clash⟩
  have common := Pattern.meetAll_meet seen.met each
  rw [apart] at common
  exact Bool.false_ne_true common

/-- What the loop over the children ends with: their common pattern, or a pair of children without one. -/
inductive Coalesced (children : List Ast) (p : Pattern) (ps : List Pattern) (result : Option (Except ParseError Bytes)) : Prop
  | common (m : Pattern) (met : Pattern.meetAll p ps = some m) (found : result = some (.ok m.string))
  | conflict (j i : Nat) (a b : Ast) (x y : Pattern) (order : j < i) (first : children[j]? = some a) (second : children[i]? = some b)
    (one : (p :: ps)[j]? = some x) (two : (p :: ps)[i]? = some y) (apart : x.meet y = none) (met : Pattern.meetAll p ps = none)
    (found : result = some (.error (noCommonType a.sourceRef (some b.sourceRef))))

theorem coalesceChildren_spec {after : List Ast} {qs : List Pattern} (seen : Seen before p ps m)
    (known : HasPatterns after (qs.map Pattern.string)) :
    Coalesced (before ++ after) p (ps ++ qs) (coalesceChildren (astPatterns before) m.string (astPatterns after)).run := by
  -- over the patterns ahead: `m` is the meet of those before, so a conflict is with one of them
  induction qs generalizing before after ps m with
  | nil =>
    cases known
    exact .common m (by rw [List.append_nil, seen.met]) rfl
  | cons q qs ih =>
    cases known with
    | @cons child _ after _ first rest =>
      rw [coalesceChildren_turn before after first]
      cases next : m.meet q with
      | some x =>
        have rest := ih (seen.next first next) rest
        rw [List.append_assoc, List.append_assoc] at rest
        exact rest
      | none =>
        obtain ⟨j, a, x, one, two, apart, error⟩ := seen.conflict child.sourceRef next
        have sizes : before.length = (p :: ps).length := by
          have same := seen.known.length_eq
          rwa [List.length_map] at same
        obtain ⟨below, _⟩ := List.getElem?_eq_some_iff.mp one
        have empty : Pattern.meetAll p (ps ++ q :: qs) = none := by
          rw [Pattern.meetAll_append, seen.met, Option.bind_some, Pattern.meetAll, next]
          rfl
        refine .conflict j before.length a child x q below ?_ ?_ ?_ ?_ apart empty error
        · rw [List.getElem?_append_left below, one]
        · rw [List.getElem?_append_right (Nat.le_refl _), Nat.sub_self]
          rfl
        · rw [← List.cons_append, List.getElem?_append_left (sizes ▸ below), two]
        · rw [← List.cons_append, sizes, List.getElem?_append_right (Nat.le_refl _), Nat.sub_self]
          rfl

/-! ## The errors -/

theorem coalesceChildren_error {after : List Ast} (seen : Seen before p ps m)
    (found : (coalesceChildren (astPatterns before) m.string (astPatterns after)).run = some (.error e)) :
    (∃ child ∈ after, (astGetPattern child).run = some (.error e)) ∨ e.other.isSome := by
  induction after generalizing before ps m with
  | nil => exact nomatch (show some (Except.ok m.string) = some (Except.error e) from found)
  | cons child after ih =>
    have cut := found
    rcases run_bind_error.mp cut with error | ⟨tmp, first, _⟩
    · exact Or.inl ⟨child, List.mem_cons_self, error⟩
    · obtain ⟨q, rfl⟩ := @HasPattern.isPattern child _ first
      rw [coalesceChildren_turn before after first] at found
      cases next : m.meet q with
      | some x =>
        rw [next] at found
        rcases ih (seen.next first next) found with ⟨other, member, error⟩ | named
        · exact Or.inl ⟨other, List.mem_cons_of_mem _ member, error⟩
        · exact Or.inr named
      | none =>
        obtain ⟨j, a, x, _, _, _, error⟩ := seen.conflict child.sourceRef next
        rw [next, error] at found
        obtain rfl := Except.error.inj (Option.some.inj found)
        exact Or.inr rfl

theorem astArrayGetPattern_error
    (found : (astArrayGetPattern (astPatterns children)).run = some (.error e)) :
    (∃ child ∈ children, (astGetPattern child).run = some (.error e)) ∨ e.other.isSome := by
  cases children with
  | nil => exact nomatch (show none = some (Except.error e) from found)
  | cons child children =>
    rcases run_bind_error.mp (show ((astGetPattern child) >>= _).run = _ from found) with error | ⟨pattern, first, rest⟩
    · exact Or.inl ⟨child, List.mem_cons_self, error⟩
    · obtain ⟨p, rfl⟩ := @HasPattern.isPattern child _ first
      have seen : Seen [child] p [] p := { known := List.Forall₂.cons first List.Forall₂.nil, met := rfl }
      rcases coalesceChildren_error seen rest with ⟨other, member, error⟩ | named
      · exact Or.inl ⟨other, List.mem_cons_of_mem _ member, error⟩
      · exact Or.inr named

theorem tupleParts_error (found : (tupleParts (astPatterns children)).run = some (.error e)) :
    ∃ child ∈ children, (astGetPattern child).run = some (.error e) := by
  induction children with
  | nil => exact nomatch (show some (Except.ok []) = some (Except.error e) from found)
  | cons child children ih =>
    rcases run_bind_error.mp (show ((astGetPattern child) >>= _).run = _ from found) with error | ⟨part, _, rest⟩
    · exact ⟨child, List.mem_cons_self, error⟩
    · rcases run_bind_error.mp rest with error | ⟨parts, _, last⟩
      · obtain ⟨other, member, error⟩ := ih error
        exact ⟨other, List.mem_cons_of_mem _ member, error⟩
      · exact nomatch (show some (Except.ok (part ++ parts)) = some (Except.error e) from last)

/-- An error about a common type names two nodes. -/
def Named (e : ParseError) : Prop := e.code = .noCommonType → e.other.isSome

theorem dictionaryPattern_error {ref : SourceRef} {opening : Bytes} {keys : List Ast} {value : Inferring Bytes} {e : ParseError}
    (eachKey : ∀ key ∈ keys, (astGetPattern key).run = some (.error e) → Named e) (ofValue : value.run = some (.error e) → Named e)
    (found : (dictionaryPattern ref opening (astPatterns keys) value).run = some (.error e)) : Named e := by
  rcases run_bind_error.mp found with error | ⟨keyPattern, _, rest⟩
  · rcases astArrayGetPattern_error error with ⟨key, member, inner⟩ | named
    · exact eachKey key member inner
    · exact fun _ => named
  · split at rest
    · rcases run_bind_error.mp rest with error | ⟨valuePattern, _, last⟩
      · exact ofValue error
      · exact nomatch (show some (Except.ok _) = some (Except.error e) from last)
    · obtain rfl := Except.error.inj (Option.some.inj (show some (Except.error _) = some (Except.error e) from rest))
      exact fun code => nomatch code

/-- The search for two children without a common type never gives up. -/
theorem astGetPattern_named {ast : Ast} (found : (astGetPattern ast).run = some (.error e)) : Named e := by
  have none_returned : ∀ s : Bytes, (pure s : Inferring Bytes).run ≠ some (.error e) := by
    intro s same
    cases (show some (Except.ok s) = some (Except.error e) from same)
  induction ast generalizing e with
  | just ref child ih =>
    rcases run_bind_error.mp (show ((astGetPattern child) >>= _).run = _ from found) with error | ⟨_, _, last⟩
    · exact ih error none_returned
    · exact absurd last (none_returned _)
  | array ref children ih =>
    rw [astGetPattern] at found
    split at found
    · exact absurd found (none_returned _)
    · rcases run_bind_error.mp found with error | ⟨_, _, last⟩
      · rcases astArrayGetPattern_error error with ⟨child, member, inner⟩ | named
        · exact ih child member inner none_returned
        · exact fun _ => named
      · exact absurd last (none_returned _)
  | tuple ref children ih =>
    rcases run_bind_error.mp (show (tupleParts (astPatterns children) >>= _).run = _ from found) with error | ⟨_, _, last⟩
    · obtain ⟨child, member, inner⟩ := tupleParts_error error
      exact ih child member inner none_returned
    · exact absurd last (none_returned _)
  | dictionary ref keys values keysIH valuesIH =>
    rw [astGetPattern] at found
    split at found
    · exact absurd found (none_returned _)
    · refine dictionaryPattern_error (fun key member error => keysIH key member error none_returned) ?_ found
      intro error
      cases values with
      | nil => cases (show none = some (Except.error e) from error)
      | cons value values => exact valuesIH value List.mem_cons_self error none_returned
  | entry ref key value keyIH valueIH =>
    refine @dictionaryPattern_error _ _ [key] _ _ ?_ (fun error => valueIH error none_returned) found
    intro other member error
    obtain rfl := List.mem_singleton.mp member
    exact keyIH error none_returned
  | _ => exact absurd found (none_returned _)

/-! ## Lists of patterns -/

/-- Patterns that coalesce in pairs have a fold, which matches the same types in every order of the list. The children of an
array have it as their pattern, or two of them, which the error names, do not coalesce. -/
theorem coalesceAll_set {first : Ast} {rest : List Ast} {pattern : Bytes} {patterns : List Bytes}
    (known : HasPatterns (first :: rest) (pattern :: patterns)) :
    ((pattern :: patterns).Pairwise Coalesce → ∃ r, coalesceAll pattern patterns = some (some r)) ∧
    (∀ pattern' patterns', (pattern' :: patterns').Perm (pattern :: patterns) →
      ∀ t, FoldMatches pattern' patterns' t ↔ FoldMatches pattern patterns t) ∧
    ((∃ r, coalesceAll pattern patterns = some (some r) ∧ (astArrayGetPattern (astPatterns (first :: rest))).run = some (.ok r)) ∨
      coalesceAll pattern patterns = some none ∧ ∃ (j i : Nat) (a b : Ast) (s s' : Bytes), j < i ∧ (first :: rest)[j]? = some a ∧
        (first :: rest)[i]? = some b ∧ HasPattern a s ∧ HasPattern b s' ∧ ¬ Coalesce s s' ∧
        (astArrayGetPattern (astPatterns (first :: rest))).run = some (.error (noCommonType a.sourceRef (some b.sourceRef)))) ∧
    ∀ (ast : Ast) (e : ParseError), (astGetPattern ast).run = some (.error e) → e.code = .noCommonType → e.other.isSome := by
  obtain ⟨all, shape⟩ := known.strings
  obtain ⟨p, ps, rfl⟩ : ∃ p ps, all = p :: ps := List.exists_cons_of_ne_nil (by rintro rfl; exact nomatch shape)
  obtain ⟨rfl, rfl⟩ := List.cons.inj (show pattern :: patterns = p.string :: ps.map Pattern.string from shape)
  refine ⟨?_, ?_, ?_, fun ast e found => astGetPattern_named found⟩
  · intro pairs
    have strings : ((p :: ps).map Pattern.string).Pairwise Coalesce := pairs
    have meets : (p :: ps).Pairwise fun x y => (x.meet y).isSome :=
      (List.pairwise_map.mp strings).imp fun {x y} both => (x.coalesce_strings y).mp both
    obtain ⟨m, met⟩ := Option.isSome_iff_exists.mp (Pattern.meetAll_isSome p ps meets)
    exact ⟨m.string, by rw [Pattern.coalesceAll_strings, met]; rfl⟩
  · intro pattern' patterns' same t
    obtain ⟨others, shape'⟩ : ∃ others : List Pattern, pattern' :: patterns' = others.map Pattern.string := by
      apply exists_patterns
      intro s member
      have original : s ∈ (p :: ps).map Pattern.string := same.subset member
      obtain ⟨x, _, rfl⟩ := List.mem_map.mp original
      exact ⟨x, rfl⟩
    obtain ⟨q, qs, rfl⟩ : ∃ q qs, others = q :: qs := List.exists_cons_of_ne_nil (by rintro rfl; exact nomatch shape')
    obtain ⟨rfl, rfl⟩ := List.cons.inj (show pattern' :: patterns' = q.string :: qs.map Pattern.string from shape')
    have members : ∀ s, s ∈ (q :: qs).map Pattern.string ↔ s ∈ (p :: ps).map Pattern.string := fun s => same.mem_iff
    have matched : ∀ xs : List Pattern, (∀ x ∈ xs, x.Matches t) ↔ ∀ s ∈ xs.map Pattern.string, PatternMatches s t.string := by
      intro xs
      rw [List.forall_mem_map]
      exact forall_congr' fun x => imp_congr_right fun _ => (x.matches_iff t).symm
    rw [Pattern.foldMatches_strings, Pattern.foldMatches_strings, matched, matched]
    exact forall_congr' fun s => imp_congr_left (members s)
  · cases known with
    | cons one others =>
      have seen : Seen [first] p [] p := { known := List.Forall₂.cons one List.Forall₂.nil, met := rfl }
      have run : (astArrayGetPattern (astPatterns (first :: rest))).run =
          (coalesceChildren (astPatterns [first]) p.string (astPatterns rest)).run := by
        rw [astPatterns, astArrayGetPattern, ExceptT.run_bind]
        rw [show (astGetPattern first).run = some (.ok p.string) from one]
        rfl
      rw [run]
      have children : HasPatterns (first :: rest) ((p :: ps).map Pattern.string) := List.Forall₂.cons one others
      cases coalesceChildren_spec seen others with
      | common m met found => exact Or.inl ⟨m.string, by rw [Pattern.coalesceAll_strings, show Pattern.meetAll p ps = some m from met]; rfl, found⟩
      | conflict j i a b x y order firstChild secondChild firstPattern secondPattern apart met found =>
        refine Or.inr ⟨?_, j, i, a, b, x.string, y.string, order, firstChild, secondChild, children.child firstChild firstPattern,
          children.child secondChild secondPattern, ?_, found⟩
        · rw [Pattern.coalesceAll_strings, show Pattern.meetAll p ps = none from met]
          rfl
        · rw [Pattern.coalesce_strings, apart]
          exact Bool.false_ne_true

/-- `[1, 2.5, 3]` -/
theorem coalesceAll_set_numbers : ∃ r, coalesceAll (chars "MN") [chars "Md", chars "MN"] = some (some r) := by
  let here : SourceRef := { start := 0, stop := 1 }
  let numbers := [Ast.number here (chars "1"), Ast.number here (chars "2.5"), Ast.number here (chars "3")]
  have patterns : HasPatterns numbers [chars "MN", chars "Md", chars "MN"] := .cons rfl (.cons rfl (.cons rfl .nil))
  have mixed : Coalesce (chars "MN") (chars "Md") := ⟨chars "Md", rfl⟩
  have same : Coalesce (chars "MN") (chars "MN") := ⟨chars "MN", rfl⟩
  have back : Coalesce (chars "Md") (chars "MN") := ⟨chars "Md", rfl⟩
  exact (coalesceAll_set patterns).1 (.cons (by simp [mixed, same]) (.cons (by simp [back]) (List.pairwise_singleton _ _)))

end Xpl.Variant
