import Xpl.Text.ShellQuoting

/-! Every token of the tokenizer can be unquoted. The tokenizer and the unquoter each have quoting
rules of their own; what connects them is how the unquoter gets past the part of a token that the
tokenizer has read. -/

set_option autoImplicit false

namespace Xpl.Text.Shell

section Unquoter
variable {c : UInt8} {body : Bytes}

/-- The unquoter gets past the text, whatever comes before and after it. -/
def Unquotes (text : Bytes) : Prop := ∀ retval rest, ∃ retval', unquoteFrom retval (text ++ rest) = unquoteFrom retval' rest

theorem unquotes_nil : Unquotes [] := fun retval _ => ⟨retval, rfl⟩

theorem Unquotes.append {text piece : Bytes} (first : Unquotes text) (second : Unquotes piece) : Unquotes (text ++ piece) := by
  intro retval rest
  obtain ⟨retval', past⟩ := first retval (piece ++ rest)
  obtain ⟨retval'', past'⟩ := second retval' rest
  exact ⟨retval'', by rw [List.append_assoc, past, past']⟩

theorem Unquotes.unquote {token : Bytes} (unquotes : Unquotes token) : ∃ string, unquote token = .ok string := by
  obtain ⟨string, past⟩ := unquotes [] []
  rw [List.append_nil, unquoteFrom_nil] at past
  exact ⟨string, past⟩

/-- The inner loop reads on through unquoted characters, so the outer one does not see where it is entered. -/
theorem unquoteFrom_of_plain {retval retval' : Bytes} {text rest : Bytes}
    (same : unquotePlain retval (c :: text) = unquotePlain retval' rest) :
    unquoteFrom retval (c :: text) = unquoteFrom retval' rest := by
  cases rest with
  | nil =>
    rw [unquoteFrom_nil, unquoteFrom, same]
    rfl
  | cons c' rest => exact unquoteFrom_congr same

theorem unquotes_plain (noDouble : c ≠ doubleQuote) (noSingle : c ≠ singleQuote) (noEscape : c ≠ backslash) :
    Unquotes [c] := by
  intro retval rest
  refine ⟨retval ++ [c], unquoteFrom_of_plain ?_⟩
  rw [unquotePlain.eq_def]
  simp [noDouble, noSingle, noEscape]

theorem unquotes_escaped {e : UInt8} (joined : e ≠ newline) : Unquotes [backslash, e] := by
  intro retval rest
  refine ⟨retval ++ [e], unquoteFrom_of_plain ?_⟩
  rw [unquotePlain.eq_def]
  simp [joined, backslash, doubleQuote, singleQuote]

/-- The single-quoted loop gets past the text and stays behind its read position. -/
def SingleOpen (body : Bytes) : Prop := ∀ s dest rest, dest.length < s →
  ∃ s' dest', dest'.length < s' ∧ unquoteSingle s dest (body ++ rest) = unquoteSingle s' dest' rest

theorem singleOpen_nil : SingleOpen [] := fun s dest _ ahead => ⟨s, dest, ahead, rfl⟩

theorem SingleOpen.snoc (open_ : SingleOpen body) (other : c ≠ singleQuote) : SingleOpen (body ++ [c]) := by
  intro s dest rest ahead
  obtain ⟨s', dest', ahead', past⟩ := open_ s dest (c :: rest) ahead
  refine ⟨s' + 1, dest' ++ [c], ?_, ?_⟩
  · rw [List.length_append]
    exact Nat.add_lt_add_right ahead' 1
  · rw [List.append_assoc, List.singleton_append, past, unquoteSingle_other ahead' other]

theorem SingleOpen.close (open_ : SingleOpen body) : Unquotes (singleQuote :: body ++ [singleQuote]) := by
  intro retval rest
  obtain ⟨s', content, ahead, past⟩ := open_ 1 [] (singleQuote :: rest) Nat.zero_lt_one
  refine ⟨retval ++ content, ?_⟩
  rw [List.append_assoc, List.cons_append, List.singleton_append]
  refine unquoteFrom_piece (unquotePlain_mark _ _) ?_
  rw [show unquoteStringInplace (singleQuote :: (body ++ singleQuote :: rest)) = unquoteSingle 1 [] (body ++ singleQuote :: rest) by
    simp [unquoteStringInplace, singleQuote, doubleQuote], past, unquoteSingle_close ahead]

/-- The double-quoted loop gets past the text, but for a last backslash that may belong to the next character. -/
def DoubleOpen (body : Bytes) (quoted : Bool) : Prop := ∀ s dest rest, dest.length < s →
  ∃ s' dest', dest'.length < s' ∧
    unquoteDouble s dest (body ++ rest) = unquoteDouble s' dest' (if quoted then backslash :: rest else rest)

theorem doubleOpen_nil : DoubleOpen [] false := fun s dest _ ahead => ⟨s, dest, ahead, rfl⟩

section Double

variable {s : Nat} {dest rest : Bytes} {c : UInt8}

theorem unquoteDouble_close (ahead : dest.length < s) (rest : Bytes) :
    unquoteDouble s dest (doubleQuote :: rest) = .ok (dest, rest) := by
  rw [unquoteDouble.eq_def]
  simp [invariant, ahead]

theorem unquoteDouble_other (ahead : dest.length < s) (unmarked : c ≠ doubleQuote) (noEscape : c ≠ backslash) :
    unquoteDouble s dest (c :: rest) = unquoteDouble (s + 1) (dest ++ [c]) rest := by
  rw [unquoteDouble.eq_def]
  simp [invariant, ahead, unmarked, noEscape]

theorem unquoteDouble_escaped (ahead : dest.length < s) (escapable : isEscapable c = true) :
    unquoteDouble s dest (backslash :: c :: rest) = unquoteDouble (s + 2) (dest ++ [c]) rest := by
  rw [unquoteDouble.eq_def]
  have ahead' : dest.length + 1 < s + 2 := by omega
  simp [invariant, ahead, ahead', escapable, backslash, doubleQuote]

theorem unquoteDouble_kept (ahead : dest.length < s) (plain : isEscapable c = false) :
    unquoteDouble s dest (backslash :: c :: rest) = unquoteDouble (s + 1) (dest ++ [backslash]) (c :: rest) := by
  rw [unquoteDouble.eq_def]
  simp [invariant, ahead, plain, backslash, doubleQuote]

end Double

theorem DoubleOpen.snoc {quoted : Bool} (open_ : DoubleOpen body quoted)
    (inside : ¬(c = doubleQuote ∧ quoted = false)) : DoubleOpen (body ++ [c]) (if c ≠ backslash then false else !quoted) := by
  intro s dest rest ahead
  obtain ⟨s', dest', ahead', past⟩ := open_ s dest (c :: rest) ahead
  rw [List.append_assoc, List.singleton_append, past]
  cases quoted with
  | false =>
    have unmarked : c ≠ doubleQuote := fun mark => inside ⟨mark, rfl⟩
    by_cases escape : c = backslash
    · subst escape
      exact ⟨s', dest', ahead', rfl⟩
    · rw [if_pos escape]
      refine ⟨s' + 1, dest' ++ [c], ?_, unquoteDouble_other ahead' unmarked escape⟩
      rw [List.length_append]
      exact Nat.add_lt_add_right ahead' 1
  | true =>
    -- the backslash before takes the character with it, or is kept
    have unquoted : (if c ≠ backslash then false else !true) = false := by split <;> rfl
    rw [unquoted]
    by_cases escapable : isEscapable c = true
    · refine ⟨s' + 2, dest' ++ [c], ?_, unquoteDouble_escaped ahead' escapable⟩
      rw [List.length_append, List.length_singleton]
      omega
    · rw [Bool.not_eq_true] at escapable
      have plain := escapable
      unfold isEscapable at plain
      simp only [Bool.or_eq_false_iff, beq_eq_false_iff_ne] at plain
      have ahead'' : (dest' ++ [backslash]).length < s' + 1 := by
        rw [List.length_append]
        exact Nat.add_lt_add_right ahead' 1
      refine ⟨s' + 1 + 1, dest' ++ [backslash] ++ [c], ?_, ?_⟩
      · rw [List.length_append]
        exact Nat.add_lt_add_right ahead'' 1
      · rw [if_pos rfl, unquoteDouble_kept ahead' escapable, unquoteDouble_other ahead'' plain.1.1.1.1 plain.1.1.1.2]
        rfl

theorem DoubleOpen.close (open_ : DoubleOpen body false) : Unquotes (doubleQuote :: body ++ [doubleQuote]) := by
  intro retval rest
  obtain ⟨s', content, ahead, past⟩ := open_ 1 [] (doubleQuote :: rest) Nat.zero_lt_one
  refine ⟨retval ++ content, ?_⟩
  rw [List.append_assoc, List.cons_append, List.singleton_append]
  have plain : unquotePlain retval (doubleQuote :: (body ++ doubleQuote :: rest)) = (retval, doubleQuote :: (body ++ doubleQuote :: rest)) := by
    rw [unquotePlain.eq_def]
    rfl
  refine unquoteFrom_piece plain ?_
  rw [show unquoteStringInplace (doubleQuote :: (body ++ doubleQuote :: rest)) = unquoteDouble 1 [] (body ++ doubleQuote :: rest) by
    simp [unquoteStringInplace], past]
  exact unquoteDouble_close ahead rest

end Unquoter

section Tokenizer
variable {t : Tokenizer}

/-- The token that is being read: whole pieces, and an open one within quotes. -/
inductive TokenState (quoted : Bool) : UInt8 → Bytes → Prop
  | whole {q : UInt8} {token : Bytes} (mark : q = 0 ∨ q = backslash ∨ q = hash) (unquotes : Unquotes token) :
    TokenState quoted q token
  | single {token body : Bytes} (unquotes : Unquotes token) (open_ : SingleOpen body) :
    TokenState quoted singleQuote (token ++ singleQuote :: body)
  | double {token body : Bytes} (unquotes : Unquotes token) (open_ : DoubleOpen body quoted) :
    TokenState quoted doubleQuote (token ++ doubleQuote :: body)

structure Tokenizer.Sound (t : Tokenizer) : Prop where
  done : ∀ token ∈ t.retval, Unquotes token
  current : TokenState t.quoted t.currentQuote (t.currentToken.getD [])

theorem TokenState.unquotes {quoted : Bool} {q : UInt8} {token : Bytes} (state : TokenState quoted q token)
    (mark : q = 0 ∨ q = backslash ∨ q = hash) : Unquotes token := by
  cases state with
  | whole _ unquotes => exact unquotes
  | single => exact absurd mark (by decide)
  | double => exact absurd mark (by decide)

theorem delimitToken_sound (sound : t.Sound) (mark : t.currentQuote = 0) (quoted : Bool) :
    ({ delimitToken t with quoted } : Tokenizer).Sound := by
  have unquotes := sound.current.unquotes (.inl mark)
  unfold delimitToken
  split
  · rename_i none_
    exact ⟨sound.done, .whole (.inl mark) (by rw [none_]; exact unquotes_nil)⟩
  · rename_i token some_
    rw [some_] at unquotes
    refine ⟨fun token' member => ?_, .whole (.inl mark) unquotes_nil⟩
    rcases List.mem_cons.mp member with rfl | member
    · exact unquotes
    · exact sound.done token' member

theorem appendToken_getD (token : Option Bytes) (text : Bytes) : (appendToken token text).getD [] = token.getD [] ++ text := rfl

theorem append_sound (sound : t.Sound) (mark : t.currentQuote = 0 ∨ t.currentQuote = backslash)
    {piece : Bytes} (unquotes : Unquotes piece) (quoted : Bool) :
    ({ t with currentToken := appendToken t.currentToken piece, currentQuote := 0, quoted } : Tokenizer).Sound := by
  have before := sound.current.unquotes (mark.elim .inl (fun escape => .inr (.inl escape)))
  exact ⟨sound.done, .whole (.inl rfl) (by rw [appendToken_getD]; exact before.append unquotes)⟩

theorem tokenizePlain_sound (sound : t.Sound) (mark : t.currentQuote = 0) (previous : Option UInt8) (p : UInt8) :
    (countBackslash (tokenizePlain t previous p) p).Sound := by
  have unquotes := sound.current.unquotes (.inl mark)
  have waits : ∀ quoted : Bool, ({ t with quoted } : Tokenizer).Sound := fun quoted => ⟨sound.done, .whole (.inl mark) unquotes⟩
  have hashes : ∀ quoted : Bool, ({ t with currentQuote := hash, quoted } : Tokenizer).Sound :=
    fun quoted => ⟨sound.done, .whole (.inr (.inr rfl)) unquotes⟩
  have appends : p ≠ doubleQuote → p ≠ singleQuote → p ≠ backslash → ∀ quoted : Bool,
      ({ t with currentToken := appendToken t.currentToken [p], quoted } : Tokenizer).Sound := by
    intro noDouble noSingle noEscape quoted
    have appended := append_sound sound (.inl mark) (unquotes_plain noDouble noSingle noEscape) quoted
    rw [← mark] at appended
    exact appended
  unfold countBackslash tokenizePlain
  by_cases line : p = newline
  · rw [if_pos line]
    exact delimitToken_sound sound mark _
  rw [if_neg line]
  by_cases blank : (p = space || p = tab) = true
  · rw [if_pos blank]
    split
    · exact delimitToken_sound sound mark _
    · exact waits _
  rw [if_neg blank]
  by_cases quotes : (p = singleQuote || p = doubleQuote) = true
  · rw [if_pos quotes]
    rw [Bool.or_eq_true, decide_eq_true_eq, decide_eq_true_eq] at quotes
    rcases quotes with rfl | rfl
    · exact ⟨sound.done, .single unquotes singleOpen_nil⟩
    · exact ⟨sound.done, .double unquotes doubleOpen_nil⟩
  rw [if_neg quotes]
  rw [Bool.or_eq_true, decide_eq_true_eq, decide_eq_true_eq, not_or] at quotes
  by_cases escape : p = backslash
  · rw [if_pos escape]
    exact ⟨sound.done, .whole (.inr (.inl escape)) unquotes⟩
  rw [if_neg escape]
  by_cases comment : p = hash
  · rw [if_pos comment]
    subst comment
    split
    · exact hashes _
    · split
      · exact hashes _
      · exact appends quotes.2 quotes.1 escape _
  rw [if_neg comment]
  exact appends quotes.2 quotes.1 escape _

theorem tokenize_double (inside : t.currentQuote = doubleQuote) (previous : Option UInt8) (p : UInt8) :
    countBackslash (tokenizeChar t previous p) p =
      t.appended [p] (if p = doubleQuote ∧ t.quoted = false then 0 else doubleQuote)
        (if p ≠ backslash then false else !t.quoted) := by
  unfold countBackslash tokenizeChar Tokenizer.appended
  by_cases mark : p = doubleQuote
  · subst mark
    cases t.quoted <;> simp [inside, doubleQuote, backslash]
  · have unmarked : p ≠ 34 := mark
    by_cases escape : p = 92 <;> simp [inside, unmarked, escape, doubleQuote, backslash]

theorem appended_getD (t : Tokenizer) (text : Bytes) (q : UInt8) (quoted : Bool) :
    ((t.appended text q quoted).currentToken).getD [] = t.currentToken.getD [] ++ text := rfl

theorem tokenizeChar_sound (sound : t.Sound) (uncommented : t.currentQuote ≠ hash) (previous : Option UInt8)
    (p : UInt8) : (countBackslash (tokenizeChar t previous p) p).Sound := by
  obtain ⟨done, current⟩ := id sound
  generalize quote_eq : t.currentQuote = q at current
  generalize token_eq : t.currentToken.getD [] = token at current
  cases current with
  | whole mark unquotes =>
    rcases mark with rfl | rfl | rfl
    · have plain : tokenizeChar t previous p = tokenizePlain t previous p := by
        unfold tokenizeChar
        rw [if_neg (by rw [quote_eq]; decide), if_neg (by rw [quote_eq]; decide)]
      rw [plain]
      exact tokenizePlain_sound sound quote_eq previous p
    · -- after a backslash
      unfold countBackslash tokenizeChar
      rw [if_pos quote_eq]
      by_cases joined : p = newline
      · rw [if_pos joined]
        exact ⟨done, .whole (.inl rfl) (by rw [token_eq]; exact unquotes)⟩
      · rw [if_neg joined]
        exact append_sound sound (.inr quote_eq) (unquotes_escaped joined) _
    · exact absurd quote_eq uncommented
  | @single token body unquotes open_ =>
    by_cases closes : p = singleQuote
    · subst closes
      rw [tokenize_close quote_eq]
      refine ⟨done, .whole (.inl rfl) ?_⟩
      rw [appended_getD, token_eq, List.append_assoc]
      exact unquotes.append open_.close
    · rw [tokenize_other quote_eq previous closes]
      refine ⟨done, ?_⟩
      rw [appended_getD, token_eq, List.append_assoc]
      exact .single unquotes (open_.snoc closes)
  | @double token body unquotes open_ =>
    rw [tokenize_double quote_eq]
    by_cases closes : p = doubleQuote ∧ t.quoted = false
    · rw [if_pos closes]
      obtain ⟨rfl, even⟩ := closes
      rw [even] at open_
      refine ⟨done, .whole (.inl rfl) ?_⟩
      rw [appended_getD, token_eq, List.append_assoc]
      exact unquotes.append open_.close
    · rw [if_neg closes]
      refine ⟨done, ?_⟩
      rw [appended_getD, token_eq, List.append_assoc]
      exact .double unquotes (open_.snoc closes)

theorem comment_sound (sound : t.Sound) (comment : t.currentQuote = hash) (quoted : Bool) :
    ({ t with currentQuote := 0, quoted } : Tokenizer).Sound :=
  ⟨sound.done, .whole (.inl rfl) (sound.current.unquotes (.inr (.inr comment)))⟩

theorem tokenizeLoop_sound (sound : t.Sound) (previous : Option UInt8) (text : Bytes) :
    (tokenizeLoop t previous text).Sound := by
  fun_induction tokenizeLoop t previous text with
  | case1 t previous => exact sound
  | case2 t previous p rest comment discarded => exact comment_sound sound comment t.quoted
  | case3 t previous p rest comment q rest' discarded ih => exact ih (comment_sound sound comment _)
  | case4 t previous p rest uncommented ih => exact ih (tokenizeChar_sound sound uncommented previous p)

theorem tokenizeCommandLine_unquotes {line : Bytes} {tokens : List Bytes} (accepted : tokenizeCommandLine line = .ok tokens) :
    tokens ≠ [] ∧ ∀ token ∈ tokens, Unquotes token := by
  have start : (between []).Sound := ⟨fun _ member => absurd member List.not_mem_nil, .whole (.inl rfl) unquotes_nil⟩
  have sound := tokenizeLoop_sound start none line
  unfold between at sound
  unfold tokenizeCommandLine at accepted
  dsimp only at accepted
  generalize tokenizeLoop _ none line = t at accepted sound
  have same : (delimitToken t).currentQuote = t.currentQuote := by
    unfold delimitToken
    split <;> rfl
  split at accepted
  · split at accepted
    · exact absurd accepted nofun
    · exact absurd accepted nofun
  · rename_i closed
    split at accepted
    · exact absurd accepted nofun
    · rename_i some_
      obtain rfl := Except.ok.inj accepted
      rw [not_not, same] at closed
      have delimited := delimitToken_sound sound closed t.quoted
      refine ⟨fun none_ => some_ (List.reverse_eq_nil_iff.mp none_), fun token member => ?_⟩
      exact delimited.done token (List.mem_reverse.mp member)

end Tokenizer

section Assertions

/-- The loop invariants of the unquoter hold at every turn: each byte is written behind the one that was read last. -/
theorem unquoteDouble_ahead {s : Nat} {dest text : Bytes} (ahead : dest.length < s) :
    unquoteDouble s dest text ≠ .error .assertion := by
  fun_induction unquoteDouble s dest text <;> grind [invariant, unmatched]

theorem unquoteSingle_ahead {s : Nat} {dest text : Bytes} (ahead : dest.length < s) :
    unquoteSingle s dest text ≠ .error .assertion := by
  fun_induction unquoteSingle s dest text <;> grind [invariant, unmatched]

theorem unquoteStringInplace_ahead (str : Bytes) : unquoteStringInplace str ≠ .error .assertion := by
  unfold unquoteStringInplace
  split
  · rintro ⟨⟩
  · split
    · exact unquoteDouble_ahead Nat.zero_lt_one
    · split
      · exact unquoteSingle_ahead Nat.zero_lt_one
      · rintro ⟨⟩

theorem unquoteFrom_ahead (retval start : Bytes) : unquoteFrom retval start ≠ .error .assertion := by
  fun_induction unquoteFrom retval start with
  | case1 retval => exact nofun
  | case2 retval c text plain none_ => exact nofun
  | case3 retval c text plain some_ err unquoted =>
    intro failed
    rw [Except.error.inj failed] at unquoted
    exact unquoteStringInplace_ahead _ unquoted
  | case4 retval c text plain some_ content rest unquoted ih => exact ih

end Assertions

theorem mapM_unquotes {tokens : List Bytes} (unquotes : ∀ token ∈ tokens, Unquotes token) :
    ∃ args, tokens.mapM unquote = .ok args ∧ args.length = tokens.length := by
  induction tokens with
  | nil => exact ⟨[], rfl, rfl⟩
  | cons token tokens ih =>
    obtain ⟨string, first⟩ := (unquotes token List.mem_cons_self).unquote
    obtain ⟨args, rest, length⟩ := ih fun token' member => unquotes token' (List.mem_cons_of_mem token member)
    refine ⟨string :: args, ?_, congrArg Nat.succ length⟩
    rw [List.mapM_cons, first, rest]
    rfl

/-- The tokenizer sets an error, or its tokens can all be unquoted. -/
theorem tokenizeCommandLine_cases (line : Bytes) :
    (∃ tokens args, tokenizeCommandLine line = .ok tokens ∧ tokens ≠ [] ∧ tokens.mapM unquote = .ok args ∧ args ≠ []) ∨
      ∃ err, tokenizeCommandLine line = .error err ∧ err.isSet = true := by
  cases accepted : tokenizeCommandLine line with
  | ok tokens =>
    obtain ⟨some_, unquotes⟩ := tokenizeCommandLine_unquotes accepted
    obtain ⟨args, made, length⟩ := mapM_unquotes unquotes
    refine .inl ⟨tokens, args, rfl, some_, made, fun none_ => some_ ?_⟩
    rw [none_] at length
    exact List.eq_nil_of_length_eq_zero length.symm
  | error err =>
    refine .inr ⟨err, rfl, ?_⟩
    unfold tokenizeCommandLine at accepted
    dsimp only at accepted
    split at accepted
    · split at accepted
      · exact Except.error.inj accepted ▸ rfl
      · exact Except.error.inj accepted ▸ rfl
    · split at accepted
      · exact Except.error.inj accepted ▸ rfl
      · exact absurd accepted nofun

/-- The tokens of an accepted line are unquoted without an error, a line is parsed to at least one argument or else an
error is set, that of the tokenizer, and the unquoter stays behind its read position. -/
structure ParsesOrFails (line : Bytes) : Prop where
  unquotes : ∀ tokens, tokenizeCommandLine line = .ok tokens → ∀ token ∈ tokens, ∃ string, unquote token = .ok string
  parses : (∃ argc args, parseArgv line = .ok (argc, args) ∧ 1 ≤ argc ∧ args.length = argc) ↔
    ¬∃ err, parseArgv line = .error err ∧ err.isSet = true
  fails : ∀ err, parseArgv line = .error err ↔ tokenizeCommandLine line = .error err
  behind : ∀ str, unquoteStringInplace str ≠ .error .assertion ∧ unquote str ≠ .error .assertion

/-- The count of the arguments, which has 32 bits, has to stand for their number. -/
theorem parsesOrFails_iff (line : Bytes) :
    ParsesOrFails line ↔ ∀ tokens, tokenizeCommandLine line = .ok tokens → tokens.length < 2 ^ 31 - 1 := by
  rcases tokenizeCommandLine_cases line with ⟨tokens, args, accepted, some_, made, named⟩ | ⟨err, refused, set_⟩
  · constructor
    · intro parses tokens' again
      obtain rfl : tokens = tokens' := Except.ok.inj (accepted.symm.trans again)
      by_contra many
      rcases parseArgv_many accepted made (Nat.le_of_not_lt many) with failed | failed
      · cases accepted.symm.trans ((parses.fails _).mp failed)
      · cases accepted.symm.trans ((parses.fails _).mp failed)
    · intro few
      have parsed := parseArgv_few accepted some_ made named (few tokens accepted)
      have unquotes := (tokenizeCommandLine_unquotes accepted).2
      refine ⟨fun tokens' again token member => ?_, ?_, fun err => ?_, fun str => ⟨unquoteStringInplace_ahead str, unquoteFrom_ahead [] str⟩⟩
      · obtain rfl : tokens = tokens' := Except.ok.inj (accepted.symm.trans again)
        exact (unquotes token member).unquote
      · obtain ⟨args', made', length⟩ := mapM_unquotes unquotes
        obtain rfl : args = args' := Except.ok.inj (made.symm.trans made')
        have positive := List.length_pos_of_ne_nil some_
        refine iff_of_true ⟨_, _, parsed, by omega, by rw [length]⟩ ?_
        rintro ⟨err, failed, -⟩
        cases parsed.symm.trans failed
      · refine iff_of_false (fun failed => ?_) fun refused => ?_
        · cases parsed.symm.trans failed
        · cases accepted.symm.trans refused
  · have failed : parseArgv line = .error err := by simp only [parseArgv, refused, bind, Except.bind]
    refine iff_of_true ⟨fun tokens again => ?_, ?_, fun err' => by simp only [failed, refused, Except.error.injEq],
      fun str => ⟨unquoteStringInplace_ahead str, unquoteFrom_ahead [] str⟩⟩ fun tokens again => ?_
    · cases refused.symm.trans again
    · refine iff_of_false ?_ fun none_ => none_ ⟨err, failed, set_⟩
      rintro ⟨argc, args, parsed, -⟩
      cases failed.symm.trans parsed
    · cases refused.symm.trans again

/-- A line of as many empty arguments as an `xint_t` can count. -/
theorem parsesOrFails_many : ¬ParsesOrFails ([space].intercalate ((List.replicate (2 ^ 31 - 1) []).map quote)) := by
  intro parses
  have nonempty : List.replicate (2 ^ 31 - 1) ([] : Bytes) ≠ [] := replicate_ne_nil
  have accepted := tokenizeCommandLine_arguments nonempty
  rcases parseArgv_many accepted (mapM_unquote _) (by rw [List.length_map, List.length_replicate]) with failed | failed
  · cases accepted.symm.trans ((parses.fails _).mp failed)
  · cases accepted.symm.trans ((parses.fails _).mp failed)

/-- A command line that ends within quotes is refused by the tokenizer already. -/
example : (tokenizeCommandLine [97, 34]).map (fun _ => ()) = (parseArgv [97, 34]).map fun _ => () := by decide +kernel

end Xpl.Text.Shell
