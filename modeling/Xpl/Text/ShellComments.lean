import Mathlib.Data.List.TakeWhile
import Xpl.Text.ShellQuoting

/-! Comments of a command line. The tokenizer decides by the byte before a hash whether it begins a
comment; the rule is that it does at the beginning of a token. -/

set_option autoImplicit false

namespace Xpl.Text.Shell

variable {before after line : Bytes} {t : Tokenizer}

/-- The states of the tokenizer at the head of its loop, with what it has read. The byte before is the last one read. -/
inductive Reads : Bytes → Tokenizer → Prop
  | start : Reads [] (between [])
  | char {before : Bytes} {t : Tokenizer} (reads : Reads before t) (uncommented : t.currentQuote ≠ hash) (p : UInt8) :
    Reads (before ++ [p]) (countBackslash (tokenizeChar t before.getLast? p) p)
  | comment {before text : Bytes} {t : Tokenizer} (reads : Reads before t) (comment : t.currentQuote = hash)
    (oneLine : ∀ c ∈ text, c ≠ newline) :
    Reads (before ++ text ++ [newline]) (countBackslash { t with currentQuote := 0 } newline)

theorem dropWhile_line {text : Bytes} (oneLine : ∀ c ∈ text, c ≠ newline) (rest : Bytes) :
    (text ++ newline :: rest).dropWhile (fun c => c ≠ newline) = newline :: rest := by
  induction text with
  | nil => simp
  | cons c text ih =>
    have other := oneLine c List.mem_cons_self
    rw [List.cons_append, List.dropWhile_cons_of_pos (by simp [other])]
    exact ih fun c' member => oneLine c' (List.mem_cons_of_mem c member)

theorem tokenizeLoop_comment (comment : t.currentQuote = hash) {text : Bytes} (oneLine : ∀ c ∈ text, c ≠ newline)
    (previous : Option UInt8) (rest : Bytes) :
    tokenizeLoop t previous (text ++ newline :: rest) =
      tokenizeLoop (countBackslash { t with currentQuote := 0 } newline) (some newline) rest := by
  have dropped := dropWhile_line oneLine rest
  obtain ⟨p, text', same⟩ : ∃ p text', text ++ newline :: rest = p :: text' := by
    cases text with
    | nil => exact ⟨_, _, rfl⟩
    | cons c text => exact ⟨_, _, rfl⟩
  rw [same] at dropped ⊢
  rw [tokenizeLoop, if_pos comment]
  split
  · rename_i none_
    rw [dropped] at none_
    exact absurd none_ (List.cons_ne_nil _ _)
  · rename_i q rest' found
    rw [dropped] at found
    obtain ⟨rfl, rfl⟩ := List.cons.inj found
    rfl

/-- What is left to do after the part that is read. -/
theorem Reads.loop (reads : Reads before t) (after : Bytes) :
    tokenizeLoop (between []) none (before ++ after) = tokenizeLoop t before.getLast? after := by
  induction reads generalizing after with
  | start => rfl
  | @char before t reads uncommented p ih =>
    rw [List.append_assoc, List.singleton_append, ih, tokenizeLoop_cons uncommented, List.getLast?_concat]
  | @comment before text t reads comment oneLine ih =>
    rw [List.append_assoc, List.append_assoc, List.singleton_append, ih, tokenizeLoop_comment comment oneLine,
      List.getLast?_concat]

def oddBackslashes (text : Bytes) : Bool := text.foldl (fun odd p => if p ≠ backslash then false else !odd) false

theorem oddBackslashes_snoc (text : Bytes) (p : UInt8) :
    oddBackslashes (text ++ [p]) = if p ≠ backslash then false else !oddBackslashes text := by
  unfold oddBackslashes
  rw [List.foldl_append]
  rfl

theorem Reads.quoted (reads : Reads before t) : t.quoted = oddBackslashes before := by
  have kept : ∀ (t : Tokenizer) (previous : Option UInt8) (p : UInt8), (tokenizeChar t previous p).quoted = t.quoted := by
    intro t previous p
    unfold tokenizeChar tokenizePlain delimitToken
    grind
  induction reads with
  | start => rfl
  | char reads uncommented p ih =>
    rw [oddBackslashes_snoc, ← ih]
    unfold countBackslash
    rw [kept]
  | comment reads comment oneLine ih =>
    rw [oddBackslashes_snoc]
    rfl

/-- Outside of quotes and comments the tokenizer is behind a backslash exactly after an odd number of them. -/
structure Tokenizer.Marked (t : Tokenizer) : Prop where
  mark : (t.currentQuote = 0 ∧ t.quoted = false) ∨ (t.currentQuote = backslash ∧ t.quoted = true) ∨
    t.currentQuote = singleQuote ∨ t.currentQuote = doubleQuote ∨ t.currentQuote = hash
  token : t.currentToken ≠ some []

theorem appendToken_ne (token : Option Bytes) (c : UInt8) (text : Bytes) :
    appendToken token (c :: text) ≠ some [] := by
  unfold appendToken
  simp

/-- What the tokenizer looks at when it is at a hash. -/
def OpensComment (previous : Option UInt8) : Prop :=
  previous = none ∨ previous = some space ∨ previous = some newline ∨ previous = some 0

/-- What a character does that is read outside of quotes. -/
theorem tokenizePlain_cases (t : Tokenizer) (previous : Option UInt8) (p : UInt8) :
    (p = newline ∧ tokenizePlain t previous p = delimitToken t) ∨
      ((p = space ∨ p = tab) ∧ (t.currentToken ≠ some [] → tokenizePlain t previous p = delimitToken t)) ∨
      ((p = singleQuote ∨ p = doubleQuote) ∧
        tokenizePlain t previous p = { t with currentToken := appendToken t.currentToken [p], currentQuote := p }) ∨
      (p = backslash ∧ tokenizePlain t previous p = { t with currentQuote := backslash }) ∨
      (p = hash ∧ OpensComment previous ∧ tokenizePlain t previous p = { t with currentQuote := hash }) ∨
      ((p = hash → ¬OpensComment previous) ∧ p ≠ newline ∧ p ≠ space ∧ p ≠ tab ∧ p ≠ backslash ∧
        tokenizePlain t previous p = { t with currentToken := appendToken t.currentToken [p] }) := by
  unfold tokenizePlain
  by_cases line : p = newline
  · exact .inl ⟨line, if_pos line⟩
  rw [if_neg line]
  by_cases blank : p = space ∨ p = tab
  · refine .inr (.inl ⟨blank, fun some_ => ?_⟩)
    rw [if_pos (by simpa using blank)]
    cases token : t.currentToken with
    | none =>
      unfold delimitToken
      rw [token]
    | some text =>
      cases text with
      | nil => exact absurd token some_
      | cons c text => rfl
  rw [if_neg (by simpa using blank)]
  by_cases quotes : p = singleQuote ∨ p = doubleQuote
  · exact .inr (.inr (.inl ⟨quotes, if_pos (by simpa using quotes)⟩))
  rw [if_neg (by simpa using quotes)]
  by_cases escape : p = backslash
  · exact .inr (.inr (.inr (.inl ⟨escape, by rw [if_pos escape, escape]⟩)))
  rw [if_neg escape]
  have other : ¬p = space ∧ ¬p = tab := not_or.mp blank
  by_cases comment : p = hash
  · rw [if_pos comment]
    by_cases opens : OpensComment previous
    · refine .inr (.inr (.inr (.inr (.inl ⟨comment, opens, ?_⟩))))
      rcases opens with rfl | rfl | rfl | rfl <;> rw [comment] <;> rfl
    · refine .inr (.inr (.inr (.inr (.inr ⟨fun _ => opens, line, other.1, other.2, escape, ?_⟩))))
      cases previous with
      | none => exact absurd (.inl rfl) opens
      | some c =>
        have noOpening : ¬(c = space ∨ c = newline ∨ c = 0) := by
          rintro (rfl | rfl | rfl)
          · exact opens (.inr (.inl rfl))
          · exact opens (.inr (.inr (.inl rfl)))
          · exact opens (.inr (.inr (.inr rfl)))
        exact if_neg (by simpa [or_assoc] using noOpening)
  · rw [if_neg comment]
    exact .inr (.inr (.inr (.inr (.inr ⟨fun same => absurd same comment, line, other.1, other.2, escape, rfl⟩))))

theorem tokenizeChar_outside (outside : t.currentQuote = 0) (previous : Option UInt8) (p : UInt8) :
    tokenizeChar t previous p = tokenizePlain t previous p := by
  unfold tokenizeChar
  rw [if_neg (by rw [outside]; decide), if_neg (by rw [outside]; decide)]

theorem tokenizeChar_escaped (escape : t.currentQuote = backslash) (previous : Option UInt8) (p : UInt8) :
    tokenizeChar t previous p =
      if p = newline then { t with currentQuote := 0 }
      else { t with currentToken := appendToken t.currentToken [backslash, p], currentQuote := 0 } :=
  if_pos escape

theorem tokenizeChar_quoted (quotes : t.currentQuote = singleQuote ∨ t.currentQuote = doubleQuote) (previous : Option UInt8)
    (p : UInt8) :
    tokenizeChar t previous p = { t with currentToken := appendToken t.currentToken [p] } ∨
      p = t.currentQuote ∧
        tokenizeChar t previous p = { t with currentToken := appendToken t.currentToken [p], currentQuote := 0 } := by
  have notEscape : ¬t.currentQuote = backslash := by
    rcases quotes with mark | mark <;> rw [mark] <;> decide
  have notOutside : t.currentQuote ≠ 0 := by
    rcases quotes with mark | mark <;> rw [mark] <;> decide
  unfold tokenizeChar
  rw [if_neg notEscape, if_pos notOutside]
  dsimp only
  by_cases closes : (decide (p = t.currentQuote) && !(decide (t.currentQuote = doubleQuote) && t.quoted)) = true
  · rw [if_pos closes]
    rw [Bool.and_eq_true, decide_eq_true_eq] at closes
    exact .inr ⟨closes.1, rfl⟩
  · rw [if_neg closes]
    exact .inl rfl

theorem delimitToken_quote (t : Tokenizer) : (delimitToken t).currentQuote = t.currentQuote ∧ (delimitToken t).currentToken = none := by
  unfold delimitToken
  split
  · rename_i none_
    exact ⟨rfl, none_⟩
  · exact ⟨rfl, rfl⟩

theorem tokenizeChar_marked (marked : t.Marked) (uncommented : t.currentQuote ≠ hash) (previous : Option UInt8) (p : UInt8) :
    (countBackslash (tokenizeChar t previous p) p).Marked := by
  obtain ⟨mark, token⟩ := marked
  have joined : ∀ c text, appendToken t.currentToken (c :: text) ≠ some [] := fun c text => appendToken_ne _ c text
  rcases mark with ⟨outside, even⟩ | ⟨escape, odd⟩ | quotes
  · rw [tokenizeChar_outside outside]
    obtain ⟨mark', token'⟩ := delimitToken_quote t
    rcases tokenizePlain_cases t previous p with ⟨rfl, step⟩ | ⟨blank, step⟩ | ⟨quote_, step⟩ | ⟨rfl, step⟩ | ⟨rfl, -, step⟩ |
      ⟨-, -, -, -, noEscape, step⟩
    · rw [step]
      exact ⟨.inl ⟨mark'.trans outside, rfl⟩, by unfold countBackslash; rw [token']; exact nofun⟩
    · rw [step token]
      refine ⟨.inl ⟨mark'.trans outside, ?_⟩, by unfold countBackslash; rw [token']; exact nofun⟩
      rcases blank with rfl | rfl <;> rfl
    · rw [step]
      rcases quote_ with rfl | rfl
      · exact ⟨.inr (.inr (.inl rfl)), joined _ _⟩
      · exact ⟨.inr (.inr (.inr (.inl rfl))), joined _ _⟩
    · rw [step]
      exact ⟨.inr (.inl ⟨rfl, by unfold countBackslash; rw [even]; rfl⟩), token⟩
    · rw [step]
      exact ⟨.inr (.inr (.inr (.inr rfl))), token⟩
    · rw [step]
      exact ⟨.inl ⟨outside, if_pos noEscape⟩, joined _ _⟩
  · rw [tokenizeChar_escaped escape]
    split
    · rename_i line
      exact ⟨.inl ⟨rfl, by unfold countBackslash; rw [line]; rfl⟩, token⟩
    · refine ⟨.inl ⟨rfl, ?_⟩, joined _ _⟩
      unfold countBackslash
      rw [odd]
      split <;> rfl
  · have inside : t.currentQuote = singleQuote ∨ t.currentQuote = doubleQuote := by
      rcases quotes with mark | mark | mark
      · exact .inl mark
      · exact .inr mark
      · exact absurd mark uncommented
    rcases tokenizeChar_quoted inside previous p with step | ⟨closes, step⟩
    · rw [step]
      exact ⟨.inr (.inr quotes), joined _ _⟩
    · rw [step]
      refine ⟨.inl ⟨rfl, if_pos ?_⟩, joined _ _⟩
      rw [closes]
      rcases inside with mark | mark <;> rw [mark] <;> decide

theorem Reads.marked (reads : Reads before t) : t.Marked := by
  induction reads with
  | start => exact ⟨.inl ⟨rfl, rfl⟩, nofun⟩
  | char reads uncommented p ih => exact tokenizeChar_marked ih uncommented _ p
  | comment reads comment oneLine ih => exact ⟨.inl ⟨rfl, rfl⟩, ih.token⟩

theorem Reads.last (reads : Reads before t) (outside : t.currentQuote = 0) :
    before = [] ∧ t.currentToken = none ∨
      ∃ text c, before = text ++ [c] ∧
        ((c = space ∨ c = tab) → oddBackslashes text = false → t.currentToken = none) ∧
        ((c = space ∨ c = tab) → oddBackslashes text = true → t.currentToken ≠ none) ∧
        (c ≠ space → c ≠ tab → c ≠ newline → t.currentToken ≠ none) := by
  cases reads with
  | start => exact .inl ⟨rfl, rfl⟩
  | comment reads comment oneLine =>
    have notBlank : ¬(newline = space ∨ newline = tab) := by decide
    exact .inr ⟨_, newline, rfl, fun blank => absurd blank notBlank, fun blank => absurd blank notBlank,
      fun _ _ same => absurd rfl same⟩
  | @char before t reads uncommented p =>
    refine .inr ⟨before, p, rfl, ?_⟩
    have parity := reads.quoted
    obtain ⟨mark, token⟩ := reads.marked
    have joins : ∀ text, appendToken t.currentToken text ≠ none := fun _ => nofun
    change (_ → _ → (tokenizeChar t before.getLast? p).currentToken = none) ∧
      (_ → _ → (tokenizeChar t before.getLast? p).currentToken ≠ none) ∧
      (_ → _ → _ → (tokenizeChar t before.getLast? p).currentToken ≠ none)
    rcases mark with ⟨plain, even⟩ | ⟨escape, odd⟩ | quotes
    · rw [even] at parity
      rw [tokenizeChar_outside plain] at outside ⊢
      rcases tokenizePlain_cases t before.getLast? p with ⟨rfl, step⟩ | ⟨blank, step⟩ | ⟨quote_, step⟩ | ⟨rfl, step⟩ |
        ⟨rfl, -, step⟩ | ⟨-, noLine, noSpace, noTab, -, step⟩
      · exact ⟨fun blank => absurd blank (by decide), fun blank => absurd blank (by decide), fun _ _ same => absurd rfl same⟩
      · rw [step token]
        refine ⟨fun _ _ => (delimitToken_quote t).2, fun _ odd => ?_, fun noSpace noTab => ?_⟩
        · exact absurd (parity.trans odd) nofun
        · exact absurd blank (not_or.mpr ⟨noSpace, noTab⟩)
      · rw [step] at outside
        rcases quote_ with rfl | rfl
        · exact absurd (show singleQuote = 0 from outside) (by decide)
        · exact absurd (show doubleQuote = 0 from outside) (by decide)
      · rw [step] at outside
        exact absurd (show backslash = 0 from outside) (by decide)
      · rw [step] at outside
        exact absurd (show hash = 0 from outside) (by decide)
      · rw [step]
        exact ⟨fun blank => absurd blank (not_or.mpr ⟨noSpace, noTab⟩), fun _ _ => joins _, fun _ _ _ => joins _⟩
    · rw [odd] at parity
      rw [tokenizeChar_escaped escape]
      refine ⟨fun _ even => absurd (parity.trans even) nofun, fun blank _ => ?_, fun _ _ noLine => ?_⟩
      · rw [if_neg (by rcases blank with rfl | rfl <;> decide)]
        exact joins _
      · rw [if_neg noLine]
        exact joins _
    · have inside : t.currentQuote = singleQuote ∨ t.currentQuote = doubleQuote := by
        rcases quotes with mark | mark | mark
        · exact .inl mark
        · exact .inr mark
        · exact absurd mark uncommented
      rcases tokenizeChar_quoted inside before.getLast? p with step | ⟨closes, step⟩
      · rw [step] at outside
        rcases inside with mark | mark <;> exact absurd (mark.symm.trans outside) (by decide)
      · have notBlank : ¬(p = space ∨ p = tab) := by
          rw [closes]
          rcases inside with mark | mark <;> rw [mark] <;> decide
        rw [step]
        exact ⟨fun blank => absurd blank notBlank, fun _ _ => joins _, fun _ _ _ => joins _⟩

section Rule
variable {previous : Option UInt8}

/-- The tokenizer has come to the same: what it remembers of the backslashes aside. -/
def Agree (one other : Tokenizer) : Prop :=
  one.currentQuote = other.currentQuote ∧ one.currentToken = other.currentToken ∧ one.retval = other.retval

/-- The rule for a hash that is read outside of quotes: at the beginning of a token it begins a comment, and the line without
the comment comes to the same; elsewhere it joins the token. -/
def HashRule (before after : Bytes) (t : Tokenizer) : Prop :=
  if t.currentToken = none then
    tokenizeChar t before.getLast? hash = { t with currentQuote := hash } ∧
      Agree (tokenizeLoop (between []) none (before ++ hash :: after))
        (tokenizeLoop (between []) none (before ++ after.dropWhile fun c => c ≠ newline))
  else tokenizeChar t before.getLast? hash = { t with currentToken := appendToken t.currentToken [hash] }

def CommentRule (line : Bytes) : Prop :=
  ∀ before after t, line = before ++ hash :: after → Reads before t → t.currentQuote = 0 → HashRule before after t

/-- Where the byte before a hash tells something else than the token. -/
inductive Misread (after : Bytes) (t : Tokenizer) : Bytes → Prop
  | tab {text : Bytes} (even : oddBackslashes text = false) : Misread after t (text ++ [tab])
  | escapedSpace {text : Bytes} (odd : oddBackslashes text = true) : Misread after t (text ++ [space])
  | continuation {text : Bytes} (odd : oddBackslashes text = true) (token : t.currentToken ≠ none) :
    Misread after t (text ++ [newline])
  | bare {before : Bytes} (last : after = []) (opens : OpensComment before.getLast?) : Misread after t before

/-- No hash of the line is misread. -/
def Clean (line : Bytes) : Prop :=
  ∀ before after t, line = before ++ hash :: after → Reads before t → t.currentQuote = 0 → ¬Misread after t before

theorem hash_step (outside : t.currentQuote = 0) (previous : Option UInt8) :
    (OpensComment previous ∧ tokenizeChar t previous hash = { t with currentQuote := hash }) ∨
      (¬OpensComment previous ∧ tokenizeChar t previous hash = { t with currentToken := appendToken t.currentToken [hash] }) := by
  rw [tokenizeChar_outside outside]
  rcases tokenizePlain_cases t previous hash with ⟨same, -⟩ | ⟨same, -⟩ | ⟨same, -⟩ | ⟨same, -⟩ | ⟨-, opens, step⟩ | ⟨opens, -, -, -, -, step⟩
  · exact absurd same (by decide)
  · exact absurd same (by decide)
  · exact absurd same (by decide)
  · exact absurd same (by decide)
  · exact .inl ⟨opens, step⟩
  · exact .inr ⟨opens rfl, step⟩

theorem opens_of_step (outside : t.currentQuote = 0)
    (step : tokenizeChar t previous hash = { t with currentQuote := hash }) : OpensComment previous := by
  rcases hash_step outside previous with ⟨opens, -⟩ | ⟨-, step'⟩
  · exact opens
  · have quotes := congrArg Tokenizer.currentQuote (step.symm.trans step')
    exact absurd (show hash = 0 from quotes.trans outside) (by decide)

theorem not_opens_of_step (outside : t.currentQuote = 0)
    (step : tokenizeChar t previous hash = { t with currentToken := appendToken t.currentToken [hash] }) :
    ¬OpensComment previous := by
  rcases hash_step outside previous with ⟨-, step'⟩ | ⟨opens, -⟩
  · have quotes := congrArg Tokenizer.currentQuote (step'.symm.trans step)
    exact absurd (show hash = 0 from quotes.trans outside) (by decide)
  · exact opens

theorem opens_snoc (text : Bytes) (c : UInt8) : OpensComment (text ++ [c]).getLast? ↔ c = space ∨ c = newline ∨ c = 0 := by
  unfold OpensComment
  simp

theorem Reads.token_of_not_opens (reads : Reads before t) (outside : t.currentQuote = 0) (opens : ¬OpensComment before.getLast?)
    (noTab : ∀ text, before = text ++ [tab] → oddBackslashes text = true) : t.currentToken ≠ none := by
  rcases reads.last outside with ⟨rfl, -⟩ | ⟨text, c, rfl, -, escaped, other⟩
  · exact absurd (.inl rfl) opens
  · rw [opens_snoc, not_or, not_or] at opens
    by_cases blank : c = tab
    · exact escaped (.inr blank) (noTab text (by rw [blank]))
    · exact other opens.1 blank opens.2.1

theorem Reads.no_token_of_opens (reads : Reads before t) (outside : t.currentQuote = 0) (noZero : 0 ∉ before)
    (opens : OpensComment before.getLast?) (notMisread : ¬Misread after t before)
    (line_ : ∀ text, before = text ++ [newline] → oddBackslashes text = false → t.currentToken = none) :
    t.currentToken = none := by
  rcases reads.last outside with ⟨-, token⟩ | ⟨text, c, rfl, plain, -, -⟩
  · exact token
  · by_contra token
    rw [opens_snoc] at opens
    have misread : Misread after t (text ++ [c]) := by
      cases parity : oddBackslashes text with
      | false =>
        rcases opens with rfl | rfl | rfl
        · exact absurd (plain (.inl rfl) parity) token
        · exact absurd (line_ text rfl parity) token
        · exact absurd (List.mem_append_right text (List.mem_singleton.mpr rfl)) noZero
      | true =>
        rcases opens with rfl | rfl | rfl
        · exact .escapedSpace parity
        · exact .continuation parity token
        · exact absurd (List.mem_append_right text (List.mem_singleton.mpr rfl)) noZero
    exact notMisread misread

theorem Reads.beginning (reads : Reads before t) (clean : Clean line) (noZero : 0 ∉ line) {rest : Bytes}
    (whole : line = before ++ rest) :
    (t.currentQuote = hash → t.currentToken = none) ∧
      (t.currentQuote = 0 → ∀ text, before = text ++ [newline] → oddBackslashes text = false → t.currentToken = none) := by
  -- over the bytes read: outside quotes no token is begun behind an unescaped newline
  induction reads generalizing rest with
  | start => exact ⟨fun _ => rfl, fun _ _ _ _ => rfl⟩
  | @comment before text t reads comment oneLine ih =>
    have whole_ : line = before ++ (text ++ [newline] ++ rest) := by
      rw [whole]
      simp only [List.append_assoc]
    have none_ := (ih whole_).1 comment
    exact ⟨fun _ => none_, fun _ _ _ _ => none_⟩
  | @char before t reads uncommented p ih =>
    rw [List.append_assoc, List.singleton_append] at whole
    have parity := reads.quoted
    have before_ := ih whole
    have noZero' : 0 ∉ before := fun zero => noZero (by rw [whole]; exact List.mem_append_left _ zero)
    obtain ⟨mark, token⟩ := reads.marked
    change ((tokenizeChar t before.getLast? p).currentQuote = hash → (tokenizeChar t before.getLast? p).currentToken = none) ∧
      ((tokenizeChar t before.getLast? p).currentQuote = 0 → ∀ text, before ++ [p] = text ++ [newline] →
        oddBackslashes text = false → (tokenizeChar t before.getLast? p).currentToken = none)
    have unless_line : p ≠ newline → ∀ text, before ++ [p] = text ++ [newline] → False := by
      intro noLine text same
      exact noLine (List.singleton_inj.mp (List.append_inj_right' same rfl))
    rcases mark with ⟨plain, even⟩ | ⟨escape, odd⟩ | quotes
    · rw [tokenizeChar_outside plain]
      obtain ⟨mark', token'⟩ := delimitToken_quote t
      rcases tokenizePlain_cases t before.getLast? p with ⟨rfl, step⟩ | ⟨blank, step⟩ | ⟨quote_, step⟩ | ⟨rfl, step⟩ |
        ⟨rfl, opens, step⟩ | ⟨-, noLine, -, -, -, step⟩
      · rw [step]
        exact ⟨fun _ => token', fun _ _ _ _ => token'⟩
      · rw [step token]
        exact ⟨fun _ => token', fun _ _ _ _ => token'⟩
      · rw [step]
        rcases quote_ with rfl | rfl
        · exact ⟨fun same => absurd (show singleQuote = hash from same) (by decide),
            fun same => absurd (show singleQuote = 0 from same) (by decide)⟩
        · exact ⟨fun same => absurd (show doubleQuote = hash from same) (by decide),
            fun same => absurd (show doubleQuote = 0 from same) (by decide)⟩
      · rw [step]
        exact ⟨fun same => absurd (show backslash = hash from same) (by decide),
          fun same => absurd (show backslash = 0 from same) (by decide)⟩
      · -- the comment begins behind a blank or a newline
        rw [step]
        have none_ := reads.no_token_of_opens plain noZero' opens (clean before rest t whole reads plain) (before_.2 plain)
        exact ⟨fun _ => none_, fun _ _ _ _ => none_⟩
      · rw [step]
        exact ⟨fun same => absurd (plain.symm.trans same) (by decide), fun _ text same => absurd same (unless_line noLine text)⟩
    · rw [tokenizeChar_escaped escape]
      by_cases joined : p = newline
      · subst joined
        refine ⟨fun same => absurd (show (0 : UInt8) = hash from same) (by decide), fun _ text same even => ?_⟩
        rw [← List.append_inj_left' same rfl, ← parity, odd] at even
        exact absurd even nofun
      · rw [if_neg joined]
        exact ⟨fun same => absurd (show (0 : UInt8) = hash from same) (by decide),
          fun _ text same => absurd same (unless_line joined text)⟩
    · have inside : t.currentQuote = singleQuote ∨ t.currentQuote = doubleQuote := by
        rcases quotes with mark | mark | mark
        · exact .inl mark
        · exact .inr mark
        · exact absurd mark uncommented
      rcases tokenizeChar_quoted inside before.getLast? p with step | ⟨closes, step⟩
      · rw [step]
        refine ⟨fun same => absurd same uncommented, fun same => ?_⟩
        rcases inside with mark | mark <;> exact absurd (mark.symm.trans same) (by decide)
      · rw [step]
        refine ⟨fun same => absurd (show (0 : UInt8) = hash from same) (by decide),
          fun _ text same => absurd same (unless_line ?_ text)⟩
        rw [closes]
        rcases inside with mark | mark <;> rw [mark] <;> decide

theorem exists_line (after : Bytes) :
    (∀ c ∈ after, c ≠ newline) ∨ ∃ text rest, after = text ++ newline :: rest ∧ ∀ c ∈ text, c ≠ newline := by
  induction after with
  | nil => exact .inl fun _ member => absurd member List.not_mem_nil
  | cons c after ih =>
    by_cases end_ : c = newline
    · exact .inr ⟨[], after, by rw [end_]; rfl, fun _ member => absurd member List.not_mem_nil⟩
    · rcases ih with oneLine | ⟨text, rest, rfl, oneLine⟩
      · exact .inl (List.forall_mem_cons.mpr ⟨end_, oneLine⟩)
      · exact .inr ⟨c :: text, rest, rfl, List.forall_mem_cons.mpr ⟨end_, oneLine⟩⟩

theorem dropWhile_oneLine {text : Bytes} (oneLine : ∀ c ∈ text, c ≠ newline) : (text.dropWhile fun c => c ≠ newline) = [] :=
  List.dropWhile_eq_nil_iff.mpr fun c member => by simpa using oneLine c member

theorem tokenizeLoop_comment_end (comment : t.currentQuote = hash) {c : UInt8} {text : Bytes}
    (oneLine : ∀ c' ∈ c :: text, c' ≠ newline) (previous : Option UInt8) :
    tokenizeLoop t previous (c :: text) = { t with currentQuote := 0 } := by
  have dropped := dropWhile_oneLine oneLine
  rw [tokenizeLoop, if_pos comment]
  split
  · rfl
  · rename_i found
    rw [dropped] at found
    exact absurd found (List.cons_ne_nil _ _).symm

theorem comment_agree (outside : t.currentQuote = 0) (token : t.currentToken = none)
    (step : tokenizeChar t previous hash = { t with currentQuote := hash }) :
    Agree (tokenizeLoop t previous (hash :: after)) (tokenizeLoop t previous (after.dropWhile fun c => c ≠ newline)) ↔
      after ≠ [] := by
  rw [tokenizeLoop_cons (by rw [outside]; decide), step]
  have comment : (countBackslash { t with currentQuote := hash } hash).currentQuote = hash := rfl
  rcases exists_line after with oneLine | ⟨text, rest, rfl, oneLine⟩
  · rw [dropWhile_oneLine oneLine, tokenizeLoop_nil]
    cases after with
    | nil =>
      rw [tokenizeLoop_nil]
      refine iff_of_false (fun agree => ?_) fun some_ => some_ rfl
      exact absurd (show hash = 0 from agree.1.trans outside) (by decide)
    | cons c text =>
      rw [tokenizeLoop_comment_end comment oneLine]
      exact iff_of_true ⟨outside.symm, rfl, rfl⟩ (List.cons_ne_nil c text)
  · rw [tokenizeLoop_comment comment oneLine, dropWhile_line oneLine, tokenizeLoop_cons (by rw [outside]; decide),
      tokenizeChar_outside outside]
    have line_ : tokenizePlain t previous newline = t := by
      have delimit : tokenizePlain t previous newline = delimitToken t := if_pos rfl
      rw [delimit]
      unfold delimitToken
      rw [token]
    have same : countBackslash { countBackslash { t with currentQuote := hash } hash with currentQuote := 0 } newline =
        countBackslash t newline := by
      rw [← outside]
      rfl
    rw [line_, same]
    exact iff_of_true ⟨rfl, rfl, rfl⟩ (by simp)

theorem hashRule_of_clean (noZero : 0 ∉ line) (clean : Clean line) (whole : line = before ++ hash :: after)
    (reads : Reads before t) (outside : t.currentQuote = 0) : HashRule before after t := by
  have notMisread := clean before after t whole reads outside
  have noZero' : 0 ∉ before := fun zero => noZero (by rw [whole]; exact List.mem_append_left _ zero)
  unfold HashRule
  rcases hash_step outside before.getLast? with ⟨opens, step⟩ | ⟨opens, step⟩
  · have token := reads.no_token_of_opens outside noZero' opens notMisread ((reads.beginning clean noZero whole).2 outside)
    rw [if_pos token]
    refine ⟨step, ?_⟩
    rw [reads.loop, reads.loop]
    exact (comment_agree outside token step).mpr fun last => notMisread (.bare last opens)
  · have token : t.currentToken ≠ none := by
      refine reads.token_of_not_opens outside opens fun text same => ?_
      by_contra even
      subst same
      exact notMisread (.tab (Bool.eq_false_iff.mpr even))
    rw [if_neg token]
    exact step

theorem not_misread_of_rule (reads : Reads before t) (outside : t.currentQuote = 0) (rule : HashRule before after t) :
    ¬Misread after t before := by
  unfold HashRule at rule
  rintro (even | odd | ⟨odd, token⟩ | ⟨last, opens⟩)
  · -- behind a tab there is no token, but the hash joins one
    rename_i text
    have token : t.currentToken = none := by
      rcases reads.last outside with ⟨-, token⟩ | ⟨text', c, same, plain, -, -⟩
      · exact token
      · obtain rfl : tab = c := List.singleton_inj.mp (List.append_inj_right' same rfl)
        rw [List.append_inj_left' same rfl] at even
        exact plain (.inr rfl) even
    rw [if_pos token] at rule
    exact absurd ((opens_snoc text tab).mp (opens_of_step outside rule.1)) (by decide)
  · rename_i text
    have token : t.currentToken ≠ none := by
      rcases reads.last outside with ⟨empty, -⟩ | ⟨text', c, same, -, escaped, -⟩
      · exact absurd empty (by simp)
      · obtain rfl : space = c := List.singleton_inj.mp (List.append_inj_right' same rfl)
        rw [List.append_inj_left' same rfl] at odd
        exact escaped (.inl rfl) odd
    rw [if_neg token] at rule
    exact not_opens_of_step outside rule ((opens_snoc text space).mpr (.inl rfl))
  · rename_i text
    rw [if_neg token] at rule
    exact not_opens_of_step outside rule ((opens_snoc text newline).mpr (.inr (.inl rfl)))
  · by_cases token : t.currentToken = none
    · rw [if_pos token, reads.loop, reads.loop] at rule
      exact (comment_agree outside token rule.1).mp rule.2 last
    · rw [if_neg token] at rule
      exact not_opens_of_step outside rule opens

/-- The rule holds of a line whose hashes are not misread. -/
theorem comments_iff (line : Bytes) (noZero : 0 ∉ line) : CommentRule line ↔ Clean line :=
  ⟨fun rule before after t whole reads outside =>
      not_misread_of_rule reads outside (rule before after t whole reads outside),
    fun clean _ _ _ whole reads outside => hashRule_of_clean noZero clean whole reads outside⟩

/-- A hash behind a space: `a #b`. -/
theorem comments_iff_space : CommentRule [97, 32, 35, 98] := by
  refine (comments_iff [97, 32, 35, 98] (by decide)).mpr fun before after t whole _ _ => ?_
  have split : before = [97, 32] ∧ after = [98] := by
    rcases before with _ | ⟨c1, _ | ⟨c2, _ | ⟨c3, _ | ⟨c4, before⟩⟩⟩⟩
    · exact absurd whole (by simp [hash])
    · exact absurd whole (by simp [hash])
    · simpa [eq_comm, and_assoc, hash] using whole
    · exact absurd whole (by simp [hash])
    · exact absurd whole (by simp [hash])
  obtain ⟨rfl, rfl⟩ := split
  have lastByte : ∀ text c, ([97, 32] : Bytes) = text ++ [c] → text = [97] ∧ c = space := by
    intro text c same
    obtain ⟨left, right⟩ := List.append_inj' (show ([97] : Bytes) ++ [32] = text ++ [c] from same) rfl
    exact ⟨left.symm, (List.singleton_inj.mp right).symm⟩
  generalize same : ([97, 32] : Bytes) = before at lastByte
  rintro (even | odd | ⟨odd, -⟩ | ⟨last, -⟩)
  · exact absurd (lastByte _ _ rfl).2 (by decide)
  · rw [(lastByte _ _ rfl).1] at odd
    exact absurd odd (by decide)
  · exact absurd (lastByte _ _ rfl).2 (by decide)
  · exact absurd last (by decide)

/-- A hash behind a tab: `a	#b` has a second token. -/
theorem comments_tab :
    tokenizeCommandLine [97, 9, 35, 98] = .ok [[97], [35, 98]] ∧ ¬CommentRule [97, 9, 35, 98] := by
  refine ⟨by decide +kernel, fun rule => ?_⟩
  have reads := (Reads.start.char (by decide) 97).char (by decide) 9
  have broken := rule [97, 9] [98] _ rfl reads (by decide)
  unfold HashRule at broken
  exact absurd broken.1 (by decide)

end Rule

end Xpl.Text.Shell
