import Xpl.Variant.Strings

/-! The tokens of the text format: the token stream of gvariant-parser.c.

The text lies in a block of memory, from its front, and positions count from there. A computation
has no result where the program reads outside of the block.
-/

set_option autoImplicit false

namespace Xpl.Variant
open Xpl.Library

/-- `g_ascii_isspace`; the vertical tab is not one. -/
def isAsciiSpace (c : UInt8) : Bool := c = 32 || c = 9 || c = 10 || c = 12 || c = 13

def isAsciiDigit (c : UInt8) : Bool := ascii '0' ≤ c && c ≤ ascii '9'

/-- The text of a token stream: the memory at `start`, and `end`, which may be `NULL`. -/
structure ParseText where
  memory : Bytes
  stop : Option Nat

/-- What changes in a token stream: `stream`, and `this`, which may be `NULL`. -/
structure TokenStream where
  stream : Nat
  this : Option Nat
  deriving DecidableEq, Repr

def startsNumber (c : UInt8) : Bool := c = ascii '-' || c = ascii '+' || c = ascii '.' || isAsciiDigit c

def isNumberChar (c : UInt8) : Bool := isAsciiAlnum c || c = ascii '-' || c = ascii '+' || c = ascii '.'

def backslash : UInt8 := 92

def isQuote (c : UInt8) : Bool := c = 39 || c = 34

namespace ParseText

variable (text : ParseText)

/-- `for (; end != stream->end; end++) if (test (*end)) break;` -/
def seek (test : UInt8 → Bool) : Nat → Nat → Option Nat
  | 0, _ => none
  | fuel + 1, i =>
    if text.stop = some i then some i
    else do
      let c ← text.memory[i]?
      if test c then some i else seek test fuel (i + 1)

def seekQuote (quote : UInt8) : Nat → Nat → Option Nat
  | 0, _ => none
  | fuel + 1, i =>
    if text.stop = some i then some i
    else do
      let c ← text.memory[i]?
      if c = quote ∨ c = 0 then some i
      else if c = backslash then
        if text.stop = some (i + 1) then some (i + 1)
        else do
          let e ← text.memory[i + 1]?
          if e = 0 then some (i + 1) else seekQuote quote fuel (i + 2)
      else seekQuote quote fuel (i + 1)

/-- `if (end != stream->end && *end) end++;` -/
def pastQuote (i : Nat) : Option Nat :=
  if text.stop = some i then some i
  else do
    let c ← text.memory[i]?
    some (if c ≠ 0 then i + 1 else i)

def endsFormat (c : UInt8) : Bool := c = 0 || c = ascii ',' || c = ascii ':' || c = ascii '>' || c = ascii ']' || isAsciiSpace c

/-- The loop over a type declaration or a format string. -/
def seekFormat : Nat → Nat → Nat → Option Nat
  | 0, _, _ => none
  | fuel + 1, i, brackets =>
    if text.stop = some i then some i
    else do
      let c ← text.memory[i]?
      if endsFormat c then some i
      else if c = ascii '(' ∨ c = ascii '{' then seekFormat fuel (i + 1) (brackets + 1)
      else if c = ascii ')' ∨ c = ascii '}' then
        if brackets = 0 then some i else seekFormat fuel (i + 1) (brackets - 1)
      else seekFormat fuel (i + 1) brackets

def turns : Nat := text.memory.length + 1

/-- `stream->stream + 1 != stream->end && (stream->stream[1] == '\'' || stream->stream[1] == '"')` -/
def quoteAfter (i : Nat) : Option (Option UInt8) :=
  if text.stop = some (i + 1) then some none
  else do
    let q ← text.memory[i + 1]?
    some (if isQuote q then some q else none)

def tokenEnd (i : Nat) (c : UInt8) : Option Nat :=
  if startsNumber c then text.seek (fun c => !isNumberChar c) text.turns i
  else if c = ascii 'b' then do
    match ← text.quoteAfter i with
    | some q => do
      let e ← text.seekQuote q text.turns (i + 2)
      text.pastQuote e
    | none => text.seek (fun c => !isAsciiAlnum c) text.turns i
  else if ascii 'a' ≤ c && c ≤ ascii 'z' then text.seek (fun c => !isAsciiAlnum c) text.turns i
  else if isQuote c then do
    let e ← text.seekQuote c text.turns (i + 1)
    text.pastQuote e
  else if c = ascii '@' ∨ c = ascii '%' then text.seekFormat text.turns (i + 1) 0
  else some (i + 1)

def tokenStreamPrepare (s : TokenStream) : Option (Bool × TokenStream) :=
  match s.this with
  | some _ => some (true, s)
  | none => do
    let i ← text.seek (fun c => !isAsciiSpace c) text.turns s.stream
    if text.stop = some i then some (false, { stream := i, this := some i })
    else do
      let c ← text.memory[i]?
      if c = 0 then some (false, { stream := i, this := some i })
      else do
        let e ← text.tokenEnd i c
        -- at least one byte in a token
        if i < e then some (true, { stream := e, this := some i }) else none

/-- The bytes from `this` to `stream`. -/
def token (s : TokenStream) : Option Bytes := do
  let this ← s.this
  if s.stream ≤ text.memory.length then some ((text.memory.drop this).take (s.stream - this)) else none

def tokenTest (test : Bytes → Bool) (s : TokenStream) : Option (Bool × TokenStream) := do
  let (prepared, s) ← text.tokenStreamPrepare s
  if prepared then do
    let token ← text.token s
    some (test token, s)
  else some (false, s)

def tokenStreamIsNumeric : TokenStream → Option (Bool × TokenStream) :=
  text.tokenTest fun token => token.head?.any startsNumber

def tokenStreamPeekString (string : Bytes) : TokenStream → Option (Bool × TokenStream) :=
  text.tokenTest fun token => token = string

/-- `xstrndup` stops at a NUL. -/
def tokenStreamGet (s : TokenStream) : Option (Option Bytes × TokenStream) := do
  let (prepared, s) ← text.tokenStreamPrepare s
  if prepared then do
    let token ← text.token s
    some (some (token.takeWhile (· ≠ 0)), s)
  else some (none, s)

end ParseText

section Numbers

variable {text : ParseText}

/-- The bytes before the end of the loop do not pass the test. -/
theorem ParseText.seek_spec {test : UInt8 → Bool} {fuel i e : Nat} (sought : text.seek test fuel i = some e) :
    i ≤ e ∧ ∀ j, i ≤ j → j < e → ∃ c, text.memory[j]? = some c ∧ test c = false := by
  induction fuel generalizing i with
  | zero => exact nomatch sought
  | succ fuel ih =>
    rw [seek] at sought
    split at sought
    · obtain rfl := Option.some.inj sought
      exact ⟨Nat.le_refl _, fun j above below => by omega⟩
    · obtain ⟨c, read, rest⟩ := Option.bind_eq_some_iff.mp sought
      split at rest
      · obtain rfl := Option.some.inj rest
        exact ⟨Nat.le_refl _, fun j above below => by omega⟩
      · rename_i fails
        obtain ⟨after, passed⟩ := ih rest
        refine ⟨by omega, fun j above below => ?_⟩
        rcases Nat.eq_or_lt_of_le above with rfl | later
        · exact ⟨c, read, by simpa using fails⟩
        · exact passed j later below

theorem all_of_getElem {memory : Bytes} {test : UInt8 → Bool} {i e : Nat}
    (each : ∀ j, i ≤ j → j < e → ∃ c, memory[j]? = some c ∧ test c) : ((memory.drop i).take (e - i)).all test := by
  rw [List.all_eq_true]
  intro c member
  obtain ⟨k, found⟩ := List.mem_iff_getElem?.mp member
  rw [List.getElem?_take] at found
  split at found
  · rw [List.getElem?_drop] at found
    obtain ⟨c', read, passes⟩ := each (i + k) (by omega) (by omega)
    obtain rfl := Option.some.inj (found.symm.trans read)
    exact passes
  · exact nomatch found

/-- What `number_parse` keeps of a token, where `parse` takes the token for a number. -/
def NumberToken (token : Bytes) : Prop :=
  ∃ (text : ParseText) (i : Nat) (s : TokenStream),
    (text.tokenStreamIsNumeric { stream := i, this := none } = some (true, s) ∨
      text.tokenStreamPeekString ("inf".toList.map ascii) { stream := i, this := none } = some (true, s) ∨
      text.tokenStreamPeekString ("nan".toList.map ascii) { stream := i, this := none } = some (true, s)) ∧
    text.tokenStreamGet s = some (some token, s)

theorem tokenTest_true {test : Bytes → Bool} {i : Nat} {s : TokenStream}
    (tested : text.tokenTest test { stream := i, this := none } = some (true, s)) :
    ∃ token, text.tokenStreamPrepare { stream := i, this := none } = some (true, s) ∧ text.token s = some token ∧ test token := by
  obtain ⟨⟨prepared, s'⟩, first, rest⟩ := Option.bind_eq_some_iff.mp tested
  cases prepared with
  | false => simp at rest
  | true =>
    obtain ⟨token, read, same⟩ := Option.bind_eq_some_iff.mp rest
    obtain ⟨passes, rfl⟩ : test token = true ∧ s' = s := by simpa using same
    exact ⟨token, first, read, passes⟩

theorem token_number {i : Nat} {s : TokenStream} {token : Bytes}
    (prepared : text.tokenStreamPrepare { stream := i, this := none } = some (true, s)) (read : text.token s = some token)
    (numeric : token.head?.any startsNumber) : token.all isNumberChar := by
  obtain ⟨j, _, rest⟩ := Option.bind_eq_some_iff.mp prepared
  split at rest
  · simp at rest
  · obtain ⟨c, first, rest⟩ := Option.bind_eq_some_iff.mp rest
    split at rest
    · simp at rest
    · obtain ⟨e, ends, rest⟩ := Option.bind_eq_some_iff.mp rest
      split at rest
      · rename_i some_byte
        obtain rfl : { stream := e, this := some j } = s := by simpa using rest
        obtain ⟨inside, rfl⟩ : e ≤ text.memory.length ∧ (text.memory.drop j).take (e - j) = token := by
          simpa [ParseText.token] using read
        have head : ((text.memory.drop j).take (e - j)).head? = some c := by
          rw [List.head?_take, if_neg (by omega), List.head?_drop, first]
        rw [head, Option.any_some] at numeric
        rw [ParseText.tokenEnd, if_pos numeric] at ends
        apply all_of_getElem
        intro k above below
        obtain ⟨c', found, fails⟩ := (ParseText.seek_spec ends).2 k above below
        exact ⟨c', found, by simpa using fails⟩
      · simp at rest

theorem NumberToken.chars {token : Bytes} (number : NumberToken token) : token ≠ [] ∧ token.all isNumberChar := by
  obtain ⟨text, i, s, kind, got⟩ := number
  obtain ⟨found, prepared, read, shape⟩ : ∃ found, text.tokenStreamPrepare { stream := i, this := none } = some (true, s) ∧
      text.token s = some found ∧
      (found.head?.any startsNumber ∨ found = "inf".toList.map ascii ∨ found = "nan".toList.map ascii) := by
    rcases kind with numeric | inf | nan
    · obtain ⟨found, prepared, read, passes⟩ := tokenTest_true numeric
      exact ⟨found, prepared, read, Or.inl passes⟩
    · obtain ⟨found, prepared, read, passes⟩ := tokenTest_true inf
      exact ⟨found, prepared, read, Or.inr (Or.inl (by simpa using passes))⟩
    · obtain ⟨found, prepared, read, passes⟩ := tokenTest_true nan
      exact ⟨found, prepared, read, Or.inr (Or.inr (by simpa using passes))⟩
  have chars : found ≠ [] ∧ found.all isNumberChar := by
    rcases shape with numeric | rfl | rfl
    · refine ⟨?_, token_number prepared read numeric⟩
      rintro rfl
      exact absurd numeric (by decide)
    · decide
    · decide
  have again : text.tokenStreamPrepare s = some (true, s) := by
    have this : s.this ≠ none := by
      intro none
      rw [ParseText.token, none] at read
      exact nomatch read
    obtain ⟨this, same⟩ := Option.ne_none_iff_exists'.mp this
    rw [ParseText.tokenStreamPrepare, same]
  have same : found.takeWhile (· ≠ 0) = token := by
    simpa [ParseText.tokenStreamGet, again, read] using got
  have plain : found.takeWhile (· ≠ 0) = found := by
    apply List.takeWhile_eq_self_iff.mpr
    intro c member
    have char := List.all_eq_true.mp chars.2 c member
    simp only [ne_eq, decide_eq_true_eq]
    rintro rfl
    exact absurd char (by decide)
  rw [← same, plain]
  exact chars

end Numbers

end Xpl.Variant
