import Mathlib.Data.List.Basic
import Xpl.Library.Signed

/-! Quoting, unquoting and tokenizing of gshell.c. A C string is the list of its bytes
before the terminating zero, so the end of a list is where the source reads a zero. -/

set_option autoImplicit false

namespace Xpl.Text.Shell
open Xpl.Library (wrapTo wrapTo_of_fits fits_wrapTo wrapTo_add_wrapTo)

abbrev Bytes := List UInt8

def singleQuote : UInt8 := 39
def doubleQuote : UInt8 := 34
def backslash : UInt8 := 92
def newline : UInt8 := 10
def space : UInt8 := 32
def tab : UInt8 := 9
def hash : UInt8 := 35
def backquote : UInt8 := 96
def dollar : UInt8 := 36

/-- The error codes and texts. The others stop the program: a failed assertion, an allocation that is refused, or a
write outside of the memory. -/
inductive ShellError where
  | badQuoting (message : String) (character : Option UInt8) (text : Bytes)
  | emptyString (message : String)
  | assertion | allocation | outside
  deriving DecidableEq, Repr

/-- The caller finds an error set. -/
def ShellError.isSet : ShellError → Bool
  | .badQuoting _ _ _ | .emptyString _ => true
  | .assertion | .allocation | .outside => false

/-- Both loops copy the text to the left within one buffer: `s` counts the bytes that are read
and `dest` holds the ones that are written, and `s > dest` keeps a write from reaching an
unread byte. -/
def invariant (s : Nat) (dest : Bytes) : Bool := s > dest.length

def unmatched : ShellError :=
  .badQuoting "Unmatched quotation mark in command line or other shell-quoted text" none []

def isEscapable (c : UInt8) : Bool :=
  c == doubleQuote || c == backslash || c == backquote || c == dollar || c == newline

/-- The loop after an opening double quote: what stands before the closing one, and the rest. -/
def unquoteDouble (s : Nat) (dest : Bytes) : Bytes → Except ShellError (Bytes × Bytes)
  | [] => .error unmatched
  | c :: rest =>
    if !invariant s dest then .error .assertion
    else if c = doubleQuote then .ok (dest, rest)
    else if c = backslash then
      match rest with
      | [] => if invariant (s + 1) (dest ++ [backslash]) then .error unmatched else .error .assertion
      | e :: rest =>
        if isEscapable e then
          if invariant (s + 2) (dest ++ [e]) then unquoteDouble (s + 2) (dest ++ [e]) rest else .error .assertion
        else if invariant (s + 1) (dest ++ [backslash]) then unquoteDouble (s + 1) (dest ++ [backslash]) (e :: rest)
        else .error .assertion
    else if invariant (s + 1) (dest ++ [c]) then unquoteDouble (s + 1) (dest ++ [c]) rest
    else .error .assertion
  termination_by text => text.length

def unquoteSingle (s : Nat) (dest : Bytes) : Bytes → Except ShellError (Bytes × Bytes)
  | [] => .error unmatched
  | c :: rest =>
    if !invariant s dest then .error .assertion
    else if c = singleQuote then .ok (dest, rest)
    else if invariant (s + 1) (dest ++ [c]) then unquoteSingle (s + 1) (dest ++ [c]) rest
    else .error .assertion

def unquoteStringInplace (str : Bytes) : Except ShellError (Bytes × Bytes) :=
  match str with
  | [] => .error (.badQuoting "Quoted text doesn’t begin with a quotation mark" none [])
  | quoteChar :: rest =>
    if quoteChar = doubleQuote then unquoteDouble 1 [] rest
    else if quoteChar = singleQuote then unquoteSingle 1 [] rest
    else .error (.badQuoting "Quoted text doesn’t begin with a quotation mark" none [])

def quote (unquotedString : Bytes) : Bytes :=
  [singleQuote] ++
    unquotedString.flatMap (fun p => if p = singleQuote then [singleQuote, backslash, singleQuote, singleQuote] else [p]) ++
    [singleQuote]

/-- The unquoted characters up to a quotation mark, and the rest from there on. -/
def unquotePlain (retval : Bytes) : Bytes → Bytes × Bytes
  | [] => (retval, [])
  | c :: rest =>
    if c = doubleQuote || c = singleQuote then (retval, c :: rest)
    else if c = backslash then
      match rest with
      | [] => (retval, [])
      | e :: rest => unquotePlain (if e ≠ newline then retval ++ [e] else retval) rest
    else unquotePlain (retval ++ [c]) rest

theorem unquoteDouble_shorter {s : Nat} {dest text content rest : Bytes} :
    unquoteDouble s dest text = .ok (content, rest) → rest.length < text.length := by
  fun_induction unquoteDouble s dest text <;> grind

theorem unquoteSingle_shorter {s : Nat} {dest text content rest : Bytes} :
    unquoteSingle s dest text = .ok (content, rest) → rest.length < text.length := by
  fun_induction unquoteSingle s dest text <;> grind

theorem unquoteStringInplace_shorter {str content rest : Bytes} (unquoted : unquoteStringInplace str = .ok (content, rest)) :
    rest.length < str.length := by
  unfold unquoteStringInplace at unquoted
  split at unquoted
  · exact absurd unquoted nofun
  · split at unquoted
    · exact Nat.lt_succ_of_lt (unquoteDouble_shorter unquoted)
    · split at unquoted
      · exact Nat.lt_succ_of_lt (unquoteSingle_shorter unquoted)
      · exact absurd unquoted nofun

theorem unquotePlain_shorter (retval text : Bytes) : (unquotePlain retval text).2.length ≤ text.length := by
  fun_induction unquotePlain retval text <;> grind

/-- The outer loop: unquoted characters, then a quoted piece, until the end. -/
def unquoteFrom (retval start : Bytes) : Except ShellError Bytes :=
  match start with
  | [] => .ok retval
  | c :: text =>
    let plain := unquotePlain retval (c :: text)
    if plain.2 = [] then .ok plain.1
    else
      match _unquoted : unquoteStringInplace plain.2 with
      | .error err => .error err
      | .ok (content, rest) => unquoteFrom (plain.1 ++ content) rest
  termination_by start.length
  decreasing_by exact Nat.lt_of_lt_of_le (unquoteStringInplace_shorter _unquoted) (unquotePlain_shorter retval (c :: text))

def unquote (quotedString : Bytes) : Except ShellError Bytes := unquoteFrom [] quotedString

/-- The variables of the tokenizer; `currentQuote` is zero outside of quotes. -/
structure Tokenizer where
  currentQuote : UInt8
  currentToken : Option Bytes
  retval : List Bytes
  quoted : Bool
  deriving DecidableEq, Repr

def appendToken (token : Option Bytes) (text : Bytes) : Option Bytes := some (token.getD [] ++ text)

def delimitToken (t : Tokenizer) : Tokenizer :=
  match t.currentToken with
  | none => t
  | some token => { t with retval := token :: t.retval, currentToken := none }

/-- The switch for a character outside of quotes; `previous` is the character before it. -/
def tokenizePlain (t : Tokenizer) (previous : Option UInt8) (p : UInt8) : Tokenizer :=
  if p = newline then delimitToken t
  else if p = space || p = tab then
    match t.currentToken with
    | some (_ :: _) => delimitToken t
    | _ => t
  else if p = singleQuote || p = doubleQuote then
    { t with currentToken := appendToken t.currentToken [p], currentQuote := p }
  else if p = backslash then { t with currentQuote := p }
  else if p = hash then
    match previous with
    | none => { t with currentQuote := p }
    | some before =>
      if before = space || before = newline || before = 0 then { t with currentQuote := p }
      else { t with currentToken := appendToken t.currentToken [p] }
  else { t with currentToken := appendToken t.currentToken [p] }

def tokenizeChar (t : Tokenizer) (previous : Option UInt8) (p : UInt8) : Tokenizer :=
  if t.currentQuote = backslash then
    if p = newline then { t with currentQuote := 0 }
    else { t with currentToken := appendToken t.currentToken [backslash, p], currentQuote := 0 }
  else if t.currentQuote ≠ 0 then
    let closes := p = t.currentQuote && !(t.currentQuote = doubleQuote && t.quoted)
    { t with
      currentToken := appendToken t.currentToken [p]
      currentQuote := if closes then 0 else t.currentQuote }
  else tokenizePlain t previous p

def countBackslash (t : Tokenizer) (p : UInt8) : Tokenizer :=
  { t with quoted := if p ≠ backslash then false else !t.quoted }

def tokenizeLoop (t : Tokenizer) (previous : Option UInt8) (text : Bytes) : Tokenizer :=
  match text with
  | [] => t
  | p :: rest =>
    if t.currentQuote = hash then
      -- discard up to and including the next newline
      match _discarded : (p :: rest).dropWhile (fun c => c ≠ newline) with
      | [] => { t with currentQuote := 0 }
      | q :: rest' => tokenizeLoop (countBackslash { t with currentQuote := 0 } q) (some q) rest'
    else tokenizeLoop (countBackslash (tokenizeChar t previous p) p) (some p) rest
  termination_by text.length
  decreasing_by
    · have shorter := (List.dropWhile_suffix (l := p :: rest) (fun c => decide (c ≠ newline))).length_le
      rw [_discarded] at shorter
      exact shorter
    · exact Nat.lt_succ_self _

def tokenizeCommandLine (commandLine : Bytes) : Except ShellError (List Bytes) :=
  let start : Tokenizer := { currentQuote := 0, currentToken := none, retval := [], quoted := false }
  let t := delimitToken (tokenizeLoop start none commandLine)
  if t.currentQuote ≠ 0 then
    if t.currentQuote = backslash then
      .error (.badQuoting "Text ended just after a “\\” character. (The text was “%s”)" none commandLine)
    else
      .error (.badQuoting "Text ended before matching quote was found for %c. (The text was “%s”)" (some t.currentQuote)
        commandLine)
  else if t.retval = [] then .error (.emptyString "Text was empty (or contained only whitespace)")
  else .ok t.retval.reverse

/-- The loop over the tokens from number `i` on, which stores each argument in an array with so much room. -/
def unquoteArgs (room : Nat) : Nat → List Bytes → Except ShellError (List Bytes)
  | _, [] => .ok []
  | i, token :: tokens => do
    let arg ← unquote token
    if i < room then
      let args ← unquoteArgs room (i + 1) tokens
      return arg :: args
    else .error .outside

/-- What is done with the tokens; `g_new0` refuses a negative number of pointers. -/
def fillArgv (tokens : List Bytes) (argc room : Int) : Except ShellError (Int × List Bytes) := do
  if room < 0 then .error .allocation
  else
    let argv ← unquoteArgs room.toNat 0 tokens
    if 0 < argc ∧ argv ≠ [] then return (argc, argv) else .error .assertion

/-- `argc` is an `xint_t`, and so is the number of pointers for it and the terminator. -/
def parseArgv (commandLine : Bytes) : Except ShellError (Int × List Bytes) := do
  let tokens ← tokenizeCommandLine commandLine
  let argc := wrapTo (2 ^ 31) tokens.length
  fillArgv tokens argc (wrapTo (2 ^ 31) (argc + 1))

/-! Quoted strings are read back: one by the unquoter, many with blanks between them by
the tokenizer and the unquoter. -/

/-- What `quote` writes after the opening quotation mark. -/
def quotedTail (s : Bytes) : Bytes :=
  s.flatMap (fun p => if p = singleQuote then [singleQuote, backslash, singleQuote, singleQuote] else [p]) ++ [singleQuote]

theorem quote_eq (s : Bytes) : quote s = singleQuote :: quotedTail s := by
  simp [quote, quotedTail]

theorem quotedTail_nil : quotedTail [] = [singleQuote] := rfl

theorem quotedTail_quote (s : Bytes) :
    quotedTail (singleQuote :: s) = singleQuote :: backslash :: singleQuote :: singleQuote :: quotedTail s := by
  simp [quotedTail]

theorem quotedTail_other {c : UInt8} (other : c ≠ singleQuote) (s : Bytes) : quotedTail (c :: s) = c :: quotedTail s := by
  simp [quotedTail, other]

section Unquote

theorem unquoteSingle_close {s : Nat} {dest : Bytes} (ahead : dest.length < s) (rest : Bytes) :
    unquoteSingle s dest (singleQuote :: rest) = .ok (dest, rest) := by
  simp [unquoteSingle, invariant, ahead]

theorem unquoteSingle_other {s : Nat} {dest : Bytes} (ahead : dest.length < s) {c : UInt8} (other : c ≠ singleQuote)
    (rest : Bytes) : unquoteSingle s dest (c :: rest) = unquoteSingle (s + 1) (dest ++ [c]) rest := by
  simp [unquoteSingle, invariant, ahead, other]

theorem unquoteSingle_tail (s : Nat) (dest string : Bytes) (ahead : dest.length < s) :
    (unquoteSingle s dest (quotedTail string) = .ok (dest ++ string, [])) ∨
      ∃ piece rest, string = piece ++ singleQuote :: rest ∧
        unquoteSingle s dest (quotedTail string) =
          .ok (dest ++ piece, backslash :: singleQuote :: singleQuote :: quotedTail rest) := by
  induction string generalizing s dest with
  | nil =>
    left
    rw [quotedTail_nil, unquoteSingle_close ahead, List.append_nil]
  | cons c string ih =>
    by_cases mark : c = singleQuote
    · subst mark
      right
      exact ⟨[], string, rfl, by rw [quotedTail_quote, unquoteSingle_close ahead, List.append_nil]⟩
    · rw [quotedTail_other mark, unquoteSingle_other ahead mark]
      have ahead' : (dest ++ [c]).length < s + 1 := by
        rw [List.length_append]
        exact Nat.add_lt_add_right ahead 1
      rcases ih (s + 1) (dest ++ [c]) ahead' with whole | ⟨piece, rest, split, closed⟩
      · left
        rw [whole, List.append_assoc]
        rfl
      · right
        refine ⟨c :: piece, rest, by rw [split]; rfl, ?_⟩
        rw [closed, List.append_assoc]
        rfl

theorem unquotePlain_mark (retval rest : Bytes) :
    unquotePlain retval (singleQuote :: rest) = (retval, singleQuote :: rest) := by
  unfold unquotePlain
  simp

theorem unquotePlain_escaped (retval rest : Bytes) :
    unquotePlain retval (backslash :: singleQuote :: singleQuote :: rest) =
      (retval ++ [singleQuote], singleQuote :: rest) := by
  exact unquotePlain_mark _ _

theorem unquoteFrom_nil (retval : Bytes) : unquoteFrom retval [] = .ok retval := by
  rw [unquoteFrom]

/-- The outer loop depends on what its inner loop leaves only. -/
theorem unquoteFrom_congr {retval retval' : Bytes} {c c' : UInt8} {text text' : Bytes}
    (same : unquotePlain retval (c :: text) = unquotePlain retval' (c' :: text')) :
    unquoteFrom retval (c :: text) = unquoteFrom retval' (c' :: text') := by
  rw [unquoteFrom, unquoteFrom]
  rw [same]

/-- One turn of the outer loop. -/
theorem unquoteFrom_piece {retval retval' : Bytes} {c q : UInt8} {text marked content rest : Bytes}
    (plain : unquotePlain retval (c :: text) = (retval', q :: marked))
    (unquoted : unquoteStringInplace (q :: marked) = .ok (content, rest)) :
    unquoteFrom retval (c :: text) = unquoteFrom (retval' ++ content) rest := by
  have left : (unquotePlain retval (c :: text)).2 = q :: marked := by rw [plain]
  rw [unquoteFrom]
  rw [if_neg (by rw [left]; exact List.cons_ne_nil q marked)]
  split
  · rename_i failed
    rw [left, unquoted] at failed
    cases failed
  · rename_i content' rest' same
    rw [left, unquoted] at same
    obtain ⟨rfl, rfl⟩ : content = content' ∧ rest = rest' := by simpa using same
    rw [plain]

theorem unquoteFrom_quoted (string retval : Bytes) :
    unquoteFrom retval (singleQuote :: quotedTail string) = .ok (retval ++ string) := by
  induction length : string.length using Nat.strongRecOn generalizing retval string with
  | _ n ih =>
    have entered : unquoteStringInplace (singleQuote :: quotedTail string) = unquoteSingle 1 [] (quotedTail string) := by
      simp [unquoteStringInplace, singleQuote, doubleQuote]
    rcases unquoteSingle_tail 1 [] string Nat.zero_lt_one with whole | ⟨piece, rest, split, closed⟩
    · rw [unquoteFrom_piece (unquotePlain_mark _ _) (entered.trans whole), unquoteFrom_nil, List.nil_append]
    · -- the mark itself, escaped, and the string after it
      rw [unquoteFrom_piece (unquotePlain_mark _ _) (entered.trans closed), List.nil_append]
      have shorter : rest.length < n := by
        rw [← length, split, List.length_append, List.length_cons]
        omega
      have resumed : unquoteFrom (retval ++ piece) (backslash :: singleQuote :: singleQuote :: quotedTail rest) =
          unquoteFrom (retval ++ piece ++ [singleQuote]) (singleQuote :: quotedTail rest) :=
        unquoteFrom_congr (by rw [unquotePlain_escaped, unquotePlain_mark])
      rw [resumed, ih rest.length shorter rest _ rfl, split]
      simp

end Unquote

section Tokenize

theorem tokenizeLoop_nil (t : Tokenizer) (previous : Option UInt8) : tokenizeLoop t previous [] = t := by
  rw [tokenizeLoop]

variable {t : Tokenizer}

theorem tokenizeLoop_cons (uncommented : t.currentQuote ≠ hash) (previous : Option UInt8) (p : UInt8)
    (rest : Bytes) :
    tokenizeLoop t previous (p :: rest) =
      tokenizeLoop (countBackslash (tokenizeChar t previous p) p) (some p) rest := by
  rw [tokenizeLoop, if_neg uncommented]

def Tokenizer.appended (t : Tokenizer) (text : Bytes) (currentQuote : UInt8) (quoted : Bool) : Tokenizer :=
  { t with currentQuote, currentToken := appendToken t.currentToken text, quoted }

theorem Tokenizer.appended_appended (t : Tokenizer) (before after : Bytes) (q q' : UInt8) (b b' : Bool) :
    (t.appended before q b).appended after q' b' = t.appended (before ++ after) q' b' := by
  simp [appended, appendToken]

theorem tokenize_other (inside : t.currentQuote = singleQuote) (previous : Option UInt8) {p : UInt8}
    (other : p ≠ singleQuote) :
    countBackslash (tokenizeChar t previous p) p =
      t.appended [p] singleQuote (if p ≠ backslash then false else !t.quoted) := by
  have unmarked : p ≠ 39 := other
  unfold countBackslash tokenizeChar Tokenizer.appended
  by_cases escape : p = 92 <;> simp [inside, unmarked, escape, singleQuote, backslash]

theorem tokenize_close (inside : t.currentQuote = singleQuote) (previous : Option UInt8) :
    countBackslash (tokenizeChar t previous singleQuote) singleQuote = t.appended [singleQuote] 0 false := by
  unfold countBackslash tokenizeChar Tokenizer.appended
  simp [inside, singleQuote, backslash, doubleQuote]

theorem tokenize_open (outside : t.currentQuote = 0) (previous : Option UInt8) :
    countBackslash (tokenizeChar t previous singleQuote) singleQuote =
      t.appended [singleQuote] singleQuote false := by
  unfold countBackslash tokenizeChar tokenizePlain Tokenizer.appended
  simp [outside, singleQuote, backslash, newline, space, tab]

theorem tokenizeLoop_escaped (outside : t.currentQuote = 0) (previous : Option UInt8) (rest : Bytes) :
    tokenizeLoop t previous (backslash :: singleQuote :: rest) =
      tokenizeLoop (t.appended [backslash, singleQuote] 0 false) (some singleQuote) rest := by
  have escape : countBackslash (tokenizeChar t previous backslash) backslash =
      { t with currentQuote := backslash, quoted := !t.quoted } := by
    unfold countBackslash tokenizeChar tokenizePlain
    simp [outside, singleQuote, doubleQuote, backslash, newline, space, tab]
  rw [tokenizeLoop_cons (by rw [outside]; decide), escape, tokenizeLoop_cons (by decide : backslash ≠ hash)]
  unfold countBackslash tokenizeChar Tokenizer.appended
  simp [singleQuote, backslash, newline]

theorem tokenizeLoop_tail (string rest : Bytes) (inside : t.currentQuote = singleQuote)
    (previous : Option UInt8) :
    tokenizeLoop t previous (quotedTail string ++ rest) =
      tokenizeLoop (t.appended (quotedTail string) 0 false) (some singleQuote) rest := by
  have uncommented {t : Tokenizer} (inside : t.currentQuote = singleQuote) : t.currentQuote ≠ hash := by
    rw [inside]
    decide
  induction string generalizing t previous with
  | nil =>
    rw [quotedTail_nil, List.cons_append, tokenizeLoop_cons (uncommented inside), tokenize_close inside]
    rfl
  | cons c string ih =>
    by_cases mark : c = singleQuote
    · -- closed, an escaped mark, and opened again
      subst mark
      rw [quotedTail_quote]
      simp only [List.cons_append]
      rw [tokenizeLoop_cons (uncommented inside), tokenize_close inside, tokenizeLoop_escaped rfl,
        tokenizeLoop_cons (by decide : (0 : UInt8) ≠ hash), tokenize_open rfl, ih rfl]
      simp only [Tokenizer.appended_appended, List.cons_append, List.nil_append]
    · rw [quotedTail_other mark, List.cons_append, tokenizeLoop_cons (uncommented inside),
        tokenize_other inside previous mark, ih rfl, Tokenizer.appended_appended]
      rfl

theorem tokenizeLoop_quote (string rest : Bytes) (outside : t.currentQuote = 0)
    (previous : Option UInt8) :
    tokenizeLoop t previous (quote string ++ rest) =
      tokenizeLoop (t.appended (quote string) 0 false) (some singleQuote) rest := by
  rw [quote_eq, List.cons_append, tokenizeLoop_cons (by rw [outside]; decide), tokenize_open outside,
    tokenizeLoop_tail string rest rfl, Tokenizer.appended_appended]
  rfl

def between (retval : List Bytes) : Tokenizer :=
  { currentQuote := 0, currentToken := none, retval, quoted := false }

theorem delimitToken_between (retval : List Bytes) (text : Bytes) (quoted : Bool) :
    delimitToken ((between retval).appended text 0 quoted) =
      { between (text :: retval) with quoted } := rfl

theorem tokenizeLoop_space (retval : List Bytes) (string rest : Bytes) :
    tokenizeLoop ((between retval).appended (quote string) 0 false) (some singleQuote) (space :: rest) =
      tokenizeLoop (between (quote string :: retval)) (some space) rest := by
  rw [tokenizeLoop_cons (by decide : (0 : UInt8) ≠ hash), quote_eq]
  rfl

theorem tokenizeLoop_arguments (string : Bytes) (strings retval : List Bytes) (previous : Option UInt8) :
    delimitToken (tokenizeLoop (between retval) previous ([space].intercalate ((string :: strings).map quote))) =
      between (((string :: strings).map quote).reverse ++ retval) := by
  induction strings generalizing string retval previous with
  | nil =>
    have alone : [space].intercalate ([string].map quote) = quote string ++ [] := by
      simp [List.intercalate]
    rw [alone, tokenizeLoop_quote string [] rfl, tokenizeLoop_nil, delimitToken_between]
    rfl
  | cons next strings ih =>
    have first : [space].intercalate ((string :: next :: strings).map quote) =
        quote string ++ (space :: [space].intercalate ((next :: strings).map quote)) := by
      simp [List.intercalate]
    rw [first, tokenizeLoop_quote string _ rfl, tokenizeLoop_space, ih]
    simp

theorem tokenizeCommandLine_arguments {strings : List Bytes} (nonempty : strings ≠ []) :
    tokenizeCommandLine ([space].intercalate (strings.map quote)) = .ok (strings.map quote) := by
  obtain ⟨string, rest, rfl⟩ := List.exists_cons_of_ne_nil nonempty
  have tokens := tokenizeLoop_arguments string rest [] none
  unfold tokenizeCommandLine
  dsimp only
  rw [show ({ currentQuote := 0, currentToken := none, retval := [], quoted := false } : Tokenizer) = between [] from rfl,
    tokens]
  simp [between]

end Tokenize

theorem unquote_quote (string : Bytes) : unquote (quote string) = .ok string := by
  rw [quote_eq, unquote, unquoteFrom_quoted, List.nil_append]

theorem mapM_unquote (strings : List Bytes) : (strings.map quote).mapM unquote = .ok strings := by
  induction strings with
  | nil => rfl
  | cons string strings ih =>
    rw [List.map_cons, List.mapM_cons, unquote_quote, ih]
    rfl

theorem unquoteArgs_eq {tokens args : List Bytes} (made : tokens.mapM unquote = .ok args) {room i : Nat} (within : i ≤ room) :
    unquoteArgs room i tokens = if i + tokens.length ≤ room then .ok args else .error .outside := by
  induction tokens generalizing args i with
  | nil =>
    cases made
    exact (if_pos within).symm
  | cons token tokens ih =>
    rw [List.mapM_cons] at made
    cases first : unquote token with
    | error err =>
      rw [first] at made
      cases made
    | ok arg =>
      cases rest : tokens.mapM unquote with
      | error err =>
        rw [first, rest] at made
        cases made
      | ok others =>
        rw [first, rest] at made
        cases made
        rw [unquoteArgs, first]
        change (if i < room then (unquoteArgs room (i + 1) tokens).bind fun args => .ok (arg :: args) else .error .outside) = _
        by_cases inside : i < room
        · rw [if_pos inside, ih rest inside, List.length_cons, Nat.succ_add_eq_add_succ]
          split <;> rfl
        · rw [if_neg inside, if_neg (by rw [List.length_cons]; omega)]

section Counting
variable {line : Bytes} {tokens args : List Bytes}

theorem parseArgv_accepted (accepted : tokenizeCommandLine line = .ok tokens) :
    parseArgv line = fillArgv tokens (wrapTo (2 ^ 31) tokens.length) (wrapTo (2 ^ 31) (wrapTo (2 ^ 31) tokens.length + 1)) := by
  simp only [parseArgv, accepted, bind, Except.bind]

theorem parseArgv_few (accepted : tokenizeCommandLine line = .ok tokens) (some_ : tokens ≠ []) (made : tokens.mapM unquote = .ok args)
    (named : args ≠ []) (few : tokens.length < 2 ^ 31 - 1) : parseArgv line = .ok (tokens.length, args) := by
  have positive := List.length_pos_of_ne_nil some_
  have argc : wrapTo (2 ^ 31) tokens.length = tokens.length := wrapTo_of_fits ⟨by omega, by omega⟩
  have room : wrapTo (2 ^ 31) ((tokens.length : Int) + 1) = (tokens.length + 1 : Nat) := wrapTo_of_fits ⟨by omega, by omega⟩
  rw [parseArgv_accepted accepted, argc, room, fillArgv, if_neg (by omega), Int.toNat_natCast, unquoteArgs_eq made (Nat.zero_le _), if_pos (by omega)]
  exact if_pos ⟨by omega, named⟩

/-- The count is negative or too small by then, and the program stops. -/
theorem parseArgv_many (accepted : tokenizeCommandLine line = .ok tokens) (made : tokens.mapM unquote = .ok args)
    (many : 2 ^ 31 - 1 ≤ tokens.length) : parseArgv line = .error .allocation ∨ parseArgv line = .error .outside := by
  have room : wrapTo (2 ^ 31) (wrapTo (2 ^ 31) tokens.length + 1) = wrapTo (2 ^ 31) (tokens.length + 1) := by
    rw [Int.add_comm, wrapTo_add_wrapTo, Int.add_comm]
  rw [parseArgv_accepted accepted, room, fillArgv]
  by_cases negative : wrapTo (2 ^ 31) ((tokens.length : Int) + 1) < 0
  · exact .inl (if_pos negative)
  · have small := (@fits_wrapTo (2 ^ 31) (by decide) (tokens.length + 1)).2
    have less : ¬0 + tokens.length ≤ (wrapTo (2 ^ 31) ((tokens.length : Int) + 1)).toNat := by
      intro all
      obtain exactly : tokens.length = 2 ^ 31 - 1 := by omega
      rw [exactly] at negative
      exact negative (by decide)
    rw [if_neg negative, unquoteArgs_eq made (Nat.zero_le _), if_neg less]
    exact .inr rfl

end Counting

theorem replicate_ne_nil : List.replicate (2 ^ 31 - 1) ([] : Bytes) ≠ [] := by
  intro none
  have size := congrArg List.length none
  rw [List.length_replicate] at size
  cases size

/-- Quoting is undone: a quoted string is unquoted to itself, and a command line of quoted strings is split into
exactly these, unless there are too many to be counted. -/
theorem quote_roundTrip_iff (string : Bytes) (strings : List Bytes) (nonempty : strings ≠ []) :
    unquote (quote string) = .ok string ∧
      (parseArgv ([space].intercalate (strings.map quote)) = .ok (strings.length, strings) ↔ strings.length < 2 ^ 31 - 1) := by
  refine ⟨unquote_quote string, ?_⟩
  have accepted := tokenizeCommandLine_arguments nonempty
  have made := mapM_unquote strings
  constructor
  · intro parsed
    by_contra many
    rcases parseArgv_many accepted made (by rw [List.length_map]; omega) with failed | failed
    · cases parsed.symm.trans failed
    · cases parsed.symm.trans failed
  · intro few
    have parsed := parseArgv_few accepted (by simpa using nonempty) made nonempty (by rwa [List.length_map])
    rwa [List.length_map] at parsed

/-- A quotation mark, a blank and an empty argument. -/
theorem quote_roundTrip_sample :
    unquote (quote [39, 92]) = .ok [39, 92] ∧
      parseArgv ([space].intercalate ([[39, 32], [], [35]].map quote)) = .ok (3, [[39, 32], [], [35]]) := by
  obtain ⟨unquoted, split⟩ := quote_roundTrip_iff [39, 92] [[39, 32], [], [35]] (List.cons_ne_nil _ _)
  exact ⟨unquoted, split.mpr (by decide)⟩

/-- As many arguments as an `xint_t` can count, all empty. -/
theorem quote_roundTrip_many :
    ¬∀ strings : List Bytes, strings ≠ [] → (∀ string ∈ strings, 0 ∉ string) →
      parseArgv ([space].intercalate (strings.map quote)) = .ok (strings.length, strings) := by
  intro always
  have nonempty := replicate_ne_nil
  have parsed := always (List.replicate (2 ^ 31 - 1) []) nonempty fun string held =>
    List.eq_of_mem_replicate held ▸ List.not_mem_nil
  rcases parseArgv_many (tokenizeCommandLine_arguments nonempty) (mapM_unquote _)
    (by rw [List.length_map, List.length_replicate]) with failed | failed
  · cases parsed.symm.trans failed
  · cases parsed.symm.trans failed

end Xpl.Text.Shell
