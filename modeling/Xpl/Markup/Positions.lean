import Xpl.Library.Checked
import Xpl.Markup.Context
import Xpl.Markup.Strictness

/-! The position of a context moves with its pointer only, one byte at a time, and every turn of the loop either moves it
or goes on to a state from which it moves. -/

set_option autoImplicit false

namespace Xpl.Markup
open Xpl.Library Xpl.Text

/-! ## Moving the cursor -/

/-- The cursor has moved over some bytes. -/
def Advances (before after : Cursor) : Prop := ∃ k, after = Cursor.advanceChar^[k] before

theorem Advances.refl (cursor : Cursor) : Advances cursor cursor := ⟨0, rfl⟩

theorem Advances.one (cursor : Cursor) : Advances cursor cursor.advanceChar := ⟨1, rfl⟩

theorem Advances.trans {first second third : Cursor} (one : Advances first second) (two : Advances second third) :
    Advances first third := by
  obtain ⟨k, rfl⟩ := one
  obtain ⟨l, rfl⟩ := two
  exact ⟨l + k, (Function.iterate_add_apply _ l k first).symm⟩

theorem iter_advanceChar (cursor : Cursor) : cursor.advanceChar.iter = cursor.iter.tail := by
  unfold Cursor.advanceChar
  split
  · rename_i ended
    rw [ended]
    rfl
  · rename_i more
    rw [more]
    split
    · rfl
    · rfl

theorem iter_iterate (k : Nat) (cursor : Cursor) : (Cursor.advanceChar^[k] cursor).iter = cursor.iter.drop k := by
  induction k generalizing cursor with
  | zero => rfl
  | succ k ih => rw [Function.iterate_succ_apply, ih, iter_advanceChar, List.drop_tail]

theorem Advances.length_le {before after : Cursor} (advances : Advances before after) : after.iter.length ≤ before.iter.length := by
  obtain ⟨k, rfl⟩ := advances
  rw [iter_iterate, List.length_drop]
  omega

theorem advanceWhile_spec (kind : UInt8 → Bool) (lineNumber charNumber : Int32) (iter : Bytes) :
    Advances { iter := iter, lineNumber := lineNumber, charNumber := charNumber } (advanceWhile kind lineNumber charNumber iter) ∧
      (advanceWhile kind lineNumber charNumber iter).iter = iter.dropWhile kind := by
  induction iter generalizing lineNumber charNumber with
  | nil => exact ⟨.refl _, rfl⟩
  | cons b rest ih =>
    rw [advanceWhile]
    by_cases passes : kind b = true
    · rw [if_pos passes, List.dropWhile_cons_of_pos passes]
      obtain ⟨later, stopped⟩ := ih (Cursor.advanceChar { iter := b :: rest, lineNumber := lineNumber, charNumber := charNumber }).lineNumber
        (Cursor.advanceChar { iter := b :: rest, lineNumber := lineNumber, charNumber := charNumber }).charNumber
      refine ⟨(Advances.one _).trans ?_, stopped⟩
      have tail := iter_advanceChar { iter := b :: rest, lineNumber := lineNumber, charNumber := charNumber }
      generalize Cursor.advanceChar { iter := b :: rest, lineNumber := lineNumber, charNumber := charNumber } = moved at later tail ⊢
      cases tail
      exact later
    · rw [if_neg passes, List.dropWhile_cons_of_neg passes]
      exact ⟨.refl _, rfl⟩

theorem passing_advances (cursor : Cursor) (kind : UInt8 → Bool) : Advances cursor (cursor.passing kind) :=
  (advanceWhile_spec kind cursor.lineNumber cursor.charNumber cursor.iter).1

theorem passthroughLoop_advances (chunk start : Bytes) (balance : Int32) (lineNumber charNumber : Int32) (iter : Bytes) :
    Advances { iter := iter, lineNumber := lineNumber, charNumber := charNumber }
      (passthroughLoop chunk start balance lineNumber charNumber iter).2.2.2 := by
  induction iter generalizing chunk start balance lineNumber charNumber with
  | nil => exact .refl _
  | cons b rest ih =>
    have onward : ∀ chunk start balance, Advances { iter := b :: rest, lineNumber := lineNumber, charNumber := charNumber }
        (passthroughLoop chunk start balance
          (Cursor.advanceChar { iter := b :: rest, lineNumber := lineNumber, charNumber := charNumber }).lineNumber
          (Cursor.advanceChar { iter := b :: rest, lineNumber := lineNumber, charNumber := charNumber }).charNumber rest).2.2.2 := by
      intro chunk start balance
      have tail := iter_advanceChar { iter := b :: rest, lineNumber := lineNumber, charNumber := charNumber }
      refine (Advances.one _).trans ?_
      generalize Cursor.advanceChar { iter := b :: rest, lineNumber := lineNumber, charNumber := charNumber } = moved at tail ⊢
      cases tail
      exact ih _ _ _ _ _
    rw [passthroughLoop]
    split_ifs
    all_goals first
      | exact .refl _
      | exact onward _ _ _

/-! ## What does not move the cursor -/

section Contexts

variable {ι σ ε : Type} {parsers : ι → GMarkupParser ι σ ε} {context : ParseContext ι σ ε}

/-- The cursor is where it was, and the state is what it was, or an error. -/
def Settled (context after : ParseContext ι σ ε) : Prop :=
  after.cursor = context.cursor ∧ (after.state = context.state ∨ after.state = .error)

theorem Settled.refl (context : ParseContext ι σ ε) : Settled context context := ⟨rfl, .inl rfl⟩

theorem Settled.trans {first second third : ParseContext ι σ ε} (one : Settled first second) (two : Settled second third) :
    Settled first third := by
  refine ⟨two.1.trans one.1, ?_⟩
  rcases two.2 with same | failed
  · rw [same]
    exact one.2
  · exact .inr failed

theorem Settled.advances {context moved : ParseContext ι σ ε} {before : Cursor} (settled : Settled context moved)
    (advances : Advances before context.cursor) : Advances before moved.cursor := by
  rw [settled.1]
  exact advances

theorem callError_fields (error : MarkupError ε) : (callError parsers context error).cursor = context.cursor ∧
    (callError parsers context error).state = context.state := by
  unfold callError
  split
  · exact ⟨rfl, rfl⟩
  · exact ⟨rfl, rfl⟩

theorem unwind_fields (error : MarkupError ε) (stack : List (Option Nat × Option ι)) (context : ParseContext ι σ ε) :
    (unwind parsers error stack context).cursor = context.cursor ∧ (unwind parsers error stack context).state = context.state := by
  induction stack generalizing context with
  | nil => exact ⟨rfl, rfl⟩
  | cons tracker stack ih =>
    obtain ⟨cursor, state⟩ := ih (callError parsers { popped context tracker stack with awaitingPop := false } error)
    have fields := @callError_fields _ _ _ parsers { popped context tracker stack with awaitingPop := false } error
    exact ⟨cursor.trans fields.1, state.trans fields.2⟩

theorem report_fields (error : MarkupError ε) :
    (report parsers context error).cursor = context.cursor ∧ (report parsers context error).state = .error := by
  have called := @callError_fields _ _ _ parsers { context with state := .error } error
  have unwound := @unwind_fields _ _ _ parsers error context.subparserStack
    (callError parsers { context with state := .error } error)
  exact ⟨unwound.1.trans called.1, unwound.2.trans called.2⟩

theorem settled_report (error : MarkupError ε) : Settled context (report parsers context error) :=
  ⟨(report_fields error).1, .inr (report_fields error).2⟩

/-- A computation that may fail, though not for want of turns. -/
abbrev Ends {α : Type} (post : α → Prop) (x : Except Abort α) : Prop := Meets (· ≠ Abort.unfinished) post x

theorem ends_popSubparserStack : Ends (Settled context) (popSubparserStack context) := by
  unfold popSubparserStack
  split
  · exact Abort.noConfusion
  · exact .refl _

theorem ends_possiblyFinishSubparser : Ends (Settled context) (possiblyFinishSubparser context) := by
  apply Meets.ite
  · intro _
    exact ends_popSubparserStack
  · intro _
    exact Settled.refl _

theorem ends_pop : Ends (Settled context) (pop context) := by
  apply Meets.bind
  · show Ends (Settled context) _
    apply Meets.ite
    · intro _
      exact Settled.refl _
    · intro _
      exact ends_possiblyFinishSubparser
  · intro after settled
    apply Meets.ite
    · intro _
      exact settled
    · intro _
      exact Abort.noConfusion

variable {xunicharIsalpha : Nat → Bool}

theorem ends_isNameCharacter (common : UInt8 → Bool) (others : List UInt8) (name : Bytes) (p : Nat) (c : UInt8) :
    Ends (fun _ => True) (isNameCharacter xunicharIsalpha common others name p c) := by
  unfold isNameCharacter
  split
  · trivial
  · split
    · trivial
    · split
      · trivial
      · split
        · exact Abort.noConfusion
        · trivial

theorem ends_nameLoop (name : Bytes) (fuel p : Nat) (enough : name.length - p < fuel) :
    Ends (fun _ => True) (nameLoop xunicharIsalpha name fuel p) := by
  induction fuel generalizing p with
  | zero => omega
  | succ fuel ih =>
    unfold nameLoop
    split
    · trivial
    · rename_i c held
      have inside := (List.getElem?_eq_some_iff.mp held).1
      have onward := utf8Skip_pos c
      apply (ends_isNameCharacter _ _ _ _ _).bind
      intro allowed _
      cases allowed with
      | true => exact ih (p + utf8Skip c) (by omega)
      | false => trivial

/-- What is not good has been reported. -/
def Judged (context : ParseContext ι σ ε) (good : Bool) (after : ParseContext ι σ ε) : Prop :=
  Settled context after ∧ (good = false → after.state = .error)

theorem judged_good (context : ParseContext ι σ ε) : Judged context true context := ⟨.refl _, Bool.noConfusion⟩

theorem judged_bad (error : MarkupError ε) : Judged context false (report parsers context error) :=
  ⟨settled_report _, fun _ => (report_fields error).2⟩

theorem ends_nameValidate (name : Bytes) :
    Ends (fun answer => Judged context answer.1 answer.2) (nameValidate parsers xunicharIsalpha context name) := by
  apply Meets.ite
  · intro _
    exact judged_good _
  · intro _
    unfold slowNameValidate
    split
    · exact Abort.noConfusion
    · exact judged_bad _
    · apply (ends_isNameCharacter _ _ _ _ _).bind
      intro allowed _
      cases allowed with
      | false => exact judged_bad _
      | true =>
        apply (ends_nameLoop name (name.length + 1) _ (by omega)).bind
        intro odd _
        cases odd with
        | none => exact judged_good _
        | some c => exact judged_bad _

theorem ends_textValidate (text : Bytes) (length : Nat) :
    Ends (fun answer => Judged context answer.1 answer.2) (textValidate parsers context text length) := by
  unfold textValidate
  split
  · exact Abort.noConfusion
  · split
    · exact judged_good _
    · exact judged_bad _

theorem ends_unescapeAndValidate (string : Bytes) :
    Ends (fun answer => Judged context answer.1.isSome answer.2) (unescapeAndValidate parsers context string) := by
  unfold unescapeAndValidate
  dsimp only
  rcases unescapeXstringInplace_spec (decide (context.state = .insideAttributeValueSq) || decide (context.state = .insideAttributeValueDq))
    context.cursor.lineNumber string with ⟨text, done, -⟩ | ⟨⟨line, message, named, failed⟩, -⟩
  · rw [done]
    dsimp only
    split
    · exact judged_good _
    · apply (ends_textValidate _ _).bind
      rintro ⟨valid, after⟩ judged
      cases valid with
      | true => exact judged
      | false => exact judged
  · rw [failed]
    exact judged_bad _

theorem settled_finish (error : Option ε) : Settled context (finish parsers context error) := by
  cases error with
  | none => exact Settled.refl _
  | some error => exact settled_report _

theorem ends_mapM {α β : Type} {f : α → Except Abort β} (ends : ∀ a, Ends (fun _ => True) (f a)) (items : List α) :
    Ends (fun _ => True) (items.mapM f) := by
  induction items with
  | nil => trivial
  | cons item items ih =>
    rw [List.mapM_cons]
    apply (ends item).bind
    intro first _
    apply ih.bind
    intro rest _
    trivial

theorem ends_currentElement : Ends (fun _ => True) context.currentElement := by
  unfold ParseContext.currentElement
  split
  · exact Abort.noConfusion
  · trivial

theorem ends_currentAttribute : Ends (fun _ => True) context.currentAttribute := by
  unfold ParseContext.currentAttribute
  split
  · exact Abort.noConfusion
  · trivial

theorem ends_partialString : Ends (fun _ => True) context.partialString := by
  unfold ParseContext.partialString
  split
  · exact Abort.noConfusion
  · trivial

theorem ends_addToPartial : Ends (Settled context) context.addToPartial := by
  unfold ParseContext.addToPartial
  split
  · exact Abort.noConfusion
  · exact .refl _

theorem ends_emitStartElement : Ends (Settled context) (emitStartElement parsers xunicharIsalpha context) := by
  apply ends_currentElement.bind
  intro name _
  apply Meets.ite
  · intro _
    exact Settled.refl _
  · intro _
    apply Meets.bind
    · apply ends_mapM
      intro named
      split
      · trivial
      · exact Abort.noConfusion
    · intro attributes _
      apply (ends_nameValidate name).bind
      rintro ⟨valid, after⟩ ⟨settled, -⟩
      cases valid with
      | false => exact settled
      | true =>
        show Ends _ (ite (true = true) _ _)
        rw [if_pos rfl]
        split
        · exact settled
        · rename_i call _
          generalize call after.view name attributes after.world = answer
          obtain ⟨world, pushed, error⟩ := answer
          cases pushed with
          | none => exact settled.trans (settled_finish error)
          | some parser => exact settled.trans (settled_finish error)

theorem settled_finishEnd (error : Option ε) : Settled context (finishEnd parsers context error) := by
  cases error with
  | none => exact Settled.refl _
  | some error => exact @settled_report _ _ _ parsers { context with awaitingPop := false } _

theorem ends_emitEndElement : Ends (Settled context) (emitEndElement parsers context) := by
  apply Meets.ite
  · intro _
    exact Abort.noConfusion
  · intro _
    apply ends_possiblyFinishSubparser.bind
    intro after settled
    apply ends_currentElement.bind
    intro name _
    apply Meets.ite
    · intro _
      apply ends_pop.bind
      intro popped settled'
      exact settled.trans settled'
    · intro _
      split
      · exact settled.trans (settled_finishEnd none)
      · rename_i call _
        generalize call after.view name after.world = answer
        obtain ⟨world, pops, error⟩ := answer
        apply Meets.bind
        · show Ends (Settled after) _
          apply Meets.ite
          · intro _
            exact ends_pop
          · intro _
            exact Settled.refl _
        · intro popped settled'
          exact settled.trans (settled'.trans (settled_finishEnd error))

theorem ends_emitPassthrough (string : Bytes) :
    Ends (fun answer => answer.1.cursor = context.cursor) (emitPassthrough parsers context string) := by
  unfold emitPassthrough
  dsimp only
  split
  · rfl
  · apply (ends_textValidate _ _).bind
    rintro ⟨valid, after⟩ ⟨settled, -⟩
    cases valid with
    | false => exact settled.1
    | true => exact settled.1

/-! ## What one turn does -/

/-- How far a state is from one that moves. -/
def rank : ParseState → Nat
  | .afterOpenAngle => 6
  | .insideOpenTagName => 5
  | .betweenAttributes => 4
  | .insideAttributeName | .afterCloseTagSlash => 3
  | .afterAttributeName | .insideCloseTagName => 2
  | .afterCloseTagName | .afterCloseAngle => 1
  | .start | .afterElisionSlash | .afterAttributeEqualsSign | .insideAttributeValueSq | .insideAttributeValueDq | .insideText
  | .insidePassthrough | .error => 0

theorem rank_le (state : ParseState) : rank state ≤ 6 := by
  cases state <;> decide

def work (context : ParseContext ι σ ε) : Nat := 8 * context.cursor.iter.length + rank context.state

/-- The cursor has moved on, if at all, and there is less to do, or there is an error. -/
def Progress (context after : ParseContext ι σ ε) : Prop :=
  Advances context.cursor after.cursor ∧ (after.state = .error ∨ work after < work context)

theorem Progress.settle {context moved after : ParseContext ι σ ε} (progress : Progress context moved) (settled : Settled moved after) :
    Progress context after := by
  refine ⟨?_, ?_⟩
  · rw [settled.1]
    exact progress.1
  rcases settled.2 with same | failed
  · rw [work, settled.1, same]
    exact progress.2
  · exact .inl failed

theorem Progress.later {context moved after : ParseContext ι σ ε} (progress : Progress moved after)
    (advances : Advances context.cursor moved.cursor) (same : moved.state = context.state) : Progress context after := by
  refine ⟨advances.trans progress.1, ?_⟩
  rcases progress.2 with failed | less
  · exact .inl failed
  · have bounded := advances.length_le
    unfold work at less ⊢
    rw [same] at less
    exact .inr (by omega)

theorem progress_failed {context moved : ParseContext ι σ ε} (advances : Advances context.cursor moved.cursor) (error : MarkupError ε) :
    Progress context (report parsers moved error) := by
  refine ⟨?_, .inl (report_fields error).2⟩
  rw [(report_fields error).1]
  exact advances

theorem progress_setError {context moved : ParseContext ι σ ε} (advances : Advances context.cursor moved.cursor)
    (code : MarkupErrorCode) (message : String) (arguments : List Bytes) :
    Progress context (setError parsers moved code message arguments) :=
  progress_failed advances _

/-- Whoever has moved at least one byte has less to do, whatever the state. -/
theorem progress_moved {context after : ParseContext ι σ ε} (advances : Advances context.cursor after.cursor)
    (shorter : after.cursor.iter.length < context.cursor.iter.length) : Progress context after := by
  refine ⟨advances, .inr ?_⟩
  have high := rank_le after.state
  unfold work
  omega

theorem progress_ranked {context after : ParseContext ι σ ε} {here : ParseState} (there : ParseState) (at_state : context.state = here)
    (next : after.state = there) (advances : Advances context.cursor after.cursor) (lower : rank there < rank here) :
    Progress context after := by
  refine ⟨advances, .inr ?_⟩
  rw [← at_state, ← next] at lower
  have bounded := advances.length_le
  unfold work
  omega

theorem length_advanceChar {cursor : Cursor} {c : UInt8} {rest : Bytes} (here : cursor.iter = c :: rest) :
    cursor.advanceChar.iter.length < cursor.iter.length := by
  rw [iter_advanceChar, here]
  exact Nat.lt_succ_self _

theorem advances_passing (kind : UInt8 → Bool) : Advances context.cursor (context.passing kind).cursor :=
  passing_advances context.cursor kind

theorem progress_behind {moved after : ParseContext ι σ ε} (advances : Advances context.cursor moved.cursor) {c : UInt8}
    {rest : Bytes} (there : moved.cursor.iter = c :: rest) (same : after.cursor = moved.cursor.advanceChar) :
    Progress context after := by
  apply progress_moved
  · rw [same]
    exact advances.trans (.one _)
  · have shorter := length_advanceChar there
    have bounded := advances.length_le
    rw [same]
    omega

theorem iter_ne_nil {cursor : Cursor} (more : ¬cursor.iter = []) : ∃ c rest, cursor.iter = c :: rest :=
  List.exists_cons_of_ne_nil more

section Steps

variable {c : UInt8} {rest : Bytes} (here : context.cursor.iter = c :: rest)
include here

/-- At the end of the text. -/
theorem progress_ended {after : ParseContext ι σ ε} (advances : Advances context.cursor after.cursor) (ended : after.cursor.iter = []) :
    Progress context after := by
  apply progress_moved advances
  rw [ended, here]
  exact Nat.zero_lt_succ _

theorem stepStart_progress : Ends (Progress context) (stepStart parsers context) := by
  have advances : Advances context.cursor context.skipSpaces.cursor := advances_passing _
  apply Meets.ite
  · intro _
    exact Abort.noConfusion
  · intro _
    dsimp only
    split
    · rename_i ended
      exact progress_ended here advances ended
    · rename_i there
      apply Meets.ite
      · intro _
        exact progress_behind advances there rfl
      · intro _
        exact progress_failed advances _

theorem stepAfterOpenAngle_progress (at_state : context.state = .afterOpenAngle) :
    Ends (Progress context) (stepAfterOpenAngle parsers context c) := by
  apply Meets.ite
  · intro _
    exact progress_ranked .insidePassthrough at_state rfl (.refl _) (by decide)
  · intro _
    apply Meets.ite
    · intro _
      exact progress_behind (.refl _) here rfl
    · intro _
      apply Meets.ite
      · intro _
        exact progress_ranked .insideOpenTagName at_state rfl (.refl _) (by decide)
      · intro _
        exact progress_failed (.refl _) _

omit here in
theorem stepAfterCloseAngle_progress (at_state : context.state = .afterCloseAngle) :
    Ends (Progress context) (stepAfterCloseAngle context) := by
  apply Meets.ite
  · intro _
    exact progress_ranked .start at_state rfl (.refl _) (by decide)
  · intro _
    exact progress_ranked .insideText at_state rfl (.refl _) (by decide)

theorem stepAfterElisionSlash_progress : Ends (Progress context) (stepAfterElisionSlash parsers context c) := by
  apply Meets.ite
  · intro _
    apply ends_emitEndElement.mono
    intro after settled
    exact (progress_behind (.refl _) here rfl).settle settled
  · intro _
    apply ends_currentElement.bind
    intro element _
    exact progress_failed (.refl _) _

theorem stepInsideName_progress {current next : ParseState} (at_state : context.state = current) (lower : rank next < rank current) :
    Ends (Progress context) (stepInsideName context next) := by
  have advances : Advances context.cursor context.advanceToNameEnd.cursor := advances_passing _
  apply ends_addToPartial.bind
  intro after settled
  have moved := settled.advances advances
  apply Meets.ite
  · intro ended
    exact progress_ended here moved ended
  · intro _
    exact progress_ranked next at_state rfl moved lower

theorem stepInsideOpenTagName_progress (at_state : context.state = .insideOpenTagName) :
    Ends (Progress context) (stepInsideOpenTagName context) := by
  have advances : Advances context.cursor context.advanceToNameEnd.cursor := advances_passing _
  apply ends_addToPartial.bind
  intro after settled
  have moved := settled.advances advances
  apply Meets.ite
  · intro ended
    exact progress_ended here moved ended
  · intro _
    apply ends_partialString.bind
    intro name _
    exact progress_ranked .betweenAttributes at_state rfl moved (by decide)

theorem stepAfterAttributeName_progress : Ends (Progress context) (stepAfterAttributeName parsers xunicharIsalpha context) := by
  have advances : Advances context.cursor context.skipSpaces.cursor := advances_passing _
  unfold stepAfterAttributeName
  dsimp only
  split
  · rename_i ended
    exact progress_ended here advances ended
  · rename_i c' rest' there
    apply ends_partialString.bind
    intro name _
    apply (ends_nameValidate (cString name)).bind
    rintro ⟨valid, after⟩ ⟨settled, reported⟩
    have moved := settled.advances advances
    have behind : after.cursor.iter = c' :: rest' := by
      rw [settled.1]
      exact there
    cases valid with
    | false => exact ⟨moved, .inl (reported rfl)⟩
    | true =>
      show Ends _ (ite (true = true) _ _)
      rw [if_pos rfl, ParseContext.addAttribute]
      by_cases many : 1001 ≤ after.attributes.length
      · rw [if_pos many]
        apply ends_currentElement.bind
        intro element _
        exact progress_setError moved _ _ _
      · rw [if_neg many]
        apply Meets.ite
        · intro _
          exact progress_behind moved behind rfl
        · intro _
          apply ends_currentAttribute.bind
          intro attributeName _
          apply ends_currentElement.bind
          intro element _
          apply progress_setError
          exact moved

theorem stepBetweenAttributes_progress (at_state : context.state = .betweenAttributes) :
    Ends (Progress context) (stepBetweenAttributes parsers xunicharIsalpha context) := by
  have advances : Advances context.cursor context.skipSpaces.cursor := advances_passing _
  unfold stepBetweenAttributes
  dsimp only
  split
  · rename_i ended
    exact progress_ended here advances ended
  · rename_i c' rest' there
    apply Meets.ite
    · intro _
      apply ends_emitStartElement.mono
      intro after settled
      exact (progress_behind advances there rfl).settle settled
    · intro _
      apply Meets.ite
      · intro _
        apply ends_emitStartElement.mono
        intro after settled
        exact (progress_behind advances there rfl).settle settled
      · intro _
        apply Meets.ite
        · intro _
          exact progress_ranked .insideAttributeName at_state rfl advances (by decide)
        · intro _
          apply ends_currentElement.bind
          intro element _
          exact progress_setError advances _ _ _

theorem stepAfterAttributeEqualsSign_progress : Ends (Progress context) (stepAfterAttributeEqualsSign parsers context) := by
  have advances : Advances context.cursor context.skipSpaces.cursor := advances_passing _
  unfold stepAfterAttributeEqualsSign
  dsimp only
  split
  · rename_i ended
    exact progress_ended here advances ended
  · rename_i c' rest' there
    apply Meets.ite
    · intro _
      exact progress_behind advances there rfl
    · intro _
      apply Meets.ite
      · intro _
        exact progress_behind advances there rfl
      · intro _
        apply ends_currentAttribute.bind
        intro attributeName _
        apply ends_currentElement.bind
        intro element _
        exact progress_setError advances _ _ _

theorem stepInsideAttributeValue_progress (delim : UInt8) : Ends (Progress context) (stepInsideAttributeValue parsers context delim) := by
  have advances : Advances context.cursor (context.passing (· ≠ delim)).cursor := advances_passing _
  apply ends_addToPartial.bind
  intro after settled
  have moved := settled.advances advances
  apply Meets.ite
  · intro ended
    exact progress_ended here moved ended
  · intro more
    obtain ⟨c', rest', there⟩ := iter_ne_nil more
    split
    · exact Abort.noConfusion
    · apply ends_partialString.bind
      intro string _
      apply (ends_unescapeAndValidate string).bind
      rintro ⟨value, judged⟩ ⟨settled', reported⟩
      have further := settled'.advances moved
      cases value with
      | none => exact ⟨further, .inl (reported rfl)⟩
      | some value =>
        have behind : judged.cursor.iter = c' :: rest' := by
          rw [settled'.1]
          exact there
        exact progress_behind further behind rfl

theorem stepInsideText_progress : Ends (Progress context) (stepInsideText parsers context) := by
  have advances : Advances context.cursor (context.passing (· ≠ char '<')).cursor := advances_passing _
  apply ends_addToPartial.bind
  intro after settled
  have moved := settled.advances advances
  apply Meets.ite
  · intro ended
    exact progress_ended here moved ended
  · intro more
    obtain ⟨c', rest', there⟩ := iter_ne_nil more
    apply ends_partialString.bind
    intro string _
    apply (ends_unescapeAndValidate string).bind
    rintro ⟨text, judged⟩ ⟨settled', reported⟩
    have further := settled'.advances moved
    cases text with
    | none => exact ⟨further, .inl (reported rfl)⟩
    | some text =>
      have behind : judged.cursor.iter = c' :: rest' := by
        rw [settled'.1]
        exact there
      dsimp only
      split
      · exact progress_behind further behind rfl
      · apply progress_failed
        exact further

omit here in
theorem stepAfterCloseTagSlash_progress (at_state : context.state = .afterCloseTagSlash) :
    Ends (Progress context) (stepAfterCloseTagSlash parsers context c) := by
  apply Meets.ite
  · intro _
    exact progress_ranked .insideCloseTagName at_state rfl (.refl _) (by decide)
  · intro _
    exact progress_setError (.refl _) _ _ _

theorem closeElement_progress (closeName : Bytes) : Ends (Progress context) (closeElement parsers context closeName c) := by
  apply Meets.ite
  · intro _
    exact progress_setError (.refl _) _ _ _
  · intro _
    split
    · exact progress_setError (.refl _) _ _ _
    · apply Meets.ite
      · intro _
        exact progress_setError (.refl _) _ _ _
      · intro _
        apply ends_emitEndElement.mono
        intro after settled
        exact (progress_behind (.refl _) here rfl).settle settled

theorem stepAfterCloseTagName_progress : Ends (Progress context) (stepAfterCloseTagName parsers context) := by
  have advances : Advances context.cursor context.skipSpaces.cursor := advances_passing _
  unfold stepAfterCloseTagName
  dsimp only
  split
  · rename_i ended
    exact progress_ended here advances ended
  · rename_i c' rest' there
    apply ends_partialString.bind
    intro closeName _
    have closed := @closeElement_progress _ _ _ parsers { context.skipSpaces with partialChunk := none } _ _ there closeName
    apply closed.bind
    intro after progress
    exact progress.later advances rfl

theorem stepInsidePassthrough_progress : Ends (Progress context) (stepInsidePassthrough parsers context) := by
  unfold stepInsidePassthrough
  split
  · exact Abort.noConfusion
  · rename_i start _
    have advances : Advances context.cursor (passthroughLoop (context.partialChunk.getD []) start context.balance
        context.cursor.lineNumber context.cursor.charNumber context.iter).2.2.2 := passthroughLoop_advances _ _ _ _ _ _
    generalize passthroughLoop (context.partialChunk.getD []) start context.balance context.cursor.lineNumber
      context.cursor.charNumber context.iter = looped at advances ⊢
    obtain ⟨chunk, start, balance, cursor⟩ := looped
    apply Meets.ite
    · intro ended
      apply ends_addToPartial.mono
      intro after settled
      have moved := settled.advances advances
      apply progress_ended here moved
      rw [settled.1]
      exact ended
    · intro more
      obtain ⟨c', rest', there⟩ := iter_ne_nil more
      apply ends_addToPartial.bind
      intro after settled
      apply ends_partialString.bind
      intro string _
      apply (ends_emitPassthrough string).bind
      rintro ⟨called, error⟩ same
      have behind : called.cursor = cursor.advanceChar := same.trans settled.1
      cases error with
      | none => exact progress_behind advances there behind
      | some error =>
        have later : Advances context.cursor called.cursor := by
          rw [behind]
          exact advances.trans (.one _)
        apply progress_failed
        exact later

/-- Every turn of the loop moves on, or comes closer to one that does. -/
theorem step_progress (running : context.state ≠ .error) : Ends (Progress context) (step parsers xunicharIsalpha context c) := by
  unfold step
  split
  · exact stepStart_progress here
  · exact stepAfterOpenAngle_progress here ‹_›
  · exact stepAfterCloseAngle_progress ‹_›
  · exact stepAfterElisionSlash_progress here
  · exact stepInsideOpenTagName_progress here ‹_›
  · exact stepInsideName_progress here ‹_› (by decide)
  · exact stepAfterAttributeName_progress here
  · exact stepBetweenAttributes_progress here ‹_›
  · exact stepAfterAttributeEqualsSign_progress here
  · exact stepInsideAttributeValue_progress here _
  · exact stepInsideAttributeValue_progress here _
  · exact stepInsideText_progress here
  · exact stepAfterCloseTagSlash_progress ‹_›
  · exact stepInsideName_progress here ‹_› (by decide)
  · exact stepAfterCloseTagName_progress here
  · exact stepInsidePassthrough_progress here
  · exact absurd ‹_› running

end Steps

/-! ## The calls -/

theorem parseLoop_failed {fuel : Nat} {context : ParseContext ι σ ε} (enough : 0 < fuel) (failed : context.state = .error) :
    Ends (· = context) (parseLoop parsers xunicharIsalpha fuel context) := by
  cases fuel with
  | zero => omega
  | succ fuel =>
    unfold parseLoop
    split
    · rfl
    · rw [if_pos failed]
      rfl

theorem parseLoop_spec {fuel : Nat} {context : ParseContext ι σ ε} (enough : work context < fuel) :
    Ends (fun after => Advances context.cursor after.cursor ∧ (after.state = .error ∨ after.cursor.iter = []))
      (parseLoop parsers xunicharIsalpha fuel context) := by
  induction fuel generalizing context with
  | zero => omega
  | succ fuel ih =>
    unfold parseLoop
    split
    · rename_i ended
      exact ⟨.refl _, .inr ended⟩
    · rename_i c rest here
      apply Meets.ite
      · intro failed
        exact ⟨.refl _, .inl failed⟩
      · intro running
        apply (step_progress here running).bind
        rintro after ⟨moved, failed | less⟩
        · -- there is still a byte, and so a turn left to see the error
          have more : 0 < context.cursor.iter.length := by
            rw [show context.cursor.iter = c :: rest from here]
            exact Nat.zero_lt_succ _
          unfold work at enough
          apply (parseLoop_failed (by omega) failed).mono
          rintro last rfl
          exact ⟨moved, .inl failed⟩
        · apply (ih (by omega)).mono
          rintro last ⟨further, done⟩
          exact ⟨moved.trans further, done⟩

/-- The cursor at the end of a text that goes on from where it was. -/
def Cursor.consume (cursor : Cursor) (text : Bytes) : Cursor :=
  Cursor.advanceChar^[text.length] { cursor with iter := text }

theorem iter_consume (cursor : Cursor) (text : Bytes) : (cursor.consume text).iter = [] := by
  rw [Cursor.consume, iter_iterate]
  exact List.drop_length

theorem iterate_ended {cursor : Cursor} (ended : cursor.iter = []) (k : Nat) : Cursor.advanceChar^[k] cursor = cursor := by
  apply Function.iterate_fixed
  unfold Cursor.advanceChar
  rw [ended]

theorem Advances.to_end {before after : Cursor} (advances : Advances before after) (ended : after.iter = []) :
    after = Cursor.advanceChar^[before.iter.length] before := by
  obtain ⟨k, rfl⟩ := advances
  rw [iter_iterate, List.drop_eq_nil_iff] at ended
  have finished : (Cursor.advanceChar^[before.iter.length] before).iter = [] := by
    rw [iter_iterate]
    exact List.drop_length
  rw [← Nat.sub_add_cancel ended, Function.iterate_add_apply]
  exact iterate_ended finished _

/-- A call ends, and one without an error has gone over its text. -/
theorem parse_ends {context : ParseContext ι σ ε} (text : Bytes) (behind : context.cursor.iter = []) :
    Ends (fun answer => answer.2 = true → answer.1.cursor = context.cursor.consume text)
      (xmarkupParseContextParse parsers xunicharIsalpha context text) := by
  apply Meets.ite
  · intro _
    exact Bool.noConfusion
  · intro _
    apply Meets.ite
    · intro empty _
      rw [empty]
      exact (congrArg (fun iter => { context.cursor with iter := iter }) behind)
    · intro _
      have enough : work ({ context with cursor := { context.cursor with iter := text }, start := some text, reported := none } :
          ParseContext ι σ ε) < 8 * text.length + 8 := by
        have high := rank_le context.state
        show 8 * text.length + rank context.state < 8 * text.length + 8
        omega
      apply (parseLoop_spec enough).bind
      rintro after ⟨moved, done⟩ succeeded
      exact moved.to_end (done.resolve_left (of_decide_eq_true succeeded))

theorem parse_consumes {context after : ParseContext ι σ ε} {text : Bytes} (behind : context.cursor.iter = [])
    (parsed : xmarkupParseContextParse parsers xunicharIsalpha context text = .ok (after, true)) :
    after.cursor = context.cursor.consume text := by
  have ends := @parse_ends _ _ _ parsers xunicharIsalpha context text behind
  rw [parsed] at ends
  exact ends rfl

/-! ## Chunks -/

def parseChunks (parsers : ι → GMarkupParser ι σ ε) (xunicharIsalpha : Nat → Bool) (context : ParseContext ι σ ε) :
    List Bytes → Except Abort (ParseContext ι σ ε × Bool)
  | [] => .ok (context, true)
  | chunk :: chunks => do
    let (context, parsed) ← xmarkupParseContextParse parsers xunicharIsalpha context chunk
    if parsed then parseChunks parsers xunicharIsalpha context chunks else .ok (context, false)

theorem parseChunks_consume {context after : ParseContext ι σ ε} {chunks : List Bytes} (behind : context.cursor.iter = [])
    (parsed : parseChunks parsers xunicharIsalpha context chunks = .ok (after, true)) :
    after.cursor = chunks.foldl Cursor.consume context.cursor := by
  induction chunks generalizing context with
  | nil =>
    cases parsed
    rfl
  | cons chunk chunks ih =>
    have ends := @parse_ends _ _ _ parsers xunicharIsalpha context chunk behind
    unfold parseChunks at parsed
    cases called : xmarkupParseContextParse parsers xunicharIsalpha context chunk with
    | error abort =>
      rw [called] at parsed
      cases parsed
    | ok answer =>
      obtain ⟨next, good⟩ := answer
      rw [called] at parsed ends
      cases good with
      | false => cases parsed
      | true =>
        have consumed : next.cursor = context.cursor.consume chunk := ends rfl
        rw [List.foldl_cons, ← consumed]
        apply ih
        · rw [consumed]
          exact iter_consume _ _
        · exact parsed

end Contexts

/-! ## Lines -/

def newlines (text : Bytes) : Nat := text.count (char '\n')

def startsWithNewline (text : Bytes) : Bool := text.head? = some (char '\n')

theorem newlines_head (text : Bytes) : newlines text = newlines text.tail + if startsWithNewline text then 1 else 0 := by
  cases text with
  | nil => rfl
  | cons b rest =>
    unfold newlines startsWithNewline
    rw [List.count_cons, List.tail_cons, List.head?_cons]
    by_cases newline : b = char '\n'
    · rw [newline]
      rfl
    · rw [if_neg (fun same => newline (eq_of_beq same)),
        if_neg (fun same => newline (Option.some.inj (of_decide_eq_true same)))]

theorem consume_cons (cursor : Cursor) (b : UInt8) (rest : Bytes) :
    cursor.consume (b :: rest) = (Cursor.advanceChar { cursor with iter := b :: rest }).consume rest := by
  have moved := iter_advanceChar { cursor with iter := b :: rest }
  exact congrArg (fun iter => Cursor.advanceChar^[rest.length] { Cursor.advanceChar { cursor with iter := b :: rest } with iter := iter })
    moved

theorem advanceChar_newline (cursor : Cursor) (b : UInt8) {rest : Bytes} (newline : startsWithNewline rest = true) :
    Cursor.advanceChar { cursor with iter := b :: rest } = { iter := rest, lineNumber := cursor.lineNumber + 1, charNumber := 1 } :=
  if_pos (of_decide_eq_true newline)

theorem advanceChar_other (cursor : Cursor) (b : UInt8) {rest : Bytes} (other : startsWithNewline rest = false) :
    Cursor.advanceChar { cursor with iter := b :: rest } = { cursor with iter := rest, charNumber := cursor.charNumber + 1 } :=
  if_neg (of_decide_eq_false other)

theorem lineNumber_consume (cursor : Cursor) (text : Bytes) :
    (cursor.consume text).lineNumber = cursor.lineNumber + Int32.ofNat (newlines text.tail) := by
  induction text generalizing cursor with
  | nil => exact (Int32.add_zero _).symm
  | cons b rest ih =>
    rw [consume_cons, ih, List.tail_cons, newlines_head rest]
    cases newline : startsWithNewline rest with
    | true =>
      rw [advanceChar_newline _ _ newline, if_pos rfl, Int32.ofNat_add, Int32.add_assoc, Int32.add_comm 1]
      rfl
    | false => rw [advanceChar_other _ _ newline, if_neg Bool.noConfusion, Nat.add_zero]

theorem consume_append (cursor : Cursor) (first : Bytes) {second : Bytes} (apart : startsWithNewline second = false) :
    (cursor.consume first).consume second = cursor.consume (first ++ second) := by
  induction first generalizing cursor with
  | nil => rfl
  | cons b rest ih =>
    have same : startsWithNewline (rest ++ second) = startsWithNewline rest := by
      cases rest with
      | nil => exact apart
      | cons next rest => rfl
    rw [consume_cons, List.cons_append, consume_cons, ih]
    cases newline : startsWithNewline rest with
    | true =>
      rw [advanceChar_newline _ _ newline, advanceChar_newline _ _ (same.trans newline)]
      rfl
    | false =>
      rw [advanceChar_other _ _ newline, advanceChar_other _ _ (same.trans newline)]
      rfl

theorem startsWithNewline_flatten {chunks : List Bytes} (apart : ∀ chunk ∈ chunks, startsWithNewline chunk = false) :
    startsWithNewline chunks.flatten = false := by
  induction chunks with
  | nil => rfl
  | cons chunk chunks ih =>
    cases chunk with
    | nil => exact ih fun chunk among => apart chunk (List.mem_cons_of_mem _ among)
    | cons b rest => exact apart (b :: rest) List.mem_cons_self

theorem foldl_consume (cursor : Cursor) {chunks : List Bytes} (apart : ∀ chunk ∈ chunks, startsWithNewline chunk = false) :
    (chunks.foldl Cursor.consume cursor).lineNumber = (cursor.consume chunks.flatten).lineNumber ∧
      (chunks.foldl Cursor.consume cursor).charNumber = (cursor.consume chunks.flatten).charNumber := by
  induction chunks generalizing cursor with
  | nil => exact ⟨rfl, rfl⟩
  | cons chunk chunks ih =>
    have later : ∀ chunk ∈ chunks, startsWithNewline chunk = false := fun chunk among => apart chunk (List.mem_cons_of_mem _ among)
    rw [List.foldl_cons, List.flatten_cons, ← consume_append cursor chunk (startsWithNewline_flatten later)]
    exact ih (cursor.consume chunk) later

def newlinesSeen (chunks : List Bytes) : Nat := (chunks.map fun chunk => newlines chunk.tail).sum

theorem lineNumber_foldl (cursor : Cursor) (chunks : List Bytes) :
    (chunks.foldl Cursor.consume cursor).lineNumber = cursor.lineNumber + Int32.ofNat (newlinesSeen chunks) := by
  induction chunks generalizing cursor with
  | nil => exact (Int32.add_zero _).symm
  | cons chunk chunks ih =>
    rw [List.foldl_cons, ih, lineNumber_consume, Int32.add_assoc, ← Int32.ofNat_add]
    rfl

theorem newlinesSeen_le (chunks : List Bytes) : newlinesSeen chunks ≤ newlines chunks.flatten := by
  induction chunks with
  | nil => exact Nat.le_refl _
  | cons chunk chunks ih =>
    have seen : newlinesSeen (chunk :: chunks) = newlines chunk.tail + newlinesSeen chunks := rfl
    have all : newlines (chunk :: chunks).flatten = newlines chunk + newlines chunks.flatten := List.count_append
    rw [seen, all, newlines_head chunk]
    omega

theorem newlinesSeen_eq_iff (chunks : List Bytes) :
    newlinesSeen chunks = newlines chunks.flatten ↔ ∀ chunk ∈ chunks, startsWithNewline chunk = false := by
  induction chunks with
  | nil => exact ⟨fun _ => List.forall_mem_nil _, fun _ => rfl⟩
  | cons chunk chunks ih =>
    have seen : newlinesSeen (chunk :: chunks) = newlines chunk.tail + newlinesSeen chunks := rfl
    have all : newlines (chunk :: chunks).flatten = newlines chunk + newlines chunks.flatten := List.count_append
    have bounded := newlinesSeen_le chunks
    rw [List.forall_mem_cons, ← ih, seen, all, newlines_head chunk]
    cases startsWithNewline chunk with
    | true =>
      rw [if_pos rfl]
      constructor
      · intro same
        omega
      · rintro ⟨⟨⟩, -⟩
    | false =>
      rw [if_neg Bool.noConfusion]
      constructor
      · intro same
        exact ⟨rfl, by omega⟩
      · rintro ⟨-, same⟩
        omega

/-- A line number is right where none of the newlines is missed and it is in the range of its type. -/
theorem line_right_iff {seen all : Nat} (bounded : seen ≤ all) :
    (1 + Int32.ofNat seen).toInt = 1 + all ↔ seen = all ∧ all + 1 < 2 ^ 31 := by
  have value : (1 + Int32.ofNat seen).toInt = (((1 + seen : Nat) : Int)).bmod 4294967296 := by
    rw [← Int32.toInt_ofNat', Int32.ofNat_add]
    rfl
  rw [value, Int.bmod_def]
  split_ifs <;> omega

section Runs

variable {ι σ ε : Type}

/-- A text that is parsed in chunks gives the positions of the whole, with all of its newlines counted, where no chunk
starts with a newline. -/
theorem positions_chunk_independent_iff (parsers : ι → GMarkupParser ι σ ε) (xunicharIsalpha : Nat → Bool) (parser : ι)
    (flags : ParseFlags) (world : σ) (chunks : List Bytes) (after whole : ParseContext ι σ ε)
    (fed : parseChunks parsers xunicharIsalpha (xmarkupParseContextNew parser flags world) chunks = .ok (after, true))
    (once : xmarkupParseContextParse parsers xunicharIsalpha (xmarkupParseContextNew parser flags world) chunks.flatten =
      .ok (whole, true)) :
    (after.cursor.lineNumber = whole.cursor.lineNumber ∧ after.cursor.charNumber = whole.cursor.charNumber ∧
        after.cursor.lineNumber.toInt = 1 + newlines chunks.flatten) ↔
      (∀ chunk ∈ chunks, startsWithNewline chunk = false) ∧ newlines chunks.flatten + 1 < 2 ^ 31 := by
  have chunked := parseChunks_consume rfl fed
  have joined := parse_consumes rfl once
  rw [chunked, joined, lineNumber_foldl, ← newlinesSeen_eq_iff]
  constructor
  · rintro ⟨-, -, right⟩
    exact (line_right_iff (newlinesSeen_le chunks)).mp right
  · rintro ⟨same, bounded⟩
    have equal := foldl_consume (xmarkupParseContextNew parser flags world : ParseContext ι σ ε).cursor
      ((newlinesSeen_eq_iff chunks).mp same)
    rw [lineNumber_foldl] at equal
    exact ⟨equal.1, equal.2, (line_right_iff (newlinesSeen_le chunks)).mpr ⟨same, bounded⟩⟩

end Runs

def bytes (text : String) : Bytes := text.toList.map char

/-- A parser without callbacks. -/
def silent : Unit → GMarkupParser Unit Unit Empty :=
  fun _ => { startElement := none, endElement := none, text := none, passthrough := none, error := none }

def plainFlags : ParseFlags := { treatCdataAsText := false, prefixErrorPosition := false, ignoreQualified := false }

theorem positions_of_two_chunks : ∃ after whole : ParseContext Unit Unit Empty,
    after.cursor.lineNumber = whole.cursor.lineNumber ∧ after.cursor.charNumber = whole.cursor.charNumber ∧
      after.cursor.lineNumber.toInt = 1 + newlines [bytes "<a>", bytes "x\n</a>"].flatten :=
  ⟨_, _, (positions_chunk_independent_iff silent (fun _ => true) () plainFlags () [bytes "<a>", bytes "x\n</a>"] _ _ rfl rfl).mpr
    (by decide)⟩

/-- The newline at the start of the second chunk is not counted. -/
theorem newline_at_chunk_start_missed : ∃ after whole : ParseContext Unit Unit Empty,
    parseChunks silent (fun _ => true) (xmarkupParseContextNew () plainFlags ()) [bytes "<a>", bytes "\n</a>"] = .ok (after, true) ∧
      xmarkupParseContextParse silent (fun _ => true) (xmarkupParseContextNew () plainFlags ()) (bytes "<a>\n</a>") =
        .ok (whole, true) ∧
      after.cursor.lineNumber = 1 ∧ whole.cursor.lineNumber = 2 :=
  ⟨_, _, rfl, rfl, rfl, rfl⟩

end Xpl.Markup
