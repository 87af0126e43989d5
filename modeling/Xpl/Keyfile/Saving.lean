import Xpl.Keyfile.Building
import Xpl.Text.WellFormed

/-! What the tests of names let through. -/

set_option autoImplicit false

namespace Xpl.Keyfile
open Xpl.Library Xpl.Text
variable {setting : Setting}
variable {stop : Bytes → Bool} {inside : Bool} {s q : Bytes}

/-! ## Scanning -/

/-- The loop passes over continuation bytes and over what does not stop it. -/
theorem scan_split (scanned : scan stop inside s = q) :
    ∃ p, s = p ++ q ∧ ∀ before c after, p = before ++ c :: after → isContinuation c ∨ stop (c :: after ++ q) = false := by
  induction s generalizing inside with
  | nil =>
    cases scanned
    exact ⟨[], rfl, fun before c after split => absurd split (by simp)⟩
  | cons c rest ih =>
    rw [scan] at scanned
    -- the head is passed over, and the rest as the loop goes on
    have goes_on : scan stop true rest = q → isContinuation c ∨ stop (c :: rest) = false →
        ∃ p, c :: rest = p ++ q ∧ ∀ before c after, p = before ++ c :: after → isContinuation c ∨ stop (c :: after ++ q) = false := by
      intro scanned passed
      obtain ⟨p, rfl, all⟩ := ih scanned
      refine ⟨c :: p, rfl, fun before d after split => ?_⟩
      cases before with
      | nil =>
        cases split
        exact passed
      | cons _ before =>
        obtain ⟨-, split⟩ := List.cons.inj split
        exact all before d after split
    split at scanned
    · exact goes_on scanned (.inl (Bool.and_eq_true_iff.mp ‹_›).2)
    · split at scanned
      · exact ⟨[], scanned, fun before c after split => absurd split (by simp)⟩
      · exact goes_on scanned (.inr (by simpa using ‹¬stop (c :: rest) = true›))

variable {test : UInt8 → Bool}

/-- A loop that looks at single bytes. -/
theorem scan_byte (scanned : scan (fun q => test (charAt q)) inside s = q) :
    ∃ p, s = p ++ q ∧ ∀ c ∈ p, isContinuation c ∨ test c = false := by
  obtain ⟨p, split, all⟩ := scan_split scanned
  refine ⟨p, split, fun c given => ?_⟩
  obtain ⟨before, after, rfl⟩ := List.append_of_mem given
  exact all before c after rfl

theorem scan_stops {c : UInt8} {p rest : Bytes} (passed : ∀ c ∈ p, test c = false) (stops : test c) (lead : isContinuation c = false) :
    scan (fun q => test (charAt q)) inside (p ++ c :: rest) = c :: rest := by
  induction p generalizing inside with
  | nil =>
    rw [List.nil_append, scan, if_neg (by simp [lead])]
    exact if_pos stops
  | cons d p ih =>
    obtain ⟨first, others⟩ := List.forall_mem_cons.mp passed
    rw [List.cons_append, scan]
    split
    · exact ih others
    · rw [if_neg (by simp [charAt, first])]
      exact ih others

/-- Continuation bytes are above the ASCII characters. -/
theorem continuation_other {c : UInt8} (continuation : isContinuation c) :
    c ≠ closeBracket ∧ c ≠ openBracket ∧ c ≠ equals ∧ isCntrl c = false := by
  have above := ((isContinuation_iff c).mp continuation).1
  refine ⟨?_, ?_, ?_, ?_⟩
  · rintro rfl
    exact absurd above (by decide)
  · rintro rfl
    exact absurd above (by decide)
  · rintro rfl
    exact absurd above (by decide)
  · have low : ¬c < 32 := by
      change ¬c.toNat < 32
      omega
    have delete : c ≠ 127 := by
      rintro rfl
      exact absurd above (by decide)
    simp [isCntrl, low, delete]

/-! ## Group names -/

theorem isGroupName_bytes {name : Bytes} (acceptable : isGroupName name) :
    ∀ c ∈ name, c ≠ closeBracket ∧ c ≠ openBracket ∧ isCntrl c = false := by
  obtain ⟨empty, -⟩ := Bool.and_eq_true_iff.mp acceptable
  obtain ⟨p, split, all⟩ := @scan_byte false name _ (fun c => c == closeBracket || c == openBracket || isCntrl c)
    (List.isEmpty_iff.mp empty)
  rw [List.append_nil] at split
  subst split
  intro c given
  rcases all c given with continuation | passed
  · obtain ⟨close, open_, -, cntrl⟩ := continuation_other continuation
    exact ⟨close, open_, cntrl⟩
  · simp only [Bool.or_eq_false_iff, beq_eq_false_iff_ne] at passed
    exact ⟨passed.1.1, passed.1.2, passed.2⟩

theorem isGroupName_line {name : Bytes} (acceptable : isGroupName name) :
    lineIsGroup (openBracket :: name ++ [closeBracket]) := by
  have passed : ∀ c ∈ name, (fun c => c == closeBracket) c = false := fun c given => by
    simpa using (isGroupName_bytes acceptable c given).1
  unfold lineIsGroup
  rw [List.cons_append, List.tail_cons, scan_stops passed (by decide) (by decide)]
  rfl

/-! ## Key names -/

def nameEnd (key : Bytes) : Bytes :=
  scan (fun q => charAt q == equals || charAt q == openBracket || charAt q == closeBracket) false key

theorem nameEnd_split (key : Bytes) : ∃ p, key = p ++ nameEnd key ∧ ∀ c ∈ p, c ≠ equals ∧ c ≠ openBracket := by
  obtain ⟨p, split, all⟩ := @scan_byte false key _ (fun c => c == equals || c == openBracket || c == closeBracket) rfl
  refine ⟨p, split, fun c given => ?_⟩
  rcases all c given with continuation | passed
  · obtain ⟨-, open_, equal, -⟩ := continuation_other continuation
    exact ⟨equal, open_⟩
  · simp only [Bool.or_eq_false_iff, beq_eq_false_iff_ne] at passed
    exact passed.1

theorem isLocaleEnd_line (setting : Setting) (q rest : Bytes) :
    isLocaleEnd setting q (equals :: rest) = isLocaleEnd setting q [] := by
  unfold isLocaleEnd
  cases q with
  | nil => rfl
  | cons c q =>
    dsimp only [List.isEmpty_cons, List.tail_cons]
    cases scan (fun q => !isLocaleChar setting q) false q with
    | nil => rfl
    | cons d q => rfl

theorem isKeyName_line (setting : Setting) {key : Bytes} (rest : Bytes) :
    isKeyName setting (key ++ equals :: rest) key.length = isKeyName setting key key.length := by
  unfold isKeyName
  dsimp only
  rw [List.take_left, List.drop_left, List.take_length, List.drop_length, isLocaleEnd_line]
  change (if (nameEnd key).length = key.length then _ else _) = if (nameEnd key).length = key.length then _ else _
  split
  · rfl
  rename_i shorter
  obtain ⟨p, split_key, -⟩ := nameEnd_split key
  have lengths : key.length = p.length + (nameEnd key).length := by
    conv => lhs; rw [split_key]
    exact List.length_append
  have first : charAt (key ++ equals :: rest) = charAt key := by
    cases key with
    | nil => exact absurd rfl shorter
    | cons c key => rfl
  have before : (key ++ equals :: rest).getD (key.length - (nameEnd key).length - 1) 0 =
      key.getD (key.length - (nameEnd key).length - 1) 0 := List.getD_append _ _ _ _ (by omega)
  rw [first]
  change (if charAt key = space || (key ++ equals :: rest).getD (key.length - (nameEnd key).length - 1) 0 = space then _ else _) = _
  rw [before]
  rfl

theorem isLocaleChar_equals (ascii : setting.isalnum 61 = false) (rest : Bytes) :
    isLocaleChar setting (equals :: rest) = false := by
  have read : xutf8GetCharValidated (equals :: rest) 0 (some (equals :: rest).length) = some 61 := by
    rfl
  unfold isLocaleChar
  rw [read, Option.any_some, ascii]
  rfl

theorem isLocaleEnd_bytes (ascii : setting.isalnum 61 = false) {q : Bytes} (ends : isLocaleEnd setting q [] = true) :
    equals ∉ q := by
  unfold isLocaleEnd at ends
  cases q with
  | nil => exact List.not_mem_nil
  | cons c q =>
    dsimp only [List.isEmpty_cons, List.tail_cons] at ends
    rw [List.append_nil] at ends
    by_cases opens : c = openBracket
    · rw [if_pos (show charAt (c :: q) = openBracket from opens)] at ends
      obtain ⟨p, split, all⟩ := @scan_split (fun q => !isLocaleChar setting q) false q _ rfl
      generalize scan (fun q => !isLocaleChar setting q) false q = left at ends split all
      rw [if_neg Bool.false_ne_true, List.append_nil] at ends
      have closes : left = [closeBracket] := by
        cases left with
        | nil => cases ends
        | cons d left =>
          by_cases close : d = closeBracket
          · rw [if_neg (not_not.mpr (show charAt (d :: left) = closeBracket from close))] at ends
            have short := of_decide_eq_true ends
            have none_left : left = [] := List.eq_nil_of_length_eq_zero (by rw [List.length_cons] at short; omega)
            rw [close, none_left]
          · rw [if_pos (show charAt (d :: left) ≠ closeBracket from close)] at ends
            cases ends
      intro given
      rcases List.mem_cons.mp given with same | given
      · exact absurd (same.trans opens) (by decide)
      rw [split, closes, List.mem_append] at given
      rcases given with given | given
      · obtain ⟨before, after, split'⟩ := List.append_of_mem given
        rcases all before equals after split' with continuation | passed
        · exact absurd continuation (by decide)
        · rw [List.cons_append, isLocaleChar_equals ascii] at passed
          cases passed
      · exact absurd (List.mem_singleton.mp given) (by decide)
    · rw [if_neg (show ¬charAt (c :: q) = openBracket from opens)] at ends
      cases ends

theorem isKeyName_bytes {key : Bytes} (acceptable : isKeyName setting key key.length)
    (ascii : setting.isalnum 61 = false) : equals ∉ key ∧ key ≠ [] ∧ charAt key ≠ openBracket ∧ charAt key ≠ equals := by
  unfold isKeyName at acceptable
  dsimp only at acceptable
  rw [List.take_length, List.drop_length] at acceptable
  obtain ⟨p, split_key, passed⟩ := nameEnd_split key
  split at acceptable
  · cases acceptable
  rename_i shorter
  split at acceptable
  · cases acceptable
  cases p with
  | nil =>
    exact absurd (congrArg List.length split_key.symm) shorter
  | cons c p =>
    have locale := isLocaleEnd_bytes ascii acceptable
    have head : charAt key = c := by
      rw [split_key]
      rfl
    obtain ⟨equal, open_⟩ := passed c List.mem_cons_self
    refine ⟨fun given => ?_, ?_, head ▸ open_, head ▸ equal⟩
    · rw [split_key] at given
      rcases List.mem_append.mp given with given | given
      · exact (passed _ given).1 rfl
      · exact locale given
    · rintro rfl
      cases split_key

/-! The text of a key file, and reading it back line by line. -/

/-! ## The text -/

def pairLine (pair : Bytes × Bytes) : Bytes := pair.1 ++ equals :: pair.2 ++ [newline]

def groupLine (name : Bytes) : Bytes := openBracket :: name ++ [closeBracket, newline]

/-- An empty line stands between groups. -/
def gap (data : Bytes) : Bytes := if 2 ≤ data.length ∧ data.getD (data.length - 2) 0 ≠ newline then [newline] else []

namespace KeyFile

variable {setting : Setting} {file : KeyFile}

theorem parseData_append (file : KeyFile) (one two : Bytes) :
    file.parseData setting (one ++ two) = (file.parseData setting one).andThen fun file => file.parseData setting two := by
  induction one generalizing file with
  | nil => rfl
  | cons c one ih =>
    rw [List.cons_append, parseData, parseData]
    split
    · cases file.endLine setting with
      | error halt => rfl
      | ok result =>
        cases result with
        | error error => rfl
        | ok file => exact ih file
    · exact ih _

theorem andThen_done (parsed : Parsed) : parsed.andThen (fun file => parseData setting file []) = parsed := by
  match parsed with
  | .error halt => rfl
  | .ok (.error error) => rfl
  | .ok (.ok file) => rfl

theorem parseData_buffer {line : Bytes} (within : newline ∉ line) (rest : Bytes) :
    file.parseData setting (line ++ rest) = { file with parseBuffer := file.parseBuffer ++ line }.parseData setting rest := by
  induction line generalizing file with
  | nil => simp
  | cons c line ih =>
    have inner : c ≠ newline := fun same => within (same ▸ List.mem_cons_self)
    rw [List.cons_append, parseData, if_neg inner, ih fun given => within (List.mem_cons_of_mem _ given)]
    simp

theorem buffer_eta (empty : file.parseBuffer = []) : { file with parseBuffer := [] } = file := by
  cases file
  cases empty
  rfl

theorem parseData_line (empty : file.parseBuffer = []) {line : Bytes} (within : newline ∉ line) (nonempty : line ≠ [])
    (last : line.getLast? ≠ some carriageReturn) :
    file.parseData setting (line ++ [newline]) = file.parseLine setting line := by
  rw [parseData_buffer within, empty, List.nil_append, parseData, if_pos rfl]
  have done : endLine setting { file with parseBuffer := line } = file.parseLine setting line := by
    unfold endLine
    rw [if_neg last]
    dsimp only
    have some_bytes : line.isEmpty = false := by
      cases line with
      | nil => exact absurd rfl nonempty
      | cons c line => rfl
    rw [some_bytes, if_neg Bool.false_ne_true]
    unfold flushParseBuffer
    rw [some_bytes, if_neg Bool.false_ne_true, buffer_eta empty]
  rw [done]
  exact andThen_done _

theorem parseData_gap (empty : file.parseBuffer = []) : file.parseData setting [newline] = file.parseComment [] := by
  rw [parseData, if_pos rfl]
  have done : file.endLine setting = file.parseComment [] := by
    have no_last : file.parseBuffer.getLast? ≠ some carriageReturn := by
      rw [empty]
      exact nofun
    unfold endLine
    rw [if_neg no_last]
    dsimp only
    rw [empty]
    rfl
  rw [done]
  exact andThen_done _

end KeyFile

end Xpl.Keyfile
