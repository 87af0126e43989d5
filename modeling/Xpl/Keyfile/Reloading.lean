import Xpl.Keyfile.Saving

/-! Reading a saved key file back: each line that is written says again what it was written from. -/

set_option autoImplicit false

namespace Xpl.Keyfile
open Xpl.Library

structure KeySurvives (key : Bytes) : Prop where
  line : newline ∉ key
  first : charAt key ≠ hash ∧ isSpace (charAt key) = false
  last : ∀ c, key.getLast? = some c → isSpace c = false

namespace KeyFile
variable {key value : Bytes}

/-- A key file that is being loaded, between two lines. -/
structure Loads (file : KeyFile) (contents : Contents) : Prop where
  holds : file.Holds True
  buffer : file.parseBuffer = []
  translations : file.keepTranslations = true
  separator : file.listSeparator = 59
  contents : file.contents = contents

/-- The last group of the file is the current one. -/
structure Reading (file : KeyFile) (done : Contents) (name : Bytes) (pairs : List (Bytes × Bytes)) : Prop where
  loads : file.Loads (done ++ [(name, pairs)])
  head : ∃ address held rest, file.groups = (address, held) :: rest ∧ file.currentGroup = some address ∧
    held.name = some name ∧ held.pairs = pairs

variable {setting : Setting} {file : KeyFile} {contents done : Contents} {name : Bytes} {pairs : List (Bytes × Bytes)}

theorem contents_cons {address : Address} {held : Group} {rest : List (Address × Group)}
    (groups : file.groups = (address, held) :: rest) (named : held.name = some name) :
    file.contents = { file with groups := rest }.contents ++ [(name, held.pairs)] := by
  unfold KeyFile.contents
  rw [groups, List.reverse_cons, List.filterMap_append]
  congr 1
  rw [List.filterMap_cons, named]
  rfl

theorem Reading.rest (h : file.Reading done name pairs) : ∃ address held rest, file.groups = (address, held) :: rest ∧
    file.currentGroup = some address ∧ held.name = some name ∧ held.pairs = pairs ∧ { file with groups := rest }.contents = done := by
  obtain ⟨address, held, rest, groups, current, named, same⟩ := h.head
  refine ⟨address, held, rest, groups, current, named, same, ?_⟩
  have all := h.loads.contents
  rw [contents_cons groups named] at all
  exact (List.append_inj' all rfl).1

theorem Reading.start_iff (h : file.Reading done name pairs) : file.startGroup = file.currentGroup ↔ done = [] := by
  obtain ⟨address, held, rest, groups, current, named, -, before⟩ := h.rest
  have start := h.loads.holds.consistent.startGroup
  have distinct := h.loads.holds.distinct
  rw [groups] at start distinct
  rw [List.reverse_cons, List.find?_append] at start
  unfold KeyFile.contents at before
  cases first : rest.reverse.find? (·.2.name.isSome) with
  | none =>
    have empty : done = [] := by
      rw [← before, List.filterMap_eq_nil_iff]
      intro other inside
      have unnamed := List.find?_eq_none.mp first other inside
      rw [Option.not_isSome_iff_eq_none.mp unnamed]
      rfl
    rw [first] at start
    have found : [(address, held)].find? (·.2.name.isSome) = some (address, held) := by
      rw [List.find?_cons_of_pos (by simp [named])]
    rw [found] at start
    exact iff_of_true (start.trans current.symm) empty
  | some other =>
    have there := List.mem_reverse.mp (List.mem_of_find?_eq_some first)
    have apart : other.1 ≠ address := by
      intro same
      have inside : other.1 ∈ rest.map Prod.fst := List.mem_map_of_mem there
      exact (List.nodup_cons.mp distinct).1 (same ▸ inside)
    have nonempty : done ≠ [] := by
      rw [← before]
      intro empty
      have nothing := List.filterMap_eq_nil_iff.mp empty other (List.mem_reverse.mpr there)
      have has_name : other.2.name.isSome := by simpa using List.find?_some first
      obtain ⟨other_name, named_other⟩ := Option.isSome_iff_exists.mp has_name
      rw [named_other] at nothing
      cases nothing
    rw [first] at start
    refine iff_of_false (fun same => ?_) nonempty
    rw [start, current] at same
    exact apart (Option.some.inj same)

theorem Reading.change (h : file.Reading done name pairs) {address : Address} {held : Group} {rest : List (Address × Group)}
    (groups : file.groups = (address, held) :: rest) (current : file.currentGroup = some address) (named : held.name = some name)
    {change : Group → Group} {fresh : Address} {pairs' : List (Bytes × Bytes)} (same_name : (change held).name = held.name)
    (result : (change held).pairs = pairs')
    (holds : { file with groups := updateRecord file.groups address change, fresh }.Holds True) :
    { file with groups := updateRecord file.groups address change, fresh }.Reading done name pairs' := by
  have distinct := h.loads.holds.distinct
  rw [groups] at distinct
  have after : updateRecord file.groups address change = (address, change held) :: rest := by
    rw [groups]
    exact updateRecord_head distinct
  have before : { file with groups := rest }.contents = done := by
    have all := h.loads.contents
    rw [contents_cons groups named] at all
    exact (List.append_inj' all rfl).1
  refine ⟨⟨holds, h.loads.buffer, h.loads.translations, h.loads.separator, ?_⟩, address, change held, rest, after, current,
    same_name.trans named, result⟩
  rw [contents_cons after (same_name.trans named), result, ← before]
  rfl

/-! ## A gap -/

theorem Reading.gap (h : file.Reading done name pairs) :
    ∃ file', file.parseData setting [newline] = .ok (.ok file') ∧ file'.Reading done name pairs := by
  rw [parseData_gap h.loads.buffer]
  obtain ⟨address, held, rest, groups, current, named, same⟩ := h.head
  have keeps := h.loads.holds.parseComment []
  unfold parseComment at keeps ⊢
  split
  · exact ⟨file, rfl, h⟩
  · rename_i kept
    rw [if_neg kept] at keeps
    have inside : (address, held) ∈ file.groups := by
      rw [groups]
      exact List.mem_cons_self
    rw [current] at keeps ⊢
    dsimp only at keeps ⊢
    rw [record_of_mem h.loads.holds.distinct inside] at keeps ⊢
    refine ⟨_, rfl, ?_⟩
    rw [← current]
    rw [← current] at keeps
    apply h.change groups current named rfl _ keeps
    simpa [Group.pairs] using same

/-! ## A group line -/

theorem cString_of_plain {bytes : Bytes} (plain : 0 ∉ bytes) : cString bytes = bytes :=
  List.takeWhile_eq_self_iff.mpr fun _ given => decide_eq_true fun zero => plain (zero ▸ given)

theorem beforeLast_close (line : Bytes) : beforeLast closeBracket (line ++ [closeBracket]) = line := by
  unfold beforeLast
  rw [List.reverse_append, List.reverse_singleton, List.singleton_append, List.dropWhile_cons_of_neg (by simp), List.tail_cons,
    List.reverse_reverse]

theorem groupName_plain {name : Bytes} (acceptable : isGroupName name) : 0 ∉ name ∧ newline ∉ name := by
  constructor
  · intro given
    exact absurd (isGroupName_bytes acceptable 0 given).2.2 (by decide)
  · intro given
    exact absurd (isGroupName_bytes acceptable newline given).2.2 (by decide)

theorem parseData_groupLine (empty : file.parseBuffer = []) (acceptable : isGroupName name) :
    file.parseData setting (groupLine name) = .ok (.ok (file.addGroup name)) := by
  obtain ⟨no_zero, no_newline⟩ := groupName_plain acceptable
  have inner : newline ∉ openBracket :: name ++ [closeBracket] := by
    intro given
    rcases List.mem_append.mp given with given | given
    · rcases List.mem_cons.mp given with same | given
      · exact absurd same (by decide)
      · exact no_newline given
    · exact absurd (List.mem_singleton.mp given) (by decide)
  have plain : 0 ∉ openBracket :: name ++ [closeBracket] := by
    intro given
    rcases List.mem_append.mp given with given | given
    · rcases List.mem_cons.mp given with same | given
      · exact absurd same (by decide)
      · exact no_zero given
    · exact absurd (List.mem_singleton.mp given) (by decide)
  have split : groupLine name = (openBracket :: name ++ [closeBracket]) ++ [newline] := by
    rw [List.append_assoc]
    rfl
  have start : (openBracket :: name ++ [closeBracket]).dropWhile isSpace = openBracket :: name ++ [closeBracket] :=
    List.dropWhile_cons_of_neg (by decide)
  have last : (openBracket :: name ++ [closeBracket]).getLast? ≠ some carriageReturn := by
    rw [List.getLast?_append]
    exact fun same => absurd (Option.some.inj same) (by decide)
  rw [split, parseData_line empty inner (by simp) last]
  have no_comment : lineIsComment (openBracket :: name ++ [closeBracket]) = false := rfl
  unfold parseLine
  dsimp only
  rw [start, cString_of_plain plain, no_comment, if_neg Bool.false_ne_true, if_pos (isGroupName_line acceptable)]
  unfold parseGroup
  rw [beforeLast_close, List.tail_cons, cString_of_plain no_zero]
  dsimp only
  rw [acceptable]
  rfl

theorem Loads.group (h : file.Loads contents) (acceptable : isGroupName name) (fresh : name ∉ contents.map Prod.fst) :
    (file.addGroup name).Reading contents name [] := by
  have missing : file.lookupGroup name = none := by
    rw [h.holds.lookup_none, h.contents]
    exact fresh
  have holds := h.holds.addGroup name
  unfold addGroup at holds ⊢
  rw [missing, if_neg (by simp [acceptable])] at holds ⊢
  refine ⟨⟨holds, h.buffer, h.translations, h.separator, ?_⟩, _, _, _, rfl, rfl, rfl, rfl⟩
  rw [contents_cons rfl rfl, ← h.contents]
  rfl

/-! ## A pair's line -/

/-- The start group's encoding is UTF-8, as far as the pair says it. -/
def EncodingFits (done : Contents) (pair : Bytes × Bytes) : Prop :=
  done = [] → pair.1 = encodingKey → isUtf8Encoding (pair.2.dropWhile isSpace)

theorem keyOfLine_pair (no_equals : equals ∉ key) (rest : Bytes) :
    keyOfLine (key ++ equals :: rest) = key.rdropWhile isSpace := by
  unfold keyOfLine
  have all : ∀ c ∈ key, decide (c ≠ equals) = true := fun c given => decide_eq_true fun same => no_equals (same ▸ given)
  rw [List.takeWhile_append_of_pos all, List.takeWhile_cons_of_neg (by simp), List.append_nil]

theorem valueOfLine_pair (no_equals : equals ∉ key) (rest : Bytes) :
    valueOfLine (key ++ equals :: rest) = rest.dropWhile isSpace := by
  unfold valueOfLine
  have all : ∀ c ∈ key, decide (c ≠ equals) = true := fun c given => decide_eq_true fun same => no_equals (same ▸ given)
  rw [List.dropWhile_append_of_pos all, List.dropWhile_cons_of_neg (by simp), List.tail_cons]

theorem charAt_append (nonempty : key ≠ []) (rest : Bytes) : charAt (key ++ rest) = charAt key := by
  cases key with
  | nil => exact absurd rfl nonempty
  | cons c key => rfl

theorem dropWhile_of_head {line : Bytes} (solid : isSpace (charAt line) = false) : line.dropWhile isSpace = line := by
  cases line with
  | nil => rfl
  | cons c line => exact List.dropWhile_cons_of_neg (by simpa [charAt] using solid)

theorem not_mem_pair {c : UInt8} (outside : c ∉ key) (other : c ≠ equals) (plain : c ∉ value) : c ∉ key ++ equals :: value := by
  simp [outside, other, plain]

theorem getLast?_pair (plain_value : IsPlainValue value) : (key ++ equals :: value).getLast? ≠ some carriageReturn := by
  intro same
  rw [List.getLast?_append_of_ne_nil _ (List.cons_ne_nil _ _)] at same
  rcases List.mem_cons.mp (List.mem_of_getLast? same) with same | there
  · exact absurd same (by decide)
  · exact (plain_value _ there).2.2 rfl

theorem dropWhile_plain (plain : IsPlainValue value) : 0 ∉ value.dropWhile isSpace :=
  fun given => (plain 0 ((List.dropWhile_sublist _).subset given)).1 rfl

theorem parseLine_pair (no_equals : equals ∉ key) (nonempty : key ≠ []) (open_ : charAt key ≠ openBracket)
    (equal : charAt key ≠ equals) (plain : 0 ∉ key) (survives : KeySurvives key) (plain_value : IsPlainValue value) :
    file.parseLine setting (key ++ equals :: value) = file.parseKeyValuePair setting (key ++ equals :: value) := by
  have head : charAt (key ++ equals :: value) = charAt key := charAt_append nonempty _
  have start : (key ++ equals :: value).dropWhile isSpace = key ++ equals :: value := dropWhile_of_head (head ▸ survives.first.2)
  have plain_line : 0 ∉ key ++ equals :: value := not_mem_pair plain (by decide) fun given => (plain_value 0 given).1 rfl
  have member : charAt key ∈ key := by
    cases key with
    | nil => exact absurd rfl nonempty
    | cons c key => exact List.mem_cons_self
  have no_comment : lineIsComment (key ++ equals :: value) = false := by
    unfold lineIsComment
    rw [head]
    have zero : charAt key ≠ 0 := fun same => plain (same ▸ member)
    have inner : charAt key ≠ newline := fun same => survives.line (same ▸ member)
    simp [survives.first.1, zero, inner]
  have no_group : lineIsGroup (key ++ equals :: value) = false := by
    unfold lineIsGroup
    rw [head, if_pos open_]
  have is_pair : lineIsKeyValuePair (key ++ equals :: value) = true := by
    unfold lineIsKeyValuePair
    rw [head]
    simp [equal]
  unfold parseLine
  dsimp only
  rw [start, cString_of_plain plain_line, no_comment, if_neg Bool.false_ne_true, no_group, if_neg Bool.false_ne_true, if_pos is_pair]

theorem Reading.pair (ascii : setting.isalnum 61 = false) (h : file.Reading done name pairs)
    (acceptable : isKeyName setting key key.length) (plain : 0 ∉ key) (survives : KeySurvives key) (plain_value : IsPlainValue value) :
    (EncodingFits done (key, value) → ∃ file', file.parseData setting (pairLine (key, value)) = .ok (.ok file') ∧
      file'.Reading done name (pairs ++ [(key, value.dropWhile isSpace)])) ∧
    (¬EncodingFits done (key, value) → ∃ error, file.parseData setting (pairLine (key, value)) = .ok (.error error)) := by
  obtain ⟨no_equals, nonempty, open_, equal⟩ := isKeyName_bytes acceptable ascii
  have inner : newline ∉ key ++ equals :: value :=
    not_mem_pair survives.line (by decide) fun given => (plain_value newline given).2.1 rfl
  have split : pairLine (key, value) = (key ++ equals :: value) ++ [newline] := by
    unfold pairLine
    simp
  have key_read : keyOfLine (key ++ equals :: value) = key := by
    rw [keyOfLine_pair no_equals, List.rdropWhile_eq_self_iff]
    intro nonempty
    simpa using survives.last _ (List.getLast?_eq_getLast_of_ne_nil nonempty)
  have plain_line : 0 ∉ key ++ equals :: value := not_mem_pair plain (by decide) fun given => (plain_value 0 given).1 rfl
  rw [split, parseData_line h.loads.buffer inner (by simp) (getLast?_pair plain_value),
    parseLine_pair no_equals nonempty open_ equal plain survives plain_value]
  obtain ⟨address, held, rest, groups, current, named, same⟩ := h.head
  have inside : (address, held) ∈ file.groups := by
    rw [groups]
    exact List.mem_cons_self
  have has_name : held.name.isSome := Option.isSome_iff_exists.mpr ⟨name, named⟩
  have recorded := record_of_mem h.loads.holds.distinct inside
  have parsed : file.parseKeyValuePair setting (key ++ equals :: value) =
      if file.startGroup = some address ∧ key = encodingKey ∧ !isUtf8Encoding (value.dropWhile isSpace) then
        .ok (.error (.unsupportedEncoding (value.dropWhile isSpace)))
      else (file.addKey address key (value.dropWhile isSpace)).map .ok := by
    unfold parseKeyValuePair
    rw [current]
    dsimp only
    rw [recorded]
    dsimp only [bind, Except.bind]
    rw [if_neg (Option.isSome_iff_ne_none.mp has_name), key_read, valueOfLine_pair no_equals, cString_of_plain plain_line,
      isKeyName_line, acceptable, cString_of_plain (dropWhile_plain plain_value)]
    have interesting : ∀ locale len, localeIsInteresting setting file.keepTranslations locale len = true := by
      intro locale len
      rw [h.loads.translations]
      rfl
    cases keyGetLocale key with
    | none => rfl
    | some locale =>
      dsimp only
      rw [if_pos (interesting _ _)]
      rfl
  have start := h.start_iff
  rw [current] at start
  obtain ⟨file', added, holds⟩ := h.loads.holds.addKey inside has_name key (value.dropWhile isSpace)
  rw [parsed]
  constructor
  · intro fits
    rw [if_neg fun ⟨first, encoding, unfit⟩ => by simp [fits (start.mp first) encoding] at unfit, added]
    refine ⟨file', rfl, ?_⟩
    unfold addKey at added
    rw [recorded] at added
    cases added
    apply h.change groups current named rfl _ holds
    unfold Group.pairs Group.addKeyValuePair at *
    rw [List.reverse_cons, List.filterMap_append, same]
    rfl
  · intro unfit
    unfold EncodingFits at unfit
    push Not at unfit
    obtain ⟨first, encoding, unfit⟩ := unfit
    rw [if_pos ⟨start.mpr first, encoding, by simpa using unfit⟩]
    exact ⟨_, rfl⟩

/-! ## The whole text -/

/-- A pair as it is read back. -/
def reread (pair : Bytes × Bytes) : Bytes × Bytes := (pair.1, pair.2.dropWhile isSpace)

def rereadGroup (group : Bytes × List (Bytes × Bytes)) : Bytes × List (Bytes × Bytes) := (group.1, group.2.map reread)

/-- Pairs as the setters make them. -/
def IsSet (setting : Setting) (pair : Bytes × Bytes) : Prop :=
  isKeyName setting pair.1 pair.1.length ∧ 0 ∉ pair.1 ∧ IsPlainValue pair.2

theorem Reading.lines (ascii : setting.isalnum 61 = false) (h : file.Reading done name pairs) {more : List (Bytes × Bytes)}
    (set : ∀ pair ∈ more, IsSet setting pair ∧ KeySurvives pair.1) :
    ((∀ pair ∈ more, EncodingFits done pair) → ∃ file', file.parseData setting (more.flatMap pairLine) = .ok (.ok file') ∧
      file'.Reading done name (pairs ++ more.map reread)) ∧
    ((¬∀ pair ∈ more, EncodingFits done pair) → ∃ error, file.parseData setting (more.flatMap pairLine) = .ok (.error error)) := by
  induction more generalizing file pairs with
  | nil =>
    refine ⟨fun _ => ⟨file, rfl, ?_⟩, fun unfit => absurd nofun unfit⟩
    rw [List.map_nil, List.append_nil]
    exact h
  | cons pair more ih =>
    obtain ⟨⟨⟨acceptable, plain, plain_value⟩, survives⟩, others⟩ := List.forall_mem_cons.mp set
    obtain ⟨passes, fails⟩ := h.pair ascii acceptable plain survives plain_value
    rw [List.flatMap_cons, parseData_append]
    by_cases fits : EncodingFits done pair
    · obtain ⟨file₁, read, reading⟩ := passes fits
      obtain ⟨all, some_unfit⟩ := ih reading others
      have step : (file.parseData setting (pairLine pair)).andThen (fun file => file.parseData setting (more.flatMap pairLine)) =
          file₁.parseData setting (more.flatMap pairLine) := by
        rw [show pairLine pair = pairLine (pair.1, pair.2) from rfl, read]
        rfl
      rw [step]
      constructor
      · intro fit
        obtain ⟨file', done', after⟩ := all fun other given => fit other (List.mem_cons_of_mem _ given)
        refine ⟨file', done', ?_⟩
        rw [List.append_assoc] at after
        exact after
      · intro unfit
        exact some_unfit fun fit => unfit (List.forall_mem_cons.mpr ⟨fits, fit⟩)
    · obtain ⟨error, failed⟩ := fails fits
      refine ⟨fun fit => absurd (fit pair List.mem_cons_self) fits, fun _ => ⟨error, ?_⟩⟩
      rw [show pairLine pair = pairLine (pair.1, pair.2) from rfl, failed]
      rfl

def textAfter (data : Bytes) : Contents → Bytes
  | [] => []
  | group :: groups =>
    let more := gap data ++ groupLine group.1 ++ group.2.flatMap pairLine
    more ++ textAfter (data ++ more) groups

/-- The key file stands before a group that begins: nothing is read yet, or the group before is complete. -/
def Between (file : KeyFile) (done : Contents) (data : Bytes) : Prop :=
  file.Loads done ∧ ((done = [] ∧ data = []) ∨ ∃ before name pairs, done = before ++ [(name, pairs)] ∧ file.Reading before name pairs)

theorem Between.begin {data : Bytes} (h : file.Between done data) (acceptable : isGroupName name) (fresh : name ∉ done.map Prod.fst) :
    ∃ file', file.parseData setting (gap data ++ groupLine name) = .ok (.ok file') ∧ file'.Reading done name [] := by
  obtain ⟨loads, ⟨rfl, rfl⟩ | ⟨before, last, pairs, rfl, reading⟩⟩ := h
  · refine ⟨_, ?_, loads.group acceptable fresh⟩
    exact parseData_groupLine loads.buffer acceptable
  · unfold Keyfile.gap
    split
    · obtain ⟨file₁, read, reading₁⟩ := @Reading.gap setting _ _ _ _ reading
      refine ⟨_, ?_, reading₁.loads.group acceptable fresh⟩
      rw [parseData_append, read]
      exact parseData_groupLine reading₁.loads.buffer acceptable
    · refine ⟨_, ?_, loads.group acceptable fresh⟩
      exact parseData_groupLine loads.buffer acceptable

theorem Between.group (ascii : setting.isalnum 61 = false) {data : Bytes} (h : file.Between done data)
    {group : Bytes × List (Bytes × Bytes)} (acceptable : isGroupName group.1) (fresh : group.1 ∉ done.map Prod.fst)
    (set : ∀ pair ∈ group.2, IsSet setting pair ∧ KeySurvives pair.1) :
    ((∀ pair ∈ group.2, EncodingFits done pair) →
      ∃ file', file.parseData setting (gap data ++ groupLine group.1 ++ group.2.flatMap pairLine) = .ok (.ok file') ∧
        ∀ data', file'.Between (done ++ [rereadGroup group]) data') ∧
    ((¬∀ pair ∈ group.2, EncodingFits done pair) →
      ∃ error, file.parseData setting (gap data ++ groupLine group.1 ++ group.2.flatMap pairLine) = .ok (.error error)) := by
  obtain ⟨file₁, began, reading⟩ := @Between.begin setting _ _ _ _ h acceptable fresh
  have step : file.parseData setting (gap data ++ groupLine group.1 ++ group.2.flatMap pairLine) =
      file₁.parseData setting (group.2.flatMap pairLine) := by
    rw [parseData_append, began]
    rfl
  rw [step]
  obtain ⟨passes, fails⟩ := reading.lines ascii set
  refine ⟨fun fits => ?_, fails⟩
  obtain ⟨file', read, after⟩ := passes fits
  exact ⟨file', read, fun data' => ⟨after.loads, .inr ⟨done, group.1, group.2.map reread, rfl, after⟩⟩⟩

/-- The encodings that the first group names are UTF-8. -/
def EncodingsFit (done groups : Contents) : Prop := ∀ group, groups.head? = some group → ∀ pair ∈ group.2, EncodingFits done pair

theorem Between.groups (ascii : setting.isalnum 61 = false) {data : Bytes} (h : file.Between done data) {groups : Contents}
    (acceptable : ∀ group ∈ groups, isGroupName group.1) (distinct : (done.map Prod.fst ++ groups.map Prod.fst).Nodup)
    (set : ∀ group ∈ groups, ∀ pair ∈ group.2, IsSet setting pair ∧ KeySurvives pair.1) :
    (EncodingsFit done groups → ∃ file', file.parseData setting (textAfter data groups) = .ok (.ok file') ∧
      file'.Loads (done ++ groups.map rereadGroup)) ∧
    (¬EncodingsFit done groups → ∃ error, file.parseData setting (textAfter data groups) = .ok (.error error)) := by
  -- over the groups: behind each the file stands between two groups again
  induction groups generalizing file done data with
  | nil =>
    refine ⟨fun _ => ⟨file, rfl, ?_⟩, fun unfit => absurd nofun unfit⟩
    rw [List.map_nil, List.append_nil]
    exact h.1
  | cons group groups ih =>
    obtain ⟨name, names⟩ := List.forall_mem_cons.mp acceptable
    obtain ⟨pairs, others⟩ := List.forall_mem_cons.mp set
    have fresh : group.1 ∉ done.map Prod.fst := fun given => (List.nodup_append.mp distinct).2.2 _ given _ List.mem_cons_self rfl
    obtain ⟨passes, fails⟩ := h.group ascii name fresh pairs
    rw [textAfter, parseData_append]
    by_cases fits : ∀ pair ∈ group.2, EncodingFits done pair
    · obtain ⟨file₁, read, between⟩ := passes fits
      have later : EncodingsFit (done ++ [rereadGroup group]) groups := fun _ _ _ _ empty => absurd empty (by simp)
      have distinct' : ((done ++ [rereadGroup group]).map Prod.fst ++ groups.map Prod.fst).Nodup := by
        rw [List.map_append, List.append_assoc]
        exact distinct
      obtain ⟨file', read', loads⟩ := (ih (between _) names distinct' others).1 later
      rw [read]
      refine ⟨fun _ => ⟨file', read', ?_⟩, fun unfit => absurd ?_ unfit⟩
      · rw [List.append_assoc] at loads
        exact loads
      · intro other same
        cases same
        exact fits
    · obtain ⟨error, failed⟩ := fails fits
      refine ⟨fun fit => absurd (fit group rfl) fits, fun _ => ⟨error, ?_⟩⟩
      rw [failed]
      rfl

end KeyFile

end Xpl.Keyfile
