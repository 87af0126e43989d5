import Xpl.Library.Partial
import Mathlib.Data.List.Induction
import Xpl.Library.Bytes

/-! Dot segments of guri.c: the loop that removes them within one buffer, the algorithm of
RFC 3986, section 5.2.4, on two buffers, and that the loop computes it. -/

set_option autoImplicit false

namespace Xpl.Uri
open Xpl.Library

def slash : UInt8 := 47
def dot : UInt8 := 46

/-! ## The loop of the source -/

/-- The buffer with both positions. Every write is recorded as its position and the last
position that was read before it. -/
structure Cursor where
  path : Bytes
  input : Nat
  output : Nat
  writes : List (Nat × Nat)

/-- `strncmp (string, literal, strlen (literal)) == 0`, and `strcmp` for a literal with its terminator. -/
def startsWith (path : Bytes) (position : Nat) : Bytes → Option Bool
  | [] => some true
  | c :: literal => do
    let byte ← path[position]?
    if byte = c then startsWith path (position + 1) literal else some false

namespace Cursor

/-- A write to the buffer after all up to `lastRead` has been read. -/
def put (cursor : Cursor) (position : Nat) (byte : UInt8) (lastRead : Nat) : Option Cursor :=
  if position < cursor.path.length then
    some { cursor with path := cursor.path.set position byte, writes := (position, lastRead) :: cursor.writes }
  else none

/-- `*output++ = *input++` -/
def moveByte (cursor : Cursor) : Option Cursor := do
  let byte ← cursor.path[cursor.input]?
  let next ← cursor.put cursor.output byte cursor.input
  return { next with input := next.input + 1, output := next.output + 1 }

/-- `while (*input && *input != '/')` -/
def moveRest : Nat → Cursor → Option Cursor
  | 0, _ => none
  | fuel + 1, cursor => do
    let byte ← cursor.path[cursor.input]?
    if byte ≠ 0 ∧ byte ≠ slash then
      let next ← cursor.moveByte
      moveRest fuel next
    else return cursor

/-- `if (output > path)`, and `do output--; while (*output != '/' && output > path)`. -/
def backUp (path : Bytes) : Nat → Option Nat
  | 0 => some 0
  | output + 1 => do
    let byte ← path[output]?
    if byte ≠ slash ∧ 0 < output then backUp path output else return output

def dropSegment (cursor : Cursor) : Option Cursor := do
  let output ← backUp cursor.path cursor.output
  return { cursor with output := output }

def turn (cursor : Cursor) : Option Cursor := do
  let input := cursor.input
  if ← startsWith cursor.path input [dot, dot, slash] then return { cursor with input := input + 3 }
  else if ← startsWith cursor.path input [dot, slash] then return { cursor with input := input + 2 }
  else if ← startsWith cursor.path input [slash, dot, slash] then return { cursor with input := input + 2 }
  else if ← startsWith cursor.path input [slash, dot, 0] then cursor.put (input + 1) 0 (input + 2)
  else if ← startsWith cursor.path input [slash, dot, dot, slash] then dropSegment { cursor with input := input + 3 }
  else if ← startsWith cursor.path input [slash, dot, dot, 0] then
    let next ← cursor.put (input + 1) 0 (input + 3)
    next.dropSegment
  else if ← startsWith cursor.path input [dot, dot, 0] then cursor.put input 0 (input + 2)
  else if ← startsWith cursor.path input [dot, 0] then cursor.put input 0 (input + 1)
  else
    let next ← cursor.moveByte
    next.moveRest (cursor.path.length + 1)

/-- `while (*input)` -/
def loop : Nat → Cursor → Option Cursor
  | 0, _ => none
  | fuel + 1, cursor => do
    let byte ← cursor.path[cursor.input]?
    if byte = 0 then return cursor
    let next ← cursor.turn
    loop fuel next

end Cursor

/-- `remove_dot_segments` on a buffer of these bytes and a terminator. -/
def removeDotSegments (path : Bytes) : Option Cursor := do
  let start : Cursor := ⟨path ++ [0], 0, 0, []⟩
  let first ← start.path[0]?
  if first = 0 then return start
  let stop ← start.loop (path.length + 1)
  stop.put stop.output 0 stop.input

/-! ## The algorithm on two buffers -/

def withoutLast (output : Bytes) : Bytes := (output.reverse.dropWhile (· ≠ slash)).tail.reverse

def firstSegment : Bytes → Bytes
  | [] => []
  | c :: rest => c :: rest.takeWhile (· ≠ slash)

/-- One step on the input and output buffers: rules A to E. -/
def rewrite (input output : Bytes) : Bytes × Bytes :=
  if [dot, dot, slash] <+: input then (input.drop 3, output)
  else if [dot, slash] <+: input then (input.drop 2, output)
  else if [slash, dot, slash] <+: input then (slash :: input.drop 3, output)
  else if input = [slash, dot] then ([slash], output)
  else if [slash, dot, dot, slash] <+: input then (slash :: input.drop 4, withoutLast output)
  else if input = [slash, dot, dot] then ([slash], withoutLast output)
  else if input = [dot, dot] ∨ input = [dot] then ([], output)
  else (input.drop (firstSegment input).length, output ++ firstSegment input)

/-- As many steps as it takes; every step shortens the input. -/
def rewriteAll : Nat → Bytes → Bytes → Bytes
  | 0, _, output => output
  | steps + 1, input, output => if input = [] then output else rewriteAll steps (rewrite input output).1 (rewrite input output).2

def withoutDotSegments (path : Bytes) : Bytes := rewriteAll path.length path []

/-! ## The loop computes the algorithm -/

section Reading
variable {front rest junk literal : Bytes}

theorem getElem?_next (front rest : Bytes) : (front ++ rest)[front.length]? = rest.head? := by
  rw [List.getElem?_append_right (Nat.le_refl _), Nat.sub_self, List.head?_eq_getElem?]

theorem startsWith_eq (clean : 0 ∉ literal) :
    startsWith (front ++ (rest ++ 0 :: junk)) front.length literal = some (decide (literal <+: rest)) := by
  induction literal generalizing front rest with
  | nil => simp [startsWith]
  | cons c literal ih =>
    have nonzero : 0 ≠ c := fun zero => clean (zero ▸ List.mem_cons_self)
    have others : 0 ∉ literal := fun held => clean (List.mem_cons_of_mem _ held)
    rw [startsWith, getElem?_next]
    cases rest with
    | nil => simp [nonzero]
    | cons b rest =>
      by_cases same : b = c
      · have next := @ih (front ++ [b]) rest others
        rw [List.append_assoc, List.singleton_append, List.length_append, List.length_singleton] at next
        rw [List.cons_append, List.head?_cons, some_bind, if_pos same, next, same]
        simp
      · rw [List.cons_append, List.head?_cons, some_bind, if_neg same]
        simp [Ne.symm same]

/-- With its terminator a literal is compared to the end. -/
theorem startsWith_whole (clean : 0 ∉ literal) (string : 0 ∉ rest) :
    startsWith (front ++ (rest ++ 0 :: junk)) front.length (literal ++ [0]) = some (decide (rest = literal)) := by
  induction literal generalizing front rest with
  | nil =>
    rw [List.nil_append, startsWith, getElem?_next]
    cases rest with
    | nil => rfl
    | cons b rest =>
      have nonzero : b ≠ 0 := fun zero => string (zero ▸ List.mem_cons_self)
      simp [nonzero]
  | cons c literal ih =>
    have nonzero : 0 ≠ c := fun zero => clean (zero ▸ List.mem_cons_self)
    have others : 0 ∉ literal := fun held => clean (List.mem_cons_of_mem _ held)
    rw [List.cons_append, startsWith, getElem?_next]
    cases rest with
    | nil => simp [nonzero]
    | cons b rest =>
      by_cases same : b = c
      · have next := @ih (front ++ [b]) rest others fun held => string (List.mem_cons_of_mem _ held)
        rw [List.append_assoc, List.singleton_append, List.length_append, List.length_singleton] at next
        rw [List.cons_append, List.head?_cons, some_bind, if_pos same, next, same]
        simp
      · rw [List.cons_append, List.head?_cons, some_bind, if_neg same]
        simp [same]

end Reading

theorem withoutLast_concat (output : Bytes) (c : UInt8) :
    withoutLast (output ++ [c]) = if c = slash then output else withoutLast output := by
  unfold withoutLast
  by_cases separator : c = slash
  · simp [separator]
  · simp [separator]

theorem isPrefix_withoutLast (output : Bytes) : withoutLast output <+: output := by
  induction output using List.reverseRecOn with
  | nil => exact List.nil_prefix
  | append_singleton output c ih =>
    rw [withoutLast_concat]
    split
    · exact List.prefix_append _ _
    · exact ih.trans (List.prefix_append _ _)

theorem backUp_eq (output after : Bytes) : Cursor.backUp (output ++ after) output.length = some (withoutLast output).length := by
  induction output using List.reverseRecOn generalizing after with
  | nil => rfl
  | append_singleton output c ih =>
    rw [List.length_append, List.length_singleton, Cursor.backUp, List.append_assoc, getElem?_next, withoutLast_concat, List.singleton_append,
      List.head?_cons, some_bind]
    by_cases separator : c = slash
    · rw [if_pos separator, if_neg (by simp [separator])]
      rfl
    · rw [if_neg separator]
      cases output with
      | nil => exact if_neg fun both => absurd both.2 (Nat.lt_irrefl 0)
      | cons first output =>
        rw [if_pos ⟨separator, Nat.succ_pos _⟩]
        exact ih (c :: after)

theorem drop_firstSegment (c : UInt8) (rest : Bytes) :
    (c :: rest).drop (firstSegment (c :: rest)).length = rest.dropWhile (· ≠ slash) := by
  have cut : (rest.takeWhile (· ≠ slash) ++ rest.dropWhile (· ≠ slash)).drop (rest.takeWhile (· ≠ slash)).length = rest.dropWhile (· ≠ slash) :=
    List.drop_left
  rwa [List.takeWhile_append_dropWhile] at cut

namespace Cursor

/-- The cursor holds both buffers of the algorithm: what stands before `output`, and the
string that begins at `input`. -/
structure Holds (cursor : Cursor) (input output : Bytes) : Prop where
  split : ∃ gap junk, cursor.path = output ++ gap ++ (input ++ 0 :: junk) ∧ cursor.input = (output ++ gap).length
  written : cursor.output = output.length
  clean : 0 ∉ input
  behind : ∀ write ∈ cursor.writes, write.1 ≤ write.2

/-- Reading further without writing. -/
theorem Holds.advance {cursor : Cursor} {input output : Bytes} (holds : cursor.Holds input output) (count : Nat) (within : count ≤ input.length) :
    Holds { cursor with input := cursor.input + count } (input.drop count) output := by
  obtain ⟨⟨gap, junk, path, position⟩, written, clean, behind⟩ := holds
  refine ⟨⟨gap ++ input.take count, junk, ?_, ?_⟩, written, fun held => clean (List.mem_of_mem_drop held), behind⟩
  · calc cursor.path = output ++ gap ++ ((input.take count ++ input.drop count) ++ 0 :: junk) := by rw [path, List.take_append_drop]
      _ = output ++ (gap ++ input.take count) ++ (input.drop count ++ 0 :: junk) := by simp only [List.append_assoc]
  · rw [← List.append_assoc, List.length_append, ← position, List.length_take, Nat.min_eq_left within]

theorem Holds.drop_output {cursor : Cursor} {input output : Bytes} (holds : cursor.Holds input output) :
    ∃ next, cursor.dropSegment = some next ∧ next.Holds input (withoutLast output) := by
  obtain ⟨⟨gap, junk, path, position⟩, written, clean, behind⟩ := holds
  obtain ⟨removed, whole⟩ := isPrefix_withoutLast output
  have back := backUp_eq output (gap ++ (input ++ 0 :: junk))
  rw [← List.append_assoc, ← path, ← written] at back
  refine ⟨{ cursor with output := (withoutLast output).length }, by rw [dropSegment, back]; rfl,
    ⟨removed ++ gap, junk, ?_, ?_⟩, rfl, clean, behind⟩
  · rw [path, ← List.append_assoc (withoutLast output), whole]
  · rw [← List.append_assoc, whole]
    exact position

/-- The terminator moves to the front of what is cut off. -/
theorem Holds.truncate {cursor : Cursor} {input output : Bytes} (holds : cursor.Holds input output) (count : Nat) {lastRead : Nat}
    (within : count < input.length) (read : cursor.input + count ≤ lastRead) :
    ∃ next, cursor.put (cursor.input + count) 0 lastRead = some next ∧ next.Holds (input.take count) output := by
  obtain ⟨⟨gap, junk, path, position⟩, written, clean, behind⟩ := holds
  obtain ⟨c, others, split⟩ : ∃ c others, input.drop count = c :: others :=
    List.exists_cons_of_ne_nil (List.ne_nil_of_length_pos (by rw [List.length_drop]; omega))
  have size : (output ++ gap ++ input.take count).length = cursor.input + count := by
    rw [List.length_append, ← position, List.length_take, Nat.min_eq_left (Nat.le_of_lt within)]
  have whole : cursor.path = (output ++ gap ++ input.take count) ++ c :: (others ++ 0 :: junk) :=
    calc cursor.path = output ++ gap ++ ((input.take count ++ input.drop count) ++ 0 :: junk) := by rw [path, List.take_append_drop]
      _ = (output ++ gap ++ input.take count) ++ c :: (others ++ 0 :: junk) := by
        rw [split]
        simp only [List.append_assoc, List.cons_append]
  have inside : cursor.input + count < cursor.path.length := by
    rw [whole, List.length_append, size, List.length_cons]
    omega
  refine ⟨{ cursor with path := cursor.path.set (cursor.input + count) 0, writes := (cursor.input + count, lastRead) :: cursor.writes },
    by rw [put, if_pos inside], ⟨gap, others ++ 0 :: junk, ?_, position⟩, written, fun held => clean (List.mem_of_mem_take held), ?_⟩
  · change cursor.path.set (cursor.input + count) 0 = _
    rw [whole, ← size, List.set_append_right _ _ (Nat.le_refl _), Nat.sub_self, List.set_cons_zero, List.append_assoc]
  · rintro write (_ | ⟨_, earlier⟩)
    · exact read
    · exact behind write earlier

theorem Holds.moveByte {cursor : Cursor} {c : UInt8} {input output : Bytes} (holds : cursor.Holds (c :: input) output) :
    ∃ next, cursor.moveByte = some next ∧ next.Holds input (output ++ [c]) := by
  obtain ⟨⟨gap, junk, path, position⟩, written, clean, behind⟩ := holds
  have size : cursor.output ≤ cursor.input := by
    rw [written, position, List.length_append]
    exact Nat.le_add_right _ _
  have inside : cursor.output < cursor.path.length := by
    rw [path, List.length_append, ← position, List.cons_append, List.length_cons]
    omega
  have here : cursor.path[cursor.input]? = some c := by
    rw [path, position, getElem?_next]
    rfl
  obtain ⟨gap', moved, long⟩ : ∃ gap', cursor.path.set cursor.output c = output ++ [c] ++ gap' ++ (input ++ 0 :: junk) ∧ gap'.length = gap.length := by
    rw [path, written, List.append_assoc, List.set_append_right _ _ (Nat.le_refl _), Nat.sub_self]
    cases gap with
    | nil => exact ⟨[], by simp, rfl⟩
    | cons g gap => exact ⟨gap ++ [c], by simp, by simp⟩
  refine ⟨{ path := cursor.path.set cursor.output c, input := cursor.input + 1, output := cursor.output + 1,
            writes := (cursor.output, cursor.input) :: cursor.writes }, ?_, ⟨gap', junk, moved, ?_⟩, ?_, ?_, ?_⟩
  · rw [Cursor.moveByte, here, some_bind, put, if_pos inside]
    rfl
  · dsimp only
    rw [position, List.length_append, List.length_append, List.length_append, long, List.length_singleton]
    omega
  · dsimp only
    rw [written, List.length_append, List.length_singleton]
  · exact fun held => clean (List.mem_cons_of_mem _ held)
  · rintro write (_ | ⟨_, earlier⟩)
    · exact size
    · exact behind write earlier

theorem Holds.head {cursor : Cursor} {input output : Bytes} (holds : cursor.Holds input output) :
    cursor.path[cursor.input]? = some (input.headD 0) := by
  obtain ⟨⟨gap, junk, path, position⟩, _⟩ := holds
  rw [path, position, getElem?_next]
  cases input <;> rfl

theorem Holds.length_le {cursor : Cursor} {input output : Bytes} (holds : cursor.Holds input output) :
    input.length < cursor.path.length := by
  obtain ⟨⟨gap, junk, path, _⟩, _⟩ := holds
  rw [path, List.length_append, List.length_append, List.length_append, List.length_cons]
  omega

theorem Holds.moveRest {cursor : Cursor} {input output : Bytes} (holds : cursor.Holds input output) {fuel : Nat} (enough : input.length < fuel) :
    ∃ next, cursor.moveRest fuel = some next ∧ next.Holds (input.dropWhile (· ≠ slash)) (output ++ input.takeWhile (· ≠ slash)) := by
  induction input generalizing cursor output fuel with
  | nil =>
    obtain ⟨fuel, rfl⟩ := Nat.exists_eq_succ_of_ne_zero (Nat.ne_of_gt enough)
    refine ⟨cursor, ?_, by simpa using holds⟩
    rw [Cursor.moveRest, holds.head]
    rfl
  | cons c input ih =>
    obtain ⟨fuel, rfl⟩ := Nat.exists_eq_succ_of_ne_zero (Nat.ne_of_gt (Nat.zero_lt_of_lt enough))
    have nonzero : c ≠ 0 := fun zero => holds.clean (zero ▸ List.mem_cons_self)
    rw [Cursor.moveRest, holds.head, List.headD_cons, some_bind]
    by_cases separator : c = slash
    · refine ⟨cursor, if_neg fun both => both.2 separator, ?_⟩
      simpa [separator] using holds
    · obtain ⟨next, moved, held⟩ := holds.moveByte
      obtain ⟨last, done, final⟩ := ih held (Nat.lt_of_succ_lt_succ enough)
      refine ⟨last, ?_, ?_⟩
      · rw [if_pos ⟨nonzero, separator⟩, moved]
        exact done
      · simpa [separator] using final

theorem Holds.starts {cursor : Cursor} {input output : Bytes} (holds : cursor.Holds input output) (literal : Bytes) (clean : 0 ∉ literal) :
    startsWith cursor.path cursor.input literal = some (decide (literal <+: input)) := by
  obtain ⟨⟨gap, junk, path, position⟩, _⟩ := holds
  rw [path, position]
  exact startsWith_eq clean

theorem Holds.whole {cursor : Cursor} {input output : Bytes} (holds : cursor.Holds input output) (literal : Bytes) (clean : 0 ∉ literal) :
    startsWith cursor.path cursor.input (literal ++ [0]) = some (decide (input = literal)) := by
  obtain ⟨⟨gap, junk, path, position⟩, _, string, _⟩ := holds
  rw [path, position]
  exact startsWith_whole clean string

/-- One turn of the loop is one step of the algorithm. -/
theorem Holds.turn {cursor : Cursor} {input output : Bytes} (holds : cursor.Holds input output) (more : input ≠ []) :
    ∃ next, cursor.turn = some next ∧ next.Holds (rewrite input output).1 (rewrite input output).2 := by
  unfold Cursor.turn rewrite
  have upEnd := holds.whole [slash, dot, dot] (by decide)
  have hereEnd := holds.whole [slash, dot] (by decide)
  have twoDots := holds.whole [dot, dot] (by decide)
  have oneDot := holds.whole [dot] (by decide)
  simp only [List.cons_append, List.nil_append] at upEnd hereEnd twoDots oneDot
  simp only [holds.starts [dot, dot, slash] (by decide), holds.starts [dot, slash] (by decide), holds.starts [slash, dot, slash] (by decide),
    holds.starts [slash, dot, dot, slash] (by decide), upEnd, hereEnd, twoDots, oneDot, some_bind, decide_eq_true_eq]
  by_cases a1 : [dot, dot, slash] <+: input
  · rw [if_pos a1, if_pos a1]
    exact ⟨_, rfl, holds.advance 3 a1.length_le⟩
  rw [if_neg a1, if_neg a1]
  by_cases a2 : [dot, slash] <+: input
  · rw [if_pos a2, if_pos a2]
    exact ⟨_, rfl, holds.advance 2 a2.length_le⟩
  rw [if_neg a2, if_neg a2]
  by_cases b1 : [slash, dot, slash] <+: input
  · rw [if_pos b1, if_pos b1]
    obtain ⟨rest, rfl⟩ := b1
    exact ⟨_, rfl, holds.advance 2 (Nat.le_add_left 2 _)⟩
  rw [if_neg b1, if_neg b1]
  by_cases b2 : input = [slash, dot]
  · rw [if_pos b2, if_pos b2]
    subst b2
    exact holds.truncate 1 (Nat.lt_succ_self 1) (Nat.le_succ _)
  rw [if_neg b2, if_neg b2]
  by_cases c1 : [slash, dot, dot, slash] <+: input
  · rw [if_pos c1, if_pos c1]
    obtain ⟨rest, rfl⟩ := c1
    exact (holds.advance 3 (Nat.le_add_left 3 _)).drop_output
  rw [if_neg c1, if_neg c1]
  by_cases c2 : input = [slash, dot, dot]
  · rw [if_pos c2, if_pos c2]
    subst c2
    obtain ⟨next, cut, held⟩ := @Holds.truncate _ _ _ holds 1 (cursor.input + 3) (by decide) (by omega)
    obtain ⟨last, dropped, final⟩ := held.drop_output
    exact ⟨last, by rw [cut]; exact dropped, final⟩
  rw [if_neg c2, if_neg c2]
  by_cases d : input = [dot, dot] ∨ input = [dot]
  · rw [if_pos d]
    have positive : 0 < input.length := List.length_pos_of_ne_nil more
    by_cases d1 : input = [dot, dot]
    · rw [if_pos d1]
      exact holds.truncate 0 positive (Nat.le_add_right _ 2)
    · rw [if_neg d1, if_pos (d.resolve_left d1)]
      exact holds.truncate 0 positive (Nat.le_add_right _ 1)
  · rw [if_neg d, if_neg fun two => d (Or.inl two), if_neg fun one => d (Or.inr one)]
    cases input with
    | nil => exact absurd rfl more
    | cons c input =>
      obtain ⟨next, moved, held⟩ := holds.moveByte
      have enough := held.length_le
      have same : next.path.length = cursor.path.length := by
        unfold Cursor.moveByte at moved
        rw [holds.head, some_bind, put] at moved
        split at moved
        · cases moved
          exact List.length_set
        · cases moved
      have room : input.length < cursor.path.length + 1 := by omega
      obtain ⟨last, done, final⟩ := held.moveRest room
      refine ⟨last, by rw [moved]; exact done, ?_⟩
      rw [drop_firstSegment]
      simpa [firstSegment] using final

end Cursor

/-! What the removal of dot segments guarantees: it ends, agrees with the algorithm on two
buffers, writes only over what it has read, leaves no dot segment and changes nothing twice. -/

/-! ## One step -/

theorem rewrite_shortens {input : Bytes} (more : input ≠ []) (output : Bytes) : (rewrite input output).1.length < input.length := by
  unfold rewrite
  split
  · next prefixed =>
    have long := prefixed.length_le
    rw [List.length_drop]
    simp only [List.length_cons, List.length_nil] at long
    omega
  split
  · next prefixed =>
    have long := prefixed.length_le
    rw [List.length_drop]
    simp only [List.length_cons, List.length_nil] at long
    omega
  split
  · next prefixed =>
    have long := prefixed.length_le
    rw [List.length_cons, List.length_drop]
    simp only [List.length_cons, List.length_nil] at long
    omega
  split
  · next same =>
    rw [same]
    exact Nat.lt_succ_self 1
  split
  · next prefixed =>
    have long := prefixed.length_le
    rw [List.length_cons, List.length_drop]
    simp only [List.length_cons, List.length_nil] at long
    omega
  split
  · next same =>
    rw [same]
    exact Nat.lt_add_of_pos_right (Nat.succ_pos 1)
  split
  · exact List.length_pos_of_ne_nil more
  · cases input with
    | nil => exact absurd rfl more
    | cons c input =>
      rw [List.length_drop]
      have some_byte : 0 < (firstSegment (c :: input)).length := Nat.succ_pos _
      rw [List.length_cons]
      omega

theorem rewrite_mem {input output : Bytes} {b : UInt8} (held : b ∈ (rewrite input output).1 ++ (rewrite input output).2) : b ∈ input ++ output := by
  have kept (count : Nat) : b ∈ input.drop count ++ output → b ∈ input ++ output := fun member =>
    (List.mem_append.mp member).elim (fun left => List.mem_append_left _ (List.mem_of_mem_drop left)) (List.mem_append_right _)
  have cut (count : Nat) : b ∈ input.drop count ++ withoutLast output → b ∈ input ++ output := fun member =>
    (List.mem_append.mp member).elim (fun left => List.mem_append_left _ (List.mem_of_mem_drop left))
      fun right => List.mem_append_right _ ((isPrefix_withoutLast output).subset right)
  have separated (rest : Bytes) : slash ∈ input → (b ∈ rest → b ∈ input ++ output) → b ∈ slash :: rest → b ∈ input ++ output := by
    intro within others member
    rcases List.mem_cons.mp member with rfl | later
    · exact List.mem_append_left _ within
    · exact others later
  unfold rewrite at held
  split at held
  · exact kept 3 held
  split at held
  · exact kept 2 held
  split at held
  · next prefixed => exact separated _ (prefixed.subset (List.mem_cons_self)) (kept 3) held
  split at held
  · next same => exact separated _ (same ▸ List.mem_cons_self) (List.mem_append_right _) held
  split at held
  · next prefixed => exact separated _ (prefixed.subset (List.mem_cons_self)) (cut 4) held
  split at held
  · next same =>
    exact separated _ (same ▸ List.mem_cons_self) (fun member => List.mem_append_right _ ((isPrefix_withoutLast output).subset member)) held
  split at held
  · exact List.mem_append_right _ held
  · have whole : firstSegment input <+: input := by
      cases input with
      | nil => exact List.nil_prefix
      | cons c input => exact List.cons_prefix_cons.mpr ⟨rfl, List.takeWhile_prefix _⟩
    rcases List.mem_append.mp held with left | right
    · exact List.mem_append_left _ (List.mem_of_mem_drop left)
    · exact (List.mem_append.mp right).elim (List.mem_append_right _) fun member => List.mem_append_left _ (whole.subset member)

theorem rewriteAll_mem {steps : Nat} {input output : Bytes} {b : UInt8} (held : b ∈ rewriteAll steps input output) : b ∈ input ++ output := by
  induction steps generalizing input output with
  | zero => exact List.mem_append_right _ held
  | succ steps ih =>
    rw [rewriteAll] at held
    split at held
    · exact List.mem_append_right _ held
    · exact rewrite_mem (ih held)

/-! ## The whole run -/

theorem Cursor.Holds.loop {cursor : Cursor} {input output : Bytes} (holds : cursor.Holds input output) {fuel steps : Nat}
    (enough : input.length < fuel) (all : input.length ≤ steps) :
    ∃ stop, cursor.loop fuel = some stop ∧ stop.Holds [] (rewriteAll steps input output) := by
  induction fuel generalizing cursor input output steps with
  | zero => exact absurd enough (Nat.not_lt_zero _)
  | succ fuel ih =>
    rw [Cursor.loop, holds.head, some_bind]
    cases input with
    | nil =>
      refine ⟨cursor, rfl, ?_⟩
      cases steps <;> exact holds
    | cons c input =>
      have nonzero : c ≠ 0 := fun zero => holds.clean (zero ▸ List.mem_cons_self)
      obtain ⟨next, turned, held⟩ := holds.turn (List.cons_ne_nil c input)
      have shorter := rewrite_shortens (List.cons_ne_nil c input) output
      obtain ⟨steps, rfl⟩ := Nat.exists_eq_succ_of_ne_zero (Nat.ne_of_gt (Nat.lt_of_lt_of_le (Nat.succ_pos _) all))
      obtain ⟨stop, done, final⟩ := @ih next _ _ held steps (by omega) (by omega)
      refine ⟨stop, ?_, ?_⟩
      · rw [List.headD_cons, if_neg nonzero, turned]
        exact done
      · rwa [rewriteAll, if_neg (List.cons_ne_nil c input)]

theorem removeDotSegments_eq (path : Bytes) :
    ∃ stop, removeDotSegments path = some stop ∧ cString stop.path = withoutDotSegments (cString path) ∧
      ∀ write ∈ stop.writes, write.1 ≤ write.2 := by
  obtain ⟨junk, whole⟩ := exists_terminated path
  have start : (⟨path ++ [0], 0, 0, []⟩ : Cursor).Holds (cString path) [] :=
    ⟨⟨[], junk, by rw [whole]; rfl, rfl⟩, rfl, not_mem_cString path, fun write none => absurd none List.not_mem_nil⟩
  have short : (cString path).length ≤ path.length := (List.takeWhile_prefix _).length_le
  rw [removeDotSegments]
  rw [start.head, some_bind]
  by_cases empty : (cString path).headD 0 = 0
  · have nothing : cString path = [] := by
      cases string : cString path with
      | nil => rfl
      | cons c rest =>
        rw [string, List.headD_cons] at empty
        exact absurd (string ▸ empty ▸ List.mem_cons_self) (not_mem_cString path)
    rw [if_pos empty]
    refine ⟨_, rfl, ?_, start.behind⟩
    rw [nothing, whole, nothing]
    rfl
  · rw [if_neg empty]
    obtain ⟨stop, done, ⟨gap, rest, split, position⟩, written, clean, behind⟩ := start.loop (Nat.lt_succ_of_le short) (Nat.le_refl (cString path).length)
    have result_clean : 0 ∉ withoutDotSegments (cString path) := fun held =>
      not_mem_cString path (by simpa using rewriteAll_mem held)
    have before : stop.output ≤ stop.input := by
      rw [written, position, List.length_append]
      exact Nat.le_add_right _ _
    have inside : stop.output < stop.path.length := by
      rw [split, List.length_append, ← position, List.nil_append, List.length_cons]
      omega
    rw [done, some_bind, Cursor.put, if_pos inside]
    refine ⟨_, rfl, ?_, ?_⟩
    · -- the terminator stands behind the output
      have cut : ∃ after, stop.path.set stop.output 0 = withoutDotSegments (cString path) ++ 0 :: after := by
        rw [split, written, List.append_assoc, List.set_append_right _ _ (Nat.le_refl _), Nat.sub_self]
        cases gap with
        | nil => exact ⟨rest, rfl⟩
        | cons g gap => exact ⟨gap ++ ([] ++ 0 :: rest), rfl⟩
      obtain ⟨after, ended⟩ := cut
      rw [ended, cString_append result_clean]
    · rintro write (_ | ⟨_, earlier⟩)
      · exact before
      · exact behind write earlier

/-! ## No dot segment is left -/

def segments (path : Bytes) : List Bytes := path.splitOn slash

def DotFree (path : Bytes) : Prop := ∀ segment ∈ segments path, segment ≠ [dot] ∧ segment ≠ [dot, dot]

theorem segments_append (front back : Bytes) : segments (front ++ slash :: back) = segments front ++ segments back :=
  List.splitOn_append_cons_self front back

theorem segments_single {segment : Bytes} (whole : slash ∉ segment) : segments segment = [segment] := List.splitOn_eq_singleton whole

theorem dotFree_append {front back : Bytes} : DotFree (front ++ slash :: back) ↔ DotFree front ∧ DotFree back := by
  unfold DotFree
  rw [segments_append]
  exact List.forall_mem_append

theorem dotFree_single {segment : Bytes} (whole : slash ∉ segment) : DotFree segment ↔ segment ≠ [dot] ∧ segment ≠ [dot, dot] := by
  unfold DotFree
  rw [segments_single whole]
  exact List.forall_mem_singleton

theorem withoutLast_split (output : Bytes) : withoutLast output = [] ∨ ∃ tail, output = withoutLast output ++ slash :: tail := by
  induction output using List.reverseRecOn with
  | nil => exact Or.inl rfl
  | append_singleton output c ih =>
    rw [withoutLast_concat]
    by_cases separator : c = slash
    · rw [if_pos separator, separator]
      exact Or.inr ⟨[], rfl⟩
    · rw [if_neg separator]
      refine ih.imp_right ?_
      rintro ⟨tail, split⟩
      exact ⟨tail ++ [c], by rw [← List.cons_append, ← List.append_assoc, ← split]⟩

theorem DotFree.withoutLast {output : Bytes} (free : DotFree output) : DotFree (withoutLast output) := by
  rcases withoutLast_split output with empty | ⟨tail, split⟩
  · rw [empty]
    exact (dotFree_single List.not_mem_nil).mpr ⟨List.cons_ne_nil _ _ |>.symm, List.cons_ne_nil _ _ |>.symm⟩
  · rw [split] at free
    exact (dotFree_append.mp free).1

/-- A segment of the input begins at its front. -/
def Placed (input output : Bytes) : Prop := output = [] ∨ input = [] ∨ input.head? = some slash

theorem Placed.start {input output literal : Bytes} {c : UInt8} (placed : Placed input output) (begins : c :: literal <+: input) (other : c ≠ slash) :
    output = [] := by
  refine placed.resolve_right ?_
  obtain ⟨rest, rfl⟩ := begins
  rintro (none | first)
  · cases none
  · exact other (Option.some.inj first)

theorem not_mem_takeWhile (rest : Bytes) : slash ∉ rest.takeWhile (· ≠ slash) := by
  intro held
  exact of_decide_eq_true (List.all_eq_true.mp List.all_takeWhile slash held) rfl

theorem takeWhile_eq {segment rest : Bytes} (same : rest.takeWhile (· ≠ slash) = segment) : rest = segment ∨ segment ++ [slash] <+: rest := by
  have split := List.takeWhile_append_dropWhile (p := (· ≠ slash)) (l := rest)
  rw [same] at split
  cases after : rest.dropWhile (· ≠ slash) with
  | nil =>
    rw [after, List.append_nil] at split
    exact Or.inl split.symm
  | cons c others =>
    have stop : c = slash := by
      have fails := List.head?_dropWhile_not (· ≠ slash) rest
      rw [after] at fails
      simpa using fails
    refine Or.inr ⟨others, ?_⟩
    rw [after, stop] at split
    rw [List.append_assoc]
    exact split

theorem rewrite_segment {input output : Bytes} (more : input ≠ []) (placed : Placed input output) (free : DotFree output)
    (others : ¬([dot, dot, slash] <+: input ∨ [dot, slash] <+: input ∨ [slash, dot, slash] <+: input ∨ input = [slash, dot] ∨
      [slash, dot, dot, slash] <+: input ∨ input = [slash, dot, dot] ∨ input = [dot, dot] ∨ input = [dot])) :
    DotFree (output ++ firstSegment input) := by
  simp only [not_or] at others
  obtain ⟨a1, a2, b1, b2, c1, c2, d1, d2⟩ := others
  cases input with
  | nil => exact absurd rfl more
  | cons c input =>
    by_cases separator : c = slash
    · subst separator
      refine dotFree_append.mpr ⟨free, (dotFree_single (not_mem_takeWhile input)).mpr ⟨fun one => ?_, fun two => ?_⟩⟩
      · rcases takeWhile_eq one with rfl | ⟨rest, rfl⟩
        · exact b2 rfl
        · exact b1 ⟨rest, rfl⟩
      · rcases takeWhile_eq two with rfl | ⟨rest, rfl⟩
        · exact c2 rfl
        · exact c1 ⟨rest, rfl⟩
    · have empty : output = [] := by
        refine placed.resolve_right ?_
        rintro (none | begins)
        · exact more none
        · exact separator (Option.some.inj begins)
      have whole : (c :: input).takeWhile (· ≠ slash) = firstSegment (c :: input) := by
        rw [List.takeWhile_cons, if_pos (decide_eq_true separator)]
        rfl
      rw [empty, List.nil_append, ← whole]
      refine (dotFree_single (not_mem_takeWhile _)).mpr ⟨fun one => ?_, fun two => ?_⟩
      · rcases takeWhile_eq one with same | begins
        · exact d2 same
        · exact a2 begins
      · rcases takeWhile_eq two with same | begins
        · exact d1 same
        · exact a1 begins

theorem head_drop_firstSegment (input : Bytes) :
    input.drop (firstSegment input).length = [] ∨ (input.drop (firstSegment input).length).head? = some slash := by
  cases input with
  | nil => exact Or.inl rfl
  | cons c input =>
    rw [drop_firstSegment]
    cases after : input.dropWhile (· ≠ slash) with
    | nil => exact Or.inl rfl
    | cons d others =>
      have fails := List.head?_dropWhile_not (· ≠ slash) input
      rw [after] at fails
      exact Or.inr (congrArg some (by simpa using fails))

theorem rewrite_dotFree {input output : Bytes} (more : input ≠ []) (placed : Placed input output) (free : DotFree output) :
    Placed (rewrite input output).1 (rewrite input output).2 ∧ DotFree (rewrite input output).2 := by
  unfold rewrite
  by_cases a1 : [dot, dot, slash] <+: input
  · rw [if_pos a1]
    exact ⟨Or.inl (placed.start a1 (by decide)), free⟩
  rw [if_neg a1]
  by_cases a2 : [dot, slash] <+: input
  · rw [if_pos a2]
    exact ⟨Or.inl (placed.start a2 (by decide)), free⟩
  rw [if_neg a2]
  by_cases b1 : [slash, dot, slash] <+: input
  · rw [if_pos b1]
    exact ⟨Or.inr (Or.inr rfl), free⟩
  rw [if_neg b1]
  by_cases b2 : input = [slash, dot]
  · rw [if_pos b2]
    exact ⟨Or.inr (Or.inr rfl), free⟩
  rw [if_neg b2]
  by_cases c1 : [slash, dot, dot, slash] <+: input
  · rw [if_pos c1]
    exact ⟨Or.inr (Or.inr rfl), free.withoutLast⟩
  rw [if_neg c1]
  by_cases c2 : input = [slash, dot, dot]
  · rw [if_pos c2]
    exact ⟨Or.inr (Or.inr rfl), free.withoutLast⟩
  rw [if_neg c2]
  by_cases d : input = [dot, dot] ∨ input = [dot]
  · rw [if_pos d]
    exact ⟨Or.inr (Or.inl rfl), free⟩
  rw [if_neg d]
  refine ⟨Or.inr (head_drop_firstSegment input), rewrite_segment more placed free ?_⟩
  simp only [not_or]
  exact ⟨a1, a2, b1, b2, c1, c2, fun two => d (Or.inl two), fun one => d (Or.inr one)⟩

theorem dotFree_nil : DotFree [] := (dotFree_single List.not_mem_nil).mpr ⟨(List.cons_ne_nil _ _).symm, (List.cons_ne_nil _ _).symm⟩

theorem rewriteAll_dotFree {steps : Nat} {input output : Bytes} (placed : Placed input output) (free : DotFree output) :
    DotFree (rewriteAll steps input output) := by
  induction steps generalizing input output with
  | zero => exact free
  | succ steps ih =>
    rw [rewriteAll]
    split
    · exact free
    · next more =>
      obtain ⟨next, still⟩ := rewrite_dotFree more placed free
      exact ih next still

/-! ## A path without dot segments stays as it is -/

theorem rewrite_free {input output : Bytes} (placed : Placed input output) (free : DotFree (output ++ input)) (more : input ≠ []) :
    rewrite input output = (input.drop (firstSegment input).length, output ++ firstSegment input) := by
  have first {segment : Bytes} (begins : segment ++ [slash] <+: input) (empty : output = []) : DotFree segment := by
    obtain ⟨rest, rfl⟩ := begins
    rw [empty, List.nil_append, List.append_assoc] at free
    exact (dotFree_append.mp free).1
  have behind {segment : Bytes} (begins : slash :: segment ++ [slash] <+: input) : DotFree segment := by
    obtain ⟨rest, rfl⟩ := begins
    rw [List.append_assoc] at free
    have later := (dotFree_append.mp free).2
    exact (dotFree_append.mp later).1
  have last {segment : Bytes} (same : input = slash :: segment) : DotFree segment := by
    rw [same] at free
    exact (dotFree_append.mp free).2
  have oneDot : ¬DotFree [dot] := fun wrong => ((dotFree_single (by decide)).mp wrong).1 rfl
  have twoDots : ¬DotFree [dot, dot] := fun wrong => ((dotFree_single (by decide)).mp wrong).2 rfl
  have a1 : ¬[dot, dot, slash] <+: input := fun begins => twoDots (first begins (placed.start begins (by decide)))
  have a2 : ¬[dot, slash] <+: input := fun begins => oneDot (first begins (placed.start begins (by decide)))
  have b1 : ¬[slash, dot, slash] <+: input := fun begins => oneDot (behind begins)
  have c1 : ¬[slash, dot, dot, slash] <+: input := fun begins => twoDots (behind begins)
  have d : ¬(input = [dot, dot] ∨ input = [dot]) := by
    rintro (rfl | rfl)
    · rw [placed.start List.prefix_rfl (by decide)] at free
      exact twoDots free
    · rw [placed.start List.prefix_rfl (by decide)] at free
      exact oneDot free
  rw [rewrite, if_neg a1, if_neg a2, if_neg b1, if_neg fun b2 => oneDot (last b2), if_neg c1, if_neg fun c2 => twoDots (last c2), if_neg d]

theorem firstSegment_append (input : Bytes) : firstSegment input ++ input.drop (firstSegment input).length = input := by
  cases input with
  | nil => rfl
  | cons c input =>
    rw [drop_firstSegment, firstSegment, List.cons_append, List.takeWhile_append_dropWhile]

theorem rewriteAll_free {steps : Nat} {input output : Bytes} (placed : Placed input output) (free : DotFree (output ++ input))
    (all : input.length ≤ steps) : rewriteAll steps input output = output ++ input := by
  induction steps generalizing input output with
  | zero =>
    rw [List.length_eq_zero_iff.mp (Nat.le_zero.mp all), List.append_nil]
    rfl
  | succ steps ih =>
    rw [rewriteAll]
    split
    · next none => rw [none, List.append_nil]
    · next more =>
      have shorter := rewrite_shortens more output
      have whole : output ++ firstSegment input ++ input.drop (firstSegment input).length = output ++ input := by
        rw [List.append_assoc, firstSegment_append]
      rw [rewrite_free placed free more] at shorter ⊢
      rw [ih (Or.inr (head_drop_firstSegment input)) (by rwa [whole]) (by dsimp only at shorter; omega), whole]

theorem withoutDotSegments_free (path : Bytes) : DotFree (withoutDotSegments path) := rewriteAll_dotFree (Or.inl rfl) dotFree_nil

theorem withoutDotSegments_of_free {path : Bytes} (free : DotFree path) : withoutDotSegments path = path :=
  rewriteAll_free (Or.inl rfl) free (Nat.le_refl _)

/-- The removal of dot segments on every string. -/
theorem removeDotSegments_correct (path : Bytes) :
    ∃ stop, removeDotSegments path = some stop ∧ (∀ write ∈ stop.writes, write.1 ≤ write.2) ∧
      cString stop.path = withoutDotSegments (cString path) ∧ DotFree (cString stop.path) ∧
      ∃ again, removeDotSegments (cString stop.path) = some again ∧ cString again.path = cString stop.path := by
  obtain ⟨stop, removed, result, behind⟩ := removeDotSegments_eq path
  obtain ⟨again, second, same, _⟩ := removeDotSegments_eq (cString stop.path)
  have free : DotFree (cString stop.path) := result ▸ withoutDotSegments_free _
  refine ⟨stop, removed, behind, result, free, again, second, ?_⟩
  rw [same, cString_clean (not_mem_cString stop.path), withoutDotSegments_of_free free]

end Xpl.Uri
