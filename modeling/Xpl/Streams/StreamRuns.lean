import Xpl.Streams.MemoryOutputStream

/-! A stream over given memory is a window on it. -/

set_option autoImplicit false

namespace Xpl.Streams
open Xpl.Library Xpl.Collections

variable {n : Nat}

def windowTarget (window : Window UInt8 n) (offset : Int) : SeekType → Int
  | .cur => window.position + offset
  | .set => offset
  | .fromEnd => n + offset

def windowSeek (window : Window UInt8 n) (target : Int) : Window UInt8 n × Except ErrorCode Nat :=
  if inside : 0 ≤ target ∧ target ≤ n then (window.seekTo target.toNat (by omega), .ok 0)
  else (window, .error .invalidArgument)

/-- Writing fails where nothing is left to write to; the memory keeps its size. -/
def windowCall (window : Window UInt8 n) : StreamCall → Window UInt8 n × Except ErrorCode Nat
  | .write buffer =>
    if window.position = n ∧ 0 < buffer.length then (window, .error .noSpace)
    else (window.write buffer, .ok (min buffer.length window.room))
  | .seek offset type => windowSeek window (windowTarget window offset type)
  | .truncate offset => (window, if offset = n then .ok 0 else .error .noSpace)

def windowRun (window : Window UInt8 n) : List StreamCall → Window UInt8 n × List (Except ErrorCode Nat)
  | [] => (window, [])
  | call :: calls =>
    let after := windowCall window call
    let rest := windowRun after.1 calls
    (rest.1, after.2 :: rest.2)

namespace MemoryOutputStream

variable {s : MemoryOutputStream} {window : Window UInt8 n}

/-- The stream looks through the window: its memory is the window's, and it cannot grow. -/
structure Shows (s : MemoryOutputStream) (window : Window UInt8 n) : Prop where
  fixed : s.reallocFn = none
  block : Backs s.data n window.byte
  len : s.len = n
  pos : s.pos = window.position

theorem new_shows {data : Option Block} {byte : Nat → UInt8} (given : Backs data n byte) :
    (new data n none).Shows (⟨byte, 0, Nat.zero_le n⟩ : Window UInt8 n) where
  fixed := rfl
  block := given
  len := rfl
  pos := rfl

theorem Shows.pos_le (h : s.Shows window) : s.pos ≤ n := h.pos ▸ window.inside

/-! ## Writing -/

theorem Shows.store (h : s.Shows window) (small : n < 2 ^ 62) (buffer : Bytes) :
    ∃ s', s.store buffer = .ok (s', .ok (min buffer.length window.room)) ∧ s'.Shows (window.write buffer) := by
  have position := h.pos_le
  have room : subSize s.len s.pos = window.room := by
    rw [h.len, subSize_of_le position (by omega), h.pos]
    rfl
  have taken : (buffer.take (min buffer.length window.room)).length = min buffer.length window.room := by
    rw [List.length_take]
    omega
  have fits : window.position + window.room = n := Nat.add_sub_of_le window.inside
  obtain ⟨data, stored, backs⟩ := @memcpy_backs _ _ _ h.block s.pos
    (buffer.take (min buffer.length window.room)) (by rw [taken, h.pos]; omega)
  have same : buffer.take (min buffer.length window.room) = buffer.take window.room := by
    rw [Nat.min_comm, ← List.take_eq_take_min]
  refine ⟨{ s with
    data
    pos := s.pos + min buffer.length window.room
    validLen := if s.validLen < s.pos + min buffer.length window.room then s.pos + min buffer.length window.room else s.validLen }, ?_, ?_⟩
  · unfold MemoryOutputStream.store
    dsimp only
    rw [room, stored, wrapSize_of_lt (by rw [h.pos]; omega)]
  · exact {
      fixed := h.fixed
      block := backs.congr fun p _ => by
        rw [same, h.pos]
        rfl
      len := h.len
      pos := congrArg (· + min buffer.length window.room) h.pos }

/-- It cannot grow, so it goes ahead with what is left. -/
theorem Shows.arrayResize (h : s.Shows window) {size : Nat} (longer : n < size) :
    s.arrayResize size true = s.cannotResize true "Memory output stream not resizable" := by
  unfold MemoryOutputStream.arrayResize
  rw [if_neg (by rw [h.len]; omega), h.fixed]

theorem Shows.write (h : s.Shows window) (small : n < 2 ^ 62) {buffer : Bytes} (admissible : buffer.length < 2 ^ 62) :
    ∃ s' result, s.write buffer = .ok (s', result) ∧ s'.Shows (windowCall window (.write buffer)).1 ∧
      result.mapError StreamError.code = (windowCall window (.write buffer)).2 := by
  have position := h.pos_le
  have at_position := h.pos
  unfold MemoryOutputStream.write windowCall
  dsimp only
  by_cases empty : buffer.length = 0
  · obtain rfl := List.length_eq_zero_iff.mp empty
    refine ⟨s, .ok 0, if_pos rfl, ?_, ?_⟩
    · exact { fixed := h.fixed, len := h.len, pos := h.pos.trans (by simp [Window.write]), block := h.block.congr fun p _ => by simp [Window.write] }
    · simp [Except.mapError]
  · rw [if_neg empty, h.fixed, wrapSize_of_lt (by omega), if_neg (by simp), h.len]
    by_cases longer : n < s.pos + buffer.length
    · obtain ⟨power, rounded, covers, -⟩ := @gNearestPow_ok (s.pos + buffer.length) (by omega) (by omega)
      rw [if_pos longer]
      unfold MemoryOutputStream.growAndStore
      rw [wrapSize_of_lt (by omega), rounded]
      dsimp only
      rw [if_neg (by omega), h.arrayResize (by omega)]
      unfold cannotResize
      by_cases full : window.position = n
      · rw [if_neg (by rw [h.len]; simp; omega), if_pos ⟨full, by omega⟩]
        exact ⟨s, _, rfl, h, rfl⟩
      · rw [if_pos (by rw [h.len]; simp; omega), if_neg fun reached => full reached.1]
        obtain ⟨s', stored, shows⟩ := h.store small buffer
        exact ⟨s', _, stored, shows, rfl⟩
    · rw [if_neg longer, if_neg (by omega)]
      obtain ⟨s', stored, shows⟩ := h.store small buffer
      exact ⟨s', _, stored, shows, rfl⟩

/-! ## Seeking and truncating -/

theorem Shows.absolute (h : s.Shows window) (small : n < 2 ^ 62) {offset : Int} (type : SeekType)
    (word : -2 ^ 63 ≤ offset ∧ offset < 2 ^ 63) :
    s.absolute offset type = windowTarget window offset type ∨
      (n < windowTarget window offset type ∧ s.absolute offset type < 0) := by
  have position := h.pos_le
  have at_position := h.pos
  cases type with
  | set => exact .inl rfl
  | cur =>
    have reached : s.absolute offset .cur = toOffset (s.pos + toSize offset) := rfl
    rw [reached, toOffset_add (by omega) word]
    unfold windowTarget
    dsimp only
    split <;> omega
  | fromEnd =>
    have reached : s.absolute offset .fromEnd = toOffset (n + toSize offset) := by
      unfold MemoryOutputStream.absolute seekBase
      rw [h.fixed, h.len]
      rfl
    rw [reached, toOffset_add (by omega) word]
    unfold windowTarget
    dsimp only
    split <;> omega

theorem absolute_lt (s : MemoryOutputStream) {offset : Int} (type : SeekType) (word : offset < 2 ^ 63) :
    s.absolute offset type < 2 ^ 63 := by
  cases type with
  | set => exact word
  | _ =>
    unfold MemoryOutputStream.absolute toOffset wrapSize
    split <;> omega

theorem Shows.seek (h : s.Shows window) (small : n < 2 ^ 62) {offset : Int} (type : SeekType)
    (word : -2 ^ 63 ≤ offset ∧ offset < 2 ^ 63) :
    ∃ s' result, s.seek offset type = .ok (s', result) ∧ s'.Shows (windowSeek window (windowTarget window offset type)).1 ∧
      (result.map fun () => 0).mapError StreamError.code = (windowSeek window (windowTarget window offset type)).2 := by
  have where_to := h.absolute small type word
  unfold MemoryOutputStream.seek windowSeek
  dsimp only
  by_cases inside : 0 ≤ windowTarget window offset type ∧ windowTarget window offset type ≤ n
  · obtain same | ⟨beyond, -⟩ := where_to
    · have reached : toSize (s.absolute offset type) = (windowTarget window offset type).toNat := by
        rw [same, toSize_of_nonneg inside.1 (by omega)]
      have near : ¬(s.reallocFn.isNone && s.len < (windowTarget window offset type).toNat) = true := by
        rw [h.fixed, h.len]
        simp
        omega
      rw [dif_pos inside, reached, if_neg (by omega), if_neg near]
      exact ⟨_, _, rfl, { fixed := h.fixed, block := h.block, len := h.len, pos := rfl }, rfl⟩
    · omega
  · rw [dif_neg inside]
    by_cases negative : s.absolute offset type < 0
    · rw [if_pos negative]
      exact ⟨s, _, rfl, h, rfl⟩
    · have small := s.absolute_lt type word.2
      have beyond : n < toSize (s.absolute offset type) := by
        rw [toSize_of_nonneg (by omega) small]
        omega
      rw [if_neg negative, if_pos (by rw [h.fixed, h.len]; simpa using beyond)]
      exact ⟨s, _, rfl, h, rfl⟩

theorem Shows.truncate (h : s.Shows window) {offset : Int} (admissible : 0 ≤ offset ∧ offset < 2 ^ 63) :
    ∃ s' result, s.truncate offset = .ok (s', result) ∧ s'.Shows window ∧
      (result.map fun () => 0).mapError StreamError.code = (windowCall window (.truncate offset)).2 := by
  unfold MemoryOutputStream.truncate MemoryOutputStream.arrayResize windowCall
  rw [toSize_of_nonneg admissible.1 admissible.2]
  by_cases same : s.len = offset.toNat
  · have whole := h.len
    dsimp only
    rw [if_pos same, if_pos (by omega)]
    exact ⟨_, _, rfl, { fixed := h.fixed, block := h.block, len := h.len, pos := h.pos }, rfl⟩
  · have whole := h.len
    dsimp only
    rw [if_neg same, h.fixed, if_neg (by omega)]
    exact ⟨s, _, rfl, h, rfl⟩

theorem Shows.call (h : s.Shows window) (small : n < 2 ^ 62) {call : StreamCall} (admissible : call.Admissible) :
    ∃ s' result, s.call call = .ok (s', result) ∧ s'.Shows (windowCall window call).1 ∧
      result.mapError StreamError.code = (windowCall window call).2 := by
  cases call with
  | write buffer => exact h.write small admissible
  | seek offset type =>
    obtain ⟨s', result, sought, shows, same⟩ := h.seek small type admissible
    refine ⟨s', result.map fun () => 0, ?_, shows, same⟩
    unfold MemoryOutputStream.call
    dsimp only
    rw [sought]
    rfl
  | truncate offset =>
    obtain ⟨s', result, cut, shows, same⟩ := h.truncate admissible
    refine ⟨s', result.map fun () => 0, ?_, shows, same⟩
    unfold MemoryOutputStream.call
    dsimp only
    rw [cut]
    rfl

/-! A call that fails leaves the stream as it was, whatever the stream. -/

theorem cannotResize_fails {s s' : MemoryOutputStream} {allowPartial : Bool} {message : String} {error : StreamError}
    (failed : s.cannotResize allowPartial message = .ok (s', .error error)) : s' = s := by
  unfold cannotResize at failed
  split at failed <;> cases failed
  rfl

theorem takeOver_never_fails {s s' : MemoryOutputStream} {data : Option Block} {size : Nat} {error : StreamError} :
    s.takeOver data size ≠ .ok (s', .error error) := by
  unfold takeOver
  dsimp only
  split <;> exact nofun

theorem arrayResize_fails {s s' : MemoryOutputStream} {size : Nat} {allowPartial : Bool} {error : StreamError}
    (failed : s.arrayResize size allowPartial = .ok (s', .error error)) : s' = s := by
  unfold arrayResize at failed
  split at failed
  · cases failed
  · split at failed
    · exact cannotResize_fails failed
    · split at failed
      · cases failed
      · split at failed
        · exact cannotResize_fails failed
        · exact absurd failed takeOver_never_fails

theorem store_never_fails {s s' : MemoryOutputStream} {buffer : Bytes} {error : StreamError} :
    s.store buffer ≠ .ok (s', .error error) := by
  unfold store
  dsimp only
  split <;> exact nofun

theorem growAndStore_fails {s s' : MemoryOutputStream} {buffer : Bytes} {error : StreamError}
    (failed : s.growAndStore buffer = .ok (s', .error error)) : s' = s := by
  unfold growAndStore at failed
  split at failed
  · cases failed
  · split at failed
    · cases failed
      rfl
    · split at failed
      · cases failed
      next resized =>
        cases failed
        exact arrayResize_fails resized
      · exact absurd failed store_never_fails

theorem write_fails {s s' : MemoryOutputStream} {buffer : Bytes} {error : StreamError}
    (failed : s.write buffer = .ok (s', .error error)) : s' = s := by
  unfold write at failed
  split at failed
  · cases failed
  · split at failed
    · cases failed
      rfl
    · split at failed
      · exact growAndStore_fails failed
      · exact absurd failed store_never_fails

theorem seek_fails {s s' : MemoryOutputStream} {offset : Int} {type : SeekType} {error : StreamError}
    (failed : s.seek offset type = .ok (s', .error error)) : s' = s := by
  unfold seek at failed
  dsimp only at failed
  split at failed
  · cases failed
    rfl
  · split at failed <;> cases failed
    rfl

theorem truncate_fails {s s' : MemoryOutputStream} {offset : Int} {error : StreamError}
    (failed : s.truncate offset = .ok (s', .error error)) : s' = s := by
  unfold truncate at failed
  split at failed
  · cases failed
  next resized =>
    cases failed
    exact arrayResize_fails resized
  · cases failed

/-- The error of a call that counts as zero when it succeeds. -/
theorem error_of_map {outcome : Outcome Unit} {s' : MemoryOutputStream} {error : StreamError}
    (failed : (outcome.map fun (s, result) => (s, result.map fun () => 0)) = .ok (s', (.error error : Except StreamError Nat))) :
    outcome = .ok (s', .error error) := by
  cases outcome with
  | error stop => cases failed
  | ok after =>
    obtain ⟨s, result⟩ := after
    cases result <;> cases failed
    rfl

theorem call_fails {s s' : MemoryOutputStream} {call : StreamCall} {error : StreamError}
    (failed : s.call call = .ok (s', .error error)) : s' = s := by
  cases call with
  | write buffer => exact write_fails failed
  | seek offset type => exact seek_fails (error_of_map failed)
  | truncate offset => exact truncate_fails (error_of_map failed)

/-! Runs of a memory output stream: it is a file as long as every write fits. -/

variable {process : Process} {s : MemoryOutputStream} {file : SparseFile UInt8}

/-! ## One call -/

theorem Holds.call (serves : ∀ size < 2 ^ 64, process.serves size = true) (h : s.Holds process file) {call : StreamCall}
    (admissible : call.Admissible) (fits : s.Fits call) :
    ∃ s' result, s.call call = .ok (s', result) ∧ s'.Holds process (fileCall file call).1 ∧
      result.mapError StreamError.code = (fileCall file call).2 := by
  cases call with
  | write buffer =>
    obtain ⟨s', written, holds⟩ := h.write serves admissible fits
    exact ⟨s', _, written, holds, rfl⟩
  | seek offset type =>
    obtain ⟨s', result, sought, holds, same⟩ := h.seek type admissible
    refine ⟨s', result.map fun () => 0, ?_, holds, same⟩
    unfold MemoryOutputStream.call
    dsimp only
    rw [sought]
    rfl
  | truncate offset =>
    obtain ⟨s', cut, holds⟩ := h.truncate serves admissible
    refine ⟨s', .ok 0, ?_, holds, rfl⟩
    unfold MemoryOutputStream.call
    dsimp only
    rw [cut]
    rfl

theorem Holds.call_stops (h : s.Holds process file) {call : StreamCall} (admissible : call.Admissible) (large : ¬s.Fits call) :
    s.call call = .error .xerror := by
  cases call with
  | write buffer => exact h.write_stops admissible large
  | seek offset type => exact absurd trivial large
  | truncate offset => exact absurd trivial large

/-! ## Runs -/

/-- Each write fits in the state in which it is made. -/
def AllFit (s : MemoryOutputStream) : List StreamCall → Prop
  | [] => True
  | call :: calls => s.Fits call ∧ ∀ s' result, s.call call = .ok (s', result) → AllFit s' calls

/-- The calls return what the file's calls return, and leave a stream that stands for the file they leave. -/
def ActsAsFile (process : Process) (s : MemoryOutputStream) (file : SparseFile UInt8) (calls : List StreamCall) : Prop :=
  ∃ s' results, s.run calls = .ok (s', results) ∧ s'.Holds process (fileRun file calls).1 ∧
    results.map (Except.mapError StreamError.code) = (fileRun file calls).2

theorem Holds.run (serves : ∀ size < 2 ^ 64, process.serves size = true) (h : s.Holds process file) {calls : List StreamCall}
    (admissible : ∀ call ∈ calls, call.Admissible) :
    (s.AllFit calls ∧ ActsAsFile process s file calls) ∨ (¬s.AllFit calls ∧ s.run calls = .error .xerror) := by
  induction calls generalizing s file with
  | nil => exact .inl ⟨trivial, s, [], rfl, h, rfl⟩
  | cons call calls ih =>
    obtain ⟨first, others⟩ := List.forall_mem_cons.mp admissible
    by_cases fits : s.Fits call
    · obtain ⟨s₁, result, called, holds, same⟩ := h.call serves first fits
      obtain ⟨fit, s', results, ran, after, agree⟩ | ⟨large, stopped⟩ := ih holds others
      · refine .inl ⟨⟨fits, ?_⟩, s', result :: results, ?_, after, ?_⟩
        · intro s₂ result₂ again
          cases called.symm.trans again
          exact fit
        · rw [MemoryOutputStream.run, called]
          dsimp only
          rw [ran]
          rfl
        · exact congrArg₂ List.cons same agree
      · refine .inr ⟨fun all => large (all.2 s₁ result called), ?_⟩
        rw [MemoryOutputStream.run, called]
        dsimp only
        rw [stopped]
        rfl
    · refine .inr ⟨fun all => fits all.1, ?_⟩
      rw [MemoryOutputStream.run, h.call_stops first fits]

theorem Shows.run {n : Nat} {window : Window UInt8 n} (small : n < 2 ^ 62) (h : s.Shows window) {calls : List StreamCall}
    (admissible : ∀ call ∈ calls, call.Admissible) :
    ∃ s' results, s.run calls = .ok (s', results) ∧ s'.Shows (windowRun window calls).1 ∧
      results.map (Except.mapError StreamError.code) = (windowRun window calls).2 := by
  induction calls generalizing s window with
  | nil => exact ⟨s, [], rfl, h, rfl⟩
  | cons call calls ih =>
    obtain ⟨first, others⟩ := List.forall_mem_cons.mp admissible
    obtain ⟨s₁, result, called, shows, same⟩ := h.call small first
    obtain ⟨s', results, ran, after, agree⟩ := ih shows others
    refine ⟨s', result :: results, ?_, after, congrArg₂ List.cons same agree⟩
    rw [MemoryOutputStream.run, called]
    dsimp only
    rw [ran]
    rfl

/-- A resizable stream is a file exactly in the runs whose writes all fit, and the only other end is the rounding's
assertion; a stream over given memory is a window on it in every run; and a call that fails changes nothing. -/
theorem run_file (process : Process) (serves : ∀ size < 2 ^ 64, process.serves size = true)
    (calls : List StreamCall) (admissible : ∀ call ∈ calls, call.Admissible) :
    ((ActsAsFile process (newResizable process) .empty calls ↔ (newResizable process).AllFit calls) ∧
      (newResizable process).run calls ≠ .error .outside) ∧
    (∀ (n : Nat) (data : Option Block) (byte : Nat → UInt8), n < 2 ^ 62 → Backs data n byte →
      ∃ s' results, (new data n none).run calls = .ok (s', results) ∧
        s'.Shows (windowRun (⟨byte, 0, Nat.zero_le n⟩ : Window UInt8 n) calls).1 ∧
        results.map (Except.mapError StreamError.code) = (windowRun (⟨byte, 0, Nat.zero_le n⟩ : Window UInt8 n) calls).2) ∧
    ∀ (s s' : MemoryOutputStream) (call : StreamCall) (error : StreamError), s.call call = .ok (s', .error error) → s' = s := by
  refine ⟨?_, fun n data byte small given => ?_, fun s s' call error => call_fails⟩
  · obtain ⟨fit, acts⟩ | ⟨large, stopped⟩ := (newResizable_holds process).run serves admissible
    · refine ⟨iff_of_true acts fit, ?_⟩
      obtain ⟨s', results, ran, -⟩ := acts
      rw [ran]
      exact nofun
    · have elsewhere : ¬ActsAsFile process (newResizable process) .empty calls := by
        rintro ⟨s', results, ran, -⟩
        cases stopped.symm.trans ran
      refine ⟨iff_of_false elsewhere large, ?_⟩
      rw [stopped]
      exact nofun
  · exact (new_shows given).run small admissible

/-- A process that serves every request. -/
def generous : Process := { gcFriendly := false, serves := fun _ => true, indeterminate := fun _ => 0xAA }

/-- Write past a gap, cut the file, and reach behind its end again. -/
theorem run_file_sample :
    ActsAsFile generous (newResizable generous) .empty
      [.write [1, 2, 3], .seek 20 .set, .write [4], .truncate 2, .seek 1 .fromEnd, .write [5]] := by
  refine (run_file generous (fun _ _ => rfl) _ (by decide)).1.1.mpr ?_
  · refine ⟨by decide, fun s₁ _ first => ?_⟩
    cases first
    refine ⟨trivial, fun s₂ _ second => ?_⟩
    cases second
    refine ⟨by decide, fun s₃ _ third => ?_⟩
    cases third
    refine ⟨trivial, fun s₄ _ fourth => ?_⟩
    cases fourth
    refine ⟨trivial, fun s₅ _ fifth => ?_⟩
    cases fifth
    exact ⟨by decide, fun _ _ _ => trivial⟩

/-- The last position that a seek reaches, and one byte written there. -/
theorem seek_then_write_stops :
    (∀ call ∈ [StreamCall.seek (2 ^ 63 - 1) .set, .write [0]], call.Admissible) ∧
    ¬ActsAsFile generous (newResizable generous) .empty [.seek (2 ^ 63 - 1) .set, .write [0]] := by
  refine ⟨by decide, ?_⟩
  rintro ⟨s', results, ran, -⟩
  have stopped : (newResizable generous).run [.seek (2 ^ 63 - 1) .set, .write [0]] = .error .xerror := rfl
  cases stopped.symm.trans ran

end MemoryOutputStream

end Xpl.Streams
