import Xpl.Keyfile.Reloading

/-! What a line can add at most: reading a text back never gives longer keys than it was written from, and gives shorter
ones where a key does not come back from its line. -/

set_option autoImplicit false

namespace Xpl.Keyfile
open Xpl.Library

/-! ## Weights -/

/-- The lengths of the keys, all together. -/
def keyWeight (pairs : List (Bytes × Bytes)) : Nat := (pairs.map (·.1.length)).sum

def contentsWeight (contents : Contents) : Nat := (contents.map fun group => keyWeight group.2).sum

namespace KeyFile

def weight (file : KeyFile) : Nat := (file.groups.map fun held => keyWeight held.2.pairs).sum

variable {setting : Setting} {file : KeyFile} {n : Nat}

/-- What was read holds, adds at most so much, and leaves the buffer as it was. -/
structure Gain (file : KeyFile) (n : Nat) (file' : KeyFile) : Prop where
  holds : file'.Holds True
  weight : file'.weight ≤ file.weight + n
  buffer : file'.parseBuffer = file.parseBuffer

abbrev Gains (file : KeyFile) (n : Nat) (parsed : Parsed) : Prop := Meets (fun _ => True) (Meets (fun _ => True) (file.Gain n)) parsed

theorem Holds.gain (h : file.Holds True) : file.Gain 0 file := ⟨h, Nat.le_refl _, rfl⟩

theorem Gain.mono {file' : KeyFile} {m : Nat} (gain : file.Gain n file') (more : n ≤ m) : file.Gain m file' :=
  ⟨gain.holds, Nat.le_trans gain.weight (Nat.add_le_add_left more _), gain.buffer⟩

theorem Gains.mono {m : Nat} {parsed : Parsed} (gains : file.Gains n parsed) (more : n ≤ m) : file.Gains m parsed :=
  Meets.mono gains fun _ parsed => Meets.mono parsed fun _ gain => gain.mono more

theorem Gains.andThen {m : Nat} {parsed : Parsed} (gains : file.Gains n parsed) {next : KeyFile → Parsed}
    (goes_on : ∀ file', file.Gain n file' → file'.Gains m (next file')) : file.Gains (n + m) (parsed.andThen next) := by
  match parsed with
  | .error halt => exact trivial
  | .ok (.error error) => exact trivial
  | .ok (.ok file') =>
    have first : file.Gain n file' := gains
    refine Meets.mono (goes_on file' first) fun _ parsed => Meets.mono parsed fun file'' second => ?_
    refine ⟨second.holds, ?_, second.buffer.trans first.buffer⟩
    have one := first.weight
    have two := second.weight
    omega

theorem length_dropWhile_le (key : Bytes) : (key.dropWhile isSpace).length ≤ key.length := (List.dropWhile_sublist _).length_le

/-- Text that adds so much at most, and less if something in it is lost. -/
def Adds (setting : Setting) (most : Nat) (lost : Prop) (text : Bytes) : Prop :=
  (lost → 0 < most) ∧ ∀ file : KeyFile, file.Holds True → file.parseBuffer = [] →
    file.Gains most (file.parseData setting text) ∧ (lost → file.Gains (most - 1) (file.parseData setting text))

theorem Adds.append {most more : Nat} {lost gone : Prop} {text rest : Bytes} (first : Adds setting most lost text)
    (second : Adds setting more gone rest) : Adds setting (most + more) (lost ∨ gone) (text ++ rest) := by
  refine ⟨fun either => ?_, fun file h empty => ?_⟩
  · rcases either with either | either
    · exact Nat.add_pos_left (first.1 either) _
    · exact Nat.add_pos_right _ (second.1 either)
  · rw [parseData_append]
    obtain ⟨all, less⟩ := first.2 file h empty
    have goes_on : ∀ n file', file.Gain n file' → _ := fun n file' (gain : file.Gain n file') =>
      second.2 file' gain.holds (gain.buffer.trans empty)
    refine ⟨all.andThen fun file' gain => (goes_on most file' gain).1, fun either => ?_⟩
    rcases either with either | either
    · have shorter := (less either).andThen fun file' gain => (goes_on (most - 1) file' gain).1
      have positive := first.1 either
      exact shorter.mono (by omega)
    · have shorter := all.andThen fun file' gain => (goes_on most file' gain).2 either
      have positive := second.1 either
      exact shorter.mono (by omega)

end KeyFile

end Xpl.Keyfile
