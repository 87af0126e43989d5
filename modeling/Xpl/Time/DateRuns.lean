import Xpl.Time.DateInvariant

/-! Whole runs over any number of dates: every call keeps every date sound, a refused
call leaves the day of every date as it was, and no call changes the day of a date it is
not given. -/

set_option autoImplicit false

namespace Xpl.Time
variable {d : Date}

open Xpl.Library

variable {s s' : Dates} {i j : Nat}

def Dates.Sound (s : Dates) : Prop := ∀ i, (s i).Sound

def SameDays (s s' : Dates) : Prop := ∀ i, (s' i).number = (s i).number

theorem SameDays.refl (s : Dates) : SameDays s s := fun _ => rfl

theorem SameDays.trans {s'' : Dates} (first : SameDays s s') (second : SameDays s' s'') : SameDays s s'' :=
  fun i => (second i).trans (first i)

theorem update_sound (sound : s.Sound) (sound_d : d.Sound) : Dates.Sound (Function.update s i d) := by
  intro k
  by_cases same : k = i
  · subst same
    rw [Function.update_self]
    exact sound_d
  · rw [Function.update_of_ne same]
    exact sound k

theorem update_sameDays (same : d.number = (s i).number) : SameDays s (Function.update s i d) := by
  intro k
  by_cases here : k = i
  · subst here
    rw [Function.update_self]
    exact same
  · rw [Function.update_of_ne here]

theorem ensureJulianAt_spec (sound : s.Sound) (i : Nat) :
    (ensureJulianAt s i).Sound ∧ SameDays s (ensureJulianAt s i) := by
  obtain ⟨sound', number, _, _⟩ := ensureJulian_spec (sound i)
  exact ⟨update_sound sound sound', update_sameDays number⟩

theorem compareDates_spec (sound : s.Sound) (lhs rhs : Nat) :
    (compareDates s lhs rhs).2.1.Sound ∧ SameDays s (compareDates s lhs rhs).2.1 := by
  obtain ⟨sound₁, same₁⟩ := ensureJulianAt_spec sound lhs
  obtain ⟨sound₂, same₂⟩ := ensureJulianAt_spec sound₁ rhs
  unfold compareDates
  dsimp only
  split
  · exact ⟨sound, SameDays.refl s⟩
  · split
    · exact ⟨sound, SameDays.refl s⟩
    · split
      · exact ⟨sound, SameDays.refl s⟩
      · split
        · exact ⟨sound₂, same₁.trans same₂⟩
        · exact ⟨sound₂, same₁.trans same₂⟩

theorem getJulian_spec (sound : d.Sound) :
    (getJulian d).2.Sound ∧ (getJulian d).2.number = d.number := getter_sound sound .julian nofun

theorem daysBetween_spec (sound : s.Sound) (d1 d2 : Nat) :
    (daysBetween s d1 d2).2.1.Sound ∧ SameDays s (daysBetween s d1 d2).2.1 := by
  unfold daysBetween
  split
  · exact ⟨sound, SameDays.refl s⟩
  · obtain ⟨sound₂, same₂⟩ := getJulian_spec (sound d2)
    have soundAll := update_sound (i := d2) sound sound₂
    obtain ⟨sound₁, same₁⟩ := getJulian_spec (soundAll d1)
    exact ⟨update_sound soundAll sound₁, (update_sameDays same₂).trans (update_sameDays same₁)⟩

/-- Only the given dates may have another day. -/
def Touches (s s' : Dates) (changed : List Nat) : Prop := ∀ k, k ∉ changed → (s' k).number = (s k).number

theorem SameDays.touches (same : SameDays s s') (changed : List Nat) : Touches s s' changed := fun k _ => same k

theorem Touches.trans {s'' : Dates} {changed : List Nat} (first : Touches s s' changed) (second : Touches s' s'' changed) :
    Touches s s'' changed := fun k outside => (second k outside).trans (first k outside)

theorem update_touches {changed : List Nat} (inside : i ∈ changed) (d : Date) : Touches s (Function.update s i d) changed := by
  intro k outside
  have apart : k ≠ i := by
    rintro rfl
    exact outside inside
  rw [Function.update_of_ne apart]

/-- One half of clamping: the date takes the value of a bound that it lies beyond. -/
theorem replaceIf_spec (sound : s.Sound) (lhs rhs date bound : Nat) :
    let t := (compareDates s lhs rhs).2.1
    let s' : Dates := if (compareDates s lhs rhs).1 < 0 then Function.update t date (t bound) else t
    s'.Sound ∧ Touches s s' [date] := by
  obtain ⟨sound', same⟩ := compareDates_spec sound lhs rhs
  split
  · exact ⟨update_sound sound' (sound' bound), (same.touches [date]).trans (update_touches (List.mem_singleton_self date) _)⟩
  · exact ⟨sound', same.touches [date]⟩

theorem clampBetween_spec (sound : s.Sound) (date : Nat) (minDate maxDate : Option Nat) :
    (clampBetween s date minDate maxDate).Sound ∧ Touches s (clampBetween s date minDate maxDate) [date] := by
  cases minDate with
  | none =>
    cases maxDate with
    | none => exact ⟨sound, (SameDays.refl s).touches _⟩
    | some high => exact replaceIf_spec sound high date date high
  | some low =>
    obtain ⟨sound', touches⟩ := replaceIf_spec sound date low date low
    cases maxDate with
    | none => exact ⟨sound', touches⟩
    | some high =>
      obtain ⟨sound'', touches'⟩ := replaceIf_spec sound' high date date high
      exact ⟨sound'', touches.trans touches'⟩

/-- A call keeps all dates sound; refused, it keeps all days, and otherwise all but those of
the dates it is meant to change. -/
def Keeps (s : Dates) (result : Dates × Bool) (changed : List Nat) : Prop :=
  result.1.Sound ∧ Touches s result.1 changed ∧ (result.2 = false → SameDays s result.1)

theorem clamp_keeps (sound : s.Sound) (date : Nat) (minDate maxDate : Option Nat) :
    Keeps s (clamp s date minDate maxDate) [date] := by
  have refused : Keeps s (s, false) [date] := ⟨sound, (SameDays.refl s).touches _, fun _ => SameDays.refl s⟩
  unfold clamp
  split
  · exact refused
  · split
    · exact refused
    · split
      · exact refused
      · split
        · rename_i low high _ _
          obtain ⟨sound', same⟩ := compareDates_spec sound low high
          obtain ⟨sound'', touches⟩ := clampBetween_spec sound' date (some low) (some high)
          dsimp only
          split
          · exact ⟨sound', same.touches _, fun _ => same⟩
          · exact ⟨sound'', (same.touches _).trans touches, fun rejected => absurd rejected nofun⟩
        · obtain ⟨sound', touches⟩ := clampBetween_spec sound date minDate maxDate
          exact ⟨sound', touches, fun rejected => absurd rejected nofun⟩

theorem order_keeps (sound : s.Sound) (date1 date2 : Nat) : Keeps s (order s date1 date2) [date1, date2] := by
  unfold order
  split
  · exact ⟨sound, (SameDays.refl s).touches _, fun _ => SameDays.refl s⟩
  · obtain ⟨sound', same⟩ := compareDates_spec sound date1 date2
    dsimp only
    split
    · refine ⟨update_sound (update_sound sound' (sound' date2)) (sound' date1), ?_, fun rejected => absurd rejected nofun⟩
      exact ((same.touches _).trans (update_touches List.mem_cons_self _)).trans
        (update_touches (List.mem_cons_of_mem _ (List.mem_singleton_self _)) _)
    · exact ⟨sound', same.touches _, fun _ => same⟩

theorem newJulian_sound {memory : Date} {j : UInt32} (created : newJulian memory j = some d) : d.Sound := by
  unfold newJulian at created
  split at created
  · exact absurd created nofun
  · rename_i good
    obtain rfl := Option.some.inj created
    have valid : validJulian j = true := by simpa using good
    refine sound_julian rfl ?_ (validJulian_iff.mp valid)
    exact Nat.mod_lt _ (Nat.two_pow_pos 16)

theorem newDmy_sound {memory : Date} {day : UInt8} {m : UInt32} {y : UInt16}
    (created : newDmy memory day m y = some d) : d.Sound := by
  unfold newDmy at created
  split at created
  · exact absurd created nofun
  · rename_i good
    have valid := validDmy_iff.mp (show validDmy day.toNat m.toNat y.toNat = true by simpa using good)
    obtain rfl := Option.some.inj created
    rw [store_eq valid y.toNat_lt]
    exact sound_dmy rfl y.toNat_lt valid

theorem copyDate_keeps (sound : s.Sound) (source target : Nat) (memory : Date) :
    (copyDate s source target memory).Sound ∧ Touches s (copyDate s source target memory) [target] := by
  unfold copyDate
  split
  · obtain ⟨sound₁, same₁⟩ := getJulian_spec (sound source)
    have soundAll := update_sound (i := source) sound sound₁
    dsimp only
    split
    · rename_i copy created
      exact ⟨update_sound soundAll (newJulian_sound created),
        ((update_sameDays same₁).touches _).trans (update_touches (List.mem_singleton_self target) _)⟩
    · exact ⟨soundAll, (update_sameDays same₁).touches _⟩
  · exact ⟨update_sound sound (sound source), update_touches (List.mem_singleton_self target) _⟩

/-- When a call meets no day that its date cannot hold. A date beyond the last day must not be
converted to day, month and year, months are not taken away beyond year 1, and a local
time lies in a year that a date can hold. -/
def DateCall.Fits (s : Dates) : DateCall → Prop
  | .setDay date day => validDay day.toNat = true → (s date).Convertible
  | .setMonth date m => validMonth m.toNat = true → (s date).Convertible
  | .setYear date y => validYear y.toNat = true → (s date).Convertible
  | .setTimeT _ tm => tm.Fits
  | .get g date => g.needsDmy = true → (s date).Convertible
  | .addMonths date _ | .addYears date _ | .subtractYears date _ => (s date).Convertible
  | .subtractMonths date nmonths => (s date).Convertible ∧ (s date).Reaches nmonths
  | .clear _ | .setDmy _ _ _ _ | .setJulian _ _ | .setParse _ _ | .daysBetween _ _ | .compare _ _ | .addDays _ _
  | .subtractDays _ _ | .clamp _ _ _ | .order _ _ | .copy _ _ _ => True

theorem onDate_keeps {f : Date → Date × Bool} (sound : s.Sound) (date : Nat)
    (keeps : (f (s date)).1.Sound ∧ ((f (s date)).2 = false → (f (s date)).1.number = (s date).number)) :
    Keeps s (onDate s date f) [date] :=
  ⟨update_sound sound keeps.1, update_touches (List.mem_singleton_self date) _,
    fun rejected => update_sameDays (keeps.2 rejected)⟩

theorem call_keeps (sound : s.Sound) (call : DateCall) (fits : call.Fits s) : Keeps s (call.run s) call.changes := by
  have number {d e : Date} {b : Bool} (kept : b = false → e = d) : b = false → e.number = d.number :=
    fun rejected => congrArg Date.number (kept rejected)
  cases call with
  | clear date => exact onDate_keeps sound date ⟨sound_cleared, fun rejected => absurd rejected nofun⟩
  | setDay date day =>
    obtain ⟨sound', kept⟩ := setDay_sound (sound date) day fits
    exact onDate_keeps sound date ⟨sound', number kept⟩
  | setMonth date m =>
    obtain ⟨sound', kept⟩ := setMonth_sound (sound date) m fits
    exact onDate_keeps sound date ⟨sound', number kept⟩
  | setYear date y =>
    obtain ⟨sound', kept⟩ := setYear_sound (sound date) y fits
    exact onDate_keeps sound date ⟨sound', number kept⟩
  | setDmy date day m y =>
    obtain ⟨sound', kept⟩ := setDmy_sound (sound date) day m y
    exact onDate_keeps sound date ⟨sound', number kept⟩
  | setJulian date j =>
    obtain ⟨sound', kept⟩ := setJulian_sound (sound date) j
    exact onDate_keeps sound date ⟨sound', number kept⟩
  | setTimeT date tm =>
    obtain ⟨sound', accepted⟩ := setTimeT_sound (d := s date) fits
    exact onDate_keeps sound date ⟨sound', fun rejected => absurd (accepted.symm.trans rejected) nofun⟩
  | setParse date found => exact onDate_keeps sound date ⟨setParse_sound found, fun rejected => absurd rejected nofun⟩
  | get g date =>
    obtain ⟨sound', same⟩ := getter_sound (sound date) g fits
    have days := update_sameDays (s := s) (i := date) same
    exact ⟨update_sound sound sound', days.touches _, fun _ => days⟩
  | daysBetween d1 d2 =>
    obtain ⟨sound', same⟩ := daysBetween_spec sound d1 d2
    exact ⟨sound', same.touches _, fun _ => same⟩
  | compare lhs rhs =>
    obtain ⟨sound', same⟩ := compareDates_spec sound lhs rhs
    exact ⟨sound', same.touches _, fun _ => same⟩
  | addDays date ndays => exact onDate_keeps sound date (addDays_sound (sound date) ndays)
  | subtractDays date ndays => exact onDate_keeps sound date (subtractDays_sound (sound date) ndays)
  | addMonths date nmonths => exact onDate_keeps sound date (addMonths_sound (sound date) nmonths fits)
  | subtractMonths date nmonths => exact onDate_keeps sound date (subtractMonths_sound (sound date) nmonths fits.1 fits.2)
  | addYears date nyears => exact onDate_keeps sound date (addYears_sound (sound date) nyears fits)
  | subtractYears date nyears => exact onDate_keeps sound date (subtractYears_sound (sound date) nyears fits)
  | clamp date minDate maxDate => exact clamp_keeps sound date minDate maxDate
  | order date1 date2 => exact order_keeps sound date1 date2
  | copy source target memory =>
    obtain ⟨sound', touches⟩ := copyDate_keeps sound source target memory
    exact ⟨sound', touches, fun rejected => absurd rejected nofun⟩

def Date.Started (d : Date) : Prop :=
  d = Date.cleared ∨ (∃ memory day m y, newDmy memory day m y = some d) ∨ ∃ memory j, newJulian memory j = some d

theorem started_sound (started : d.Started) : d.Sound := by
  rcases started with rfl | ⟨memory, day, m, y, created⟩ | ⟨memory, j, created⟩
  · exact sound_cleared
  · exact newDmy_sound created
  · exact newJulian_sound created

def runCalls (s : Dates) (calls : List DateCall) : Dates := calls.foldl (fun s call => (call.run s).1) s

/-- Each call of a run is made in a state that it fits. -/
def EveryFits : Dates → List DateCall → Prop
  | _, [] => True
  | s, call :: calls => call.Fits s ∧ EveryFits (call.run s).1 calls

theorem runCalls_sound {s : Dates} {calls : List DateCall} (sound : s.Sound) (fits : EveryFits s calls) :
    (runCalls s calls).Sound := by
  induction calls generalizing s with
  | nil => exact sound
  | cons call calls ih => exact ih (call_keeps sound call fits.1).1 fits.2

/-- The two conversions undo each other on the days from the first to the last. -/
def ConversionsInverse : Prop :=
  (∀ d : Date, d.dmy = true → d.julian = false → ValidDay d.year d.month d.day → d.year < 2 ^ 16 →
    (updateJulian d).julian = true ∧ updateDmy { updateJulian d with dmy := false } = updateJulian d) ∧
  ∀ d : Date, d.julian = true → d.dmy = false → 0 < d.julianDays.toNat → d.julianDays.toNat ≤ lastDay →
    (updateDmy d).dmy = true ∧ updateJulian { updateDmy d with julian := false } = updateDmy d

theorem conversions_inverse : ConversionsInverse := by
  constructor
  · intro d dmy off valid fits
    obtain ⟨days, updated, number⟩ := updateJulian_spec dmy off valid fits
    rw [updated]
    rw [updateDmy_spec rfl rfl valid fits number]
    simp [dmy]
  · intro d julian off positive inside
    obtain ⟨year, month, day, valid, number⟩ := exists_dayNumber positive
    have fits := year_lt valid (by rw [number]; exact inside)
    rw [updateDmy_spec julian off valid fits number.symm]
    obtain ⟨days, updated, again⟩ := updateJulian_spec (d := { d with
      julian := false
      dmy := true
      day := day
      month := month
      year := year }) rfl rfl valid fits
    obtain rfl : days = d.julianDays := UInt32.toNat_inj.mp (again.trans number)
    rw [updated]
    simp [julian]

/-- In every run whose calls all fit, every date is sound in every state, and the calls keep the
days of the dates that they do not change or that they refuse to change. -/
theorem runCalls_keeps (start : Dates) (started : ∀ i, (start i).Started) (calls : List DateCall)
    (fits : EveryFits start calls) :
    ConversionsInverse ∧ (runCalls start calls).Sound ∧
      ∀ call : DateCall, call.Fits (runCalls start calls) →
        Keeps (runCalls start calls) (call.run (runCalls start calls)) call.changes := by
  have sound := runCalls_sound (fun i => started_sound (started i)) fits
  exact ⟨conversions_inverse, sound, fun call fits => call_keeps sound call fits⟩

def allCleared : Dates := fun _ => Date.cleared

/-- The last day of a January, a month later and a month before that, its year, and a day beyond the sixteen bits of the year
that is only counted, never converted. -/
def someCalls : List DateCall :=
  [.setDmy 0 31 1 2000, .addMonths 0 1, .subtractMonths 0 1, .get .year 0, .setJulian 1 23936167, .addDays 1 1]

theorem someCalls_reaches : (runCalls allCleared (someCalls.take 2) 0).Reaches 1 := by
  intro year month day valid number
  have held : (runCalls allCleared (someCalls.take 2) 0).number = some (dayNumber 2000 2 29) := by decide +kernel
  obtain ⟨rfl, rfl, rfl⟩ := dayNumber_injective valid (by decide) (Option.some.inj (number.symm.trans held))
  decide

theorem runCalls_keeps_sample :
    ConversionsInverse ∧ (runCalls allCleared someCalls).Sound ∧
      ∀ call : DateCall, call.Fits (runCalls allCleared someCalls) →
        Keeps (runCalls allCleared someCalls) (call.run (runCalls allCleared someCalls)) call.changes :=
  runCalls_keeps allCleared (fun _ => .inl rfl) _
    ⟨trivial, fun _ none => absurd none (by decide +kernel), ⟨fun _ none => absurd none (by decide +kernel), someCalls_reaches⟩,
      fun _ _ none => absurd none (by decide +kernel), trivial, trivial, trivial⟩

/-- A month before year 1, a day after year 65535, and a local time in a year that is zero in
sixteen bits: each leaves a date that is marked as valid and has the year 0. -/
theorem runCalls_unsound :
    ¬(runCalls allCleared [.setDmy 0 1 1 1, .subtractMonths 0 1]).Sound ∧
      ¬(runCalls allCleared [.setJulian 0 23936167, .get .year 0]).Sound ∧
      ¬(runCalls allCleared [.setDmy 0 1 1 2000, .setTimeT 0 { mon := 0, mday := 1, year := 63636 }]).Sound := by
  have noYear {s : Dates} (broken : (s 0).dmy = true ∧ (s 0).year = 0) : ¬s.Sound := by
    intro sound
    have positive := ((sound 0).exists_day broken.1).1
    rw [broken.2] at positive
    exact Nat.lt_irrefl 0 positive
  exact ⟨noYear (by decide +kernel), noYear (by decide +kernel), noYear (by decide +kernel)⟩

end Xpl.Time
