import Xpl.Collections.HashTableNodes

/-! Loops over the entries of a hash table that remove or replace some of them. -/

set_option autoImplicit false

namespace Xpl.Collections
open Xpl.Library

namespace HashTable

variable {t : HashTable} {n p : Nat} {slots : Nat → TableSlot}

def stepSlot (choose : UInt64 → UInt64 → IterStep) : TableSlot → TableSlot
  | .real h (key, value) =>
    match choose key value with
    | .keep => .real h (key, value)
    | .remove | .steal => .tombstone
    | .replace value => .real h (key, value)
  | slot => slot

def stepLog (funcs : TableFuncs) (choose : UInt64 → UInt64 → IterStep) (entry : UInt64 × UInt64) : List Notified :=
  match choose entry.1 entry.2 with
  | .remove => destroyEntry funcs entry
  | .replace _ => funcs.destroyValue entry.2
  | .keep | .steal => []

/-- The entries of the slots from `p` on. -/
def entriesFrom (slots : Nat → TableSlot) (p size : Nat) : List (UInt32 × UInt64 × UInt64) :=
  (List.range' p (size - p)).filterMap fun i => (slots i).content

theorem entriesFrom_skip {size : Nat} (empty : (slots p).content = none) :
    entriesFrom slots p size = entriesFrom slots (p + 1) size := by
  unfold entriesFrom
  rcases Nat.lt_or_ge p size with below | above
  · rw [show size - p = size - (p + 1) + 1 by omega, List.range'_succ]
    exact List.filterMap_cons_none empty
  · rw [show size - p = 0 by omega, show size - (p + 1) = 0 by omega]
    rfl

theorem entriesFrom_take {size : Nat} {entry : UInt32 × UInt64 × UInt64} (below : p < size)
    (content : (slots p).content = some entry) : entriesFrom slots p size = entry :: entriesFrom slots (p + 1) size := by
  unfold entriesFrom
  rw [show size - p = size - (p + 1) + 1 by omega, List.range'_succ]
  exact List.filterMap_cons_some content

theorem entriesFrom_zero (slots : Nat → TableSlot) (size : Nat) : entriesFrom slots 0 size = entriesBelow slots size := by
  rw [entriesFrom, entriesBelow, List.range_eq_range', Nat.sub_zero]

theorem entriesFrom_congr {other : Nat → TableSlot} {size : Nat} (same : ∀ i, p ≤ i → other i = slots i) :
    entriesFrom other p size = entriesFrom slots p size := by
  apply List.filterMap_congr
  intro i member
  rw [same i (List.mem_range'_1.mp member).1]

theorem seekReal_spec (sound : t.Sound n slots) :
    ∀ fuel p, p ≤ t.size → t.size < p + fuel → ∃ q, t.seekReal fuel p = some q ∧ p ≤ q ∧ q ≤ t.size ∧
      (∀ i, p ≤ i → i < q → (slots i).content = none) ∧ (q < t.size → (slots q).content.isSome) ∧
      entriesFrom slots p t.size = entriesFrom slots q t.size := by
  intro fuel
  induction fuel with
  | zero =>
    intro p _ _
    omega
  | succ fuel ih =>
    intro p within enough
    by_cases final : t.size ≤ p
    · refine ⟨p, by rw [seekReal, if_pos final], Nat.le_refl p, within, fun i _ _ => by omega, fun _ => by omega, rfl⟩
    · have inside : p < t.size := Nat.lt_of_not_le final
      simp only [seekReal, if_neg final, sound.holds.read inside, some_bind,
        hashIsReal_slotHash sound.holds inside]
      cases content : (slots p).content with
      | some entry =>
        refine ⟨p, rfl, Nat.le_refl p, within, fun i _ _ => by omega, fun _ => ?_, rfl⟩
        rw [content]
        rfl
      | none =>
        obtain ⟨q, result, after, below, empty, real, same⟩ := ih (p + 1) inside (by omega)
        refine ⟨q, result, by omega, below, fun i above less => ?_, real, (entriesFrom_skip content).trans same⟩
        rcases Nat.eq_or_lt_of_le above with rfl | later
        · exact content
        · exact empty i later less

/-- The slot of an entry after what the caller does with it. -/
def slotAfter : IterStep → TableSlot → TableSlot
  | .keep, slot => slot
  | .remove, _ | .steal, _ => .tombstone
  | .replace value, .real h (key, _) => .real h (key, value)
  | .replace _, slot => slot

def logAfter (funcs : TableFuncs) (step : IterStep) (entry : UInt64 × UInt64) : List Notified :=
  match step with
  | .remove => destroyEntry funcs entry
  | .replace _ => funcs.destroyValue entry.2
  | .keep | .steal => []

theorem stepSlot_real (choose : UInt64 → UInt64 → IterStep) (h : UInt32) (key value : UInt64) :
    stepSlot choose (.real h (key, value)) = slotAfter (choose key value) (.real h (key, value)) := by
  dsimp only [stepSlot]
  cases choose key value <;> rfl

theorem iterStep_slot (funcs : TableFuncs) (step : IterStep) (sound : t.Sound n slots) {i : Nat} {h : UInt32} {key value : UInt64}
    (inside : i < t.size) (held : slots i = .real h (key, value)) :
    ∃ t', t.iterStep funcs { position := i, version := t.version } step =
        some ({ position := i, version := t'.version }, logAfter funcs step (key, value), t') ∧
      t'.Sound n (Function.update slots i (slotAfter step (slots i))) ∧ t'.size = t.size := by
  have guard : ¬(t.version ≠ t.version ∨ (i : Int) < 0 ∨ (t.size : Int) ≤ i) := by omega
  cases step with
  | keep =>
    refine ⟨t, rfl, ?_, rfl⟩
    rw [slotAfter, Function.update_eq_self]
    exact sound
  | remove =>
    obtain ⟨t', result, sound', size, version⟩ := removeNode_spec funcs sound inside held true
    refine ⟨{ t' with version := t'.version + 1 }, ?_, sound'.withVersion _, size⟩
    simp only [iterStep, iterRemoveOrSteal, if_neg guard, Int.toNat_natCast, result, some_bind, version]
    rfl
  | steal =>
    obtain ⟨t', result, sound', size, version⟩ := removeNode_spec funcs sound inside held false
    refine ⟨{ t' with version := t'.version + 1 }, ?_, sound'.withVersion _, size⟩
    simp only [iterStep, iterRemoveOrSteal, if_neg guard, Int.toNat_natCast, result, some_bind, version]
    rfl
  | replace word =>
    obtain ⟨t', result, sound', size, version⟩ := insertNode_existing funcs sound inside held h key word true true
    have read := sound.holds.read inside
    rw [held] at read
    simp only [slotHash] at read
    refine ⟨{ t' with version := t'.version + 1 }, ?_, ?_, size⟩
    · simp only [iterStep, iterReplace, if_neg guard, Int.toNat_natCast, read, sound.holds.fetchKey inside held, result,
        some_bind, version]
      rfl
    · rw [held]
      exact sound'.withVersion _

theorem iterStep_spec (funcs : TableFuncs) (choose : UInt64 → UInt64 → IterStep) (sound : t.Sound n slots) {i : Nat} {h : UInt32}
    {key value : UInt64} (inside : i < t.size) (held : slots i = .real h (key, value)) :
    ∃ t', t.iterStep funcs { position := i, version := t.version } (choose key value) =
        some ({ position := i, version := t'.version }, stepLog funcs choose (key, value), t') ∧
      t'.Sound n (Function.update slots i (stepSlot choose (slots i))) ∧ t'.size = t.size := by
  have target : stepSlot choose (slots i) = slotAfter (choose key value) (slots i) := by
    rw [held]
    exact stepSlot_real choose h key value
  rw [target]
  exact iterStep_slot funcs (choose key value) sound inside held

theorem iterNext_spec (sound : t.Sound n slots) (within : p ≤ t.size) :
    ∃ q, p ≤ q ∧ (∀ i, p ≤ i → i < q → (slots i).content = none) ∧ entriesFrom slots p t.size = entriesFrom slots q t.size ∧
      ((q = t.size ∧ t.iterNext { position := (p : Int) - 1, version := t.version } =
          some ({ position := (q : Int), version := t.version }, none)) ∨
        (q < t.size ∧ ∃ h key value, slots q = .real h (key, value) ∧
          t.iterNext { position := (p : Int) - 1, version := t.version } =
            some ({ position := (q : Int), version := t.version }, some (key, value)))) := by
  obtain ⟨q, sought, after, below, empty, real, same⟩ := seekReal_spec sound (t.size + 1) p within (by omega)
  have guard : ¬(t.version ≠ t.version ∨ (t.size : Int) ≤ (p : Int) - 1) := by omega
  have position : ((p : Int) - 1 + 1).toNat = p := by omega
  refine ⟨q, after, empty, same, ?_⟩
  by_cases final : t.size ≤ q
  · refine Or.inl ⟨by omega, ?_⟩
    simp only [iterNext, if_neg guard, position, sought, if_pos final, some_bind]
  · have inside : q < t.size := Nat.lt_of_not_le final
    refine Or.inr ⟨inside, ?_⟩
    cases slot : slots q with
    | unused => exact absurd (real inside) (by rw [slot]; exact Bool.false_ne_true)
    | tombstone => exact absurd (real inside) (by rw [slot]; exact Bool.false_ne_true)
    | real h entry =>
      obtain ⟨key, value⟩ := entry
      refine ⟨h, key, value, rfl, ?_⟩
      simp only [iterNext, if_neg guard, position, sought, if_neg final, sound.holds.fetchKey inside slot,
        sound.holds.fetchValue inside slot, some_bind]

theorem iterLoop_spec (funcs : TableFuncs) (choose : UInt64 → UInt64 → IterStep) (fuel : Nat) (sound : t.Sound n slots)
    (within : p ≤ t.size) (enough : t.size < p + fuel) :
    ∃ t', iterLoop funcs choose fuel t { position := (p : Int) - 1, version := t.version } =
        some ((entriesFrom slots p t.size).map Prod.snd,
          (entriesFrom slots p t.size).flatMap (fun entry => stepLog funcs choose entry.2), t') ∧
      t'.Sound n (fun i => if i < p then slots i else stepSlot choose (slots i)) ∧ t'.size = t.size := by
  -- on the turns: the slots behind the position are settled, those ahead are still the ones it began with
  induction fuel generalizing t slots p with
  | zero => omega
  | succ fuel ih =>
    obtain ⟨q, after, empty, same, next⟩ := iterNext_spec sound within
    have passed : ∀ i, p ≤ i → i < q → stepSlot choose (slots i) = slots i := by
      intro i above less
      have none := empty i above less
      cases slot : slots i with
      | unused => rfl
      | tombstone => rfl
      | real h entry =>
        rw [slot] at none
        exact absurd none (Option.some_ne_none _)
    rw [same]
    rcases next with ⟨rfl, ended⟩ | ⟨inside, h, key, value, slot, found⟩
    · have nothing : entriesFrom slots t.size t.size = [] := by
        rw [entriesFrom, Nat.sub_self]
        rfl
      refine ⟨t, ?_, ?_, rfl⟩
      · simp only [iterLoop, ended, some_bind, nothing]
        rfl
      · have unchanged : (fun i => if i < p then slots i else stepSlot choose (slots i)) = slots := by
          funext i
          by_cases early : i < p
          · rw [if_pos early]
          · rw [if_neg early]
            rcases Nat.lt_or_ge i t.size with mid | late
            · exact passed i (by omega) mid
            · rw [sound.beyond i late]
              rfl
        rw [unchanged]
        exact sound
    · obtain ⟨t₁, stepped, sound₁, size₁⟩ := iterStep_spec funcs choose sound inside slot
      obtain ⟨t', looped, sound', size'⟩ := ih (p := q + 1) sound₁ (by omega) (by omega)
      have later : entriesFrom (Function.update slots q (stepSlot choose (slots q))) (q + 1) t₁.size =
          entriesFrom slots (q + 1) t.size := by
        rw [size₁]
        exact entriesFrom_congr fun i above => Function.update_of_ne (by omega) _ _
      have first := entriesFrom_take inside (show (slots q).content = some (h, key, value) by rw [slot]; rfl)
      have index : ((q + 1 : Nat) : Int) - 1 = q := by omega
      rw [later, index] at looped
      refine ⟨t', ?_, ?_, size'.trans size₁⟩
      · simp only [iterLoop, found, stepped, looped, some_bind, first]
        rfl
      · have stepped : (fun i => if i < q + 1 then Function.update slots q (stepSlot choose (slots q)) i
            else stepSlot choose (Function.update slots q (stepSlot choose (slots q)) i)) =
            fun i => if i < p then slots i else stepSlot choose (slots i) := by
          funext i
          by_cases here : i = q
          · subst here
            rw [if_pos (Nat.lt_succ_self i), if_neg (by omega), Function.update_self]
          · rw [Function.update_of_ne here]
            by_cases early : i < p
            · rw [if_pos early, if_pos (by omega)]
            · rw [if_neg early]
              by_cases mid : i < q
              · rw [if_pos (by omega), passed i (by omega) mid]
              · rw [if_neg (by omega)]
        rw [← stepped]
        exact sound'

theorem iterate_spec (funcs : TableFuncs) (choose : UInt64 → UInt64 → IterStep) (sound : t.Sound n slots) :
    ∃ t', t.iterate funcs choose =
        some ((t.entries slots).map Prod.snd, (t.entries slots).flatMap (fun entry => stepLog funcs choose entry.2), t') ∧
      t'.Sound n (fun i => stepSlot choose (slots i)) ∧ t'.size = t.size := by
  have loop := iterLoop_spec (p := 0) funcs choose (t.size + 1) sound (Nat.zero_le _) (by omega)
  rw [entriesFrom_zero] at loop
  simpa [iterate, iterInit, entries] using loop

section Filtering

variable (funcs : TableFuncs) (func : UInt64 → UInt64 → Bool) (notify : Bool)

/-- The slot of an entry that the function may want removed. -/
def filterSlot : TableSlot → TableSlot
  | .real h (key, value) => if func key value then .tombstone else .real h (key, value)
  | slot => slot

/-- The entries among the first `m` slots that are removed. -/
def filteredBelow (slots : Nat → TableSlot) (m : Nat) : List (UInt32 × UInt64 × UInt64) :=
  (entriesBelow slots m).filter fun entry => func entry.2.1 entry.2.2

def filterLog (entries : List (UInt32 × UInt64 × UInt64)) : List Notified :=
  if notify then entries.flatMap fun entry => destroyEntry funcs entry.2 else []

theorem filterLog_append (entries others : List (UInt32 × UInt64 × UInt64)) :
    filterLog funcs notify (entries ++ others) = filterLog funcs notify entries ++ filterLog funcs notify others := by
  cases notify with
  | true => exact List.flatMap_append
  | false => rfl

theorem entriesBelow_filterSlot (slots : Nat → TableSlot) (m : Nat) :
    entriesBelow (fun i => filterSlot func (slots i)) m =
      (entriesBelow slots m).filter fun entry => !func entry.2.1 entry.2.2 := by
  induction m with
  | zero => rfl
  | succ m ih =>
    rw [entriesBelow_succ, entriesBelow_succ, ih, List.filter_append]
    congr 1
    cases slots m with
    | unused => rfl
    | tombstone => rfl
    | real h entry =>
      obtain ⟨key, value⟩ := entry
      cases accepted : func key value <;> simp [filterSlot, accepted]

theorem foreachTurns_spec (sound : t.Sound n slots) (m : Nat) (within : m ≤ t.size) :
    ∃ t', (List.range m).foldlM (foreachRemoveOrStealTurn funcs func notify) (0, [], t) =
        some ((filteredBelow func slots m).length, filterLog funcs notify (filteredBelow func slots m), t') ∧
      t'.Sound n (fun i => if i < m then filterSlot func (slots i) else slots i) ∧ t'.size = t.size := by
  induction m with
  | zero =>
    refine ⟨t, ?_, by simpa using sound, rfl⟩
    cases notify <;> rfl
  | succ m ih =>
    obtain ⟨t₁, ran, sound₁, size⟩ := ih (Nat.le_of_succ_le within)
    have inside : m < t₁.size := by omega
    have here : (if m < m then filterSlot func (slots m) else slots m) = slots m := if_neg (Nat.lt_irrefl m)
    -- the slots after one more turn, from those before it
    have later : (fun i => if i < m + 1 then filterSlot func (slots i) else slots i) =
        Function.update (fun i => if i < m then filterSlot func (slots i) else slots i) m (filterSlot func (slots m)) := by
      funext i
      by_cases same : i = m
      · rw [same, Function.update_self, if_pos (Nat.lt_succ_self m)]
      · rw [Function.update_of_ne same]
        exact if_congr (by omega) rfl rfl
    have found : filteredBelow func slots (m + 1) =
        filteredBelow func slots m ++ (slots m).content.toList.filter fun entry => func entry.2.1 entry.2.2 := by
      rw [filteredBelow, entriesBelow_succ, List.filter_append]
      rfl
    have turn : ∃ t', foreachRemoveOrStealTurn funcs func notify
          ((filteredBelow func slots m).length, filterLog funcs notify (filteredBelow func slots m), t₁) m =
        some ((filteredBelow func slots (m + 1)).length, filterLog funcs notify (filteredBelow func slots (m + 1)), t') ∧
        t'.Sound n (Function.update (fun i => if i < m then filterSlot func (slots i) else slots i) m (filterSlot func (slots m))) ∧
        t'.size = t₁.size := by
      have code := hashIsReal_slotHash sound₁.holds inside
      simp only [here] at code
      rw [found, filterLog_append, List.length_append]
      simp only [foreachRemoveOrStealTurn, sound₁.holds.read inside, some_bind, here, code]
      have unchanged : filterSlot func (slots m) = slots m →
          t₁.Sound n (Function.update (fun i => if i < m then filterSlot func (slots i) else slots i) m (filterSlot func (slots m))) := by
        intro same
        rw [same]
        conv => arg 3; rw [← here]
        rw [Function.update_eq_self]
        exact sound₁
      cases slot : slots m with
      | unused =>
        rw [slot] at unchanged
        refine ⟨t₁, ?_, unchanged rfl, rfl⟩
        cases notify <;> simp [filterLog]
      | tombstone =>
        rw [slot] at unchanged
        refine ⟨t₁, ?_, unchanged rfl, rfl⟩
        cases notify <;> simp [filterLog]
      | real h entry =>
        obtain ⟨key, value⟩ := entry
        have held : (if m < m then filterSlot func (slots m) else slots m) = .real h (key, value) := here.trans slot
        rw [slot] at unchanged
        simp only [Slot.content_real, Option.isSome_some, if_true, sound₁.holds.fetchKey inside held,
          sound₁.holds.fetchValue inside held]
        cases accepted : func key value with
        | false =>
          refine ⟨t₁, ?_, unchanged (by simp [filterSlot, accepted]), rfl⟩
          cases notify <;> simp [filterLog, accepted]
        | true =>
          obtain ⟨t', removed, sound', size', _⟩ := removeNode_spec funcs sound₁ inside held notify
          refine ⟨t', ?_, ?_, size'⟩
          · simp only [removed]
            cases notify <;> simp [filterLog, accepted, destroyEntry]
          · rw [filterSlot, if_pos accepted]
            exact sound'
    obtain ⟨t', turned, sound', size'⟩ := turn
    refine ⟨t', ?_, ?_, size'.trans size⟩
    · rw [List.range_succ, List.foldlM_append, ran]
      simpa using turned
    · rw [later]
      exact sound'

theorem foreachLoop_spec (sound : t.Sound n slots) :
    ∃ t', (List.range t.size).foldlM (foreachRemoveOrStealTurn funcs func notify) (0, [], t) =
        some ((filteredBelow func slots t.size).length, filterLog funcs notify (filteredBelow func slots t.size), t') ∧
      t'.Sound n (fun i => filterSlot func (slots i)) ∧ t'.size = t.size := by
  obtain ⟨t', ran, sound', size⟩ := foreachTurns_spec funcs func notify sound t.size (Nat.le_refl _)
  have all : (fun i => if i < t.size then filterSlot func (slots i) else slots i) = fun i => filterSlot func (slots i) := by
    funext i
    by_cases inside : i < t.size
    · rw [if_pos inside]
    · rw [if_neg inside, sound.beyond i (Nat.le_of_not_lt inside)]
      rfl
  rw [all] at sound'
  exact ⟨t', ran, sound', size⟩

theorem foreachRemoveOrSteal_spec (sound : t.Sound n slots) :
    ∃ t' n' slots', t.foreachRemoveOrSteal funcs func notify =
        some ((filteredBelow func slots t.size).length, filterLog funcs notify (filteredBelow func slots t.size), t') ∧
      t'.Sound n' slots' ∧ (t'.entries slots').Perm ((t.entries slots).filter fun entry => !func entry.2.1 entry.2.2) := by
  obtain ⟨t₁, ran, sound₁, size⟩ := foreachLoop_spec funcs func notify sound
  obtain ⟨t', n', slots', resized, sound', perm, _⟩ := maybeResize_spec sound₁.toCounted sound₁.room
  refine ⟨_, n', slots', ?_,
    sound'.withVersion (if 0 < (filteredBelow func slots t.size).length then t'.version + 1 else t'.version), ?_⟩
  · simp only [foreachRemoveOrSteal, ran, resized, some_bind]
  · refine perm.trans ?_
    rw [entries, size, entriesBelow_filterSlot]
    exact List.Perm.refl _

end Filtering

section Stealing

variable {i : Nat} {h : UInt32} {key value : UInt64}

theorem Sound.rewrite {t' : HashTable} {k v : UInt64} (sound : t.Sound n slots) (inside : i < t.size)
    (held : slots i = .real h (key, value)) (same : t' = t.put i (t.hashes.cell i) k v) (fits : t.Fits k v) :
    t'.Sound n (Function.update slots i (.real h (k, v))) := by
  have cell : t.hashes.cell i = h := by
    rw [sound.holds.hash i inside, held]
    rfl
  have real := (sound.holds.entry i inside h key value held).1
  rw [cell] at same
  subst same
  refine ⟨sound.toCounted.write inside _ rfl rfl rfl rfl (fun h' entry same => ?_) (sound.holds.putReal real fits) ?_ ?_, sound.load⟩
  · rw [← (Slot.real.inj same).1]
    exact sound.placed i inside h _ held
  · rw [held]
    rfl
  · rw [held]
    rfl

theorem takeKey_spec (sound : t.Sound n slots) (inside : i < t.size) (held : slots i = .real h (key, value)) (wanted : Bool) :
    ∃ t' key', t.takeKey i wanted = some (if wanted then some key else none, t') ∧
      t'.Sound n (Function.update slots i (.real h (key', if wanted && t.isASet then 0 else value))) ∧ t'.size = t.size := by
  cases wanted with
  | false =>
    refine ⟨t, key, rfl, ?_, rfl⟩
    rw [Bool.false_and, if_neg Bool.false_ne_true, ← held, Function.update_eq_self]
    exact sound
  | true =>
    obtain ⟨_, fits, _, valueCell⟩ := sound.holds.entry i inside h key value held
    have assigned : ∃ t', t.assignKey i 0 = some t' ∧ t' = t.put i (t.hashes.cell i) 0 (if t.isASet then 0 else value) := by
      have inKeys : i < t.keys.cells.length := sound.holds.keyLength.symm ▸ inside
      refine ⟨_, by rw [assignKey, Column.assign_eq inKeys sound.holds.keyWidth]; rfl, ?_⟩
      rcases t with ⟨size, mod, mask, nnodes, noccupied, bigKeys, bigValues, keys, hashes, _ | column, version⟩
      · simp [put]
      · have cells : Function.update column.cells.cell i (some value) = column.cells.cell := by
          rw [← show column.cells.cell i = some value from valueCell, Function.update_eq_self]
        simp [put, Column.put, isASet, cells]
    obtain ⟨t', result, same⟩ := assigned
    refine ⟨t', 0, ?_, sound.rewrite inside held same ?_, ?_⟩
    · simp only [takeKey, if_true, sound.holds.fetchKey inside held, result, some_bind]
    · split
      · exact fits_zero
      · refine ⟨stored_zero _, fits.valueStored, fun none => absurd ?_ ‹_›⟩
        rw [isASet, none]
        rfl
    · rw [same]
      rfl

theorem takeValue_spec (sound : t.Sound n slots) (inside : i < t.size) (held : slots i = .real h (key, value)) (wanted : Bool) :
    ∃ t' key' value', t.takeValue i wanted = some (if wanted then some value else none, t') ∧
      t'.Sound n (Function.update slots i (.real h (key', value'))) ∧ t'.size = t.size := by
  cases wanted with
  | false =>
    refine ⟨t, key, value, rfl, ?_, rfl⟩
    rw [← held, Function.update_eq_self]
    exact sound
  | true =>
    obtain ⟨_, fits, keyCell, _⟩ := sound.holds.entry i inside h key value held
    have assigned : ∃ t', t.assignValue i 0 = some t' ∧ t' = t.put i (t.hashes.cell i) (if t.isASet then 0 else key) 0 := by
      obtain ⟨_, inKeys, inValues, keyWidth, valueWidth⟩ := sound.holds.toShaped
      rcases t with ⟨size, mod, mask, nnodes, noccupied, bigKeys, bigValues, keys, hashes, _ | column, version⟩
      · have assigned := Column.assign_eq (show i < keys.cells.length from inKeys.symm ▸ inside)
          (show keys.big = bigValues from valueWidth) 0
        refine ⟨_, by simp only [assignValue, assigned, Option.map_some]; rfl, ?_⟩
        simp [put, isASet]
      · have assigned := Column.assign_eq (show i < column.cells.length from inValues.symm ▸ inside)
          (show column.big = bigValues from valueWidth) 0
        refine ⟨_, by simp only [assignValue, assigned, Option.map_some]; rfl, ?_⟩
        have cells : Function.update keys.cells.cell i (some key) = keys.cells.cell := by
          rw [← show keys.cells.cell i = some key from keyCell, Function.update_eq_self]
        simp [put, Column.put, isASet, cells]
    obtain ⟨t', result, same⟩ := assigned
    refine ⟨t', if t.isASet then 0 else key, 0, ?_, sound.rewrite inside held same ?_, ?_⟩
    · simp only [takeValue, if_true, sound.holds.fetchValue inside held, result, some_bind]
    · split
      · exact fits_zero
      · refine ⟨fits.keyStored, stored_zero _, fun none => absurd ?_ ‹_›⟩
        rw [isASet, none]
        rfl
    · rw [same]
      rfl

end Stealing

end HashTable

end Xpl.Collections
