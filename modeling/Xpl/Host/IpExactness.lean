import Xpl.Host.IpLiterals

/-! Where the scan for IP addresses and the text forms of RFC 4291 agree. -/

set_option autoImplicit false

namespace Xpl.Host
open Xpl.Library
variable {fields : List Bytes} {field p : Bytes} {width : Nat}
variable {room : Nat} {address : Bytes}

/-! ## Fields -/

/-- Fields without a dotted quad. -/
def Plain (fields : List Bytes) : Prop := ∀ group ∈ fields, IsGroup group

theorem Plain.cons {group : Bytes} {fields : List Bytes} (valid : IsGroup group) (plain : Plain fields) : Plain (group :: fields) := by
  rintro other (_ | ⟨_, inside⟩)
  · exact valid
  · exact plain other inside

theorem colons_cons (field : Bytes) (fields : List Bytes) : colons (field :: fields) = colon :: (field ++ colons fields) := rfl

theorem joined_cons (field : Bytes) (fields : List Bytes) : joined (field :: fields) = field ++ colons fields := rfl

theorem colons_eq (some_field : fields ≠ []) : colons fields = colon :: joined fields := by
  cases fields with
  | nil => exact absurd rfl some_field
  | cons field fields => rfl

theorem fields_cons :
    Fields (field :: fields) (width + 1) ↔ IsGroup field ∧ Fields fields width ∨ fields = [] ∧ DottedQuad field ∧ width = 1 := by
  constructor
  · rintro (⟨plain, count⟩ | ⟨groups, quad, shape, plain, valid, count⟩)
    · exact Or.inl ⟨plain field List.mem_cons_self, Or.inl ⟨fun group inside => plain group (List.mem_cons_of_mem _ inside), Nat.succ.inj count⟩⟩
    · cases groups with
      | nil =>
        obtain ⟨rfl, rfl⟩ := List.cons.inj shape
        exact Or.inr ⟨rfl, valid, Nat.succ.inj count⟩
      | cons group groups =>
        obtain ⟨rfl, rfl⟩ := List.cons.inj shape
        refine Or.inl ⟨plain field List.mem_cons_self, Or.inr ⟨groups, quad, rfl, fun other inside => plain other (List.mem_cons_of_mem _ inside), valid, ?_⟩⟩
        rw [List.length_cons] at count
        omega
  · rintro (⟨valid, ⟨plain, count⟩ | ⟨groups, quad, rfl, plain, dotted, count⟩⟩ | ⟨rfl, dotted, rfl⟩)
    · exact Or.inl ⟨Plain.cons valid plain, by rw [count, List.length_cons]⟩
    · exact Or.inr ⟨field :: groups, quad, rfl, Plain.cons valid plain, dotted, by rw [count, List.length_cons]⟩
    · exact Or.inr ⟨[], field, rfl, nofun, dotted, rfl⟩

theorem fields_nil : Fields [] width ↔ width = 0 := by
  constructor
  · rintro (⟨-, count⟩ | ⟨groups, quad, shape, -⟩)
    · exact count
    · simp at shape
  · rintro rfl
    exact Or.inl ⟨nofun, rfl⟩

theorem fields_cons_zero : ¬Fields (field :: fields) 0 := by
  rintro (⟨-, count⟩ | ⟨groups, quad, -, -, -, count⟩)
  · cases count
  · cases count

theorem joined_ne_nil (held : Fields fields width) (some_field : fields ≠ []) : joined fields ≠ [] := by
  cases fields with
  | nil => exact absurd rfl some_field
  | cons field fields =>
    intro none
    have empty : field = [] := (List.append_eq_nil_iff.mp none).1
    cases width with
    | zero => exact fields_cons_zero held
    | succ width =>
      rcases fields_cons.mp held with ⟨valid, -⟩ | ⟨-, dotted, -⟩
      · exact valid.1 empty
      · obtain ⟨c, tail, shape, -⟩ := dotted.head
        rw [empty] at shape
        cases shape

theorem group_no_point {group : Bytes} (valid : IsGroup group) : point ∉ group :=
  fun inside => absurd (valid.2.2 point inside) (by decide)

theorem quad_point {quad : Bytes} (dotted : DottedQuad quad) : point ∈ quad := by
  obtain ⟨a, b, c, d, -, -, -, -, rfl⟩ := dotted
  simp

theorem quad_not_group {quad : Bytes} (dotted : DottedQuad quad) : ¬IsGroup quad :=
  fun valid => group_no_point valid (quad_point dotted)

theorem point_mem_colons : point ∈ colons fields ↔ ∃ field ∈ fields, point ∈ field := by
  have other : point ≠ colon := by decide
  simp [colons, other]

theorem point_mem_joined : point ∈ joined fields ↔ ∃ field ∈ fields, point ∈ field := by
  have other : point ≠ colon := by decide
  rw [← point_mem_colons]
  cases fields with
  | nil => rfl
  | cons field fields => simp [colons_cons, joined_cons, other]

theorem plain_iff (valid : Fields fields width) : Plain fields ↔ point ∉ joined fields := by
  rw [point_mem_joined]
  constructor
  · rintro plain ⟨field, inside, found⟩
    exact group_no_point (plain field inside) found
  · rintro free
    rcases valid with ⟨plain, -⟩ | ⟨groups, quad, rfl, -, dotted, -⟩
    · exact plain
    · exact absurd ⟨quad, by simp, quad_point dotted⟩ free

theorem joined_last (plain : Plain fields) (some_field : fields ≠ []) :
    ∃ front c, joined fields = front ++ [c] ∧ asciiIsxdigit c = true := by
  induction fields with
  | nil => exact absurd rfl some_field
  | cons field fields ih =>
    have rest : Plain fields := fun other inside => plain other (List.mem_cons_of_mem _ inside)
    by_cases last : fields = []
    · subst last
      obtain ⟨nonempty, -, digits⟩ := plain field List.mem_cons_self
      obtain ⟨front, c, rfl⟩ := (List.eq_nil_or_concat field).resolve_left nonempty
      exact ⟨front, c, by simp [joined_cons, colons], digits c (by simp)⟩
    · obtain ⟨front, c, shape, digit⟩ := ih rest last
      refine ⟨field ++ colon :: front, c, ?_, digit⟩
      rw [joined_cons, colons_eq last, shape]
      simp

theorem last_not_colons {front pair : Bytes} {c : UInt8} (digit : asciiIsxdigit c = true) : front ++ [c] ≠ pair ++ [colon, colon] := by
  intro same
  have last := congrArg List.getLast? same
  simp at last
  rw [last] at digit
  cases digit

/-! ## What the loop accepts -/

theorem skipped_iff :
    Skipped room p ↔ ∃ right width z, Fields right width ∧ width ≤ room ∧ Zone z ∧ (z ≠ [] → Plain right) ∧ p = colons right ++ z := by
  constructor
  · intro skipped
    induction skipped with
    | @stop room p zone => exact ⟨[], 0, p, fields_nil.mpr rfl, Nat.zero_le _, zone, fun _ => nofun, rfl⟩
    | @quad room p dotted =>
      refine ⟨[p], 2, [], fields_cons.mpr (Or.inr ⟨rfl, dotted, rfl⟩), by omega, Or.inl rfl, fun more => absurd rfl more, ?_⟩
      simp [colons]
    | @group room group after valid _ ih =>
      obtain ⟨right, width, z, held, fits, zone, plain, rfl⟩ := ih
      refine ⟨group :: right, width + 1, z, fields_cons.mpr (Or.inl ⟨valid, held⟩), by omega, zone,
        fun more => Plain.cons valid (plain more), ?_⟩
      simp [colons_cons]
  · rintro ⟨right, width, z, held, fits, zone, plain, rfl⟩
    induction right generalizing room width with
    | nil => exact .stop zone
    | cons field right ih =>
      cases width with
      | zero => exact absurd held fields_cons_zero
      | succ width =>
        obtain ⟨room, rfl⟩ : ∃ n, room = n + 1 := ⟨room - 1, by omega⟩
        rcases fields_cons.mp held with ⟨valid, rest⟩ | ⟨rfl, dotted, rfl⟩
        · have more := @ih room width rest (by omega) fun more other inside => plain more other (List.mem_cons_of_mem _ inside)
          have shape : colons (field :: right) ++ z = colon :: (field ++ (colons right ++ z)) := by simp [colons_cons]
          rw [shape]
          exact .group valid more
        · have none : z = [] := by
            by_contra more
            exact quad_not_group dotted (plain more field List.mem_cons_self)
          obtain ⟨room, rfl⟩ : ∃ n, room = n + 1 := ⟨room - 1, by omega⟩
          rw [none]
          simpa [colons] using @Skipped.quad room _ dotted

/-- The text forms with a colon before the first field, and the zones that the scan takes. -/
inductive Forms (room : Nat) (p : Bytes) : Prop where
  | full (fields : List Bytes) (z : Bytes) : Fields fields room → Zone z → (z ≠ [] → Plain fields) → p = colons fields ++ z →
      Forms room p
  | skipping (left right : List Bytes) (width : Nat) (z : Bytes) : Plain left → Fields right width → left.length + width + 1 ≤ room →
      Zone z → (z ≠ [] → right ≠ [] ∧ Plain right) → p = colons left ++ colon :: colon :: joined right ++ z → Forms room p

theorem Forms.cons {room : Nat} {group after : Bytes} (valid : IsGroup group) (forms : Forms room after) :
    Forms (room + 1) (colon :: (group ++ after)) := by
  cases forms with
  | full fields z held zone plain shape =>
    exact .full (group :: fields) z (fields_cons.mpr (Or.inl ⟨valid, held⟩)) zone (fun more => Plain.cons valid (plain more))
      (by rw [shape]; simp [colons_cons])
  | skipping left right width z plain held fits zone rest shape =>
    exact .skipping (group :: left) right width z (Plain.cons valid plain) held (by rw [List.length_cons]; omega) zone rest
      (by rw [shape]; simp [colons_cons])

theorem zone_head_colon : ¬Zone (colon :: p) := fun zone => absurd (zone_cons zone) (by decide)

theorem Open.forms (opened : Open room p) : Forms room p := by
  induction opened with
  | @stop p zone => exact .full [] p (fields_nil.mpr rfl) zone (fun _ => nofun) rfl
  | @quad p dotted =>
    exact .full [p] [] (fields_cons.mpr (Or.inr ⟨rfl, dotted, rfl⟩)) (Or.inl rfl) (fun more => absurd rfl more) (by simp [colons])
  | group valid _ ih => exact .cons valid ih
  | ends => exact .skipping [] [] 0 [] nofun (fields_nil.mpr rfl) (by simp) (Or.inl rfl) (fun more => absurd rfl more) rfl
  | @skips room p more skipped =>
    obtain ⟨right, width, z, held, fits, zone, plain, shape⟩ := skipped_iff.mp skipped
    have some_field : right ≠ [] := by
      rintro rfl
      rw [show colons [] ++ z = z from rfl] at shape
      exact zone_head_colon (shape ▸ zone)
    refine .skipping [] right width z nofun held (by simpa using fits) zone (fun more => ⟨some_field, plain more⟩) ?_
    rw [shape, colons_eq some_field]
    rfl

theorem Forms.opens (forms : Forms room p) : Open room p := by
  rcases forms with ⟨fields, z, held, zone, plain, rfl⟩ | ⟨left, right, width, z, plain, held, fits, zone, rest, rfl⟩
  · induction fields generalizing room with
    | nil =>
      rw [fields_nil.mp held]
      exact .stop zone
    | cons field fields ih =>
      cases room with
      | zero => exact absurd held fields_cons_zero
      | succ room =>
        rcases fields_cons.mp held with ⟨valid, held⟩ | ⟨rfl, dotted, rfl⟩
        · have more := ih held fun more other inside => plain more other (List.mem_cons_of_mem _ inside)
          have shape : colons (field :: fields) ++ z = colon :: (field ++ (colons fields ++ z)) := by simp [colons_cons]
          rw [shape]
          exact .group valid more
        · have none : z = [] := by
            by_contra more
            exact quad_not_group dotted (plain more field List.mem_cons_self)
          rw [none]
          simpa [colons] using Open.quad dotted
  · induction left generalizing room with
    | nil =>
      obtain ⟨room, rfl⟩ : ∃ n, room = n + 1 := ⟨room - 1, by omega⟩
      by_cases some_field : right = []
      · have none : z = [] := by
          by_contra more
          exact (rest more).1 some_field
        rw [some_field, none]
        exact .ends
      · have skipped : Skipped room (colon :: (joined right ++ z)) := by
          refine skipped_iff.mpr ⟨right, width, z, held, by simpa using fits, zone, fun more => (rest more).2, ?_⟩
          rw [colons_eq some_field]
          rfl
        refine .skips (fun none => ?_) skipped
        exact joined_ne_nil held some_field (List.append_eq_nil_iff.mp none).1
    | cons group left ih =>
      obtain ⟨room, rfl⟩ : ∃ n, room = n + 1 := ⟨room - 1, by omega⟩
      have more := @ih room (fun other inside => plain other (List.mem_cons_of_mem _ inside)) (by rw [List.length_cons] at fits; omega)
      have shape : colons (group :: left) ++ colon :: colon :: joined right ++ z =
          colon :: (group ++ (colons left ++ colon :: colon :: joined right ++ z)) := by simp [colons_cons]
      rw [shape]
      exact .group (plain group List.mem_cons_self) more

/-! ## Whole strings -/

/-- The addresses and zones that the scan takes. -/
def Accepts (text : Bytes) : Prop :=
  ∃ address z, text = address ++ z ∧ Zone z ∧ Ipv6 address ∧ (z ≠ [] → ¬Unzoned address)

theorem unzoned_full (held : Fields fields width) (some_field : fields ≠ []) :
    ¬Unzoned (joined fields) ↔ Plain fields := by
  rw [plain_iff held]
  constructor
  · exact fun zoned found => zoned (Or.inl found)
  · rintro free (found | ⟨front, pair⟩)
    · exact free found
    · obtain ⟨start, c, shape, digit⟩ := joined_last ((plain_iff held).mpr free) some_field
      rw [shape] at pair
      exact last_not_colons digit pair

theorem unzoned_skipping {left right : List Bytes} (plain : Plain left) (held : Fields right width) :
    ¬Unzoned (joined left ++ colon :: colon :: joined right) ↔ right ≠ [] ∧ Plain right := by
  have other : point ≠ colon := by decide
  have leftFree : point ∉ joined left := by
    rw [point_mem_joined]
    rintro ⟨field, inside, found⟩
    exact group_no_point (plain field inside) found
  constructor
  · intro zoned
    constructor
    · rintro rfl
      exact zoned (Or.inr ⟨joined left, rfl⟩)
    · rw [plain_iff held]
      exact fun found => zoned (Or.inl (by simp [found]))
  · rintro ⟨some_field, rest⟩ (found | ⟨front, pair⟩)
    · rcases List.mem_append.mp found with early | late
      · exact leftFree early
      · have rightFree := (plain_iff held).mp rest
        simp [other, rightFree] at late
    · obtain ⟨start, c, shape, digit⟩ := joined_last rest some_field
      have last : joined left ++ colon :: colon :: joined right = (joined left ++ colon :: colon :: start) ++ [c] := by
        rw [shape]
        simp
      rw [last] at pair
      exact last_not_colons digit pair

theorem field_head (held : Fields (field :: fields) width) :
    field.head? ≠ some colon ∧ field ≠ [] := by
  have apart : ∀ {c : UInt8} {tail : Bytes}, asciiIsxdigit c = true → (c :: tail).head? ≠ some colon ∧ c :: tail ≠ [] := by
    intro c tail digit
    refine ⟨fun first => ?_, List.cons_ne_nil c tail⟩
    rw [Option.some.inj first] at digit
    cases digit
  cases width with
  | zero => exact absurd held fields_cons_zero
  | succ width =>
    rcases fields_cons.mp held with ⟨valid, -⟩ | ⟨-, dotted, -⟩
    · obtain ⟨c, tail, rfl, digit⟩ := valid.head
      exact apart digit
    · obtain ⟨c, tail, rfl, digit⟩ := dotted.head
      exact apart (asciiIsxdigit_of_digit digit)

theorem field_not_pair (held : Fields (field :: fields) width) (rest : Bytes) :
    (colon :: (field ++ rest)).take 2 ≠ [colon, colon] := by
  obtain ⟨apart, nonempty⟩ := field_head held
  cases field with
  | nil => exact absurd rfl nonempty
  | cons c field =>
    intro pair
    apply apart
    simpa using pair

theorem forms_iff {text : Bytes} :
    (∃ group after, text = group ++ after ∧ IsGroup group ∧ Open 7 after) ∨ (text.take 2 = [colon, colon] ∧ Open 8 text) ↔
      Accepts text := by
  constructor
  · rintro (⟨group, after, rfl, valid, opened⟩ | ⟨pair, opened⟩)
    · rcases opened.forms with ⟨fields, z, held, zone, plain, rfl⟩ | ⟨left, right, width, z, plain, held, fits, zone, rest, rfl⟩
      · have whole : Fields (group :: fields) 8 := fields_cons.mpr (Or.inl ⟨valid, held⟩)
        refine ⟨joined (group :: fields), z, by rw [joined_cons, List.append_assoc], zone, Or.inl ⟨_, rfl, whole⟩, fun more => ?_⟩
        exact (unzoned_full whole (List.cons_ne_nil _ _)).mpr (Plain.cons valid (plain more))
      · have front : Plain (group :: left) := Plain.cons valid plain
        refine ⟨joined (group :: left) ++ colon :: colon :: joined right, z, by simp [joined_cons], zone,
          Or.inr ⟨_, right, width, rfl, front, held, by rw [List.length_cons]; omega⟩, fun more => ?_⟩
        exact (unzoned_skipping front held).mpr (rest more)
    · rcases opened.forms with ⟨fields, z, held, zone, plain, rfl⟩ | ⟨left, right, width, z, plain, held, fits, zone, rest, rfl⟩
      · cases fields with
        | nil => cases fields_nil.mp held
        | cons field fields =>
          rw [colons_cons, List.cons_append, List.append_assoc] at pair
          exact absurd pair (field_not_pair held _)
      · cases left with
        | nil =>
          refine ⟨joined [] ++ colon :: colon :: joined right, z, rfl, zone, Or.inr ⟨[], right, width, rfl, plain, held, ?_⟩, fun more => ?_⟩
          · rw [List.length_nil] at fits ⊢
            omega
          · exact (unzoned_skipping plain held).mpr (rest more)
        | cons group left =>
          have first : Fields [group] 1 := fields_cons.mpr (Or.inl ⟨plain group List.mem_cons_self, fields_nil.mpr rfl⟩)
          simp only [colons_cons, List.cons_append, List.append_assoc] at pair
          exact absurd pair (field_not_pair first _)
  · rintro ⟨address, z, rfl, zone, ⟨fields, rfl, held⟩ | ⟨left, right, width, rfl, plain, held, fits⟩, rest⟩
    · cases fields with
      | nil => cases fields_nil.mp held
      | cons field fields =>
        rcases fields_cons.mp held with ⟨valid, more⟩ | ⟨-, -, count⟩
        · refine Or.inl ⟨field, colons fields ++ z, by rw [joined_cons, List.append_assoc], valid, Forms.opens ?_⟩
          refine .full fields z more zone (fun zoned other inside => ?_) rfl
          exact (unzoned_full held (List.cons_ne_nil _ _)).mp (rest zoned) other (List.mem_cons_of_mem _ inside)
        · cases count
    · cases left with
      | nil =>
        refine Or.inr ⟨rfl, Forms.opens ?_⟩
        exact .skipping [] right width z nofun held (by rw [List.length_nil] at fits ⊢; omega) zone
          (fun zoned => (unzoned_skipping plain held).mp (rest zoned)) rfl
      | cons group left =>
        refine Or.inl ⟨group, colons left ++ colon :: colon :: joined right ++ z, by simp [joined_cons], plain group List.mem_cons_self,
          Forms.opens ?_⟩
        exact .skipping left right width z (fun other inside => plain other (List.mem_cons_of_mem _ inside)) held
          (by rw [List.length_cons] at fits; omega) zone (fun zoned => (unzoned_skipping plain held).mp (rest zoned)) rfl

theorem ipv6_colon (valid : Ipv6 address) : colon ∈ address := by
  rcases valid with ⟨fields, rfl, held⟩ | ⟨left, right, width, rfl, -⟩
  · cases fields with
    | nil => cases fields_nil.mp held
    | cons field fields =>
      rcases fields_cons.mp held with ⟨-, more⟩ | ⟨-, -, count⟩
      · cases fields with
        | nil => cases fields_nil.mp more
        | cons other fields => simp [joined_cons, colons_cons]
      · cases count
  · simp

theorem fields_no_sign (held : Fields fields width) : zoneSign ∉ joined fields := by
  have group_free : ∀ {group : Bytes}, IsGroup group → zoneSign ∉ group := fun valid inside => absurd (valid.2.2 zoneSign inside) (by decide)
  have octet_free : ∀ {octet : Bytes}, IsOctet octet → zoneSign ∉ octet := fun valid inside => absurd (valid.digits zoneSign inside) (by decide)
  have each : ∀ field ∈ fields, zoneSign ∉ field := by
    rcases held with ⟨plain, -⟩ | ⟨groups, quad, rfl, plain, ⟨a, b, c, d, first, second, third, fourth, rfl⟩, -⟩
    · exact fun field inside => group_free (plain field inside)
    · intro field inside
      rcases List.mem_append.mp inside with early | last
      · exact group_free (plain field early)
      · have other : zoneSign ≠ point := by decide
        rw [List.mem_singleton.mp last]
        simp [octet_free first, octet_free second, octet_free third, octet_free fourth, other]
  intro found
  have found : zoneSign ∈ colons fields := List.mem_of_mem_drop found
  have other : zoneSign ≠ colon := by decide
  simp only [colons, List.mem_flatMap, List.mem_cons, other, false_or] at found
  obtain ⟨field, inside, here⟩ := found
  exact each field inside here

theorem ipv6_no_sign (valid : Ipv6 address) : zoneSign ∉ address := by
  rcases valid with ⟨fields, rfl, held⟩ | ⟨left, right, width, rfl, plain, held, -⟩
  · exact fields_no_sign held
  · have other : zoneSign ≠ colon := by decide
    simp [fields_no_sign (Or.inl ⟨plain, rfl⟩), fields_no_sign held, other]

theorem split_unique {other zone rest : Bytes} (free : zoneSign ∉ address) (otherFree : zoneSign ∉ other)
    (same : address ++ zoneSign :: zone = other ++ zoneSign :: rest) : address = other := by
  have taken : ∀ {front : Bytes}, zoneSign ∉ front → ∀ back, (front ++ zoneSign :: back).takeWhile (· ≠ zoneSign) = front := by
    intro front clean back
    refine (takeWhile_run (fun c inside => ?_) (stops_cons (by simp) back)).1
    exact decide_eq_true fun sign => clean (sign ▸ inside)
  rw [← taken free zone, same, taken otherFree rest]

theorem quad_no_colon {text : Bytes} (dotted : DottedQuad text) : colon ∉ text := by
  obtain ⟨a, b, c, d, first, second, third, fourth, rfl⟩ := dotted
  have free : ∀ {octet : Bytes}, IsOctet octet → colon ∉ octet := fun valid inside => absurd (valid.digits colon inside) (by decide)
  have other : colon ≠ point := by decide
  simp [free first, free second, free third, free fourth, other]

theorem hostnameIsIpAddress_iff (hostname : Bytes) :
    hostnameIsIpAddress hostname = true ↔
      cString hostname = [colon] ∨ DottedQuad (cString hostname) ∨ Accepts (cString hostname) := by
  unfold hostnameIsIpAddress
  generalize cString hostname = text
  by_cases inside : colon ∈ text
  · rw [if_pos (List.contains_iff_mem.mpr inside), ipv6Scan_iff, forms_iff, or_iff_right (a := DottedQuad text) fun dotted => quad_no_colon dotted inside]
  · rw [if_neg (by rwa [List.contains_iff_mem]), parseIpv4_iff]
    constructor
    · exact fun dotted => Or.inr (Or.inl dotted)
    · rintro (rfl | dotted | ⟨address, z, rfl, -, valid, -⟩)
      · exact absurd (List.mem_singleton_self _) inside
      · exact dotted
      · exact absurd (List.mem_append_left _ (ipv6_colon valid)) inside

theorem colon_not_address : ¬IsIpAddress [colon] := by
  rintro (dotted | valid | ⟨address, zone, shape, -⟩)
  · exact quad_no_colon dotted (List.mem_singleton_self _)
  · rcases valid with ⟨fields, shape, held⟩ | ⟨left, right, width, shape, -⟩
    · cases fields with
      | nil => cases shape
      | cons field fields =>
        obtain ⟨apart, nonempty⟩ := field_head held
        cases field with
        | nil => exact nonempty rfl
        | cons c field =>
          exact apart (by rw [List.head?_cons, (List.cons.inj shape).1])
    · have length := congrArg List.length shape
      simp at length
      omega
  · have inside : zoneSign ∈ [colon] := by
      rw [shape]
      simp
    exact absurd inside (by decide)

/-- The function is exact but for a lone colon, and for a zone behind an address that ends in a
pair of colons or in a dotted quad. -/
theorem hostnameIsIpAddress_exact_iff (hostname : Bytes) :
    (hostnameIsIpAddress hostname = true ↔ IsIpAddress (cString hostname)) ↔
      cString hostname ≠ [colon] ∧
        ¬∃ address zone, cString hostname = address ++ zoneSign :: zone ∧ zone ≠ [] ∧ Ipv6 address ∧ Unzoned address := by
  rw [hostnameIsIpAddress_iff]
  generalize cString hostname = text
  have accepted : Accepts text → IsIpAddress text := by
    rintro ⟨address, z, rfl, rfl | ⟨zone, more, rfl⟩, valid, -⟩
    · exact Or.inr (Or.inl (by rwa [List.append_nil]))
    · exact Or.inr (Or.inr ⟨address, zone, rfl, more, valid⟩)
  constructor
  · intro exact
    constructor
    · rintro rfl
      exact colon_not_address (exact.mp (Or.inl rfl))
    · rintro ⟨address, zone, rfl, more, valid, unzoned⟩
      rcases exact.mpr (Or.inr (Or.inr ⟨address, zone, rfl, more, valid⟩)) with single | dotted | ⟨other, z, shape, zoned, held, rest⟩
      · have inside : zoneSign ∈ [colon] := by
          rw [← single]
          simp
        exact absurd inside (by decide)
      · exact quad_no_colon dotted (List.mem_append_left _ (ipv6_colon valid))
      · rcases zoned with rfl | ⟨back, -, rfl⟩
        · rw [List.append_nil] at shape
          exact ipv6_no_sign held (by rw [← shape]; simp)
        · rw [split_unique (ipv6_no_sign valid) (ipv6_no_sign held) shape] at unzoned
          exact rest (List.cons_ne_nil _ _) unzoned
  · rintro ⟨other, zoned⟩
    rw [or_iff_right other]
    constructor
    · rintro (dotted | taken)
      · exact Or.inl dotted
      · exact accepted taken
    · rintro (dotted | valid | ⟨address, zone, rfl, more, valid⟩)
      · exact Or.inl dotted
      · exact Or.inr ⟨text, [], (List.append_nil text).symm, Or.inl rfl, valid, fun more => absurd rfl more⟩
      · exact Or.inr ⟨address, zoneSign :: zone, rfl, Or.inr ⟨zone, more, rfl⟩, valid,
          fun _ unzoned => zoned ⟨address, zone, rfl, more, valid, unzoned⟩⟩

/-- A colon alone is taken for an address, and `::%a` is not. -/
theorem lone_colon_accepted :
    hostnameIsIpAddress [58] = true ∧ ¬IsIpAddress [58] ∧ hostnameIsIpAddress [58, 58, 37, 97] = false ∧
      IsIpAddress [58, 58, 37, 97] := by
  refine ⟨by decide +kernel, colon_not_address, by decide +kernel, Or.inr (Or.inr ⟨[58, 58], [97], rfl, by decide, ?_⟩)⟩
  exact Or.inr ⟨[], [], 0, rfl, nofun, fields_nil.mpr rfl, by decide⟩

end Xpl.Host
