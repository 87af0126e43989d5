import Xpl.Library.Bytes

/-! IP addresses in text form: the scan of ghostutils.c, the form that RFC 4291 gives, and
the addresses with a zone on which the two differ. -/

set_option autoImplicit false

namespace Xpl.Host
open Xpl.Library
variable {text p : Bytes} {room : Nat}
variable {c : UInt8} {rest : Bytes} {nsegments : Nat}

def colon : UInt8 := 58
def point : UInt8 := 46
def zoneSign : UInt8 := 37

/-! ## The scan -/

/-- The digits of an octet: their value, their number and what is behind them. The loop stops
at a digit that would take the value above 255. -/
def octetDigits : Bytes → Nat → Nat → Nat × Nat × Bytes
  | [], octet, count => (octet, count, [])
  | c :: rest, octet, count =>
    if asciiIsdigit c then
      let octet := 10 * octet + (c.toNat - 48)
      if 255 < octet then (octet, count, c :: rest) else octetDigits rest octet (count + 1)
    else (octet, count, c :: rest)

def ipv4Segment (p : Bytes) : Option Bytes :=
  match p with
  | 48 :: rest => some rest
  | _ =>
    let (octet, count, rest) := octetDigits p 0 0
    if count = 0 ∨ 3 < count ∨ 255 < octet then none else some rest

/-- The segments that are left after the first. -/
def ipv4Rest : Nat → Bytes → Bool
  | 0, p => p.isEmpty
  | segments + 1, p =>
    match p with
    | c :: p => if c = point then (ipv4Segment p).any (ipv4Rest segments) else false
    | [] => false

def parseIpv4 (p : Bytes) : Bool := (ipv4Segment p).any (ipv4Rest 3)

def ipv6End (p : Bytes) (nsegments : Nat) (skipped : Bool) : Bool :=
  (match p with
    | [] => true
    | c :: zone => c = zoneSign && !zone.isEmpty) && (nsegments = 8 || skipped)

def ipv6Segment (more : Bytes → Nat → Bool) (p : Bytes) (nsegments : Nat) (skipped : Bool) : Bool :=
  let digits := p.takeWhile asciiIsxdigit
  let after := p.dropWhile asciiIsxdigit
  if digits.length = 0 ∨ 4 < digits.length then false
  else if after.head? = some point then
    if nsegments = 6 ∧ !skipped ∨ nsegments ≤ 6 ∧ skipped then parseIpv4 p else false
  else more after (nsegments + 1)

/-- The loop over IPv6 segments; the first argument is `8 - nsegments`, and `start` tells whether
`p` is still the beginning of the string. -/
def ipv6Loop : Nat → Bool → Bytes → Nat → Bool → Bool
  | 0, _, p, nsegments, skipped => ipv6End p nsegments skipped
  | left + 1, start, p, nsegments, skipped =>
    if p.isEmpty || p.head? = some zoneSign then ipv6End p nsegments skipped
    else if !start || p.take 2 = [colon, colon] then
      match p with
      | [] => false
      | c :: p =>
        if c ≠ colon then false
        else if p.head? = some colon && !skipped then ipv6Loop left false (if p.length = 1 then [] else p) (nsegments + 1) true
        else ipv6Segment (fun p nsegments => ipv6Loop left false p nsegments skipped) p nsegments skipped
    else if p.head? = some colon && !skipped then
      ipv6Loop left (1 < p.length) (if p.length = 1 then [] else p) (nsegments + 1) true
    else ipv6Segment (fun p nsegments => ipv6Loop left false p nsegments skipped) p nsegments skipped

def hostnameIsIpAddress (hostname : Bytes) : Bool :=
  let p := cString hostname
  if p.contains colon then ipv6Loop 8 true p 0 false else parseIpv4 p

/-! ## The text form -/

def decimal (digits : Bytes) : Nat := digits.foldl (fun value c => 10 * value + (c.toNat - 48)) 0

structure IsOctet (text : Bytes) : Prop where
  some : text ≠ []
  digits : ∀ c ∈ text, asciiIsdigit c = true
  range : decimal text ≤ 255
  short : text.head? = Option.some 48 → text = [48]

def DottedQuad (text : Bytes) : Prop :=
  ∃ a b c d, IsOctet a ∧ IsOctet b ∧ IsOctet c ∧ IsOctet d ∧
    text = a ++ point :: b ++ point :: c ++ point :: d

def IsGroup (text : Bytes) : Prop := text ≠ [] ∧ text.length ≤ 4 ∧ ∀ c ∈ text, asciiIsxdigit c = true

def colons (fields : List Bytes) : Bytes := fields.flatMap (colon :: ·)

/-- Fields with a colon between any two. -/
def joined (fields : List Bytes) : Bytes := (colons fields).drop 1

/-- Fields that stand for `width` groups: groups, and possibly a dotted quad at the end. -/
def Fields (fields : List Bytes) (width : Nat) : Prop :=
  (∀ group ∈ fields, IsGroup group) ∧ width = fields.length ∨
    ∃ groups quad, fields = groups ++ [quad] ∧ (∀ group ∈ groups, IsGroup group) ∧ DottedQuad quad ∧ width = groups.length + 2

/-- The text form of IPv6 addresses, in full or with the groups that `::` stands for left out. -/
def Ipv6 (text : Bytes) : Prop :=
  (∃ fields, text = joined fields ∧ Fields fields 8) ∨
    ∃ left right width, text = joined left ++ colon :: colon :: joined right ∧ (∀ group ∈ left, IsGroup group) ∧
      Fields right width ∧ left.length + width ≤ 7

def IsIpAddress (text : Bytes) : Prop :=
  DottedQuad text ∨ Ipv6 text ∨ ∃ address zone, text = address ++ zoneSign :: zone ∧ zone ≠ [] ∧ Ipv6 address

/-- The addresses behind which the scan takes no zone. -/
def Unzoned (address : Bytes) : Prop := point ∈ address ∨ ∃ front, address = front ++ [colon, colon]

/-! What the scan for IP addresses accepts. -/

/-! ## Maximal runs -/

/-- The next character, if there is one, is outside of a class. -/
def Stops (inside : UInt8 → Bool) (rest : Bytes) : Prop := ∀ c, rest.head? = some c → inside c = false

theorem stops_nil (inside : UInt8 → Bool) : Stops inside [] := nofun

theorem stops_cons {inside : UInt8 → Bool} (outside : inside c = false) (rest : Bytes) : Stops inside (c :: rest) := by
  rintro _ ⟨⟩
  exact outside

theorem takeWhile_run {inside : UInt8 → Bool} {run rest : Bytes} (all : ∀ c ∈ run, inside c = true) (stops : Stops inside rest) :
    (run ++ rest).takeWhile inside = run ∧ (run ++ rest).dropWhile inside = rest := by
  have stopped : rest.takeWhile inside = [] ∧ rest.dropWhile inside = rest := by
    cases rest with
    | nil => exact ⟨rfl, rfl⟩
    | cons c rest => simp [stops c rfl]
  constructor
  · rw [List.takeWhile_append_of_pos all, stopped.1, List.append_nil]
  · rw [List.dropWhile_append_of_pos all, stopped.2]

/-! ## Octets -/

def decimalOf (value : Nat) (digits : Bytes) : Nat := digits.foldl (fun value c => 10 * value + (c.toNat - 48)) value

theorem decimalOf_le (value : Nat) (digits : Bytes) : value * 10 ^ digits.length ≤ decimalOf value digits := by
  induction digits generalizing value with
  | nil => simp [decimalOf]
  | cons c digits ih =>
    have rest := ih (10 * value + (c.toNat - 48))
    have larger : 10 * value * 10 ^ digits.length ≤ (10 * value + (c.toNat - 48)) * 10 ^ digits.length :=
      Nat.mul_le_mul_right _ (Nat.le_add_right _ _)
    calc value * (10 ^ digits.length * 10) = 10 * value * 10 ^ digits.length := by ring
      _ ≤ (10 * value + (c.toNat - 48)) * 10 ^ digits.length := larger
      _ ≤ decimalOf value (c :: digits) := rest

theorem octetDigits_complete (digits : ∀ c ∈ text, asciiIsdigit c = true) (stops : Stops asciiIsdigit rest)
    {octet : Nat} (range : decimalOf octet text ≤ 255) (count : Nat) :
    octetDigits (text ++ rest) octet count = (decimalOf octet text, count + text.length, rest) := by
  induction text generalizing octet count with
  | nil =>
    cases rest with
    | nil => rfl
    | cons c rest => simp [octetDigits, stops c rfl, decimalOf]
  | cons c text ih =>
    have within := decimalOf_le (10 * octet + (c.toNat - 48)) text
    have positive : 0 < 10 ^ text.length := Nat.pow_pos (by decide)
    have small : ¬255 < 10 * octet + (c.toNat - 48) := by
      have least : 10 * octet + (c.toNat - 48) ≤ (10 * octet + (c.toNat - 48)) * 10 ^ text.length := Nat.le_mul_of_pos_right _ positive
      exact Nat.not_lt.mpr (Nat.le_trans least (Nat.le_trans within range))
    rw [List.cons_append, octetDigits, if_pos (digits c List.mem_cons_self)]
    rw [if_neg small, ih (fun d inside => digits d (List.mem_cons_of_mem _ inside)) range, List.length_cons]
    have number : count + 1 + text.length = count + (text.length + 1) := by omega
    rw [number]
    rfl

theorem octetDigits_sound {octet count value number : Nat} (found : octetDigits p octet count = (value, number, rest))
    (small : value ≤ 255) :
    ∃ text, p = text ++ rest ∧ (∀ c ∈ text, asciiIsdigit c = true) ∧ value = decimalOf octet text ∧ number = count + text.length := by
  induction p generalizing octet count with
  | nil =>
    cases found
    exact ⟨[], rfl, nofun, rfl, rfl⟩
  | cons c p ih =>
    rw [octetDigits] at found
    split at found
    case isTrue digit =>
      dsimp only at found
      split at found
      case isTrue large =>
        cases found
        omega
      case isFalse =>
        obtain ⟨text, rfl, digits, same, length⟩ := ih found
        refine ⟨c :: text, rfl, ?_, same, by rw [length, List.length_cons]; omega⟩
        rintro d (_ | ⟨_, inside⟩)
        · exact digit
        · exact digits d inside
    case isFalse =>
      cases found
      exact ⟨[], rfl, nofun, rfl, rfl⟩

theorem ipv4Segment_sound (found : ipv4Segment p = some rest) : ∃ text, p = text ++ rest ∧ IsOctet text := by
  unfold ipv4Segment at found
  split at found
  next tail =>
    cases found
    exact ⟨[48], rfl, by simp, by simp; decide, by decide, fun _ => rfl⟩
  next other =>
    dsimp only at found
    split at found
    case isTrue => cases found
    case isFalse bounds =>
      have shape : octetDigits p 0 0 = ((octetDigits p 0 0).1, (octetDigits p 0 0).2.1, rest) := by
        rw [← Option.some.inj found]
      obtain ⟨text, rfl, digits, value, length⟩ := octetDigits_sound shape (by omega)
      refine ⟨text, rfl, ?_, digits, ?_, fun zero => ?_⟩
      · rintro rfl
        exact bounds (Or.inl length)
      · have same : decimal text = decimalOf 0 text := rfl
        omega
      · cases text with
        | nil => cases zero
        | cons c text =>
          cases Option.some.inj zero
          exact absurd rfl (other (text ++ rest))

theorem octet_length (octet : IsOctet text) : text.length ≤ 3 := by
  obtain ⟨-, digits, range, short⟩ := octet
  cases text with
  | nil => decide
  | cons c text =>
    by_cases zero : c = 48
    · rw [short (by rw [zero]; rfl)]
      decide
    · have value : decimalOf (10 * 0 + (c.toNat - 48)) text ≤ 255 := range
      have least := decimalOf_le (10 * 0 + (c.toNat - 48)) text
      have digit := digits c List.mem_cons_self
      have large : 1 ≤ 10 * 0 + (c.toNat - 48) := by
        simp only [asciiIsdigit, Bool.and_eq_true, decide_eq_true_eq, UInt8.le_iff_toNat_le] at digit
        have other : c.toNat ≠ 48 := fun same => zero (UInt8.toNat_inj.mp same)
        have low : (48 : UInt8).toNat = 48 := rfl
        omega
      by_contra many
      have power : 10 ^ 3 ≤ 10 ^ text.length := Nat.pow_le_pow_right (by decide) (by rw [List.length_cons] at many; omega)
      have product := Nat.mul_le_mul large power
      omega

theorem ipv4Segment_complete {text rest : Bytes} (octet : IsOctet text) (stops : Stops asciiIsdigit rest) :
    ipv4Segment (text ++ rest) = some rest := by
  have ⟨nonempty, digits, range, short⟩ := octet
  cases text with
  | nil => exact absurd rfl nonempty
  | cons c text =>
    by_cases zero : c = 48
    · subst zero
      have alone := short rfl
      cases alone
      rfl
    · have plain : ipv4Segment (c :: text ++ rest) =
          if (octetDigits (c :: text ++ rest) 0 0).2.1 = 0 ∨ 3 < (octetDigits (c :: text ++ rest) 0 0).2.1 ∨
            255 < (octetDigits (c :: text ++ rest) 0 0).1 then none else some (octetDigits (c :: text ++ rest) 0 0).2.2 := by
        unfold ipv4Segment
        split
        next shape => exact absurd (List.cons.inj shape).1 zero
        next => rfl
      have few := octet_length octet
      rw [List.length_cons] at few
      rw [plain, octetDigits_complete digits stops range]
      exact if_neg (by
        have value : decimalOf 0 (c :: text) ≤ 255 := range
        simp only [List.length_cons]
        omega)

/-! ## Dotted quads -/

theorem isdigit_point : asciiIsdigit point = false := rfl

theorem ipv4Rest_iff {segments : Nat} :
    ipv4Rest segments p = true ↔ ∃ octets : List Bytes, octets.length = segments ∧ (∀ octet ∈ octets, IsOctet octet) ∧
      p = octets.flatMap (point :: ·) := by
  induction segments generalizing p with
  | zero =>
    rw [ipv4Rest, List.isEmpty_iff]
    constructor
    · rintro rfl
      exact ⟨[], rfl, nofun, rfl⟩
    · rintro ⟨octets, none, -, rfl⟩
      rw [List.length_eq_zero_iff.mp none]
      rfl
  | succ segments ih =>
    constructor
    · intro accepted
      unfold ipv4Rest at accepted
      split at accepted
      next c p =>
        split at accepted
        case isTrue dotted =>
          rw [Option.any_eq_true] at accepted
          obtain ⟨rest, found, more⟩ := accepted
          obtain ⟨text, rfl, octet⟩ := ipv4Segment_sound found
          obtain ⟨octets, count, all, rfl⟩ := ih.mp more
          refine ⟨text :: octets, by rw [List.length_cons, count], ?_, by rw [dotted]; rfl⟩
          rintro other (_ | ⟨_, inside⟩)
          · exact octet
          · exact all other inside
        case isFalse => cases accepted
      next => cases accepted
    · rintro ⟨octets, count, all, rfl⟩
      cases octets with
      | nil => cases count
      | cons text octets =>
        have stops : Stops asciiIsdigit (octets.flatMap (point :: ·)) := by
          cases octets with
          | nil => exact stops_nil _
          | cons other octets => exact stops_cons isdigit_point _
        have read := ipv4Segment_complete (all text List.mem_cons_self) stops
        have more := ih.mpr ⟨octets, Nat.succ.inj count, fun other inside => all other (List.mem_cons_of_mem _ inside), rfl⟩
        have shape : (text :: octets).flatMap (point :: ·) = point :: (text ++ octets.flatMap (point :: ·)) := rfl
        rw [shape, ipv4Rest, if_pos rfl, read]
        exact more

theorem parseIpv4_iff : parseIpv4 p = true ↔ DottedQuad p := by
  rw [parseIpv4, Option.any_eq_true]
  constructor
  · rintro ⟨rest, found, more⟩
    obtain ⟨a, rfl, first⟩ := ipv4Segment_sound found
    obtain ⟨octets, count, all, rfl⟩ := ipv4Rest_iff.mp more
    match octets, count with
    | [b, c, d], _ =>
      exact ⟨a, b, c, d, first, all b (by simp), all c (by simp), all d (by simp), by simp⟩
  · rintro ⟨a, b, c, d, first, second, third, fourth, rfl⟩
    refine ⟨[b, c, d].flatMap (point :: ·), ?_, ipv4Rest_iff.mpr ⟨[b, c, d], rfl, ?_, rfl⟩⟩
    · have read := @ipv4Segment_complete _ ([b, c, d].flatMap (point :: ·)) first (stops_cons isdigit_point _)
      simpa using read
    · simp [second, third, fourth]

/-! The scan for IP addresses accepts the text forms, but for a lone colon and some zones. -/

/-! ## One turn -/

def Zone (p : Bytes) : Prop := p = [] ∨ ∃ zone, zone ≠ [] ∧ p = zoneSign :: zone

theorem ipv6End_iff {skipped : Bool} :
    ipv6End p nsegments skipped = true ↔ Zone p ∧ (nsegments = 8 ∨ skipped = true) := by
  unfold ipv6End Zone
  cases p with
  | nil => simp
  | cons c zone =>
    simp only [Bool.and_eq_true, Bool.or_eq_true, decide_eq_true_eq, Bool.not_eq_true', List.isEmpty_eq_false_iff, reduceCtorEq,
      false_or, List.cons.injEq]
    constructor
    · rintro ⟨⟨rfl, more⟩, count⟩
      exact ⟨⟨zone, more, rfl, rfl⟩, count⟩
    · rintro ⟨⟨_, more, rfl, rfl⟩, count⟩
      exact ⟨⟨rfl, more⟩, count⟩

/-- The characters that a group goes on with, or that make it a quad. -/
def continues (c : UInt8) : Bool := asciiIsxdigit c || c = point

theorem continues_colon : continues colon = false := rfl

theorem Zone.stops (zone : Zone p) : Stops continues p := by
  rcases zone with rfl | ⟨zone, -, rfl⟩
  · exact stops_nil _
  · exact stops_cons rfl _

theorem IsGroup.length_pos {group : Bytes} (valid : IsGroup group) : 0 < group.length := List.length_pos_iff.mpr valid.1

theorem asciiIsxdigit_of_digit (digit : asciiIsdigit c = true) : asciiIsxdigit c = true := by
  simp [asciiIsxdigit, digit]

theorem IsGroup.head {group : Bytes} (valid : IsGroup group) : ∃ c tail, group = c :: tail ∧ asciiIsxdigit c = true := by
  obtain ⟨nonempty, -, digits⟩ := valid
  cases group with
  | nil => exact absurd rfl nonempty
  | cons c tail => exact ⟨c, tail, rfl, digits c List.mem_cons_self⟩

theorem DottedQuad.head (quad : DottedQuad text) : ∃ c tail, text = c :: tail ∧ asciiIsdigit c = true := by
  obtain ⟨a, b, c, d, first, -, -, -, rfl⟩ := quad
  cases a with
  | nil => exact absurd rfl first.some
  | cons e a => exact ⟨e, _, rfl, first.digits e List.mem_cons_self⟩

section Turn
variable {more : Bytes → Nat → Bool} {p : Bytes} {nsegments : Nat} {skipped : Bool}

theorem ipv6Segment_iff (goesOn : ∀ after, more after (nsegments + 1) = true → Stops continues after) :
    ipv6Segment more p nsegments skipped = true ↔
      (∃ group after, p = group ++ after ∧ IsGroup group ∧ more after (nsegments + 1) = true) ∨
        DottedQuad p ∧ (nsegments = 6 ∧ skipped = false ∨ nsegments ≤ 6 ∧ skipped = true) := by
  have room : (nsegments = 6 ∧ (!skipped) = true ∨ nsegments ≤ 6 ∧ skipped = true) ↔
      (nsegments = 6 ∧ skipped = false ∨ nsegments ≤ 6 ∧ skipped = true) := by
    rw [Bool.not_eq_true']
  unfold ipv6Segment
  dsimp only
  constructor
  · intro accepted
    split at accepted
    case isTrue => cases accepted
    case isFalse length =>
      split at accepted
      case isTrue dotted =>
        split at accepted
        case isTrue fits => exact Or.inr ⟨parseIpv4_iff.mp accepted, room.mp fits⟩
        case isFalse => cases accepted
      case isFalse =>
        refine Or.inl ⟨p.takeWhile asciiIsxdigit, p.dropWhile asciiIsxdigit, List.takeWhile_append_dropWhile.symm, ⟨?_, by omega, ?_⟩,
          accepted⟩
        · rw [← List.length_pos_iff]
          omega
        · exact fun c inside => List.all_eq_true.mp List.all_takeWhile c inside
  · rintro (⟨group, after, rfl, valid, goes⟩ | ⟨quad, fits⟩)
    · have boundary := goesOn after goes
      have stops : Stops asciiIsxdigit after := fun c first => (Bool.or_eq_false_iff.mp (boundary c first)).1
      have other : after.head? ≠ some point := fun dotted => absurd (boundary point dotted) (by decide)
      have positive := valid.length_pos
      have length := valid.2.1
      rw [(takeWhile_run valid.2.2 stops).1, (takeWhile_run valid.2.2 stops).2, if_neg (by omega), if_neg other]
      exact goes
    · have accepted := parseIpv4_iff.mpr quad
      obtain ⟨a, b, c, d, first, -, -, -, rfl⟩ := quad
      have split : a ++ point :: b ++ point :: c ++ point :: d = a ++ point :: (b ++ point :: c ++ point :: d) := by simp
      rw [split] at accepted ⊢
      have run := @takeWhile_run _ _ (point :: (b ++ point :: c ++ point :: d))
        (fun c inside => asciiIsxdigit_of_digit (first.digits c inside)) (stops_cons rfl _)
      have positive := List.length_pos_iff.mpr first.some
      have length := octet_length first
      rw [run.1, run.2, if_neg (by omega), if_pos (by rfl), if_pos (room.mpr fits)]
      exact accepted

theorem ipv6Loop_zero (start : Bool) (p : Bytes) (nsegments : Nat) (skipped : Bool) :
    ipv6Loop 0 start p nsegments skipped = ipv6End p nsegments skipped := rfl

theorem ipv6Loop_stop (left : Nat) (start : Bool) (stop : p = [] ∨ p.head? = some zoneSign) :
    ipv6Loop (left + 1) start p nsegments skipped = ipv6End p nsegments skipped := by
  rcases stop with rfl | sign
  · rfl
  · obtain ⟨zone, rfl⟩ : ∃ zone, p = zoneSign :: zone := by
      cases p with
      | nil => cases sign
      | cons c zone => exact ⟨zone, by rw [Option.some.inj sign]⟩
    rfl

/-- After the first segment there must be a colon. -/
theorem ipv6Loop_other (left : Nat) {c : UInt8} (sign : c ≠ zoneSign) (other : c ≠ colon) :
    ipv6Loop (left + 1) false (c :: p) nsegments skipped = false := by
  rw [ipv6Loop, if_neg (by simp [sign])]
  simp [other]

theorem ipv6Loop_colon (left : Nat) :
    ipv6Loop (left + 1) false (colon :: p) nsegments skipped =
      if p.head? = some colon && !skipped then ipv6Loop left false (if p.length = 1 then [] else p) (nsegments + 1) true
      else ipv6Segment (fun p nsegments => ipv6Loop left false p nsegments skipped) p nsegments skipped := by
  have sign : ¬colon = zoneSign := by decide
  rw [ipv6Loop, if_neg (by simp [sign])]
  simp

end Turn

/-! ## The loop -/

/-- What may follow once segments are skipped, with room for some more. -/
inductive Skipped : Nat → Bytes → Prop where
  | stop {room : Nat} {p : Bytes} : Zone p → Skipped room p
  | quad {room : Nat} {p : Bytes} : DottedQuad p → Skipped (room + 2) (colon :: p)
  | group {room : Nat} {group after : Bytes} : IsGroup group → Skipped room after → Skipped (room + 1) (colon :: (group ++ after))

/-- What may follow as long as no segments are skipped. -/
inductive Open : Nat → Bytes → Prop where
  | stop {p : Bytes} : Zone p → Open 0 p
  | quad {p : Bytes} : DottedQuad p → Open 2 (colon :: p)
  | group {room : Nat} {group after : Bytes} : IsGroup group → Open room after → Open (room + 1) (colon :: (group ++ after))
  | ends {room : Nat} : Open (room + 1) [colon, colon]
  | skips {room : Nat} {p : Bytes} : p ≠ [] → Skipped room (colon :: p) → Open (room + 1) (colon :: colon :: p)

theorem Skipped.stops (skipped : Skipped room p) : Stops continues p := by
  cases skipped with
  | stop zone => exact zone.stops
  | quad => exact stops_cons continues_colon _
  | group => exact stops_cons continues_colon _

theorem Open.stops (opened : Open room p) : Stops continues p := by
  cases opened with
  | stop zone => exact zone.stops
  | quad => exact stops_cons continues_colon _
  | group => exact stops_cons continues_colon _
  | ends => exact stops_cons continues_colon _
  | skips => exact stops_cons continues_colon _

theorem zone_cons (zone : Zone (c :: p)) : c = zoneSign := by
  rcases zone with none | ⟨zone, -, shape⟩
  · cases none
  · exact (List.cons.inj shape).1

theorem skippedLoop_iff (count : nsegments + room = 8) :
    ipv6Loop room false p nsegments true = true ↔ Skipped room p := by
  induction room generalizing nsegments p with
  | zero =>
    rw [ipv6Loop_zero, ipv6End_iff]
    constructor
    · exact fun ended => .stop ended.1
    · rintro ⟨zone⟩
      exact ⟨zone, Or.inr rfl⟩
  | succ room ih =>
    cases p with
    | nil =>
      rw [ipv6Loop_stop room false (Or.inl rfl), ipv6End_iff]
      exact iff_of_true ⟨Or.inl rfl, Or.inr rfl⟩ (.stop (Or.inl rfl))
    | cons c p =>
      by_cases sign : c = zoneSign
      · subst sign
        rw [ipv6Loop_stop room false (Or.inr rfl), ipv6End_iff]
        constructor
        · exact fun ended => .stop ended.1
        · rintro ⟨zone⟩
          exact ⟨zone, Or.inr rfl⟩
      · by_cases colons : c = colon
        · subst colons
          rw [ipv6Loop_colon, if_neg (by simp), ipv6Segment_iff fun after goes => ((ih (by omega)).mp goes).stops]
          · constructor
            · rintro (⟨group, after, rfl, valid, goes⟩ | ⟨quad, fits⟩)
              · exact .group valid ((ih (by omega)).mp goes)
              · obtain ⟨rest, rfl⟩ : ∃ rest, room = rest + 1 := ⟨room - 1, by simp at fits; omega⟩
                exact .quad quad
            · intro skipped
              cases skipped with
              | stop zone => exact absurd (zone_cons zone) sign
              | quad quad => exact Or.inr ⟨quad, Or.inr ⟨by omega, rfl⟩⟩
              | group valid rest => exact Or.inl ⟨_, _, rfl, valid, (ih (by omega)).mpr rest⟩
        · rw [ipv6Loop_other room sign colons]
          refine iff_of_false (by simp) fun skipped => ?_
          cases skipped with
          | stop zone => exact sign (zone_cons zone)
          | quad => exact colons rfl
          | group => exact colons rfl

theorem openLoop_iff (count : nsegments + room = 8) :
    ipv6Loop room false p nsegments false = true ↔ Open room p := by
  -- over the segments that are left; behind a double colon the other loop goes on
  induction room generalizing nsegments p with
  | zero =>
    rw [ipv6Loop_zero, ipv6End_iff]
    constructor
    · exact fun ended => .stop ended.1
    · rintro ⟨zone⟩
      exact ⟨zone, Or.inl count⟩
  | succ room ih =>
    have unfinished : Zone p → ¬Open (room + 1) p := by
      rintro (rfl | ⟨zone, -, rfl⟩) opened <;> cases opened
    have stopped : p = [] ∨ p.head? = some zoneSign → (ipv6Loop (room + 1) false p nsegments false = true ↔ Open (room + 1) p) := by
      intro stop
      rw [ipv6Loop_stop room false stop, ipv6End_iff]
      refine iff_of_false (fun ended => ended.2.elim (by omega) nofun) fun opened => ?_
      rcases stop with rfl | sign
      · exact unfinished (Or.inl rfl) opened
      · cases opened <;> cases sign
    cases p with
    | nil => exact stopped (Or.inl rfl)
    | cons c p =>
      by_cases sign : c = zoneSign
      · exact stopped (Or.inr (by rw [sign]; rfl))
      · by_cases colons : c = colon
        · subst colons
          rw [ipv6Loop_colon]
          by_cases skips : p.head? = some colon
          · obtain ⟨rest, rfl⟩ : ∃ rest, p = colon :: rest := by
              cases p with
              | nil => cases skips
              | cons c rest => exact ⟨rest, by rw [Option.some.inj skips]⟩
            rw [if_pos (by rfl), skippedLoop_iff (by omega)]
            by_cases ends : rest = []
            · subst ends
              exact iff_of_true (.stop (Or.inl rfl)) .ends
            · have long : ¬(colon :: rest).length = 1 := by simpa using ends
              rw [if_neg long]
              constructor
              · exact fun skipped => .skips ends skipped
              · intro opened
                generalize shape : colon :: colon :: rest = text at opened
                cases opened with
                | quad quad =>
                  obtain ⟨c, tail, rfl, digit⟩ := quad.head
                  cases shape
                  cases digit
                | group valid rest =>
                  obtain ⟨c, tail, rfl, digit⟩ := valid.head
                  cases shape
                  cases digit
                | ends => cases shape; exact absurd rfl ends
                | skips more skipped => cases shape; exact skipped
          · rw [if_neg (by simpa using skips), ipv6Segment_iff fun after goes => ((ih (by omega)).mp goes).stops]
            constructor
            · rintro (⟨group, after, rfl, valid, goes⟩ | ⟨quad, fits⟩)
              · exact .group valid ((ih (by omega)).mp goes)
              · obtain rfl : room = 1 := by simp at fits; omega
                exact .quad quad
            · intro opened
              cases opened with
              | quad quad => exact Or.inr ⟨quad, Or.inl ⟨by omega, rfl⟩⟩
              | group valid rest => exact Or.inl ⟨_, _, rfl, valid, (ih (by omega)).mpr rest⟩
              | ends => exact absurd rfl skips
              | skips => exact absurd rfl skips
        · rw [ipv6Loop_other room sign colons]
          refine iff_of_false (by simp) fun opened => ?_
          cases opened <;> exact colons rfl

/-- The scan of a whole string. A colon alone passes for the first half of a pair. -/
theorem ipv6Scan_iff :
    ipv6Loop 8 true text 0 false = true ↔
      text = [colon] ∨ (∃ group after, text = group ++ after ∧ IsGroup group ∧ Open 7 after) ∨
        (text.take 2 = [colon, colon] ∧ Open 8 text) := by
  have hex : ∀ {c : UInt8} {p : Bytes}, asciiIsxdigit c = false → ¬∃ group after, c :: p = group ++ after ∧ IsGroup group ∧ Open 7 after := by
    rintro c p outside ⟨group, after, shape, valid, -⟩
    obtain ⟨d, tail, rfl, digit⟩ := valid.head
    rw [(List.cons.inj shape).1, digit] at outside
    cases outside
  have stopped : text = [] ∨ text.head? = some zoneSign → ipv6Loop 8 true text 0 false = false := by
    intro stop
    rw [ipv6Loop_stop 7 true stop, Bool.eq_false_iff]
    intro ended
    rcases (ipv6End_iff.mp ended).2 with count | skipped
    · cases count
    · cases skipped
  cases text with
  | nil =>
    rw [stopped (Or.inl rfl)]
    refine iff_of_false (by simp) ?_
    rintro (none | ⟨group, after, shape, valid, -⟩ | ⟨none, -⟩)
    · cases none
    · exact valid.1 (List.append_eq_nil_iff.mp shape.symm).1
    · cases none
  | cons c p =>
    by_cases sign : c = zoneSign
    · subst sign
      rw [stopped (Or.inr rfl)]
      refine iff_of_false (by simp) ?_
      rintro (single | found | ⟨pair, -⟩)
      · cases single
      · exact hex rfl found
      · cases pair
    · by_cases colons : c = colon
      · subst colons
        cases p with
        | nil => exact iff_of_true (by decide) (Or.inl rfl)
        | cons d p =>
          have long : ¬colon :: d :: p = [colon] := by simp
          by_cases again : d = colon
          · subst again
            have same : ipv6Loop 8 true (colon :: colon :: p) 0 false = ipv6Loop 8 false (colon :: colon :: p) 0 false := rfl
            rw [same, openLoop_iff rfl, or_iff_right long, or_iff_right (hex rfl)]
            exact (and_iff_right rfl).symm
          · have rejected : ipv6Loop 8 true (colon :: d :: p) 0 false = false := by
              have digit : asciiIsxdigit colon = false := rfl
              have other : ¬colon = zoneSign := by decide
              simp [ipv6Loop, ipv6Segment, again, digit, other]
            rw [rejected]
            refine iff_of_false (by simp) ?_
            rintro (single | found | ⟨pair, -⟩)
            · exact long single
            · exact hex rfl found
            · exact again (List.cons.inj (List.cons.inj pair).2).1
      · have turn : ipv6Loop 8 true (c :: p) 0 false =
            ipv6Segment (fun p nsegments => ipv6Loop 7 false p nsegments false) (c :: p) 0 false := by
          rw [ipv6Loop]
          simp [sign, colons]
        rw [turn, ipv6Segment_iff fun after goes => ((openLoop_iff rfl).mp goes).stops]
        constructor
        · rintro (⟨group, after, shape, valid, goes⟩ | ⟨-, fits⟩)
          · exact Or.inr (Or.inl ⟨group, after, shape, valid, (openLoop_iff rfl).mp goes⟩)
          · simp at fits
        · rintro (single | ⟨group, after, shape, valid, opened⟩ | ⟨pair, -⟩)
          · exact absurd (List.cons.inj single).1 colons
          · exact Or.inl ⟨group, after, shape, valid, (openLoop_iff rfl).mpr opened⟩
          · exact absurd (by simpa using (List.cons.inj pair).1) colons

end Xpl.Host
