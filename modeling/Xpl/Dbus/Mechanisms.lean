import Xpl.Dbus.Authentication
import Xpl.Library.Partial
import Xpl.Text.IntegerParsing

/-! The mechanisms ANONYMOUS and EXTERNAL, and how a peer that the server knows is let in. -/

set_option autoImplicit false

namespace Xpl.Dbus.Auth
open Xpl.Library Xpl.Text

/-- `GDBusAuthMechanismAnonPrivate` and `GDBusAuthMechanismExternalPrivate`, with the credentials of the instance. -/
structure Mechanism (C : Type) where
  credentials : Option C
  isServer : Bool
  isClient : Bool
  state : MechanismState

variable {C : Type}

namespace Mechanism

def new (credentials : Option C) : Mechanism C := { credentials, isServer := false, isClient := false, state := .invalid }

def serverGetState (m : Mechanism C) : MechanismState := if m.isServer && !m.isClient then m.state else .invalid
def clientGetState (m : Mechanism C) : MechanismState := if m.isClient && !m.isServer then m.state else .invalid

def serverInitiate (m : Mechanism C) (state : MechanismState) : Mechanism C :=
  if !m.isServer && !m.isClient then { m with isServer := true, state } else m

def clientInitiate (m : Mechanism C) (response : Bytes) : Option Bytes × Mechanism C :=
  if !m.isServer && !m.isClient then (some response, { m with isClient := true, state := .accepted }) else (none, m)

end Mechanism

/-- It never waits for data and never has any: the functions for these end in their checks. -/
def anonymous : MechanismClass C (Mechanism C) where
  name := anonymousName
  new credentials _ := .new credentials
  isSupported _ := true
  serverGetState := Mechanism.serverGetState
  serverInitiate m _ := m.serverInitiate .accepted
  serverDataReceive m _ := m
  serverDataSend m := (none, m)
  clientGetState := Mechanism.clientGetState
  clientInitiate m := m.clientInitiate (ascii "GDBus 0.1")
  clientDataReceive m _ := m
  clientDataSend m := ([], m)

/-! ## EXTERNAL -/

def externalName : Bytes := ascii "EXTERNAL"

section External
variable (getUnixUser : C → UInt32)

def dataMatchesCredentials (data : Bytes) (credentials : Option C) : Bool :=
  data ≠ [] && credentials.any fun credentials =>
    let alleged := gAsciiStrtoll (cString data) 10
    alleged.rest = [] && alleged.result.toInt = (getUnixUser credentials).toNat

def judge (m : Mechanism C) (data : Bytes) : MechanismState :=
  if dataMatchesCredentials getUnixUser data m.credentials then .accepted else .rejected

def external : MechanismClass C (Mechanism C) where
  name := externalName
  new credentials _ := .new credentials
  isSupported m := m.credentials.isSome
  serverGetState := Mechanism.serverGetState
  serverInitiate m response := m.serverInitiate (response.elim .waitingForData (judge getUnixUser m))
  serverDataReceive m data :=
    if m.serverGetState = .waitingForData then { m with state := judge getUnixUser m data } else m
  serverDataSend m := (none, m)
  clientGetState := Mechanism.clientGetState
  clientInitiate m :=
    match m.credentials with
    | some credentials => m.clientInitiate (ascii (getUnixUser credentials).toNat.repr)
    | none => (none, m)
  clientDataReceive m _ := m
  clientDataSend m := ([], m)

end External

/-! ## What is written can be read -/

theorem nibble_digit : ∀ n < 16, asciiXdigitValue (nibble n) = some n ∧ nibble n ≠ 0 ∧ nibble n ≠ space := by decide

theorem hexdecode_hexencode (data : Bytes) : hexdecode (hexencode data) = some data := by
  induction data with
  | nil => rfl
  | cons c data ih =>
    have small := c.toNat_lt
    have upper := (nibble_digit (c.toNat / 16) (by omega)).1
    have lower := (nibble_digit (c.toNat % 16) (by omega)).1
    change hexdecode (nibble (c.toNat / 16) :: nibble (c.toNat % 16) :: hexencode data) = _
    simp only [hexdecode, upper, lower, ih, some_bind, Nat.div_add_mod, UInt8.ofNat_toNat]
    rfl

theorem hexencode_clean {data : Bytes} {c : UInt8} (held : c ∈ hexencode data) : c ≠ 0 ∧ c ≠ space := by
  obtain ⟨d, -, held⟩ := List.mem_flatMap.mp held
  have small := d.toNat_lt
  rcases List.mem_cons.mp held with rfl | held
  · exact (nibble_digit (d.toNat / 16) (by omega)).2
  · rw [List.mem_singleton.mp held]
    exact (nibble_digit (d.toNat % 16) (by omega)).2

theorem xstrsplit_cons {word : Bytes} (plain : space ∉ word) (rest : Bytes) :
    xstrsplit (word ++ space :: rest) = word :: rest.splitOn space := by
  rw [xstrsplit, if_neg (by simp)]
  exact List.splitOn_append_cons_self_of_not_mem plain rest

/-- The line of a client is taken apart into what it was made from. -/
theorem xstrsplit_authLine {name : Bytes} (plain : space ∉ name) (response : Bytes) :
    xstrsplit (authLine name (some response)) = [ascii "AUTH", name, hexencode response] := by
  change xstrsplit (ascii "AUTH" ++ space :: (name ++ space :: hexencode response)) = _
  rw [xstrsplit_cons (by decide), List.splitOn_append_cons_self_of_not_mem plain,
    List.splitOn_eq_singleton fun held => (hexencode_clean held).2 rfl]

theorem numeral_ofDigitChars {chars : List Char} (digits : ∀ c ∈ chars, c.isDigit) (init : Nat) :
    numeral 10 init ((chars.map fun c => UInt8.ofNat c.toNat).filterMap (digitOf 10)) = Nat.ofDigitChars 10 chars init ∧
      ∀ c ∈ chars.map fun c => UInt8.ofNat c.toNat, isDigitOf 10 c = true ∧ c ≠ 0 := by
  induction chars generalizing init with
  | nil => exact ⟨rfl, fun _ held => absurd held List.not_mem_nil⟩
  | cons c chars ih =>
    have range : 48 ≤ c.toNat ∧ c.toNat ≤ 57 := by
      have digit := digits c List.mem_cons_self
      simp only [Char.isDigit, Bool.and_eq_true, decide_eq_true_eq] at digit
      exact ⟨digit.1, digit.2⟩
    have value : (UInt8.ofNat c.toNat).toNat = c.toNat := UInt8.toNat_ofNat_of_lt' (by show c.toNat < 2 ^ 8; omega)
    have digit : digitOf 10 (UInt8.ofNat c.toNat) = some (c.toNat - 48) := by
      unfold digitOf
      rw [value, if_pos range]
      exact if_pos (by omega)
    obtain ⟨read, clean⟩ := ih (fun c held => digits c (List.mem_cons_of_mem _ held)) (init * 10 + (c.toNat - 48))
    refine ⟨?_, fun d held => ?_⟩
    · rw [List.map_cons, List.filterMap_cons_some digit, Nat.ofDigitChars_cons, Nat.mul_comm]
      exact read
    · rcases List.mem_cons.mp held with rfl | held
      · refine ⟨by rw [isDigitOf, digit]; rfl, fun zero => ?_⟩
        have nothing : c.toNat = 0 := value.symm.trans (congrArg UInt8.toNat zero)
        omega
      · exact clean d held

/-- A number is read as it is printed. -/
theorem gAsciiStrtoll_repr (n : Nat) (small : n < 2 ^ 63) :
    (gAsciiStrtoll (ascii n.repr) 10).result.toInt = n ∧ (gAsciiStrtoll (ascii n.repr) 10).rest = [] ∧
      ascii n.repr ≠ [] ∧ 0 ∉ ascii n.repr := by
  have digits : ∀ c ∈ Nat.toDigits 10 n, c.isDigit := fun c held => Nat.isDigit_of_mem_toDigits (by decide) (by decide) held
  obtain ⟨value, clean⟩ := numeral_ofDigitChars digits 0
  have some_digit : (Nat.toDigits 10 n).map (fun c => UInt8.ofNat c.toNat) ≠ [] := by simp [Nat.toDigits_ne_nil]
  have text : (Nat.toDigits 10 n).map (fun c => UInt8.ofNat c.toNat) = ascii n.repr :=
    congrArg (List.map _) Nat.toList_repr.symm
  rw [text] at value clean some_digit
  rw [Nat.ofDigitChars_toDigits (by decide) (by decide)] at value
  have whole : wholeNumeral 10 (ascii n.repr) = some n :=
    wholeNumeral_eq_some.mpr ⟨some_digit, fun c held => (clean c held).1, value⟩
  have spells : SpellsLongest 10 (ascii n.repr) false n [] :=
    ⟨⟨[], [], _, by simp, by simp, .none, .digits whole⟩, fun _ _ _ _ => Nat.zero_le _⟩
  rcases @gAsciiStrtoll_exact 10 (ascii n.repr) (by decide) with ⟨negative, v, longest, read⟩ | ⟨nothing, -⟩
  · obtain ⟨rfl, rfl, rest⟩ := spells.unique longest
    rw [signedValue, if_pos (by simp; omega)] at read
    refine ⟨?_, rest.symm, some_digit, fun held => (clean 0 held).2 rfl⟩
    rw [(Prod.mk.inj read).1]
    exact Int64.toInt_ofInt_of_le (by simp) (by simp; omega)
  · exact absurd spells.1 (nothing _ _ _)

/-! ## A client that tells the truth -/

section Honest
variable {getUnixUser : C → UInt32} {args : ServerArgs C (Mechanism C)} {given : ClientArgs C (Mechanism C)}

/-- Both sides prefer EXTERNAL, the client is the user that the server takes it for, and the server lets this user in. -/
structure Acquainted (getUnixUser : C → UInt32) (args : ServerArgs C (Mechanism C)) (given : ClientArgs C (Mechanism C)) : Prop where
  guid : isGuid args.guid = true
  admits : Server.Admits args = true
  server : ∃ others, args.available = external getUnixUser :: others
  client : ∃ others, given.available = external getUnixUser :: others
  same : ∃ peer own, args.credentials = some peer ∧ given.credentials = some own ∧ getUnixUser peer = getUnixUser own

theorem cString_okLine {guid : Bytes} (valid : isGuid guid = true) : cString (okLine guid) = okLine guid := by
  apply cString_clean
  intro held
  rcases List.mem_append.mp held with ok | digit
  · exact absurd ok (by decide)
  · exact absurd (List.all_eq_true.mp (Bool.and_eq_true_iff.mp valid).2 0 digit) (by decide)

/-- The first mechanism that the server names is the first that the client reads. -/
theorem supported_external (server : ∃ others, args.available = external getUnixUser :: others) :
    ∃ names, xstrsplit ((cString (rejectedLine args.available args.allowAnonymous)).drop 9) = externalName :: names := by
  obtain ⟨others, server⟩ := server
  have named : (args.available.filter fun m => args.allowAnonymous || m.name ≠ anonymousName).map MechanismClass.name =
      externalName :: (others.filter fun m => args.allowAnonymous || m.name ≠ anonymousName).map MechanismClass.name := by
    rw [server, List.filter_cons_of_pos (by rw [Bool.or_eq_true]; exact .inr rfl)]
    rfl
  rw [rejectedLine, named]
  cases (others.filter fun m => args.allowAnonymous || m.name ≠ anonymousName).map MechanismClass.name with
  | nil => exact ⟨[], rfl⟩
  | cons name names =>
    have line : [space].intercalate (externalName :: name :: names) = externalName ++ space :: [space].intercalate (name :: names) := by
      simp [List.intercalate, List.intersperse]
    rw [line]
    have plain : space ∉ externalName := by decide
    exact ⟨_, xstrsplit_cons plain (cString ([space].intercalate (name :: names)))⟩

theorem chooseMech_external (client : ∃ others, given.available = external getUnixUser :: others) {own : C}
    (credentials : given.credentials = some own) {c : Client C (Mechanism C)} {names : List Bytes}
    (supported : c.supported = some (externalName :: names)) (attempted : c.attempted = []) :
    c.chooseMech given true = ({ c with attempted := [externalName], point := .waitingForOk },
      [authLine externalName (some (ascii (getUnixUser own).toNat.repr))]) := by
  obtain ⟨others, client⟩ := client
  have found : findMechByName given.available externalName = some (external getUnixUser) := by
    rw [client]
    rfl
  unfold Client.chooseMech
  rw [supported, Option.getD_some, List.findSome?_cons, if_neg (by simp [attempted]), found, attempted, credentials]
  rfl

/-- The uid that the client sends is read back, and found to be that of the peer. -/
theorem accepts_external (user : C) (number : Nat) :
    (external getUnixUser).serverGetState ((external getUnixUser).serverInitiate ((external getUnixUser).new (some user) number)
      (some (ascii (getUnixUser user).toNat.repr))) = .accepted := by
  have small := Nat.lt_trans (getUnixUser user).toNat_lt (by decide : 2 ^ 32 < 2 ^ 63)
  obtain ⟨value, rest, some_digit, clean⟩ := gAsciiStrtoll_repr (getUnixUser user).toNat small
  have matches_ : dataMatchesCredentials getUnixUser (ascii (getUnixUser user).toNat.repr) (some user) = true := by
    simp [dataMatchesCredentials, cString_clean clean, value, rest, some_digit]
  exact if_pos matches_

theorem readAuth_external (server : ∃ others, args.available = external getUnixUser :: others) {peer : C}
    (credentials : args.credentials = some peer) (s : Server C (Mechanism C)) (digits : Bytes) :
    s.readAuth args (cString (authLine externalName (some digits))) true =
      ({ s with
        point := .changeState (external getUnixUser)
          ((external getUnixUser).serverInitiate ((external getUnixUser).new (some peer) s.instances) (some digits))
        instances := s.instances + 1 }, []) := by
  obtain ⟨others, server⟩ := server
  have found : findMechByName args.available externalName = some (external getUnixUser) := by
    rw [server]
    rfl
  have clean : 0 ∉ authLine externalName (some digits) := by
    intro held
    rcases List.mem_append.mp (show 0 ∈ ascii "AUTH EXTERNAL " ++ hexencode digits from held) with fixed | digit
    · exact absurd fixed (by decide)
    · exact (hexencode_clean digit).1 rfl
  have longer : authLine externalName (some digits) ≠ ascii "AUTH" :=
    fun same => Option.some_ne_none space (congrArg (fun text : Bytes => text[4]?) same)
  have plain : space ∉ externalName := by decide
  have named : decide (externalName = anonymousName) = false := by decide
  rw [cString_clean clean, Server.readAuth, if_neg longer, if_pos (show (ascii "AUTH ").isPrefixOf _ = true from rfl),
    xstrsplit_authLine plain]
  simp only [Server.initiate, found, named, Bool.and_false, Bool.false_eq_true, if_false, hexdecode_hexencode, credentials]
  rfl

/-- Both have succeeded, and have negotiated what both had offered. -/
def agreement (args : ServerArgs C (Mechanism C)) (given : ClientArgs C (Mechanism C)) (names : List Bytes) :
    Talk C (Mechanism C) C (Mechanism C) where
  left :=
    { point := .returned (some args.guid), supported := some names, attempted := [externalName], guid := some args.guid
      negotiated := given.unixFdPassing && args.unixFdPassing }
  right := { point := .returned true, instances := 1, negotiated := given.unixFdPassing && args.unixFdPassing }
  toRight := []
  toLeft := []

/-- A move in which neither reading nor writing fails. -/
abbrev Flows (args : ServerArgs C (Mechanism C)) (given : ClientArgs C (Mechanism C)) :=
  Link.Flows (runClient given) (runServer args)

theorem handshake_leads (acquainted : Acquainted getUnixUser args given) :
    ∃ names, Inevitable (Flows args given) (agreement args given names) (handshake args C (Mechanism C) true) := by
  obtain ⟨guid, admits, server, client, peer, own, peers, owns, same⟩ := acquainted
  obtain ⟨names, supported⟩ := supported_external server
  have start : serverStart args = { point := .waitingForAuth, instances := 0, negotiated := false } := by rw [serverStart, if_pos guid]
  have word : ∀ line : Bytes, [line] = (some line).toList ++ [] := fun _ => rfl
  have reads : ∀ {c : Client C (Mechanism C)}, c.readOk given (cString (okLine args.guid)) true = c.agree given args.guid true := by
    intro c
    rw [cString_okLine guid, Client.readOk]
    exact (if_pos rfl).trans (if_pos guid)
  refine ⟨externalName :: names, ?_⟩
  rw [handshake, start]
  -- the client asks for the mechanisms, and sends its uid
  refine Link.leads_right (.inl rfl) (.inl ⟨rfl, rfl⟩) (word (ascii "AUTH")) rfl ?_
  refine Link.leads_left (.inl rfl) (.inl ⟨rfl, rfl⟩) (word _)
    (show _ = ({ point := .again, supported := some (externalName :: names), attempted := [], guid := none, negotiated := false }, [])
      by rw [← supported]; rfl) ?_
  refine Link.leads_left (.inl rfl) (.inr ⟨rfl, rfl⟩) rfl (chooseMech_external client owns rfl rfl) ?_
  -- the server reads it and agrees
  rw [← same]
  refine Link.leads_right (.inl rfl) (.inl ⟨rfl, rfl⟩) (word _) (readAuth_external server peers _ _) ?_
  refine Link.leads_right (.inl rfl) (.inr ⟨rfl, rfl⟩) rfl
    (show _ = ({ point := .waitingForBegin, instances := 1, negotiated := false }, [okLine args.guid])
      by change Server.changeState args _ _ _ true = _; rw [Server.changeState, accepts_external]; exact if_pos admits) ?_
  have ends : ∀ (c : Client C (Mechanism C)) negotiated, c.turn = .ended → Inevitable (Flows args given)
      ⟨c, { point := .returned true, instances := 1, negotiated }, [], []⟩
      ⟨c, { point := .waitingForBegin, instances := 1, negotiated }, [ascii "BEGIN"], []⟩ :=
    fun c negotiated ended => Link.leads_right (.inr ended) (.inl ⟨rfl, rfl⟩) (word _) rfl (Link.leads_done ended rfl)
  rw [agreement]
  cases offers : given.unixFdPassing with
  | false =>
    refine Link.leads_left (.inl rfl) (.inl ⟨rfl, rfl⟩) (word _) (reads.trans (by rw [Client.agree, offers])) ?_
    exact ends _ _ rfl
  | true =>
    refine Link.leads_left (.inl rfl) (.inl ⟨rfl, rfl⟩) (word _) (reads.trans (by rw [Client.agree, offers])) ?_
    cases agrees : args.unixFdPassing with
    | false =>
      refine Link.leads_right (.inl rfl) (.inl ⟨rfl, rfl⟩) (word _)
        (show Server.readBegin args _ (ascii "NEGOTIATE_UNIX_FD") true = _ by rw [Server.readBegin, agrees]) ?_
      exact Link.leads_left (.inl rfl) (.inl ⟨rfl, rfl⟩) (word _) rfl (ends _ _ rfl)
    | true =>
      refine Link.leads_right (.inl rfl) (.inl ⟨rfl, rfl⟩) (word _)
        (show Server.readBegin args _ (ascii "NEGOTIATE_UNIX_FD") true = _ by rw [Server.readBegin, agrees]) ?_
      exact Link.leads_left (.inl rfl) (.inl ⟨rfl, rfl⟩) (word _) rfl (ends _ _ rfl)

/-- Where nothing fails, every interleaving comes to an end, and it ends only where both sides have succeeded. -/
theorem handshake_completes (acquainted : Acquainted getUnixUser args given) {l : Talk C (Mechanism C) C (Mechanism C)}
    (reached : Relation.ReflTransGen (Flows args given) (handshake args C (Mechanism C) true) l) :
    Acc (fun l' l => Flows args given l l') l ∧ ((∀ l', ¬Flows args given l l') → ∃ names, l = agreement args given names) := by
  obtain ⟨names, leads⟩ := handshake_leads acquainted
  exact ⟨(leads.run reached).acc, fun stuck => ⟨names, (leads.run reached).eq_of_stuck stuck⟩⟩

/-- A server and a client of one user. -/
def rootServer : ServerArgs Unit (Mechanism Unit) where
  available := [external fun _ => 0, anonymous]
  guid := List.replicate 32 48
  allowAnonymous := false
  requireSameUser := true
  unixFdPassing := true
  credentials := some ()
  ownCredentials := ()
  isSameUser _ _ := true
  authorize := none

def rootClient : ClientArgs Unit (Mechanism Unit) where
  available := [external fun _ => 0, anonymous]
  unixFdPassing := true
  credentials := some ()

theorem root_acquainted : Acquainted (fun _ => 0) rootServer rootClient :=
  ⟨by decide, rfl, ⟨[anonymous], rfl⟩, ⟨[anonymous], rfl⟩, (), (), rfl, rfl, rfl⟩

theorem root_reaches :
    ∃ names, Reaches rootServer rootClient (handshake rootServer Unit (Mechanism Unit) true) (agreement rootServer rootClient names) := by
  obtain ⟨names, leads⟩ := handshake_leads root_acquainted
  exact ⟨names, leads.reaches.lift id fun _ _ => Link.Flows.moves⟩

theorem handshake_completes_root :
    Acc (fun l' l => Flows rootServer rootClient l l') (handshake rootServer Unit (Mechanism Unit) true) ∧
      ∃ l, Relation.ReflTransGen (Flows rootServer rootClient) (handshake rootServer Unit (Mechanism Unit) true) l ∧
        (∀ l', ¬Flows rootServer rootClient l l') ∧ ∃ names, l = agreement rootServer rootClient names := by
  refine ⟨(handshake_completes root_acquainted .refl).1, ?_⟩
  obtain ⟨_, leads⟩ := handshake_leads root_acquainted
  exact ⟨_, leads.reaches, leads.final_stuck, (handshake_completes root_acquainted leads.reaches).2 leads.final_stuck⟩

end Honest

end Xpl.Dbus.Auth
