import Xpl.Dbus.Mechanisms

/-! What holds in every run of the authentication: for a server with any peer, and for a
client and a server whose steps come in any order and whose channels may fail at any time. -/

set_option autoImplicit false

namespace Xpl.Dbus.Auth
open Xpl.Library

variable {C M : Type} {args : ServerArgs C M} {states : Server C M → Prop}

/-- Whether a line looks like the consent of the server. -/
def consents (line : Bytes) : Bool := (ascii "OK ").isPrefixOf (cString line)

/-! ## The server -/

/-- The states of an instance in the server: data is received and sent only where the mechanism asks for it. -/
inductive Conversation (cls : MechanismClass C M) (credentials : Option C) : M → Prop
  | initiate (number : Nat) (response : Option Bytes) :
      Conversation cls credentials (cls.serverInitiate (cls.new credentials number) response)
  | receive {mech : M} (talk : Conversation cls credentials mech) (state : cls.serverGetState mech = .waitingForData)
      (data : Bytes) : Conversation cls credentials (cls.serverDataReceive mech data)
  | send {mech : M} (talk : Conversation cls credentials mech) (state : cls.serverGetState mech = .haveDataToSend) :
      Conversation cls credentials (cls.serverDataSend mech).2

/-- A mechanism that the server lets a client use, in a state that such calls lead to. -/
structure Speaks (args : ServerArgs C M) (cls : MechanismClass C M) (mech : M) : Prop where
  known : cls ∈ args.available
  permitted : args.allowAnonymous = true ∨ cls.name ≠ anonymousName
  talk : Conversation cls args.credentials mech

/-- The server is about to let in the peer, which the mechanism of this state has accepted. -/
def Server.Passes (args : ServerArgs C M) (s : Server C M) : Prop :=
  ∃ cls mech, s.point = .changeState cls mech ∧ Speaks args cls mech ∧ cls.serverGetState mech = .accepted

/-- The tests that do not depend on what is said have been passed, and in one of these states a mechanism has accepted. -/
structure Accepted (args : ServerArgs C M) (states : Server C M → Prop) : Prop where
  guid : isGuid args.guid = true
  admits : Server.Admits args = true
  mechanism : ∃ s, states s ∧ s.Passes args

/-- A server that has sent data waits for the answer. -/
def MechanismClass.Alternates (cls : MechanismClass C M) : Prop :=
  ∀ mech data, (cls.serverDataSend mech).1 = some data → cls.serverGetState (cls.serverDataSend mech).2 = .waitingForData

namespace ServerPoint

/-- Before the consent of the server. -/
def listening : ServerPoint C M → Bool
  | .waitingForAuth | .waitingForData _ _ | .changeState _ _ => true
  | _ => false

def broken : ServerPoint C M → Bool
  | .returned false | .aborted => true
  | _ => false

/-- Whether the server is about to decide, and not only to wait. -/
def busy : ServerPoint C M → Nat
  | .changeState cls mech => if cls.serverGetState mech = .waitingForData then 0 else 1
  | _ => 0

theorem busy_le (point : ServerPoint C M) : point.busy ≤ 1 := by
  unfold busy
  split
  · split
    · exact Nat.zero_le 1
    · exact Nat.le_refl 1
  · exact Nat.zero_le 1

end ServerPoint

namespace Server
variable {s : Server C M} {line : Bytes} {word : Option Bytes} {writes : Bool}

inductive SoundAt (args : ServerArgs C M) (states : Server C M → Prop) : ServerPoint C M → Prop
  | waitingForAuth (guid : isGuid args.guid = true) : SoundAt args states .waitingForAuth
  | waitingForData {cls : MechanismClass C M} {mech : M} (guid : isGuid args.guid = true) (speaks : Speaks args cls mech)
      (state : cls.serverGetState mech = .waitingForData) : SoundAt args states (.waitingForData cls mech)
  | waitingForBegin (accepted : Accepted args states) : SoundAt args states .waitingForBegin
  | changeState {cls : MechanismClass C M} {mech : M} (guid : isGuid args.guid = true) (speaks : Speaks args cls mech) :
      SoundAt args states (.changeState cls mech)
  | returned {authenticated : Bool} (accepted : authenticated = true → Accepted args states) : SoundAt args states (.returned authenticated)
  | aborted : SoundAt args states .aborted

structure Sound (args : ServerArgs C M) (states : Server C M → Prop) (s : Server C M) : Prop where
  point : SoundAt args states s.point
  offered : s.negotiated = true → args.unixFdPassing = true

/-- What becomes of a server that listens. The number of lines it writes and of decisions that it has to make is bounded
where its mechanisms alternate. -/
inductive Hears (args : ServerArgs C M) (states : Server C M → Prop) (s : Server C M) (word : Option Bytes) (next : Server C M × List Bytes) : Prop
  | fails (sound : SoundAt args states next.1.point) (broken : next.1.point.broken = true) (same : next.1.negotiated = s.negotiated)
      (silent : next.2 = [])
  | listens (sound : SoundAt args states next.1.point) (listening : next.1.point.listening = true)
      (same : next.1.negotiated = s.negotiated) (quiet : ∀ line ∈ next.2, consents line = false)
      (few : (∀ cls ∈ args.available, cls.Alternates) →
        next.2.length + next.1.point.busy ≤ s.point.busy + word.toList.length)
  | accepts (accepted : Accepted args states) (begins : next.1.point = .waitingForBegin) (same : next.1.negotiated = s.negotiated)
      (line : next.2 = [okLine args.guid]) (busy : s.point.busy = 1)

theorem hears_fail : Hears args states s word s.fail := .fails (.returned Bool.noConfusion) rfl rfl rfl

theorem hears_goto {point : ServerPoint C M} (sound : SoundAt args states point) (listening : point.listening = true)
    (few : point.busy ≤ s.point.busy + word.toList.length) : Hears args states s word (s.goto point) :=
  .listens sound listening rfl (fun _ written => absurd written List.not_mem_nil) fun _ => (Nat.zero_add _).trans_le few

theorem hears_put {point : ServerPoint C M} (writes : Bool) (sound : SoundAt args states point) (listening : point.listening = true)
    (idle : (∀ cls ∈ args.available, cls.Alternates) → point.busy = 0) (quiet : consents line = false)
    (positive : 1 ≤ s.point.busy + word.toList.length) : Hears args states s word (s.put writes line point) := by
  cases writes with
  | false => exact hears_fail
  | true =>
    refine .listens sound listening rfl (fun _ written => List.mem_singleton.mp written ▸ quiet) fun alternates => ?_
    exact (Nat.le_of_eq (congrArg (1 + ·) (idle alternates))).trans positive

theorem hears_initiate (guid : isGuid args.guid = true) (name : Bytes) (encoded : Option Bytes) (sent : Bytes) :
    Hears args states s (some sent) (s.initiate args name encoded writes) := by
  have rejects : Hears args states s (some sent) (s.reject args writes) :=
    hears_put writes (.waitingForAuth guid) rfl (fun _ => rfl) rfl (Nat.le_add_left 1 _)
  have begins : ∀ cls mech, Speaks args cls mech →
      Hears args states s (some sent) ({ s with instances := s.instances + 1 }.goto (.changeState cls mech)) :=
    fun cls mech speaks => .listens (.changeState guid speaks) rfl rfl (fun _ written => absurd written List.not_mem_nil)
      fun _ => (Nat.zero_add _).trans_le ((ServerPoint.busy_le _).trans (Nat.le_add_left 1 _))
  unfold initiate
  split
  · exact rejects
  case h_2 cls found =>
    have named : name = cls.name := by simpa using List.find?_some found
    have known := List.mem_of_find?_eq_some found
    split
    · exact rejects
    case isFalse allowed =>
      have permitted : args.allowAnonymous = true ∨ cls.name ≠ anonymousName := by
        rw [← named]
        by_cases anonymous : name = anonymousName
        · exact .inl (by simpa [anonymous] using allowed)
        · exact .inr anonymous
      split
      · exact begins _ _ ⟨known, permitted, .initiate _ _⟩
      · split
        · exact .fails (.returned Bool.noConfusion) rfl rfl rfl
        · exact begins _ _ ⟨known, permitted, .initiate _ _⟩

theorem hears_readAuth (guid : isGuid args.guid = true) (line sent : Bytes) :
    Hears args states s (some sent) (s.readAuth args line writes) := by
  unfold readAuth
  split
  · exact hears_put writes (.waitingForAuth guid) rfl (fun _ => rfl) rfl (Nat.le_add_left 1 _)
  · split
    · split
      · exact hears_initiate guid _ _ sent
      · exact hears_initiate guid _ _ sent
      · exact hears_fail
    · exact hears_fail

theorem hears_readData (guid : isGuid args.guid = true) {cls : MechanismClass C M} {mech : M} (speaks : Speaks args cls mech)
    (state : cls.serverGetState mech = .waitingForData) (line sent : Bytes) :
    Hears args states s (some sent) (s.readData cls mech line) := by
  unfold readData
  split
  · split
    · exact hears_fail
    case h_2 data _ =>
      have talk := speaks.talk.receive state data
      exact hears_goto (.changeState guid { speaks with talk }) rfl ((ServerPoint.busy_le _).trans (Nat.le_add_left 1 _))
  · exact hears_fail

theorem hears_changeState (guid : isGuid args.guid = true) {cls : MechanismClass C M} {mech : M} (speaks : Speaks args cls mech)
    (point : s.point = .changeState cls mech) (here : states s) : Hears args states s word (s.changeState args cls mech writes) := by
  have busy : cls.serverGetState mech ≠ .waitingForData → s.point.busy = 1 := by
    intro active
    rw [point]
    exact if_neg active
  have positive : cls.serverGetState mech ≠ .waitingForData → 1 ≤ s.point.busy + word.toList.length :=
    fun active => (busy active).ge.trans (Nat.le_add_right _ _)
  unfold changeState
  split
  case h_1 state =>
    split
    case isTrue admits =>
      cases writes with
      | false => exact hears_fail
      | true => exact .accepts ⟨guid, admits, s, here, cls, mech, point, speaks, state⟩ rfl rfl rfl (busy (by rw [state]; decide))
    · exact hears_fail
  case h_2 state => exact hears_put writes (.waitingForAuth guid) rfl (fun _ => rfl) rfl (positive (by rw [state]; decide))
  case h_3 state => exact hears_goto (.waitingForData guid speaks state) rfl (Nat.zero_le _)
  case h_4 state =>
    have active : cls.serverGetState mech ≠ .waitingForData := by rw [state]; decide
    have talk := Conversation.send speaks.talk state
    split
    case h_1 data after sent =>
      rw [sent] at talk
      refine hears_put writes (.changeState guid { speaks with talk }) rfl (fun alternates => ?_) rfl (positive active)
      have waits := alternates cls speaks.known mech data (congrArg Prod.fst sent)
      rw [sent] at waits
      exact if_pos waits
    case h_2 after sent =>
      rw [sent] at talk
      exact hears_goto (.changeState guid { speaks with talk }) rfl ((ServerPoint.busy_le _).trans (positive active))
  · exact .fails .aborted rfl rfl rfl

theorem hears_step (here : states s) (sound : SoundAt args states s.point) (listening : s.point.listening = true) (word : Option Bytes) (writes : Bool) :
    Hears args states s word (s.step args word writes) := by
  obtain ⟨point, instances, negotiated⟩ := s
  cases sound with
  | waitingForAuth guid =>
    cases word with
    | none => exact hears_fail
    | some line => exact hears_readAuth guid (cString line) line
  | waitingForData guid speaks state =>
    cases word with
    | none => exact hears_fail
    | some line => exact hears_readData guid speaks state (cString line) line
  | changeState guid speaks => exact hears_changeState guid speaks rfl here
  | waitingForBegin accepted => cases listening
  | returned accepted => cases listening
  | aborted => cases listening

/-- A line from the server that looks like its consent is its consent. -/
def Honest (args : ServerArgs C M) (states : Server C M → Prop) (line : Bytes) : Prop := consents line = true → line = okLine args.guid ∧ Accepted args states

/-- A step leads to a sound state, writes honest lines, and lets the peer in only at the line `BEGIN`. -/
structure Keeps (args : ServerArgs C M) (states : Server C M → Prop) (word : Option Bytes) (next : Server C M × List Bytes) : Prop where
  sound : Sound args states next.1
  honest : ∀ line ∈ next.2, Honest args states line
  begins : next.1.point = .returned true → ∃ line, word = some line ∧ cString line = ascii "BEGIN"

theorem Hears.keeps (offered : s.negotiated = true → args.unixFdPassing = true) {next : Server C M × List Bytes}
    (hears : Hears args states s word next) : Keeps args states word next := by
  cases hears with
  | fails sound broken same silent =>
    refine ⟨⟨sound, fun negotiated => offered (same.symm.trans negotiated)⟩, by simp [silent], fun done => ?_⟩
    rw [done] at broken
    cases broken
  | listens sound listening same quiet few =>
    refine ⟨⟨sound, fun negotiated => offered (same.symm.trans negotiated)⟩, fun line written consent => ?_, fun done => ?_⟩
    · rw [quiet line written] at consent
      cases consent
    · rw [done] at listening
      cases listening
  | accepts accepted begins same line busy =>
    refine ⟨⟨begins ▸ .waitingForBegin accepted, fun negotiated => offered (same.symm.trans negotiated)⟩, ?_, ?_⟩
    · rw [line]
      exact fun _ written _ => ⟨List.mem_singleton.mp written, accepted⟩
    · intro done
      cases begins.symm.trans done

theorem keeps_put (offered : s.negotiated = true → args.unixFdPassing = true) (accepted : Accepted args states)
    (quiet : consents line = false) : Keeps args states word (s.put writes line .waitingForBegin) := by
  cases writes with
  | false => exact hears_fail.keeps offered
  | true =>
    refine ⟨⟨.waitingForBegin accepted, offered⟩, fun _ written consent => ?_, fun done => by cases done⟩
    rw [List.mem_singleton.mp written, quiet] at consent
    cases consent

theorem keeps_step (here : states s) (sound : Sound args states s) (word : Option Bytes) (writes : Bool) : Keeps args states word (s.step args word writes) := by
  by_cases listening : s.point.listening = true
  · exact (hears_step here sound.point listening word writes).keeps sound.offered
  · obtain ⟨point, instances, negotiated⟩ := s
    obtain ⟨at_, offered⟩ := sound
    cases at_ with
    | waitingForBegin accepted =>
      cases word with
      | none => exact hears_fail.keeps offered
      | some line =>
        change Keeps args states (some line) (readBegin args _ (cString line) writes)
        unfold readBegin
        split
        case isTrue begins =>
          exact ⟨⟨.returned fun _ => accepted, offered⟩, fun _ written => absurd written List.not_mem_nil, fun _ => ⟨line, rfl, begins⟩⟩
        · split
          · split
            case isTrue supports => exact keeps_put (fun _ => supports) accepted rfl
            · exact keeps_put offered accepted rfl
          · exact keeps_put offered accepted rfl
    | returned accepted => exact hears_fail.keeps offered
    | aborted => exact hears_fail.keeps offered
    | _ => exact absurd rfl listening

theorem sound_start (args : ServerArgs C M) (states : Server C M → Prop) : Sound args states (serverStart args) := by
  refine ⟨?_, fun negotiated => Bool.noConfusion negotiated⟩
  unfold serverStart
  split
  case isTrue guid => exact .waitingForAuth guid
  · exact .returned Bool.noConfusion

end Server

/-! ## The client -/

section
variable {D N : Type} {given : ClientArgs D N}

namespace ClientPoint

/-- Before the client knows of a consent. -/
def hoping : ClientPoint D N → Bool
  | .waitingForReject | .again | .waitingForData _ _ | .waitingForOk => true
  | _ => false

def busy : ClientPoint D N → Nat
  | .again => 1
  | _ => 0

end ClientPoint

namespace Client
variable {c : Client D N} {line : Bytes} {word : Option Bytes} {writes : Bool}

/-- The client gives up, or goes on without knowing of a consent. -/
inductive Hopes (c : Client D N) (next : Client D N × List Bytes) : Prop
  | fails (point : next.1.point = .returned none) (silent : next.2 = [])
  | goes (hoping : next.1.point.hoping = true) (same : next.1.negotiated = c.negotiated)
      (few : next.2.length + next.1.point.busy ≤ 1) (quiet : ∀ line ∈ next.2, cString line ≠ ascii "BEGIN")

theorem hopes_put {c' : Client D N} {point : ClientPoint D N} (same : c'.negotiated = c.negotiated) (line : Bytes)
    (writes : Bool) (hoping : point.hoping = true) (idle : point.busy = 0) (quiet : cString line ≠ ascii "BEGIN") :
    c.Hopes (c'.put writes line point) := by
  cases writes with
  | false => exact .fails rfl rfl
  | true =>
    exact .goes hoping same (Nat.le_of_eq (congrArg (1 + ·) idle)) fun _ written => List.mem_singleton.mp written ▸ quiet

theorem hopes_chooseMechanism (c : Client D N) (line : Bytes) : c.Hopes (c.chooseMechanism line) := by
  unfold chooseMechanism
  split
  · exact .goes rfl rfl (Nat.le_refl 1) fun _ written => absurd written List.not_mem_nil
  · exact .fails rfl rfl

theorem hopes_chooseMech (c : Client D N) (writes : Bool) : c.Hopes (c.chooseMech given writes) := by
  unfold chooseMech
  split
  · exact .fails rfl rfl
  case h_2 cls _ =>
    dsimp only
    split
    · exact .goes rfl rfl (Nat.le_refl 1) fun _ written => absurd written List.not_mem_nil
    · have quiet : ∀ response, cString (authLine cls.name response) ≠ ascii "BEGIN" := by
        intro response same
        cases response with
        | none => exact absurd (List.cons.inj same).1 (by decide)
        | some response => exact absurd (List.cons.inj same).1 (by decide)
      refine hopes_put ?_ _ writes ?_ ?_ (quiet _)
      · rfl
      · split <;> rfl
      · split <;> rfl

theorem hopes_readData (c : Client D N) (cls : MechanismClass D N) (mech : N) (line : Bytes) (writes : Bool) :
    c.Hopes (c.readData cls mech line writes) := by
  unfold readData
  split
  · split
    · exact .fails rfl rfl
    · dsimp only
      split
      · exact hopes_put rfl _ writes rfl rfl fun same => absurd (List.cons.inj same).1 (by decide)
      · exact .goes rfl rfl (Nat.zero_le 1) fun _ written => absurd written List.not_mem_nil
  · exact hopes_chooseMechanism c line

/-- What a step does: the client does not know of a consent, or it reads one, or it hears what is negotiated. -/
theorem step_cases (given : ClientArgs D N) (c : Client D N) (word : Option Bytes) (writes : Bool) :
    c.Hopes (c.step given word writes) ∨
      (∃ line, word = some line ∧ consents line = true ∧ isGuid ((cString line).drop 3) = true ∧
        c.step given word writes = c.agree given ((cString line).drop 3) writes) ∨
      c.point = .waitingForAgreeUnixFd ∧
        ∃ negotiated, c.step given word writes = { c with negotiated }.put writes (ascii "BEGIN") (.returned c.guid) := by
  unfold step
  split
  · exact .inl (hopes_chooseMech c writes)
  · exact .inl (hopes_chooseMechanism c _)
  · exact .inl (hopes_readData c _ _ _ writes)
  case h_4 line _ =>
    unfold readOk
    split
    case isTrue consent =>
      split
      case isTrue guid => exact .inr (.inl ⟨line, rfl, consent, guid, rfl⟩)
      · exact .inl (.fails rfl rfl)
    · exact .inl (hopes_chooseMechanism c _)
  case h_5 point =>
    unfold readAgree
    split
    · exact .inr (.inr ⟨point, true, rfl⟩)
    · split
      · exact .inr (.inr ⟨point, c.negotiated, rfl⟩)
      · exact .inl (.fails rfl rfl)
  · exact .inl (.fails rfl rfl)

/-- Where the client reads, it has no step of its own but to fail. -/
theorem step_none (idle : c.point.busy = 0) (writes : Bool) : c.step given none writes = c.fail := by
  obtain ⟨point, supported, attempted, guid, negotiated⟩ := c
  cases point with
  | again => cases idle
  | _ => rfl

/-- The client holds, and returns, no other identity than that of a server that has accepted it. -/
structure Sound (args : ServerArgs C M) (states : Server C M → Prop) (c : Client D N) : Prop where
  agreeing : c.point = .waitingForAgreeUnixFd → c.guid = some args.guid ∧ Accepted args states
  returned : ∀ guid, c.point = .returned (some guid) → guid = args.guid ∧ Accepted args states

/-- A step leads to a sound state, and the line `BEGIN` is the last that is written. -/
structure Keeps (args : ServerArgs C M) (states : Server C M → Prop) (next : Client D N × List Bytes) : Prop where
  sound : Sound args states next.1
  begins : ∀ line ∈ next.2, cString line = ascii "BEGIN" → ∃ guid, next.1.point = .returned (some guid)

theorem Hopes.keeps {next : Client D N × List Bytes} (hopes : c.Hopes next) : Keeps args states next := by
  cases hopes with
  | fails point silent => exact ⟨⟨by simp [point], by simp [point]⟩, by simp [silent]⟩
  | goes hoping same few quiet =>
    refine ⟨⟨fun point => ?_, fun guid point => ?_⟩, fun line written begins => absurd begins (quiet line written)⟩
    · rw [point] at hoping
      cases hoping
    · rw [point] at hoping
      cases hoping

theorem keeps_put {guid : Bytes} (same : guid = args.guid) (accepted : Accepted args states) (writes : Bool) :
    Keeps args states (c.put writes (ascii "BEGIN") (.returned (some guid))) := by
  cases writes with
  | false => exact (Hopes.fails (c := c) rfl rfl).keeps
  | true =>
    refine ⟨⟨fun point => (by cases point), fun other returned => ?_⟩, fun _ _ _ => ⟨guid, rfl⟩⟩
    rw [← Option.some.inj (ClientPoint.returned.inj returned)]
    exact ⟨same, accepted⟩

theorem keeps_agree {guid : Bytes} (same : guid = args.guid) (accepted : Accepted args states) (writes : Bool) :
    Keeps args states (c.agree given guid writes) := by
  unfold agree
  split
  · cases writes with
    | false => exact (Hopes.fails (c := c) rfl rfl).keeps
    | true =>
      refine ⟨⟨fun _ => ⟨congrArg some same, accepted⟩, fun _ point => (by cases point)⟩, fun line written begins => ?_⟩
      rw [List.mem_singleton.mp written] at begins
      exact absurd begins (by decide)
  · exact keeps_put same accepted writes

theorem keeps_step (sound : Sound args states c) (word : Option Bytes) (honest : ∀ line, word = some line → Server.Honest args states line)
    (writes : Bool) : Keeps args states (c.step given word writes) := by
  rcases step_cases given c word writes with hopes | ⟨line, sent, consent, guid, goes⟩ | ⟨point, negotiated, goes⟩
  · exact hopes.keeps
  · obtain ⟨rfl, accepted⟩ := honest line sent consent
    exact goes ▸ keeps_agree (congrArg (List.drop 3) (cString_okLine accepted.guid)) accepted writes
  · obtain ⟨known, accepted⟩ := sound.agreeing point
    rw [goes, known]
    exact keeps_put rfl accepted writes

end Client

/-! ## Both sides -/

variable {l l' : Talk D N C M} {word : Option Bytes} {rest : List Bytes} {writes : Bool}

/-- Whatever is under way, nobody is deceived. -/
structure Agrees (args : ServerArgs C M) (states : Server C M → Prop) (l : Talk D N C M) : Prop where
  left : Client.Sound args states l.left
  right : Server.Sound args states l.right
  honest : ∀ line ∈ l.toLeft, Server.Honest args states line
  begins : (l.right.point = .returned true ∨ ∃ line ∈ l.toRight, cString line = ascii "BEGIN") →
    ∃ guid, l.left.point = .returned (some guid)

theorem agrees_start (states : Server C M → Prop) (writes : Bool) : Agrees args states (handshake args D N writes) := by
  have start : Client.Keeps args states (clientStart D N writes) := by
    cases writes with
    | false => exact (@Client.Hopes.fails D N (clientStart D N true).1 _ rfl rfl).keeps
    | true => exact (Client.hopes_put (c := (clientStart D N true).1) rfl (ascii "AUTH") true rfl rfl (by decide)).keeps
  refine ⟨start.sound, Server.sound_start args states, fun _ written => absurd written List.not_mem_nil, ?_⟩
  rintro (done | ⟨line, written, begins⟩)
  · unfold handshake serverStart at done
    split at done
    · cases done
    · cases done
  · exact start.begins line written begins

theorem agrees_moves (here : states l.right) (agrees : Agrees args states l) (moves : Link.Moves (runClient given) (runServer args) l l') : Agrees args states l' := by
  have sent : ∀ {words rest : List Bytes} {word : Option Bytes}, words = word.toList ++ rest →
      (∀ line, word = some line → line ∈ words) ∧ ∀ line ∈ rest, line ∈ words := by
    rintro words rest word rfl
    refine ⟨fun line same => ?_, fun line held => List.mem_append_right _ held⟩
    rw [same]
    exact List.mem_cons_self
  cases moves with
  | left word rest writes turn ready queue =>
    have keeps : Client.Keeps args states (l.left.step given word writes) :=
      Client.keeps_step agrees.left word (fun line same => agrees.honest line ((sent queue).1 line same)) writes
    -- a side that has returned takes no step, so no `BEGIN` is under way yet
    have going : ¬∃ guid, l.left.point = .returned (some guid) := by
      rintro ⟨guid, point⟩
      exact turn (by simp [runClient, Client.turn, point])
    refine ⟨keeps.sound, agrees.right, fun line held => agrees.honest line ((sent queue).2 line held), ?_⟩
    rintro (done | ⟨line, held, begins⟩)
    · exact absurd (agrees.begins (.inl done)) going
    · rcases List.mem_append.mp held with before | written
      · exact absurd (agrees.begins (.inr ⟨line, before, begins⟩)) going
      · exact keeps.begins line written begins
  | right word rest writes turn ready queue =>
    have keeps := Server.keeps_step here agrees.right word writes
    refine ⟨agrees.left, keeps.sound, fun line held => (List.mem_append.mp held).elim (agrees.honest line) (keeps.honest line), ?_⟩
    rintro (done | ⟨line, held, begins⟩)
    -- the server has just read the `BEGIN` that its client wrote
    · obtain ⟨line, read, begins⟩ := keeps.begins done
      exact agrees.begins (.inr ⟨line, (sent queue).1 line read, begins⟩)
    · exact agrees.begins (.inr ⟨line, (sent queue).2 line held, begins⟩)

/-- The states of the server on the way to this point of an interleaving. -/
def OnTheWay (args : ServerArgs C M) (given : ClientArgs D N) (writes : Bool) (l : Talk D N C M) (s : Server C M) : Prop :=
  ∃ m, Reaches args given (handshake args D N writes) m ∧ Reaches args given m l ∧ m.right = s

theorem agrees_reaches (reached : Reaches args given (handshake args D N writes) l) :
    Agrees args (OnTheWay args given writes l) l :=
  keeps_of_way (fun u _ before move after agrees => agrees_moves ⟨u, before, after.head move, rfl⟩ agrees move)
    (agrees_start _ writes) reached

/-! ## What is negotiated -/

/-- How far the two sides have come together. Before the consent at most one of them has something to do. -/
inductive Phase (args : ServerArgs C M) (given : ClientArgs D N) (l : Talk D N C M) : Prop
  | trying (hoping : l.left.point.hoping = true) (listening : l.right.point.listening = true)
      (left : l.left.negotiated = false) (right : l.right.negotiated = false) (quiet : ∀ line ∈ l.toLeft, consents line = false)
      (turns : l.toRight.length + l.toLeft.length + l.left.point.busy + l.right.point.busy ≤ 1)
  | accepted (hoping : l.left.point.hoping = true) (idle : l.left.point.busy = 0) (begins : l.right.point = .waitingForBegin)
      (left : l.left.negotiated = false) (right : l.right.negotiated = false) (toRight : l.toRight = [])
      (toLeft : l.toLeft = [okLine args.guid])
  | asking (waits : l.left.point = .waitingForAgreeUnixFd) (begins : l.right.point = .waitingForBegin)
      (offered : given.unixFdPassing = true) (left : l.left.negotiated = false) (right : l.right.negotiated = false)
      (toRight : l.toRight = [ascii "NEGOTIATE_UNIX_FD"]) (toLeft : l.toLeft = [])
  | answered (waits : l.left.point = .waitingForAgreeUnixFd) (begins : l.right.point = .waitingForBegin)
      (offered : given.unixFdPassing = true) (left : l.left.negotiated = false) (toRight : l.toRight = [])
      (toLeft : l.toLeft = [if l.right.negotiated then ascii "AGREE_UNIX_FD" else ascii "ERROR \"fd passing not offered\""])
  | begun (returned : l.left.turn = .ended) (same : l.left.negotiated = l.right.negotiated)
      (offered : l.left.negotiated = true → given.unixFdPassing = true) (toLeft : l.toLeft = [])
      (ends : l.right.point = .waitingForBegin ∧ l.toRight = [ascii "BEGIN"] ∨ l.right.turn = .ended)
  | broken (fails : l.left.point = .returned none ∨ l.right.point.broken = true)

theorem turn_of_broken {s : Server C M} (broken : s.point.broken = true) : s.turn = .ended := by
  obtain ⟨point, instances, negotiated⟩ := s
  cases point with
  | returned authenticated => rfl
  | aborted => rfl
  | _ => cases broken

theorem phase_consent (agrees : Agrees args states l) (hoping : l.left.point.hoping = true) (idle : l.left.point.busy = 0)
    (begins : l.right.point = .waitingForBegin) (left : l.left.negotiated = false) (right : l.right.negotiated = false)
    (toRight : l.toRight = []) (toLeft : l.toLeft = [okLine args.guid]) (writes : Bool) :
    Phase args given (l.leftStep (runClient given) (some (okLine args.guid)) writes []) := by
  have accepted := (agrees.honest (okLine args.guid) (by rw [toLeft]; exact List.mem_cons_self) rfl).2
  obtain ⟨⟨point, supported, attempted, guid, negotiated⟩, s, words, _⟩ := l
  obtain rfl : words = [] := toRight
  obtain rfl : negotiated = false := left
  cases point with
  | again => cases idle
  | waitingForAgreeUnixFd => cases hoping
  | returned guid => cases hoping
  -- `OK` is neither `REJECTED` nor `DATA`
  | waitingForReject => exact .broken (.inl rfl)
  | waitingForData cls mech => exact .broken (.inl rfl)
  | waitingForOk =>
    have reads : ∀ c : Client D N, c.readOk given (cString (okLine args.guid)) writes = c.agree given args.guid writes := by
      intro c
      rw [cString_okLine accepted.guid, Client.readOk]
      exact (if_pos rfl).trans (if_pos accepted.guid)
    change Phase args given ⟨(Client.readOk given _ (cString (okLine args.guid)) writes).1, s,
      (Client.readOk given _ (cString (okLine args.guid)) writes).2, []⟩
    rw [reads, Client.agree]
    cases writes with
    | false =>
      split
      · exact .broken (.inl rfl)
      · exact .broken (.inl rfl)
    | true =>
      split
      case isTrue offers => exact .asking rfl begins offers rfl right rfl rfl
      · exact .begun rfl right.symm (fun negotiated => Bool.noConfusion negotiated) rfl (.inl ⟨begins, rfl⟩)

theorem phase_left {writes : Bool} (agrees : Agrees args states l) (phase : Phase args given l) (turn : l.left.turn ≠ .ended)
    (queue : l.toLeft = word.toList ++ rest) : Phase args given (l.leftStep (runClient given) word writes rest) := by
  have alone : l.left.point.busy = 0 → word = none → Phase args given (l.leftStep (runClient given) word writes rest) := by
    rintro idle rfl
    exact .broken (.inl (congrArg (Client.point ∘ Prod.fst) (Client.step_none idle writes)))
  cases phase with
  | trying hoping listening left right quiet turns =>
    by_cases idle : l.left.point.busy = 0 ∧ word = none
    · exact alone idle.1 idle.2
    · have length := congrArg List.length queue
      rw [List.length_append] at length
      -- the step uses up a line that was under way, or the client's own turn
      have used : 1 ≤ word.toList.length + l.left.point.busy := by
        cases word with
        | none => exact Nat.le_trans (Nat.pos_of_ne_zero fun none => idle ⟨none, rfl⟩) (Nat.le_add_left _ _)
        | some line => exact Nat.le_add_right 1 _
      rcases Client.step_cases given l.left word writes with hopes | ⟨line, sent, consent, -⟩ | ⟨point, -⟩
      · cases hopes with
        | fails point silent => exact .broken (.inl point)
        | goes hoping' same few quiet' =>
          refine .trying hoping' listening (same.trans left) right
            (fun line held => quiet line (queue ▸ List.mem_append_right _ held)) ?_
          have lines : (l.toRight ++ (l.left.step given word writes).2).length ≤ l.toRight.length + (1 - (l.left.step given word writes).1.point.busy) := by
            rw [List.length_append]
            omega
          change (l.toRight ++ (l.left.step given word writes).2).length + rest.length + (l.left.step given word writes).1.point.busy +
            l.right.point.busy ≤ 1
          omega
      · rw [quiet line (by rw [queue, sent]; exact List.mem_cons_self)] at consent
        cases consent
      · rw [point] at hoping
        cases hoping
  | accepted hoping idle begins left right toRight toLeft =>
    cases word with
    | none => exact alone idle rfl
    | some line =>
      obtain ⟨rfl, rfl⟩ := List.cons.inj (queue.symm.trans toLeft)
      exact phase_consent agrees hoping idle begins left right toRight toLeft writes
  | asking waits begins offered left right toRight toLeft =>
    cases word with
    | none => exact alone (by rw [waits]; rfl) rfl
    | some line => cases queue.symm.trans toLeft
  | answered waits begins offered left toRight toLeft =>
    cases word with
    | none => exact alone (by rw [waits]; rfl) rfl
    | some line =>
      obtain ⟨rfl, rfl⟩ := List.cons.inj (queue.symm.trans toLeft)
      obtain ⟨⟨point, supported, attempted, guid, negotiated⟩, s, words, _⟩ := l
      obtain rfl : point = .waitingForAgreeUnixFd := waits
      obtain rfl : words = [] := toRight
      obtain rfl : negotiated = false := left
      cases agreed : s.negotiated with
      | true =>
        cases writes with
        | false => exact .broken (.inl rfl)
        | true => exact .begun rfl agreed.symm (fun _ => offered) rfl (.inl ⟨begins, rfl⟩)
      | false =>
        cases writes with
        | false => exact .broken (.inl rfl)
        | true => exact .begun rfl agreed.symm (fun _ => offered) rfl (.inl ⟨begins, rfl⟩)
  | begun returned same offered toLeft ends => exact absurd returned turn
  | broken fails =>
    rcases fails with returned | fails
    · exact absurd (by simp [Client.turn, returned]) turn
    · exact .broken (.inr fails)

theorem phase_right {writes : Bool} (here : states l.right) (alternates : ∀ cls ∈ args.available, cls.Alternates) (agrees : Agrees args states l)
    (phase : Phase args given l) (turn : l.right.turn ≠ .ended) (queue : l.toRight = word.toList ++ rest) :
    Phase args given (l.rightStep (runServer args) word writes rest) := by
  obtain ⟨c, ⟨point, instances, negotiated⟩, words, words'⟩ := l
  cases phase with
  | trying hoping listening left right quiet turns =>
    have length := congrArg List.length queue
    rw [List.length_append] at length
    dsimp only at length turns
    cases Server.hears_step here agrees.right.point listening word writes with
    | fails sound broken same silent => exact .broken (.inr broken)
    | listens sound listens same silent few =>
      have room := few alternates
      refine .trying hoping listens left (same.trans right) (fun line held => (List.mem_append.mp held).elim (quiet line) (silent line)) ?_
      dsimp only at room
      change rest.length + (words' ++ (Server.step args ⟨point, instances, negotiated⟩ word writes).2).length + c.point.busy +
        (Server.step args ⟨point, instances, negotiated⟩ word writes).1.point.busy ≤ 1
      rw [List.length_append]
      omega
    | accepts accepted begins same line busy =>
      -- the server had the only turn, so its consent is the only line under way
      dsimp only at busy
      obtain rfl := List.eq_nil_of_length_eq_zero (show words'.length = 0 by omega)
      obtain rfl := List.eq_nil_of_length_eq_zero (show rest.length = 0 by omega)
      exact .accepted hoping (show c.point.busy = 0 by omega) begins left (same.trans right) rfl line
  | accepted hoping idle begins left right toRight toLeft =>
    obtain rfl : point = .waitingForBegin := begins
    cases word with
    | none => exact .broken (.inr rfl)
    | some line => cases queue.symm.trans toRight
  | asking waits begins offered left right toRight toLeft =>
    obtain rfl : point = .waitingForBegin := begins
    obtain rfl : negotiated = false := right
    obtain rfl : words' = [] := toLeft
    cases word with
    | none => exact .broken (.inr rfl)
    | some line =>
      obtain ⟨rfl, rfl⟩ := List.cons.inj (queue.symm.trans toRight)
      change Phase args given ⟨c, (Server.readBegin args _ (ascii "NEGOTIATE_UNIX_FD") writes).1, [],
        (Server.readBegin args _ (ascii "NEGOTIATE_UNIX_FD") writes).2⟩
      unfold Server.readBegin
      rw [if_neg (by decide), if_pos rfl]
      cases writes with
      | false =>
        split
        · exact .broken (.inr rfl)
        · exact .broken (.inr rfl)
      | true =>
        split
        · exact .answered waits rfl offered left rfl rfl
        · exact .answered waits rfl offered left rfl rfl
  | answered waits begins offered left toRight toLeft =>
    obtain rfl : point = .waitingForBegin := begins
    cases word with
    | none => exact .broken (.inr rfl)
    | some line => cases queue.symm.trans toRight
  | begun returned same offered toLeft ends =>
    rcases ends with ⟨begins, toRight⟩ | done
    · obtain rfl : point = .waitingForBegin := begins
      obtain rfl : words' = [] := toLeft
      cases word with
      | none => exact .broken (.inr rfl)
      | some line =>
        obtain ⟨rfl, rfl⟩ := List.cons.inj (queue.symm.trans toRight)
        exact .begun returned same offered rfl (.inr rfl)
    · exact absurd done turn
  | broken fails =>
    rcases fails with returned | fails
    · exact .broken (.inl returned)
    · exact absurd (turn_of_broken fails) turn

theorem phase_start (writes : Bool) : Phase args given (handshake args D N writes) := by
  have guid : (serverStart args).point.listening = true ∧ (serverStart args).point.busy = 0 ∨ (serverStart args).point.broken = true := by
    unfold serverStart
    split
    · exact .inl ⟨rfl, rfl⟩
    · exact .inr rfl
  rcases guid with ⟨listening, idle⟩ | broken
  · cases writes with
    | false => exact .broken (.inl rfl)
    | true =>
      refine .trying rfl listening rfl rfl (fun _ held => absurd held List.not_mem_nil) ?_
      exact Nat.le_of_eq (congrArg (1 + ·) idle)
  · exact .broken (.inr broken)

/-! ## Results -/

/-- In every interleaving a client that succeeds has the identity of the server, which has come to accept it on the
way, and the server only succeeds after its client. -/
theorem handshake_agrees (reached : Reaches args given (handshake args D N writes) l) :
    (∀ guid, l.left.point = .returned (some guid) → guid = args.guid ∧ Accepted args (OnTheWay args given writes l)) ∧
      (l.right.point = .returned true → l.left.point = .returned (some args.guid)) := by
  have agrees := agrees_reaches reached
  refine ⟨agrees.left.returned, fun done => ?_⟩
  obtain ⟨guid, returned⟩ := agrees.begins (.inl done)
  rw [returned, (agrees.left.returned guid returned).1]

theorem handshake_agrees_root :
    ∃ l, Reaches rootServer rootClient (handshake rootServer Unit (Mechanism Unit) true) l ∧
      l.right.point = .returned true ∧ l.left.point = .returned (some rootServer.guid) ∧
      Accepted rootServer (OnTheWay rootServer rootClient true l) := by
  obtain ⟨names, reached⟩ := root_reaches
  have agrees := handshake_agrees reached
  exact ⟨_, reached, rfl, agrees.2 rfl, (agrees.1 _ rfl).2⟩

/-- Where the server succeeds, both sides have negotiated the same, and only what both had offered. -/
theorem handshake_negotiates (alternates : ∀ cls ∈ args.available, cls.Alternates)
    (reached : Reaches args given (handshake args D N writes) l) (done : l.right.point = .returned true) :
    l.left.negotiated = l.right.negotiated ∧ (l.left.negotiated = true → given.unixFdPassing = true ∧ args.unixFdPassing = true) := by
  have keeps : ∀ l l', Agrees args (fun _ => True) l ∧ Phase args given l → Link.Moves (runClient given) (runServer args) l l' →
      Agrees args (fun _ => True) l' ∧ Phase args given l' := by
    intro l l' both moves
    refine ⟨agrees_moves trivial both.1 moves, ?_⟩
    cases moves with
    | left word rest writes turn ready queue => exact phase_left both.1 both.2 turn queue
    | right word rest writes turn ready queue => exact phase_right trivial alternates both.1 both.2 turn queue
  obtain ⟨agrees, phase⟩ := keeps_of_steps keeps ⟨agrees_start _ writes, phase_start writes⟩ reached
  -- only after the last line has the server succeeded
  cases phase with
  | trying hoping listening left right quiet turns =>
    rw [done] at listening
    cases listening
  | accepted hoping idle begins left right toRight toLeft => cases begins.symm.trans done
  | asking waits begins offered left right toRight toLeft => cases begins.symm.trans done
  | answered waits begins offered left toRight toLeft => cases begins.symm.trans done
  | begun returned same offered toLeft ends =>
    exact ⟨same, fun negotiated => ⟨offered negotiated, agrees.right.offered (same.symm.trans negotiated)⟩⟩
  | broken fails =>
    rcases fails with returned | fails
    · obtain ⟨guid, other⟩ := agrees.begins (.inl done)
      cases returned.symm.trans other
    · rw [done] at fails
      cases fails

/-- The server sends the number of the instance, which the client has to send back. -/
def challenge : MechanismClass Unit (Nat × MechanismState) where
  name := ascii "CHALLENGE"
  new _ number := (number, .invalid)
  isSupported _ := true
  serverGetState m := m.2
  serverInitiate m _ := (m.1, .haveDataToSend)
  serverDataReceive m data := (m.1, if data = [UInt8.ofNat m.1] then .accepted else .rejected)
  serverDataSend m := (some [UInt8.ofNat m.1], (m.1, .waitingForData))
  clientGetState m := m.2
  clientInitiate m := (none, (m.1, .waitingForData))
  clientDataReceive _ data := ((data.headD 0).toNat, .haveDataToSend)
  clientDataSend m := ([UInt8.ofNat m.1], (m.1, .accepted))

def challengeServer : ServerArgs Unit (Nat × MechanismState) :=
  { available := [challenge], guid := List.replicate 32 48, allowAnonymous := false, requireSameUser := false
    unixFdPassing := true, credentials := none, ownCredentials := (), isSameUser := fun _ _ => false, authorize := none }

def challengeClient : ClientArgs Unit (Nat × MechanismState) :=
  { available := [challenge], unixFdPassing := true, credentials := none }

theorem handshake_negotiates_challenge :
    ∃ l, Reaches challengeServer challengeClient (handshake challengeServer Unit (Nat × MechanismState) true) l ∧
      l.right.point = .returned true ∧ l.right.negotiated = true ∧ l.left.negotiated = l.right.negotiated := by
  have waits : ∀ cls ∈ challengeServer.available, cls.Alternates := by
    intro cls known mech data sent
    rw [List.mem_singleton.mp known]
    rfl
  have reached := Link.play_reaches (L := runClient challengeClient) (R := runServer challengeServer) 16
    (handshake challengeServer Unit (Nat × MechanismState) true)
  exact ⟨_, reached, rfl, rfl, (handshake_negotiates waits reached rfl).1⟩

end
end Xpl.Dbus.Auth
