import Mathlib.Data.List.DropRight
import Xpl.Library.Bytes
import Xpl.Library.Channels

/-! The authentication at the start of a connection: the client and the server as
machines that read and write lines. The mechanisms are given by their classes. -/

set_option autoImplicit false

namespace Xpl.Dbus.Auth
open Xpl.Library

def ascii (text : String) : Bytes := text.toList.map fun c => UInt8.ofNat c.toNat

def space : UInt8 := 32

/-- `xstrsplit (string, " ", 0)` -/
def xstrsplit (string : Bytes) : List Bytes := if string = [] then [] else string.splitOn space

def xstrstrip (string : Bytes) : Bytes := (string.dropWhile asciiIsspace).rdropWhile asciiIsspace

def nibble (val : Nat) : UInt8 := if 10 ≤ val then UInt8.ofNat (97 + val - 10) else UInt8.ofNat (48 + val)

def hexencode (data : Bytes) : Bytes := data.flatMap fun c => [nibble (c.toNat / 16), nibble (c.toNat % 16)]

/-- `g_ascii_xdigit_value`, without its -1. -/
def asciiXdigitValue (c : UInt8) : Option Nat :=
  if 65 ≤ c ∧ c ≤ 70 then some (c.toNat - 65 + 10)
  else if 97 ≤ c ∧ c ≤ 102 then some (c.toNat - 97 + 10)
  else if asciiIsdigit c then some (c.toNat - 48)
  else none

/-- A string of odd length ends at its terminator, which is no digit. -/
def hexdecode : Bytes → Option Bytes
  | [] => some []
  | [_] => none
  | upper :: lower :: rest => do
    let upper ← asciiXdigitValue upper
    let lower ← asciiXdigitValue lower
    let data ← hexdecode rest
    return UInt8.ofNat (16 * upper + lower) :: data

def isGuid (string : Bytes) : Bool := string.length = 32 && string.all asciiIsxdigit

/-! ## Mechanisms -/

/-- `xdbus_auth_mechanism_state_t` -/
inductive MechanismState where
  | invalid | waitingForData | haveDataToSend | rejected | accepted
  deriving DecidableEq

/-- `xdbus_auth_mechanism_class_t`, with the creation of an instance. The instances of a run are numbered, since what is
random in a mechanism may be different in each of them. -/
structure MechanismClass (C M : Type) where
  name : Bytes
  new : Option C → Nat → M
  isSupported : M → Bool
  serverGetState : M → MechanismState
  serverInitiate : M → Option Bytes → M
  serverDataReceive : M → Bytes → M
  serverDataSend : M → Option Bytes × M
  clientGetState : M → MechanismState
  clientInitiate : M → Option Bytes × M
  clientDataReceive : M → Bytes → M
  clientDataSend : M → Bytes × M

variable {C M : Type}

def findMechByName (available : List (MechanismClass C M)) (name : Bytes) : Option (MechanismClass C M) :=
  available.find? fun m => name = m.name

def anonymousName : Bytes := ascii "ANONYMOUS"

/-! ## Lines -/

def authLine (name : Bytes) (response : Option Bytes) : Bytes :=
  match response with
  | some response => ascii "AUTH " ++ (name ++ space :: hexencode response)
  | none => ascii "AUTH " ++ name

def dataLine (data : Bytes) : Bytes := ascii "DATA " ++ hexencode data
def okLine (guid : Bytes) : Bytes := ascii "OK " ++ guid

/-- `get_auth_mechanisms` with the prefix and the separator of its callers. -/
def rejectedLine (available : List (MechanismClass C M)) (allowAnonymous : Bool) : Bytes :=
  ascii "REJECTED " ++
    [space].intercalate ((available.filter fun m => allowAnonymous || m.name ≠ anonymousName).map MechanismClass.name)

/-! ## The server -/

/-- The arguments of `_xdbus_auth_run_server`, and what it finds in its surroundings. -/
structure ServerArgs (C M : Type) where
  available : List (MechanismClass C M)
  guid : Bytes
  allowAnonymous : Bool
  requireSameUser : Bool
  unixFdPassing : Bool
  credentials : Option C
  ownCredentials : C
  isSameUser : C → C → Bool
  authorize : Option (Option C → Bool)

/-- The states of the loop, the label `change_state`, and the ends of the function. -/
inductive ServerPoint (C M : Type) where
  | waitingForAuth
  | waitingForData (cls : MechanismClass C M) (mech : M)
  | waitingForBegin
  | changeState (cls : MechanismClass C M) (mech : M)
  | returned (authenticated : Bool)
  | aborted

structure Server (C M : Type) where
  point : ServerPoint C M
  instances : Nat
  negotiated : Bool

namespace Server

def fail (s : Server C M) : Server C M × List Bytes := ({ s with point := .returned false }, [])

def goto (s : Server C M) (point : ServerPoint C M) : Server C M × List Bytes := ({ s with point }, [])

/-- A line is written before the state changes; when that fails, the function returns. -/
def put (s : Server C M) (writes : Bool) (line : Bytes) (point : ServerPoint C M) : Server C M × List Bytes :=
  if writes then ({ s with point }, [line]) else s.fail

variable (args : ServerArgs C M)

def reject (s : Server C M) (writes : Bool) : Server C M × List Bytes :=
  s.put writes (rejectedLine args.available args.allowAnonymous) .waitingForAuth

def initiate (s : Server C M) (name : Bytes) (encoded : Option Bytes) (writes : Bool) : Server C M × List Bytes :=
  match findMechByName args.available name with
  | none => s.reject args writes
  | some cls =>
    if !args.allowAnonymous && name = anonymousName then s.reject args writes
    else
      let mech := cls.new args.credentials s.instances
      let s := { s with instances := s.instances + 1 }
      match encoded with
      | none => s.goto (.changeState cls (cls.serverInitiate mech none))
      | some encoded =>
        match hexdecode encoded with
        | none => s.fail
        | some response => s.goto (.changeState cls (cls.serverInitiate mech (some response)))

def readAuth (s : Server C M) (line : Bytes) (writes : Bool) : Server C M × List Bytes :=
  if line = ascii "AUTH" then s.reject args writes
  else if (ascii "AUTH ").isPrefixOf line then
    match xstrsplit line with
    | [_, name] => s.initiate args name none writes
    | [_, name, encoded] => s.initiate args name (some encoded) writes
    | _ => s.fail
  else s.fail

def readData (s : Server C M) (cls : MechanismClass C M) (mech : M) (line : Bytes) : Server C M × List Bytes :=
  if (ascii "DATA ").isPrefixOf line then
    match hexdecode (xstrstrip (line.drop 5)) with
    | none => s.fail
    | some data => s.goto (.changeState cls (cls.serverDataReceive mech data))
  else s.fail

def readBegin (s : Server C M) (line : Bytes) (writes : Bool) : Server C M × List Bytes :=
  if line = ascii "BEGIN" then s.goto (.returned true)
  else if line = ascii "NEGOTIATE_UNIX_FD" then
    if args.unixFdPassing then { s with negotiated := true }.put writes (ascii "AGREE_UNIX_FD") .waitingForBegin
    else s.put writes (ascii "ERROR \"fd passing not offered\"") .waitingForBegin
  else s.put writes (ascii "ERROR \"Unknown Command\"") .waitingForBegin

/-- The peer is the user of the server, where that is asked for, and the observer lets it in. -/
def Admits : Bool :=
  (!args.requireSameUser || args.credentials.any fun c => args.isSameUser c args.ownCredentials) &&
    args.authorize.all fun authorize => authorize args.credentials

def changeState (s : Server C M) (cls : MechanismClass C M) (mech : M) (writes : Bool) : Server C M × List Bytes :=
  match cls.serverGetState mech with
  | .accepted => if Admits args then s.put writes (okLine args.guid) .waitingForBegin else s.fail
  | .rejected => s.reject args writes
  | .waitingForData => s.goto (.waitingForData cls mech)
  | .haveDataToSend =>
    match cls.serverDataSend mech with
    | (some data, mech) => s.put writes (dataLine data) (.changeState cls mech)
    | (none, mech) => s.goto (.changeState cls mech)
  | .invalid => s.goto .aborted

def turn (s : Server C M) : Turn :=
  match s.point with
  | .returned _ | .aborted => .ended
  | .changeState _ _ => .acts
  | _ => .reads

/-- A line is used as a string, up to its first NUL. -/
def step (s : Server C M) (line : Option Bytes) (writes : Bool) : Server C M × List Bytes :=
  match s.point, line with
  | .changeState cls mech, _ => s.changeState args cls mech writes
  | .waitingForAuth, some line => s.readAuth args (cString line) writes
  | .waitingForData cls mech, some line => s.readData cls mech (cString line)
  | .waitingForBegin, some line => s.readBegin args (cString line) writes
  | _, _ => s.fail

end Server

/-- `_xdbus_auth_run_server` from where it has the credentials of the peer. -/
def runServer (args : ServerArgs C M) : Machine (Server C M) Bytes where
  turn := Server.turn
  step := Server.step args

def serverStart (args : ServerArgs C M) : Server C M :=
  { point := if isGuid args.guid then .waitingForAuth else .returned false, instances := 0, negotiated := false }

/-! ## The client -/

structure ClientArgs (C M : Type) where
  available : List (MechanismClass C M)
  unixFdPassing : Bool
  credentials : Option C

/-- The states of the loop, the label `again`, and the end of the function. -/
inductive ClientPoint (C M : Type) where
  | waitingForReject
  | again
  | waitingForData (cls : MechanismClass C M) (mech : M)
  | waitingForOk
  | waitingForAgreeUnixFd
  | returned (guid : Option Bytes)

structure Client (C M : Type) where
  point : ClientPoint C M
  supported : Option (List Bytes)
  attempted : List Bytes
  guid : Option Bytes
  negotiated : Bool

namespace Client

def fail (c : Client C M) : Client C M × List Bytes := ({ c with point := .returned none }, [])

def goto (c : Client C M) (point : ClientPoint C M) : Client C M × List Bytes := ({ c with point }, [])

def put (c : Client C M) (writes : Bool) (line : Bytes) (point : ClientPoint C M) : Client C M × List Bytes :=
  if writes then ({ c with point }, [line]) else c.fail

/-- The label `choose_mechanism`: only the first list of mechanisms counts. -/
def chooseMechanism (c : Client C M) (line : Bytes) : Client C M × List Bytes :=
  if (ascii "REJECTED ").isPrefixOf line then
    { c with supported := some (c.supported.getD (xstrsplit (line.drop 9))) }.goto .again
  else c.fail

variable (args : ClientArgs C M)

/-- A turn of `client_choose_mech_and_send_initial_response`. -/
def chooseMech (c : Client C M) (writes : Bool) : Client C M × List Bytes :=
  match (c.supported.getD []).findSome? fun name =>
      if c.attempted.contains name then none else findMechByName args.available name with
  | none => c.fail
  | some cls =>
    let mech := cls.new args.credentials c.attempted.length
    let c := { c with attempted := c.attempted ++ [cls.name] }
    if !cls.isSupported mech then c.goto .again
    else
      match cls.clientInitiate mech with
      | (response, mech) =>
        c.put writes (authLine cls.name response)
          (if cls.clientGetState mech = .waitingForData then .waitingForData cls mech else .waitingForOk)

def agree (c : Client C M) (guid : Bytes) (writes : Bool) : Client C M × List Bytes :=
  if args.unixFdPassing then { c with guid := some guid }.put writes (ascii "NEGOTIATE_UNIX_FD") .waitingForAgreeUnixFd
  else { c with guid := some guid }.put writes (ascii "BEGIN") (.returned (some guid))

def readOk (c : Client C M) (line : Bytes) (writes : Bool) : Client C M × List Bytes :=
  if (ascii "OK ").isPrefixOf line then
    if isGuid (line.drop 3) then c.agree args (line.drop 3) writes else c.fail
  else c.chooseMechanism line

def readAgree (c : Client C M) (line : Bytes) (writes : Bool) : Client C M × List Bytes :=
  if line = ascii "AGREE_UNIX_FD" then { c with negotiated := true }.put writes (ascii "BEGIN") (.returned c.guid)
  else if (ascii "ERROR").isPrefixOf line && (line)[5]?.all asciiIsspace then c.put writes (ascii "BEGIN") (.returned c.guid)
  else c.fail

def readData (c : Client C M) (cls : MechanismClass C M) (mech : M) (line : Bytes) (writes : Bool) : Client C M × List Bytes :=
  if (ascii "DATA ").isPrefixOf line then
    match hexdecode (xstrstrip (line.drop 5)) with
    | none => c.fail
    | some data =>
      let mech := cls.clientDataReceive mech data
      if cls.clientGetState mech = .haveDataToSend then c.put writes (dataLine (cls.clientDataSend mech).1) .waitingForOk
      else c.goto .waitingForOk
  else c.chooseMechanism line

def turn (c : Client C M) : Turn :=
  match c.point with
  | .returned _ => .ended
  | .again => .acts
  | _ => .reads

def step (c : Client C M) (line : Option Bytes) (writes : Bool) : Client C M × List Bytes :=
  match c.point, line with
  | .again, _ => c.chooseMech args writes
  | .waitingForReject, some line => c.chooseMechanism (cString line)
  | .waitingForData cls mech, some line => c.readData cls mech (cString line) writes
  | .waitingForOk, some line => c.readOk args (cString line) writes
  | .waitingForAgreeUnixFd, some line => c.readAgree (cString line) writes
  | _, _ => c.fail

end Client

/-- `_xdbus_auth_run_client` from where it has sent its credentials. -/
def runClient (args : ClientArgs C M) : Machine (Client C M) Bytes where
  turn := Client.turn
  step := Client.step args

/-- The client after its first line, or without it. -/
def clientStart (C M : Type) (writes : Bool) : Client C M × List Bytes :=
  { point := .waitingForReject, supported := none, attempted := [], guid := none, negotiated := false : Client C M }.put
    writes (ascii "AUTH") .waitingForReject

/-- The client, the server and the lines under way between them. -/
abbrev Talk (D N C M : Type) := Link (Client D N) (Server C M) Bytes

/-- After the client has written its first line or failed to. -/
def handshake (args : ServerArgs C M) (D N : Type) (writes : Bool) : Talk D N C M where
  left := (clientStart D N writes).1
  right := serverStart args
  toRight := (clientStart D N writes).2
  toLeft := []

/-- From one state to another in some interleaving. -/
abbrev Reaches {D N : Type} (args : ServerArgs C M) (given : ClientArgs D N) : Talk D N C M → Talk D N C M → Prop :=
  Link.Reaches (runClient given) (runServer args)

end Xpl.Dbus.Auth
