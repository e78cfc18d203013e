import Ensicoin.Messages
import Ensicoin.Library.StepRuns

/-!
A Connection to a peer, as a machine moved by sendMessage calls and completions of
reads and writes. A completed read hands its handler exactly the bytes it asked
for, and pending reads are served in the order they were started. written,
handled, served and registrations are history: nothing in the code reads them.
-/
namespace EnsicoinConnection
open EnsicoinRuntime EnsicoinNetworkBuffer EnsicoinNetworkable EnsicoinMessages

inductive Status where
  | Initiated
  | Waiting
  | Idle
  | WaitingAck
  | Ack
  deriving DecidableEq, Repr

inductive PeerType where
  | nodepeer
  | relaypeer
  | walletpeer
  | peer
  deriving DecidableEq, Repr

inductive PendingRead where
  | header
  | payload (header : MessageHeader)
  deriving DecidableEq, Repr

/-- The count given to transfer_exactly. -/
def PendingRead.size : PendingRead → Nat
  | .header => MessageHeader.size
  | .payload h => h.payloadLength.toNat

/-- What a handler asks the machine and the Node: the clock, the local endpoint,
    and which resources are known. -/
structure Surroundings where
  time : UInt64
  localAddress : Fin 4 → UInt8
  localPort : UInt16
  transactionExists : Bytes → Bool
  blockExists : Bytes → Bool

/-- A node that knows no resource, at 0.0.0.0. -/
def offline : Surroundings where
  time := 0
  localAddress := fun _ => 0
  localPort := 0
  transactionExists := fun _ => false
  blockExists := fun _ => false

structure Connection where
  versionUsed : Int32
  currentStatus : Status
  bufferedMessages : List Message
  peerType : PeerType
  pendingReads : List PendingRead
  pendingWrites : List MessageType
  heap : Heap
  written : List Message
  handled : List MessageType
  served : List (PendingRead × Bytes)
  registrations : List PeerType

def Connection.new (heap : Heap) : Connection :=
  { versionUsed := Int32.ofNat VERSION, currentStatus := .Idle, bufferedMessages := [],
    peerType := .peer, pendingReads := [], pendingWrites := [], heap := heap, written := [],
    handled := [], served := [], registrations := [] }

def Connection.asyncRead (c : Connection) (read : PendingRead) : Connection :=
  { c with pendingReads := c.pendingReads ++ [read] }

def Connection.asyncWrite (c : Connection) (m : Message) : Connection :=
  { c with pendingWrites := c.pendingWrites ++ [m.getType], written := c.written ++ [m] }

/-- The types that are sent in any status. -/
def handshakeType (type : MessageType) : Bool := type = .whoami || type = .whoamiack

def Connection.sendMessage (c : Connection) (m : Message) : Connection :=
  if handshakeType m.getType || c.currentStatus = .Ack then c.asyncWrite m
  else { c with bufferedMessages := c.bufferedMessages ++ [m] }

def IP_bytes : IP := ⟨[0, 0, 0, 0, 0, 0, 0, 0, 0, 0, 0, 0, 109, 13, 67, 208], rfl⟩

def WhoAmI.new (nodeAddress : Address) : Message :=
  Message.new (.whoAmI (UInt32.ofNat VERSION) nodeAddress [ascii "node"])

def Connection.idle (c : Connection) : Connection :=
  let c := c.asyncRead .header
  -- the messages go out from the back, and none comes back in this status
  if c.currentStatus = .Ack then
    { c.bufferedMessages.reverse.foldl Connection.sendMessage c with bufferedMessages := [] }
  else c

def Connection.bind (env : Surroundings) (c : Connection) : Connection :=
  { c with currentStatus := .Initiated }.sendMessage
    (WhoAmI.new ⟨env.time, IP_bytes, env.localPort⟩)

def Connection.start (c : Connection) : Connection := c.idle

def Connection.register (c : Connection) : Connection :=
  { c with registrations := c.registrations ++ [c.peerType] }

def Connection.lowerVersion (c : Connection) (connectionVersion : Int32) : Connection :=
  if connectionVersion < c.versionUsed then { c with versionUsed := connectionVersion } else c

/-- Twelve bytes ff, then the local address. -/
def Surroundings.ip (env : Surroundings) : IP :=
  ⟨List.replicate 12 0xff ++ List.ofFn env.localAddress, by simp⟩

def Connection.updateStatus (env : Surroundings) (c : Connection) (connectionVersion : Int32)
    (peerType : PeerType) : Connection :=
  let c := if c.peerType = .peer then { c with peerType := peerType } else c
  match c.currentStatus with
  | .Idle =>
    let c := c.lowerVersion connectionVersion
    let c := c.sendMessage (WhoAmI.new ⟨env.time, env.ip, env.localPort⟩)
    let c := c.sendMessage (Message.new .whoAmIAck)
    { c with currentStatus := .WaitingAck }
  | .WaitingAck => ({ c with currentStatus := .Ack }.register).lowerVersion connectionVersion
  | .Initiated => { c with currentStatus := .Waiting }
  | .Waiting =>
    { (c.register.lowerVersion connectionVersion) with currentStatus := .Ack }.sendMessage
      (Message.new .whoAmIAck)
  | .Ack => c

/-- The members that onWhoAmI and onInv look at; other classes have none of them. -/
def Message.getVersion (m : Message) : UInt32 :=
  match m.contents with
  | .whoAmI version _ _ => version
  | _ => 0

def Message.getServices (m : Message) : List Bytes :=
  match m.contents with
  | .whoAmI _ _ services => services
  | _ => []

def Message.getData (m : Message) : List InvVect :=
  match m.contents with
  | .inv data => data
  | _ => []

def Connection.readMessage (c : Connection) (ofBuffer : Decoder Message) (payload : Bytes) :
    Except Fault (Message × Connection) := do
  let (m, st) ← ofBuffer.run ⟨⟨payload, false⟩, c.heap⟩
  return (m, { c with heap := st.heap })

theorem readMessage_reads {c d : Connection} {ofBuffer : Decoder Message} {payload : Bytes}
    {m : Message} (run : c.readMessage ofBuffer payload = .ok (m, d)) :
    ∃ st, ofBuffer.run ⟨⟨payload, false⟩, c.heap⟩ = .ok (m, st) ∧
      d = { c with heap := st.heap } := by
  obtain ⟨⟨read, st⟩, reading, done⟩ := bind_ok run
  cases done
  exact ⟨st, reading, rfl⟩

def onInv (env : Surroundings) (c : Connection) (payload : Bytes) : Except Fault Connection := do
  let (m, c) ← c.readMessage Inv.ofBuffer payload
  let unknown := (Message.getData m).filter fun res => match res.type with
    | .txRes => !env.transactionExists res.hash
    | .blockRes => !env.blockExists res.hash
    | .invalidRes => false
  return c.sendMessage (Message.new (.getData unknown))

/-- The last of the three services wins. -/
def peerTypeOf (services : List Bytes) : PeerType :=
  if services.contains (ascii "node") then .nodepeer
  else if services.contains (ascii "relay") then .relaypeer
  else if services.contains (ascii "wallet") then .walletpeer
  else .peer

def onWhoAmI (env : Surroundings) (c : Connection) (payload : Bytes) : Except Fault Connection := do
  let (m, c) ← c.readMessage WhoAmI.ofBuffer payload
  return c.updateStatus env (Message.getVersion m).toInt32 (peerTypeOf (Message.getServices m))

def onWhoAmIAck (env : Surroundings) (c : Connection) : Connection := c.updateStatus env 0 .peer

def messageHandler (env : Surroundings) (type : MessageType) (c : Connection) (payload : Bytes) :
    Except Fault Connection :=
  match type with
  | .whoami => onWhoAmI env c payload
  | .whoamiack => .ok (onWhoAmIAck env c)
  | .inv => onInv env c payload
  | _ => .ok c

def Connection.handleMessage (env : Surroundings) (c : Connection) (header : MessageHeader)
    (payload : Bytes) : Except Fault Connection := do
  let type := getTypeFromString header.type.value
  let c := { c with handled := c.handled ++ [type] }
  let c ← messageHandler env type c payload
  return c.idle

def Connection.handleHeader (env : Surroundings) (c : Connection) (stringData : Bytes) :
    Except Fault Connection := do
  let (header, st) ← MessageHeader.ofBuffer.run ⟨⟨stringData, false⟩, c.heap⟩
  let c := { c with heap := st.heap }
  if 0 < header.payloadLength then return c.asyncRead (.payload header)
  else c.handleMessage env header []

def Connection.handleWrite (c : Connection) : Connection := c.idle

inductive Event where
  | sendMessage (m : Message)
  | writeDone
  | readDone (data : Bytes)

def Connection.handleRead (env : Surroundings) (c : Connection) (data : Bytes) :
    PendingRead → Except Fault Connection
  | .header => c.handleHeader env data
  | .payload header => c.handleMessage env header data

/-- No step for a completion that nothing waits for, a read of the wrong length, or
    a handler that leaves the defined results. -/
def Connection.step (c : Connection) : Surroundings × Event → Option Connection
  | (_, .sendMessage m) => some (c.sendMessage m)
  | (_, .writeDone) =>
    match c.pendingWrites with
    | [] => none
    | _ :: writes => some { c with pendingWrites := writes }.handleWrite
  | (env, .readDone data) =>
    match c.pendingReads with
    | [] => none
    | first :: reads =>
      if data.length = first.size then
        ({ c with pendingReads := reads, served := c.served ++ [(first, data)] }.handleRead env data
          first).toOption
      else none

inductive Opening where
  | bound (env : Surroundings)
  | accepted

def Opening.connection (heap : Heap) : Opening → Connection
  | .bound env => (Connection.new heap).bind env
  | .accepted => (Connection.new heap).start

end EnsicoinConnection
