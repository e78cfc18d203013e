import Ensicoin.Blocks

/-!
The messages of the protocol: their types, payloads and frames. A Message is the
type its constructor gives the base class and the contents of its class.
-/
namespace EnsicoinMessages
open EnsicoinRuntime EnsicoinNetworkBuffer EnsicoinNetworkable EnsicoinTransaction EnsicoinBlocks

def VERSION : Nat := 0
def MAGIC : Nat := 422021

inductive MessageType where
  | whoami
  | whoamiack
  | getaddr
  | addr
  | inv
  | getdata
  | notfound
  | block
  | tx
  | getblocks
  | getmempool
  | unknown
  deriving DecidableEq, Repr

def getTypeAsString : MessageType → Bytes
  | .whoami => ascii "whoami"
  | .whoamiack => ascii "whoamiack"
  | .getaddr => ascii "getaddr"
  | .addr => ascii "addr"
  | .inv => ascii "inv"
  | .getdata => ascii "getdata"
  | .notfound => ascii "notfound"
  | .block => ascii "block"
  | .tx => ascii "tx"
  | .getblocks => ascii "getblocks"
  | .getmempool => ascii "getmempool"
  | .unknown => ascii "unknown"

/-- typeStr.find(name) != npos: the name occurs anywhere in the string. -/
def occursIn (name typeStr : Bytes) : Bool := typeStr.tails.any fun tail => name.isPrefixOf tail

def getTypeFromString (typeStr : Bytes) : MessageType :=
  if occursIn (ascii "whoamiack") typeStr then .whoamiack
  else if occursIn (ascii "whoami") typeStr then .whoami
  else if occursIn (ascii "getaddr") typeStr then .getaddr
  else if occursIn (ascii "addr") typeStr then .addr
  else if occursIn (ascii "inv") typeStr then .inv
  else if occursIn (ascii "getblocks") typeStr then .getblocks
  else if occursIn (ascii "getmempool") typeStr then .getmempool
  else if occursIn (ascii "getdata") typeStr then .getdata
  else if occursIn (ascii "notfound") typeStr then .notfound
  else if occursIn (ascii "block") typeStr then .block
  else if occursIn (ascii "tx") typeStr then .tx
  else .unknown

inductive Contents where
  | whoAmI (version : UInt32) (address : Address) (services : List Bytes)
  | whoAmIAck
  | addr (addresses : List Address)
  | getAddr
  | getData (data : List InvVect)
  | inv (data : List InvVect)
  | notFound (data : List InvVect)
  | blockMessage (blockRef : Block)
  | transactionMessage (transaction : Transaction)
  | getBlocks (blockHashes : List Hash) (stopHash : Hash)
  | getMempool
  deriving DecidableEq, Repr

structure Message where
  type : MessageType
  contents : Contents
  deriving DecidableEq, Repr

def Contents.payload : Contents → Bytes
  | .whoAmI version address services =>
    Uint32.byteRepr version ++ address.byteRepr ++ VarArray.byteRepr VarStr.byteRepr services
  | .whoAmIAck => []
  | .addr addresses => VarArray.byteRepr Address.byteRepr addresses
  | .getAddr => []
  | .getData data => VarArray.byteRepr InvVect.byteRepr data
  | .inv data => VarArray.byteRepr InvVect.byteRepr data
  | .notFound data => VarArray.byteRepr InvVect.byteRepr data
  | .blockMessage blockRef => blockRef.byteRepr
  | .transactionMessage transaction => transaction.byteRepr
  | .getBlocks blockHashes stopHash =>
    VarArray.byteRepr FixedStr.value blockHashes ++ stopHash.value
  | .getMempool => []

def Contents.messageType : Contents → MessageType
  | .whoAmI _ _ _ => .whoami
  | .whoAmIAck => .whoamiack
  | .addr _ => .addr
  | .getAddr => .getaddr
  | .getData _ => .getdata
  | .inv _ => .inv
  | .notFound _ => .notfound
  | .blockMessage _ => .block
  | .transactionMessage _ => .tx
  | .getBlocks _ _ => .getblocks
  | .getMempool => .getmempool

def Message.new (contents : Contents) : Message := ⟨contents.messageType, contents⟩

/-- strType padded with zeros to 12 chars, which every type string fits in. -/
def paddedType (type : MessageType) : FixedStr 12 :=
  ⟨getTypeAsString type ++ List.replicate (12 - (getTypeAsString type).length) 0, by
    cases type <;> rfl⟩

def Message.byteRepr (m : Message) : Bytes :=
  MessageHeader.byteRepr
    ⟨UInt32.ofNat MAGIC, paddedType m.type, sizeT m.contents.payload.length⟩ ++ m.contents.payload

def Message.getType (m : Message) : MessageType := m.type

def WhoAmI.ofBuffer : Decoder Message := do
  let version ← readUint32
  let address ← Address.ofBuffer
  let services ← VarArray.ofBuffer VarStr.ofBuffer
  return ⟨.whoami, .whoAmI version address services⟩

def Addr.ofBuffer : Decoder Message := do
  let addresses ← VarArray.ofBuffer Address.ofBuffer
  return ⟨.addr, .addr addresses⟩

def GetData.ofBuffer : Decoder Message := do
  let data ← VarArray.ofBuffer InvVect.ofBuffer
  return ⟨.getdata, .getData data⟩

def Inv.ofBuffer : Decoder Message := do
  let data ← VarArray.ofBuffer InvVect.ofBuffer
  return ⟨.inv, .inv data⟩

def NotFound.ofBuffer : Decoder Message := do
  let data ← VarArray.ofBuffer InvVect.ofBuffer
  return ⟨.notfound, .notFound data⟩

def BlockMessage.ofBuffer : Decoder Message := do
  let blockRef ← Block.ofBuffer
  return ⟨.block, .blockMessage blockRef⟩

-- the base class is given block, not tx
def TransactionMessage.ofBuffer : Decoder Message := do
  let transaction ← Transaction.ofBuffer
  return ⟨.block, .transactionMessage transaction⟩

def GetBlocks.ofBuffer : Decoder Message := do
  let blockHashes ← VarArray.ofBuffer (FixedStr.ofBuffer HASH_LENGTH)
  let stopHash ← FixedStr.ofBuffer HASH_LENGTH
  return ⟨.getblocks, .getBlocks blockHashes stopHash⟩

theorem padded_found (type : MessageType) : getTypeFromString (paddedType type).value = type := by
  cases type <;> decide

end EnsicoinMessages
