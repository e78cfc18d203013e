import Ensicoin.Transaction

/-!
Block targets, headers and blocks. A target is read from its compressed form and
always written as 0; the shift amount is computed in 32 bits.
-/
namespace EnsicoinBlocks
open EnsicoinRuntime EnsicoinNetworkBuffer EnsicoinNetworkable EnsicoinScript EnsicoinTransaction

/-- value is a CryptoPP::Integer, never negative here. -/
structure BlockTarget where
  value : Nat
  deriving DecidableEq, Repr

def BlockTarget.getValue (_ : BlockTarget) : UInt32 := 0

def BlockTarget.byteRepr (target : BlockTarget) : Bytes := Uint32.byteRepr target.getValue

def BlockTarget.ofBuffer : Decoder BlockTarget := do
  let compressed ← readUint32
  let amount := (8 : UInt32) * ((compressed >>> (24 : UInt32)) - 3)
  return ⟨(compressed &&& 0xffffff).toNat <<< amount.toNat⟩

structure BlockHeader where
  version : Int32
  blockFlags : List Bytes
  hashPrevBlock : Hash
  merkleRoot : Hash
  timestamp : Int64
  height : UInt32
  target : BlockTarget
  nonce : UInt64
  deriving DecidableEq, Repr

def BlockHeader.byteRepr (h : BlockHeader) : Bytes :=
  Uint32.byteRepr h.version.toUInt32 ++ VarArray.byteRepr VarStr.byteRepr h.blockFlags ++
    h.hashPrevBlock.value ++ h.merkleRoot.value ++ Uint64.byteRepr h.timestamp.toUInt64 ++
    Uint32.byteRepr h.height ++ h.target.byteRepr ++ Uint64.byteRepr h.nonce

def BlockHeader.ofBuffer : Decoder BlockHeader := do
  let version ← readUint32
  let blockFlags ← VarArray.ofBuffer VarStr.ofBuffer
  let hashPrevBlock ← FixedStr.ofBuffer HASH_LENGTH
  let merkleRoot ← FixedStr.ofBuffer HASH_LENGTH
  let timestamp ← readUint64
  let height ← readUint32
  let target ← BlockTarget.ofBuffer
  let nonce ← readUint64
  return ⟨version.toInt32, blockFlags, hashPrevBlock, merkleRoot, timestamp.toInt64, height,
    target, nonce⟩

structure Block where
  header : BlockHeader
  transactions : List Transaction
  deriving DecidableEq, Repr

def Block.byteRepr (b : Block) : Bytes :=
  b.header.byteRepr ++ VarArray.byteRepr Transaction.byteRepr b.transactions

def Block.ofBuffer : Decoder Block := do
  let header ← BlockHeader.ofBuffer
  let transactions ← VarArray.ofBuffer Transaction.ofBuffer
  return ⟨header, transactions⟩

def Block.hash (crypto : Crypto) (b : Block) : Hash :=
  crypto.sha256 (crypto.sha256 b.header.byteRepr).value

end EnsicoinBlocks
