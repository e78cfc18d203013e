import Ensicoin.Script

/-!
Transactions. A transactionHash is 32 bytes by its type: it is what
Hash(networkBuffer) yields and what the hash of a Transaction is. An access
outputs[index] past the vector is a Fault. Of rapidjson the pretty writer is a
fixed function of the document.
-/
namespace EnsicoinTransaction
open EnsicoinRuntime EnsicoinNetworkBuffer EnsicoinNetworkable EnsicoinScript

def MAX_BLOCK_SIZE : Nat := 2 * 1024

inductive Json where
  | number (value : Int)
  | string (value : Bytes)
  | array (values : List Json)
  | object (members : List (String × Json))

structure Libraries extends Crypto where
  prettyWriter : Json → Bytes

structure TransactionIdentifier where
  transactionHash : Hash
  index : UInt32
  deriving DecidableEq, Repr

abbrev UTXO := TransactionIdentifier

def TransactionIdentifier.byteRepr (id : TransactionIdentifier) : Bytes :=
  id.transactionHash.value ++ VarUint.byteRepr id.index.toUInt64

-- the Var_uint is truncated to an unsigned int
def TransactionIdentifier.ofBuffer : Decoder TransactionIdentifier := do
  let transactionHash ← FixedStr.ofBuffer HASH_LENGTH
  let index ← readVarUint
  return ⟨transactionHash, index.toUInt32⟩

def TransactionIdentifier.json (id : TransactionIdentifier) : Json :=
  .object [("transactionHash", .string id.transactionHash.value), ("index", .number id.index.toNat)]

structure InputTransaction where
  previousOutput : TransactionIdentifier
  script : Script
  deriving DecidableEq, Repr

def InputTransaction.byteRepr (input : InputTransaction) : Bytes :=
  input.previousOutput.byteRepr ++ input.script.byteRepr

def InputTransaction.ofBuffer : Decoder InputTransaction := do
  let previousOutput ← TransactionIdentifier.ofBuffer
  let script ← Script.ofBuffer
  return ⟨previousOutput, script⟩

def InputTransaction.json (input : InputTransaction) : Json :=
  .object [("previousOutput", input.previousOutput.json),
    ("script", .string (ascii "flemme tu regarde les bytes"))]

structure OutputTransaction where
  value : UInt64
  script : Script
  deriving DecidableEq, Repr

def OutputTransaction.byteRepr (output : OutputTransaction) : Bytes :=
  Uint64.byteRepr output.value ++ output.script.byteRepr

def OutputTransaction.ofBuffer : Decoder OutputTransaction := do
  let value ← readUint64
  let script ← Script.ofBuffer
  return ⟨value, script⟩

def OutputTransaction.json (output : OutputTransaction) : Json :=
  .object [("value", .number output.value.toNat),
    ("script", .string (ascii "nique ton json lit les bytes"))]

structure Transaction where
  version : Int32
  transactionFlags : List Bytes
  inputs : List InputTransaction
  outputs : List OutputTransaction
  deriving DecidableEq, Repr

def Transaction.byteRepr (tx : Transaction) : Bytes :=
  Uint32.byteRepr tx.version.toUInt32 ++ VarArray.byteRepr VarStr.byteRepr tx.transactionFlags ++
    VarArray.byteRepr InputTransaction.byteRepr tx.inputs ++
    VarArray.byteRepr OutputTransaction.byteRepr tx.outputs

def Transaction.ofBuffer : Decoder Transaction := do
  let version ← readUint32
  let transactionFlags ← VarArray.ofBuffer VarStr.ofBuffer
  let inputs ← VarArray.ofBuffer InputTransaction.ofBuffer
  let outputs ← VarArray.ofBuffer OutputTransaction.ofBuffer
  return ⟨version.toInt32, transactionFlags, inputs, outputs⟩

def Transaction.hasOutput (tx : Transaction) (index : UInt32) : Bool :=
  index.toNat < tx.outputs.length

def Transaction.outputCount (tx : Transaction) : UInt32 := UInt32.ofNat tx.outputs.length

def Transaction.outputAt (tx : Transaction) (index : Nat) : Except Fault OutputTransaction :=
  match tx.outputs[index]? with
  | none => .error .pastVector
  | some output => .ok output

def Transaction.valueOfOutput (tx : Transaction) (index : UInt32) : Except Fault UInt32 := do
  let output ← tx.outputAt index.toNat
  return output.value.toUInt32

/-- The index is an int, which operator[] takes as a size_t. -/
def Transaction.getScriptOfOutput (tx : Transaction) (index : Int32) : Except Fault Script := do
  let output ← tx.outputAt index.toInt64.toUInt64.toNat
  return output.script

def Transaction.getInputsId (tx : Transaction) : List TransactionIdentifier :=
  tx.inputs.map InputTransaction.previousOutput

def Transaction.json (tx : Transaction) : Json :=
  .object [("version", .number tx.version.toInt),
    ("flags", .array (tx.transactionFlags.map .string)),
    ("inputs", .array (tx.inputs.map InputTransaction.json)),
    ("outputs", .array (tx.outputs.map OutputTransaction.json))]

def Transaction.str (lib : Libraries) (tx : Transaction) : Bytes := lib.prettyWriter tx.json

def Transaction.check (lib : Libraries) (tx : Transaction) : Bool :=
  if tx.inputs.isEmpty || tx.outputs.isEmpty then false
  else if MAX_BLOCK_SIZE < (tx.str lib).length then false
  else !tx.outputs.any (fun output => output.value ≤ 0)

/-- The result of std::accumulate is dropped, and sum keeps its first value. -/
def Transaction.outputValue (tx : Transaction) : UInt32 :=
  let sum : UInt32 := 0
  let _accumulated := tx.outputs.foldl (fun s op => s + op.value.toUInt32) sum
  sum

def Transaction.hash (crypto : Crypto) (tx : Transaction) : Hash :=
  crypto.sha256 (crypto.sha256 tx.byteRepr).value

/-- Not implemented in the source. -/
def Transaction.signingHash (_ : Transaction) : Bytes := []

end EnsicoinTransaction
