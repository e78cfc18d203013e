import Ensicoin.Utxo

/-!
Transactions linked to the outputs they spend, and the pool they are linked to.
The sets of a LinkedTransaction are lists without repetitions, in the order of
insertion. A HashMemory is a map from strings; at() on a missing key is the Fault
outOfRange. getInputsId() is called once for each end of a range; the two equal
vectors are taken as one.
-/
namespace EnsicoinLinkedTransaction
open EnsicoinRuntime EnsicoinNetworkable EnsicoinScript EnsicoinTransaction EnsicoinUtxo

structure LinkedTransaction extends Transaction where
  dependencies : List UTXO
  mempoolDeps : List UTXO
  deriving DecidableEq, Repr

abbrev HashMemory := Bytes → Option LinkedTransaction

structure Mempool where
  utxos : UTXOManager
  currentHeight : Int32
  mainPool : HashMemory
  orphans : HashMemory
  orphanUsingUTXO : Bytes → Option Bytes

def HashMemory.exists (memory : HashMemory) (elemHash : Bytes) : Bool := (memory elemHash).isSome

def HashMemory.get (memory : HashMemory) (elemHash : Bytes) : Except Fault LinkedTransaction :=
  match memory elemHash with
  | none => .error .outOfRange
  | some element => .ok element

def HashMemory.add (crypto : Crypto) (memory : HashMemory) (element : LinkedTransaction) :
    HashMemory :=
  if memory.exists (element.hash crypto).value then memory
  else Function.update memory (element.hash crypto).value (some element)

def HashMemory.erase (memory : HashMemory) (elemHash : Bytes) : HashMemory :=
  Function.update memory elemHash none

def Mempool.exists (pool : Mempool) (txHash : Bytes) : Bool := pool.mainPool.exists txHash

def Mempool.orphanExists (pool : Mempool) (txHash : Bytes) : Bool := pool.orphans.exists txHash

def Mempool.valueOfOutput (pool : Mempool) (id : TransactionIdentifier) : Except Fault Int32 := do
  let tx ← pool.mainPool.get id.transactionHash.value
  let value ← tx.valueOfOutput id.index
  return value.toInt32

def Mempool.signingHash (pool : Mempool) (txHash : Bytes) : Except Fault Bytes := do
  let tx ← pool.mainPool.get txHash
  return tx.signingHash

def Mempool.scriptOfOutput (pool : Mempool) (id : TransactionIdentifier) : Except Fault Script := do
  let tx ← pool.mainPool.get id.transactionHash.value
  tx.getScriptOfOutput id.index.toInt32

def LinkedTransaction.link (pool : Mempool) (tx : LinkedTransaction) (inputReference : UTXO) :
    LinkedTransaction :=
  if pool.exists inputReference.transactionHash.value then
    { tx with mempoolDeps := tx.mempoolDeps.insert inputReference }
  else if pool.utxos.exists inputReference then
    { tx with dependencies := tx.dependencies.insert inputReference }
  else tx

def LinkedTransaction.new (tx : Transaction) (pool : Mempool) : LinkedTransaction :=
  tx.getInputsId.foldl (LinkedTransaction.link pool)
    { tx with dependencies := [], mempoolDeps := [] }

def LinkedTransaction.isOrphan (tx : LinkedTransaction) : Bool :=
  tx.dependencies.length + tx.mempoolDeps.length != tx.inputs.length

def LinkedTransaction.getOrphanDeps (tx : LinkedTransaction) : List UTXO :=
  tx.getInputsId.filter fun id => !tx.dependencies.contains id && !tx.mempoolDeps.contains id

/-- As in outputValue, both results of std::accumulate are dropped. The first fold adds
    64-bit values, which wrap around, and the second one ints, which must not. -/
def LinkedTransaction.inputValue (tx : LinkedTransaction) (pool : Mempool) : Memory UInt32 := do
  if tx.isOrphan then return 0
  let sum : UInt32 := 0
  let _accumulated ← tx.dependencies.foldlM (fun s utxo => do
    let data ← pool.utxos.getData utxo
    return s + data.value.toUInt32) sum
  let _accumulated ← tx.mempoolDeps.foldlM (fun s utxo => do
    let value ← (pool.valueOfOutput utxo : Memory Int32)
    let added ← (addInts s.toInt32 value : Memory Int32)
    return added.toUInt32) sum
  return sum

/-- The loop of validateScript, which runs the scripts of the inputs in place. -/
def LinkedTransaction.validateInputs (crypto : Crypto) (fuel : Nat) (tx : LinkedTransaction)
    (pool : Mempool) : List InputTransaction → Memory (Bool × List InputTransaction)
  | [] => return (true, [])
  | input :: rest => do
    let id := input.previousOutput
    let (outScript, shash) ← if !tx.dependencies.contains id then do
        let data ← pool.utxos.getData id
        pure (data.script, data.signingHash)
      else do
        let outScript ← (pool.scriptOfOutput id : Memory Script)
        let shash ← (pool.signingHash id.transactionHash.value : Memory Bytes)
        pure (outScript, shash)
    let outScript := outScript.setSHash shash
    let (script, valid) ← ((input.script.chain outScript).runLoop crypto fuel : Memory _)
    let input := { input with script := script }
    if !valid then return (false, input :: rest)
    let (valid, rest) ← tx.validateInputs crypto fuel pool rest
    return (valid, input :: rest)

def LinkedTransaction.validateScript (crypto : Crypto) (fuel : Nat) (tx : LinkedTransaction)
    (pool : Mempool) : Memory (Bool × LinkedTransaction) := do
  let (valid, inputs) ← tx.validateInputs crypto fuel pool tx.inputs
  return (valid, { tx with inputs := inputs })

def LinkedTransaction.validate (lib : Libraries) (fuel : Nat) (tx : LinkedTransaction)
    (pool : Mempool) (currentHeight : Int32) : Memory (Bool × LinkedTransaction) := do
  if !tx.check lib then return (false, tx)
  if tx.isOrphan then return (false, tx)
  if pool.exists (tx.hash lib.toCrypto).value then return (false, tx)
  let inputValue ← tx.inputValue pool
  if inputValue ≤ tx.outputValue then return (false, tx)
  if ← tx.getInputsId.anyM (fun id => do
      let spendable ← pool.utxos.isSpendable id currentHeight
      return !spendable) then return (false, tx)
  let (valid, tx) ← tx.validateScript lib.toCrypto fuel pool
  if !valid then return (false, tx)
  return (true, tx)

theorem HashMemory.add_absent (crypto : Crypto) (memory : HashMemory) (element : LinkedTransaction)
    (absent : memory (element.hash crypto).value = none) :
    memory.add crypto element =
      Function.update memory (element.hash crypto).value (some element) := by
  simp [HashMemory.add, HashMemory.exists, absent]

theorem absent_mainPool {pool : Mempool} {txHash : Bytes} (absent : pool.exists txHash = false) :
    pool.mainPool txHash = none := by
  simpa [Mempool.exists, HashMemory.exists] using absent

/-- Behind a hash that is not in mainPool, no output is looked at. -/
theorem script_not_found {pool : Mempool} {id : UTXO}
    (absent : pool.exists id.transactionHash.value = false) :
    pool.scriptOfOutput id = .error .outOfRange := by
  simp only [Mempool.scriptOfOutput, HashMemory.get, absent_mainPool absent, bind, Except.bind]

end EnsicoinLinkedTransaction
