import Ensicoin.OrphanPromotion
import Ensicoin.ScriptRuns

/-!
The messages that OP_CHECKSIG passes to verify. validateScript sets the signing hash
it fetched on the script of the output, and chain takes over the instructions of that
script alone, so the message is the one the input came with, in every transaction.
-/
namespace EnsicoinSigningMessages
open EnsicoinRuntime EnsicoinScript EnsicoinScriptRuns EnsicoinTransaction EnsicoinUtxo
open EnsicoinLinkedTransaction EnsicoinMempool EnsicoinOrphanPromotion StepRuns

/-- The first lines of the loop of validateScript. -/
def fetchSpent (tx : LinkedTransaction) (pool : Mempool) (id : UTXO) : Memory (Script × Bytes) :=
  if !tx.dependencies.contains id then do
    let data ← pool.utxos.getData id
    pure (data.script, data.signingHash)
  else do
    let outScript ← (pool.scriptOfOutput id : Memory Script)
    let shash ← (pool.signingHash id.transactionHash.value : Memory Bytes)
    pure (outScript, shash)

def chained (input : InputTransaction) (outScript : Script) (shash : Bytes) : Script :=
  input.script.chain (outScript.setSHash shash)

/-- validateScript comes to run this script for the input at an index. -/
def Runs (crypto : Crypto) (tx : LinkedTransaction) (pool : Mempool) :
    List InputTransaction → Heap → Nat → Script → Prop
  | [], _, _, _ => False
  | input :: _, heap, 0, s => ∃ outScript shash heap',
    (fetchSpent tx pool input.previousOutput).run heap = .ok ((outScript, shash), heap') ∧
      s = chained input outScript shash
  | input :: rest, heap, index + 1, s => ∃ outScript shash heap' fuel final,
    (fetchSpent tx pool input.previousOutput).run heap = .ok ((outScript, shash), heap') ∧
      (chained input outScript shash).runLoop crypto fuel = .ok (final, true) ∧
      Runs crypto tx pool rest heap' index s

theorem validateInputs_cons (crypto : Crypto) (fuel : Nat) (tx : LinkedTransaction)
    (pool : Mempool) (input : InputTransaction) (rest : List InputTransaction) :
    tx.validateInputs crypto fuel pool (input :: rest) = (do
      let (outScript, shash) ← fetchSpent tx pool input.previousOutput
      let (script, valid) ← ((chained input outScript shash).runLoop crypto fuel : Memory _)
      let input := { input with script := script }
      if !valid then return (false, input :: rest)
      let (valid, rest) ← tx.validateInputs crypto fuel pool rest
      return (valid, input :: rest)) := by
  rw [LinkedTransaction.validateInputs]
  unfold fetchSpent
  split <;> simp only [bind_assoc, pure_bind] <;> rfl

theorem runs_input {crypto : Crypto} {tx : LinkedTransaction} {pool : Mempool}
    {inputs : List InputTransaction} {heap : Heap} {index : Nat} {s : Script}
    (runs : Runs crypto tx pool inputs heap index s) :
    ∃ input outScript shash, inputs[index]? = some input ∧
      s = chained input outScript shash := by
  induction inputs generalizing heap index with
  | nil => cases runs
  | cons input rest ih =>
    cases index with
    | zero =>
      obtain ⟨outScript, shash, _, _, same⟩ := runs
      exact ⟨input, outScript, shash, rfl, same⟩
    | succ index =>
      obtain ⟨_, _, _, _, _, _, _, later⟩ := runs
      exact ih later

/-- One input of a transaction that validateScript is called on. -/
structure Validation where
  tx : LinkedTransaction
  pool : Mempool
  heap : Heap
  index : Nat
  input : InputTransaction
  found : tx.inputs[index]? = some input

/-- OP_CHECKSIG is next, with a key and a signature to take. -/
def Checking (s : Script) : Prop :=
  ∃ instr, s.scriptInstructions[s.codePointer]? = some instr ∧ instr.operation = .OP_CHECKSIG ∧
    2 ≤ s.data.length

def Checks (crypto : Crypto) (v : Validation) : Prop :=
  ∃ s t, Runs crypto v.tx v.pool v.tx.inputs v.heap v.index s ∧
    Reaches (loopStep crypto) s t ∧ Checking t

def Passes (crypto : Crypto) (v : Validation) (message : Bytes) : Prop :=
  ∃ s t, Runs crypto v.tx v.pool v.tx.inputs v.heap v.index s ∧
    Reaches (loopStep crypto) s t ∧ Checking t ∧ t.signingHash = message

/-- No message is passed in both validations. -/
def Apart (crypto : Crypto) (v w : Validation) : Prop :=
  ∀ m n, Passes crypto v m → Passes crypto w n → m ≠ n

theorem reaches_signingHash {crypto : Crypto} {s t : Script}
    (run : Reaches (loopStep crypto) s t) : t.signingHash = s.signingHash := by
  refine reaches_invariant (fun u => u.signingHash = s.signingHash) ?_ run rfl
  intro u v same go
  rcases loopStep_cases go with ⟨_, still⟩ | ⟨_, _, _, shash, _⟩
  · rw [still, same]
  · rw [shash, same]

/-- The message is the one the input script carries, whatever was fetched. -/
theorem passed_message {crypto : Crypto} {v : Validation} {message : Bytes}
    (passes : Passes crypto v message) : message = v.input.script.signingHash := by
  obtain ⟨s, t, runs, run, _, rfl⟩ := passes
  obtain ⟨input, outScript, shash, found, rfl⟩ := runs_input runs
  obtain rfl : input = v.input := Option.some.inj (found.symm.trans v.found)
  exact (reaches_signingHash run).trans rfl

theorem checks_iff_passes (crypto : Crypto) (v : Validation) :
    Checks crypto v ↔ Passes crypto v v.input.script.signingHash := by
  constructor
  · intro checks
    obtain ⟨s, t, runs, run, checking⟩ := checks
    have passes : Passes crypto v t.signingHash := ⟨s, t, runs, run, checking, rfl⟩
    rw [← passed_message passes]
    exact passes
  · intro passes
    obtain ⟨s, t, runs, run, checking, _⟩ := passes
    exact ⟨s, t, runs, run, checking⟩

/-- Its output asks for a signature. -/
def checkedParent : Transaction :=
  { spending 1 [genesisOutput] with outputs := [⟨5, Script.new [⟨.OP_CHECKSIG, 0⟩] []⟩] }

def checkedOutput : UTXO := ⟨checkedParent.hash prefixCrypto, 0⟩

/-- A stand-in for the signature and the key in front of OP_CHECKSIG. -/
def twoItems : Script := Script.new [⟨.OP_TRUE, 0⟩, ⟨.OP_TRUE, 0⟩] []

def claimant (script : Script) (outputs : List OutputTransaction) : Transaction :=
  ⟨1, [], [⟨checkedOutput, script⟩], outputs⟩

def checkedUtxos : UTXOManager := UTXOManager.empty.add checkedOutput
  (UTXOdata.new 5 false 0 [] false (Script.new [⟨.OP_CHECKSIG, 0⟩] []))

def checkedLink (tx : Transaction) : LinkedTransaction :=
  LinkedTransaction.new tx (Mempool.new checkedUtxos 0)

def checkedPool : Mempool where
  utxos := checkedUtxos
  currentHeight := 0
  mainPool := HashMemory.add prefixCrypto (fun _ => none) (checkedLink checkedParent)
  orphans := fun _ => none
  orphanUsingUTXO := fun _ => none

/-- The output was in the database when its spender was linked, and its transaction is
    in the pool when the scripts are run. -/
def claim (script : Script) (outputs : List OutputTransaction) : Validation where
  tx := checkedLink (claimant script outputs)
  pool := checkedPool
  heap := constantHeap 0
  index := 0
  input := ⟨checkedOutput, script⟩
  found := by
    rw [checkedLink, linked_toTransaction]
    rfl

theorem checkedLink_toTransaction (tx : Transaction) : (checkedLink tx).toTransaction = tx :=
  linked_toTransaction tx _

theorem checkedLink_dependencies (script : Script) (outputs : List OutputTransaction) :
    (checkedLink (claimant script outputs)).dependencies = [checkedOutput] := by
  have there : checkedUtxos.exists checkedOutput = true := by
    simp [checkedUtxos, UTXOManager.exists, UTXOManager.add]
  have away : (Mempool.new checkedUtxos 0).exists checkedOutput.transactionHash.value = false := rfl
  have database : (Mempool.new checkedUtxos 0).utxos = checkedUtxos := rfl
  simp [checkedLink, LinkedTransaction.new, claimant, Transaction.getInputsId,
    LinkedTransaction.link, away, database, there]

theorem checkedPool_parent : checkedPool.mainPool checkedOutput.transactionHash.value =
    some (checkedLink checkedParent) := by
  have key : (checkedLink checkedParent).hash prefixCrypto = checkedOutput.transactionHash :=
    congrArg (Transaction.hash prefixCrypto) (checkedLink_toTransaction checkedParent)
  have pool : checkedPool.mainPool = Function.update (fun _ => none)
      ((checkedLink checkedParent).hash prefixCrypto).value (some (checkedLink checkedParent)) :=
    HashMemory.add_absent prefixCrypto (fun _ => none) (checkedLink checkedParent) rfl
  rw [pool, key, Function.update_self]

theorem claim_fetches (script : Script) (outputs : List OutputTransaction) (heap : Heap) :
    (fetchSpent (checkedLink (claimant script outputs)) checkedPool checkedOutput).run heap =
      .ok ((Script.new [⟨.OP_CHECKSIG, 0⟩] [], []), heap) := by
  have parent : checkedPool.mainPool.get checkedOutput.transactionHash.value =
      .ok (checkedLink checkedParent) := by simp only [HashMemory.get, checkedPool_parent]
  have script : checkedPool.scriptOfOutput checkedOutput =
      .ok (Script.new [⟨.OP_CHECKSIG, 0⟩] []) := by
    simp only [Mempool.scriptOfOutput, parent, bind, Except.bind, checkedLink_toTransaction]
    rfl
  have shash : checkedPool.signingHash checkedOutput.transactionHash.value = .ok [] := by
    simp only [Mempool.signingHash, parent, bind, Except.bind]
    rfl
  simp only [fetchSpent, checkedLink_dependencies, script, shash]
  rfl

theorem claim_runs_iff (script : Script) (outputs : List OutputTransaction) (s : Script) :
    Runs prefixCrypto (claim script outputs).tx checkedPool (claim script outputs).tx.inputs
      (constantHeap 0) 0 s ↔
      s = chained ⟨checkedOutput, script⟩ (Script.new [⟨.OP_CHECKSIG, 0⟩] []) [] := by
  have inputs : (claim script outputs).tx.inputs = [⟨checkedOutput, script⟩] :=
    congrArg Transaction.inputs (checkedLink_toTransaction (claimant script outputs))
  have fetches := claim_fetches script outputs (constantHeap 0)
  rw [inputs]
  constructor
  · intro runs
    obtain ⟨outScript, shash, heap', fetched, same⟩ := runs
    cases fetches.symm.trans fetched
    exact same
  · intro same
    exact ⟨_, _, _, fetches, same⟩

theorem claim_checks (outputs : List OutputTransaction) :
    Checks prefixCrypto (claim twoItems outputs) := by
  have first : loopStep prefixCrypto (chained ⟨checkedOutput, twoItems⟩
      (Script.new [⟨.OP_CHECKSIG, 0⟩] []) []) = some _ := rfl
  refine ⟨_, _, (claim_runs_iff twoItems outputs _).mpr rfl,
    Relation.ReflTransGen.tail (Relation.ReflTransGen.single first)
      (show loopStep prefixCrypto _ = some _ from rfl), _, rfl, rfl, by decide⟩

/-- Without the two items OP_CHECKSIG has no defined result. -/
theorem claim_unchecked (outputs : List OutputTransaction) :
    ¬ Checks prefixCrypto (claim Script.empty outputs) := by
  intro checks
  obtain ⟨s, t, runs, run, checking⟩ := checks
  obtain rfl := (claim_runs_iff Script.empty outputs s).mp runs
  have stuck : loopStep prefixCrypto (chained ⟨checkedOutput, Script.empty⟩
      (Script.new [⟨.OP_CHECKSIG, 0⟩] []) []) = none := rfl
  rcases Relation.ReflTransGen.cases_head run with rfl | ⟨u, first, _⟩
  · obtain ⟨_, _, _, two⟩ := checking
    revert two
    decide
  · cases stuck.symm.trans first

theorem messages_apart_iff (crypto : Crypto) {v w : Validation} (same : v.input = w.input) :
    Apart crypto v w ↔ ¬ (Checks crypto v ∧ Checks crypto w) := by
  constructor
  · intro apart both
    obtain ⟨first, second⟩ := both
    refine apart _ _ ((checks_iff_passes crypto v).mp first)
      ((checks_iff_passes crypto w).mp second) ?_
    rw [same]
  · intro once m n first second _
    rw [passed_message first] at first
    rw [passed_message second] at second
    exact once ⟨(checks_iff_passes crypto v).mpr first, (checks_iff_passes crypto w).mpr second⟩

theorem missing_items_apart :
    Apart prefixCrypto (claim Script.empty []) (claim Script.empty [⟨5, Script.empty⟩]) :=
  (messages_apart_iff prefixCrypto rfl).mpr fun both => claim_unchecked [] both.1

/-- The two claimants pay different outputs, and verify is passed the empty message for both. -/
theorem outputs_not_signed : (claim twoItems []).tx.outputs ≠
      (claim twoItems [⟨5, Script.empty⟩]).tx.outputs ∧
    (claim twoItems []).input = (claim twoItems [⟨5, Script.empty⟩]).input ∧
    ¬ Apart prefixCrypto (claim twoItems []) (claim twoItems [⟨5, Script.empty⟩]) := by
  refine ⟨?_, rfl, ?_⟩
  · simp only [claim, checkedLink_toTransaction]
    decide
  · intro apart
    exact apart _ _ ((checks_iff_passes _ _).mp (claim_checks []))
      ((checks_iff_passes _ _).mp (claim_checks _)) rfl

end EnsicoinSigningMessages
