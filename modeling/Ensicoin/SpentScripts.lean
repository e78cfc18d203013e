import Ensicoin.SigningMessages
import Ensicoin.ValueConservation

/-!
Where validateScript takes the script of a spent output from. The two branches stand the
wrong way round: an input linked to the database is looked up in mainPool, where its
transaction was not when it was linked, and one linked to mainPool is read from the
database, which need not have it.
-/
namespace EnsicoinSpentScripts
open EnsicoinRuntime EnsicoinScript EnsicoinTransaction EnsicoinUtxo EnsicoinLinkedTransaction
open EnsicoinMempool EnsicoinOrphanPromotion EnsicoinSigningMessages

/-- The inputs in front of the one at the index have been validated, up to this memory. -/
def ComesTo (crypto : Crypto) (tx : LinkedTransaction) (pool : Mempool) (heap : Heap) (index : Nat)
    (mid : Heap) : Prop :=
  ∃ fuel after, (tx.validateInputs crypto fuel pool (tx.inputs.take index)).run heap =
    .ok ((true, after), mid)

/-- The code and the signing hash stored for an output, where the input was linked to. -/
def StoredFor (tx : LinkedTransaction) (pool : Mempool) (id : UTXO) (code : Code)
    (shash : Bytes) : Prop :=
  (id ∈ tx.mempoolDeps ∧ ∃ spent output, pool.mainPool id.transactionHash.value = some spent ∧
    spent.outputs[id.index.toNat]? = some output ∧ code = output.script.scriptInstructions ∧
    shash = spent.signingHash) ∨
  (id ∈ tx.dependencies ∧ ∃ data : UTXOdata, pool.utxos.db id.byteRepr = some data.byteRepr ∧
    code = data.script.scriptInstructions ∧ shash = data.signingHash)

/-- The script that is run for the input goes on with the stored code, under its hash. -/
def RunsOwn (tx : LinkedTransaction) (pool : Mempool) (input : InputTransaction)
    (mid : Heap) : Prop :=
  ∃ outScript fetched heap' code shash,
    (fetchSpent tx pool input.previousOutput).run mid = .ok ((outScript, fetched), heap') ∧
    StoredFor tx pool input.previousOutput code shash ∧
    (chained input outScript fetched).scriptInstructions =
      input.script.scriptInstructions ++ code ∧
    (chained input outScript fetched).signingHash = shash

def ChecksOwnOutputs (crypto : Crypto) (tx : LinkedTransaction) (pool : Mempool)
    (heap : Heap) : Prop :=
  ∀ index input mid, tx.inputs[index]? = some input → ComesTo crypto tx pool heap index mid →
    RunsOwn tx pool input mid

/-- The input is linked to mainPool, what the database answers to its id has the code of the
    output there, and the script of the input carries the signing hash itself. -/
def AnswersAlike (tx : LinkedTransaction) (pool : Mempool) (input : InputTransaction)
    (mid : Heap) : Prop :=
  input.previousOutput ∈ tx.mempoolDeps ∧ ∃ spent output data heap',
    pool.mainPool input.previousOutput.transactionHash.value = some spent ∧
    spent.outputs[input.previousOutput.index.toNat]? = some output ∧
    (pool.utxos.getData input.previousOutput).run mid = .ok (data, heap') ∧
    data.script.scriptInstructions = output.script.scriptInstructions ∧
    input.script.signingHash = spent.signingHash

theorem fetch_unlinked {tx : LinkedTransaction} {id : UTXO} (pool : Mempool)
    (away : id ∉ tx.dependencies) : fetchSpent tx pool id = (do
      let data ← pool.utxos.getData id
      pure (data.script, data.signingHash)) := by
  unfold fetchSpent
  simp [away]

/-- An input that was linked to the database raises std::out_of_range. -/
theorem fetch_linked {tx : LinkedTransaction} {pool : Mempool} {id : UTXO} (heap : Heap)
    (there : id ∈ tx.dependencies) (absent : pool.exists id.transactionHash.value = false) :
    (fetchSpent tx pool id).run heap = .error .outOfRange := by
  unfold fetchSpent
  simp only [List.contains_eq_mem, there, decide_true, Bool.not_true, Bool.false_eq_true,
    ↓reduceIte, script_not_found absent]
  rfl

theorem runs_own_iff (t : Transaction) (pool : Mempool) (input : InputTransaction) (mid : Heap) :
    RunsOwn (LinkedTransaction.new t pool) pool input mid ↔
      AnswersAlike (LinkedTransaction.new t pool) pool input mid := by
  obtain ⟨inPool, inDatabase⟩ := linked_members t pool input.previousOutput
  have apart : input.previousOutput ∈ (LinkedTransaction.new t pool).mempoolDeps →
      input.previousOutput ∉ (LinkedTransaction.new t pool).dependencies := by
    intro linked also
    have known := (inPool.mp linked).2
    rw [(inDatabase.mp also).2.1] at known
    cases known
  constructor
  · intro runs
    obtain ⟨outScript, fetched, heap', code, shash, run, stored, chain, hash⟩ := runs
    rcases stored with ⟨linked, spent, output, there, at_index, rfl, rfl⟩ | ⟨linked, _⟩
    · rw [fetch_unlinked pool (apart linked)] at run
      obtain ⟨data, _, read, same⟩ := run_bind_ok.mp run
      cases same
      exact ⟨linked, spent, output, data, heap', there, at_index, read,
        List.append_cancel_left chain, hash⟩
    · rw [fetch_linked mid linked (inDatabase.mp linked).2.1] at run
      cases run
  · intro alike
    obtain ⟨linked, spent, output, data, heap', there, at_index, read, code, hash⟩ := alike
    refine ⟨data.script, data.signingHash, heap', output.script.scriptInstructions,
      spent.signingHash, ?_, Or.inl ⟨linked, spent, output, there, at_index, rfl, rfl⟩, ?_, hash⟩
    · rw [fetch_unlinked pool (apart linked)]
      exact run_bind_ok.mpr ⟨data, heap', read, rfl⟩
    · exact congrArg (input.script.scriptInstructions ++ ·) code

theorem checks_own_outputs_iff (crypto : Crypto) (t : Transaction) (pool : Mempool) (heap : Heap) :
    ChecksOwnOutputs crypto (LinkedTransaction.new t pool) pool heap ↔
      ∀ index input mid, t.inputs[index]? = some input →
        ComesTo crypto (LinkedTransaction.new t pool) pool heap index mid →
        AnswersAlike (LinkedTransaction.new t pool) pool input mid := by
  have inputs : (LinkedTransaction.new t pool).inputs = t.inputs :=
    congrArg Transaction.inputs (linked_toTransaction t pool)
  unfold ChecksOwnOutputs
  simp only [inputs, runs_own_iff]

/-- The one input is linked to the database, and validateScript raises. -/
theorem database_output_not_found : parent.isOrphan = false ∧ ∀ fuel heap,
    (parent.validateScript prefixCrypto fuel (Mempool.new genesisUtxos 0)).run heap =
      .error .outOfRange ∧
    ¬ ChecksOwnOutputs prefixCrypto parent (Mempool.new genesisUtxos 0) heap := by
  have inputs : parent.inputs = [⟨genesisOutput, Script.empty⟩] := by decide
  have linked : genesisOutput ∈ parent.dependencies := by decide
  refine ⟨by decide, ?_⟩
  intro fuel heap
  have raises : (fetchSpent parent (Mempool.new genesisUtxos 0) genesisOutput).run heap =
      .error .outOfRange := fetch_linked heap linked rfl
  constructor
  · rw [LinkedTransaction.validateScript, inputs, validateInputs_cons, StateT.run_bind,
      StateT.run_bind, raises]
    rfl
  · intro checks
    obtain ⟨_, _, _, _, _, run, _⟩ := checks 0 ⟨genesisOutput, Script.empty⟩ heap
      (by rw [inputs]; rfl) ⟨fuel, [], rfl⟩
    cases raises.symm.trans run

end EnsicoinSpentScripts
