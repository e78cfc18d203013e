import Ensicoin.OrphanStatus

/-!
The outputs that linked inputs name. The constructor looks an input up in mainPool by its
hash alone, so whether the output exists is left to the index in the input.
-/
namespace EnsicoinLinkedOutputs
open EnsicoinRuntime EnsicoinNetworkable EnsicoinScript EnsicoinTransaction EnsicoinUtxo
open EnsicoinLinkedTransaction EnsicoinMempool EnsicoinOrphanPromotion EnsicoinValueConservation
open EnsicoinOrphanStatus

structure NamesOutputs (tx : Transaction) (pool : Mempool) : Prop where
  named : ∀ id ∈ tx.getInputsId, pool.utxos.exists id = true ∨
    ∃ spent, pool.mainPool id.transactionHash.value = some spent ∧ id.index < spent.outputCount
  /-- The accesses of inputValue, which passes the ids in mempoolDeps to valueOfOutput. -/
  values : ∀ id ∈ (LinkedTransaction.new tx pool).mempoolDeps,
    pool.valueOfOutput id ≠ .error .pastVector
  /-- Those of validateScript, which passes the ids in dependencies to scriptOfOutput. -/
  scripts : ∀ id ∈ (LinkedTransaction.new tx pool).dependencies,
    pool.scriptOfOutput id ≠ .error .pastVector

/-- Where the hash names a transaction in mainPool, that one has an output at the index. -/
def InRange (pool : Mempool) (id : UTXO) : Prop :=
  ∀ spent, pool.mainPool id.transactionHash.value = some spent →
    id.index < spent.outputCount ∨ spent.hasOutput id.index = true ∧ pool.utxos.exists id = true

theorem counted_has {tx : Transaction} {index : UInt32} (below : index < tx.outputCount) :
    tx.hasOutput index = true := by
  have bound := UInt32.lt_iff_toNat_lt.mp below
  rw [Transaction.outputCount, UInt32.toNat_ofNat'] at bound
  have wrapped := Nat.mod_le tx.outputs.length (2 ^ 32)
  rw [Transaction.hasOutput, decide_eq_true_iff]
  omega

theorem value_in_range_iff {pool : Mempool} {id : UTXO} {spent : LinkedTransaction}
    (there : pool.mainPool id.transactionHash.value = some spent) :
    pool.valueOfOutput id ≠ .error .pastVector ↔ spent.hasOutput id.index = true := by
  rw [Transaction.hasOutput, decide_eq_true_iff]
  simp only [Mempool.valueOfOutput, HashMemory.get, there, Transaction.valueOfOutput,
    Transaction.outputAt, bind, Except.bind]
  by_cases enough : id.index.toNat < spent.outputs.length
  · simp [enough, pure, Except.pure]
  · simp [enough]

theorem found_iff {pool : Mempool} {id : UTXO} : pool.exists id.transactionHash.value = true ↔
    ∃ spent, pool.mainPool id.transactionHash.value = some spent := by
  rw [Mempool.exists, HashMemory.exists, Option.isSome_iff_exists]

theorem names_outputs_iff {tx : Transaction} {pool : Mempool}
    (linked : (LinkedTransaction.new tx pool).isOrphan = false) :
    NamesOutputs tx pool ↔ ∀ id ∈ tx.getInputsId, InRange pool id := by
  constructor
  · intro names id member spent there
    have inPool := (linked_members tx pool id).1.mpr ⟨member, found_iff.mpr ⟨spent, there⟩⟩
    have has := (value_in_range_iff there).mp (names.values id inPool)
    rcases names.named id member with entry | ⟨other, also, below⟩
    · exact Or.inr ⟨has, entry⟩
    · rw [there] at also
      cases also
      exact Or.inl below
  · intro inRange
    refine ⟨?_, ?_, ?_⟩
    · intro id member
      cases found : pool.exists id.transactionHash.value with
      | false =>
        have known := ((linked_whole_iff tx pool).mp linked).2 id member
        rw [missing, found] at known
        exact Or.inl (by simpa using known)
      | true =>
        obtain ⟨spent, there⟩ := found_iff.mp found
        rcases inRange id member spent there with below | ⟨_, entry⟩
        · exact Or.inr ⟨spent, there, below⟩
        · exact Or.inl entry
    · intro id inPool
      obtain ⟨member, found⟩ := (linked_members tx pool id).1.mp inPool
      obtain ⟨spent, there⟩ := found_iff.mp found
      rw [value_in_range_iff there]
      rcases inRange id member spent there with below | ⟨has, _⟩
      · exact counted_has below
      · exact has
    · intro id inDatabase
      rw [script_not_found ((linked_members tx pool id).2.mp inDatabase).2.1]
      exact fun same => by cases same

theorem parent_in_pool (index : UInt32) : poolOfParent.mainPool
    (⟨(outputOf 1 [genesisOutput]).transactionHash, index⟩ : UTXO).transactionHash.value =
      some parent := by
  simp [poolOfParent]

theorem first_output_named :
    NamesOutputs (spending 2 [outputOf 1 [genesisOutput]]) poolOfParent := by
  refine (names_outputs_iff (by decide)).mpr ?_
  intro id member spent there
  have only : id = outputOf 1 [genesisOutput] := List.mem_singleton.mp member
  rw [only] at there ⊢
  cases (parent_in_pool 0).symm.trans there
  exact Or.inl (by decide)

/-- The parent in mainPool has one output, and the input names its eighth. -/
theorem eighth_output_linked :
    let id : UTXO := ⟨(outputOf 1 [genesisOutput]).transactionHash, 7⟩
    (LinkedTransaction.new (spending 2 [id]) poolOfParent).isOrphan = false ∧
      poolOfParent.valueOfOutput id = .error .pastVector ∧
      ¬ NamesOutputs (spending 2 [id]) poolOfParent := by
  intro id
  have past : poolOfParent.valueOfOutput id = .error .pastVector := by
    by_contra inside
    have has := (value_in_range_iff (parent_in_pool 7)).mp inside
    cases has
  have found : poolOfParent.exists id.transactionHash.value = true :=
    found_iff.mpr ⟨parent, parent_in_pool 7⟩
  refine ⟨by decide, past, fun names => ?_⟩
  have member : id ∈ (spending 2 [id]).getInputsId := List.mem_singleton.mpr rfl
  exact names.values id ((linked_members _ _ id).1.mpr ⟨member, found⟩) past

end EnsicoinLinkedOutputs
