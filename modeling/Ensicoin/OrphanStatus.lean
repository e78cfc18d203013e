import Mathlib.Data.List.Perm.Subperm
import Ensicoin.OrphanIndex

/-!
The two ways to ask what a transaction misses. isOrphan compares the sizes of two sets
with the number of inputs, and getOrphanDeps looks up each input; they agree where an
input is missing anyway, or none is named twice.
-/
namespace EnsicoinOrphanStatus
open EnsicoinRuntime EnsicoinNetworkable EnsicoinScript EnsicoinTransaction EnsicoinUtxo
open EnsicoinLinkedTransaction EnsicoinMempool EnsicoinOrphanPromotion EnsicoinMempoolAdmission
open EnsicoinOrphanIndex

/-- Neither a transaction of mainPool nor an entry of the database has the output. -/
def missing (pool : Mempool) (id : UTXO) : Bool :=
  !pool.exists id.transactionHash.value && !pool.utxos.exists id

structure StatusAgrees (lib : Libraries) (fuel : Nat) (s : PoolState) (tx : Transaction) :
    Prop where
  status : (LinkedTransaction.new tx s.pool).isOrphan = true ↔
    (LinkedTransaction.new tx s.pool).getOrphanDeps ≠ []
  listed : (LinkedTransaction.new tx s.pool).getOrphanDeps = tx.getInputsId.filter (missing s.pool)
  releasable : ∀ h orphan, (Mempool.addTransaction lib fuel tx s).2.pool.orphans h = some orphan →
    s.pool.orphans h = none → ∃ dep ∈ orphan.getOrphanDeps,
      (Mempool.addTransaction lib fuel tx s).2.pool.orphanUsingUTXO dep.byteRepr = some h

theorem deps_listed (tx : Transaction) (pool : Mempool) :
    (LinkedTransaction.new tx pool).getOrphanDeps = tx.getInputsId.filter (missing pool) := by
  have same : (LinkedTransaction.new tx pool).getInputsId = tx.getInputsId :=
    congrArg Transaction.getInputsId (linked_toTransaction tx pool)
  rw [LinkedTransaction.getOrphanDeps, same]
  apply List.filter_congr
  intro id member
  obtain ⟨inPool, inDatabase⟩ := linked_members tx pool id
  rw [Bool.eq_iff_iff]
  simp only [missing, List.contains_eq_mem, Bool.and_eq_true, Bool.not_eq_eq_eq_not, Bool.not_true,
    decide_eq_false_iff_not, inPool, inDatabase, member, true_and]
  cases pool.exists id.transactionHash.value <;> simp

/-- An input goes into one of the two sets, where it stands once. -/
theorem linked_nodup (tx : Transaction) (pool : Mempool) :
    ((LinkedTransaction.new tx pool).dependencies ++
      (LinkedTransaction.new tx pool).mempoolDeps).Nodup := by
  have linking : ∀ (ids : List UTXO) (acc : LinkedTransaction), acc.dependencies.Nodup →
      acc.mempoolDeps.Nodup → (ids.foldl (LinkedTransaction.link pool) acc).dependencies.Nodup ∧
        (ids.foldl (LinkedTransaction.link pool) acc).mempoolDeps.Nodup := by
    intro ids
    induction ids with
    | nil => intro acc deps poolDeps; exact ⟨deps, poolDeps⟩
    | cons id ids ih =>
      intro acc deps poolDeps
      rw [List.foldl_cons, LinkedTransaction.link]
      split
      · exact ih _ deps poolDeps.insert
      · split
        · exact ih _ deps.insert poolDeps
        · exact ih _ deps poolDeps
  obtain ⟨deps, poolDeps⟩ := linking tx.getInputsId
    { tx with dependencies := [], mempoolDeps := [] } List.nodup_nil List.nodup_nil
  apply List.Nodup.append deps poolDeps
  intro id inDatabase inPool
  have absent := ((linked_members tx pool id).2.mp inDatabase).2.1
  have there := ((linked_members tx pool id).1.mp inPool).2
  rw [there] at absent
  cases absent

theorem linked_iff (tx : Transaction) (pool : Mempool) (id : UTXO) :
    id ∈ (LinkedTransaction.new tx pool).dependencies ++
      (LinkedTransaction.new tx pool).mempoolDeps ↔
    id ∈ tx.getInputsId ∧ missing pool id = false := by
  obtain ⟨inPool, inDatabase⟩ := linked_members tx pool id
  rw [List.mem_append, inPool, inDatabase, missing]
  cases pool.exists id.transactionHash.value <;> simp

/-- Different members of a list are as many as the list is long if they are all of it. -/
theorem distinct_members_length {α : Type} {part whole : List α} (distinct : part.Nodup)
    (inside : part ⊆ whole) :
    part.length = whole.length ↔ whole.Nodup ∧ whole ⊆ part := by
  have sub := List.subperm_of_subset distinct inside
  constructor
  · intro same
    have perm := sub.perm_of_length_le same.ge
    exact ⟨perm.nodup distinct, perm.symm.subset⟩
  · intro covered
    have back := (List.subperm_of_subset covered.1 covered.2).length_le
    exact Nat.le_antisymm sub.length_le back

theorem linked_whole_iff (tx : Transaction) (pool : Mempool) :
    (LinkedTransaction.new tx pool).isOrphan = false ↔
      tx.getInputsId.Nodup ∧ ∀ id ∈ tx.getInputsId, missing pool id = false := by
  have inputs := congrArg (fun t : Transaction => t.inputs.length) (linked_toTransaction tx pool)
  have size : tx.getInputsId.length = tx.inputs.length := List.length_map _
  have inside : (LinkedTransaction.new tx pool).dependencies ++
      (LinkedTransaction.new tx pool).mempoolDeps ⊆ tx.getInputsId :=
    fun id member => ((linked_iff tx pool id).mp member).1
  have counted := distinct_members_length (linked_nodup tx pool) inside
  rw [List.length_append, size, ← inputs] at counted
  rw [LinkedTransaction.isOrphan, bne_eq_false_iff_eq, counted]
  apply and_congr_right
  intro _
  constructor
  · intro covered id member
    exact ((linked_iff tx pool id).mp (covered member)).2
  · intro known id member
    exact (linked_iff tx pool id).mpr ⟨member, known id member⟩

theorem status_iff (tx : Transaction) (pool : Mempool) :
    ((LinkedTransaction.new tx pool).isOrphan = true ↔
      (LinkedTransaction.new tx pool).getOrphanDeps ≠ []) ↔
    (∃ id ∈ tx.getInputsId, missing pool id = true) ∨ tx.getInputsId.Nodup := by
  have whole := linked_whole_iff tx pool
  rw [deps_listed, ne_eq, List.filter_eq_nil_iff]
  by_cases some : ∃ id ∈ tx.getInputsId, missing pool id = true
  · obtain ⟨id, member, lost⟩ := some
    refine iff_of_true ⟨fun _ none => none id member lost, fun _ => ?_⟩ (Or.inl ⟨id, member, lost⟩)
    cases orphan : (LinkedTransaction.new tx pool).isOrphan with
    | true => rfl
    | false =>
      rw [(whole.mp orphan).2 id member] at lost
      cases lost
  · have known : ∀ id ∈ tx.getInputsId, missing pool id = false := by
      intro id member
      by_contra lost
      exact some ⟨id, member, by simpa using lost⟩
    have none : ∀ id ∈ tx.getInputsId, ¬ missing pool id = true := by
      intro id member
      simp [known id member]
    have nodup : (LinkedTransaction.new tx pool).isOrphan = false ↔ tx.getInputsId.Nodup := by
      rw [whole]
      exact ⟨fun both => both.1, fun distinct => ⟨distinct, known⟩⟩
    simp only [some, false_or, ← nodup]
    cases (LinkedTransaction.new tx pool).isOrphan with
    | true => simpa using none
    | false => simpa using none

theorem kept_releasable (lib : Libraries) (fuel : Nat) (s : PoolState) (tx : Transaction)
    (lists : (LinkedTransaction.new tx s.pool).isOrphan = true →
      (LinkedTransaction.new tx s.pool).getOrphanDeps ≠ [])
    {h : Bytes} {orphan : LinkedTransaction}
    (found : (Mempool.addTransaction lib fuel tx s).2.pool.orphans h = some orphan)
    (new : s.pool.orphans h = none) : ∃ dep ∈ orphan.getOrphanDeps,
      (Mempool.addTransaction lib fuel tx s).2.pool.orphanUsingUTXO dep.byteRepr = some h := by
  rcases after_cases lib fuel s (.addTransaction tx) with ⟨orphans, _⟩ |
    ⟨_, same, _, short, fresh, kept⟩
  · simp only [after] at orphans
    rw [orphans, new] at found
    cases found
  · cases same
    simp only [after] at kept
    have absent : s.pool.orphanExists
        ((LinkedTransaction.new tx s.pool).hash lib.toCrypto).value = false := by
      rw [linked_toTransaction]
      exact fresh
    rw [kept] at found ⊢
    rcases keepOrphan_found absent found with ⟨rfl, rfl⟩ | old
    · obtain ⟨dep, member⟩ := List.exists_mem_of_ne_nil _ (lists short)
      refine ⟨dep, member, ?_⟩
      rw [keepOrphan_entry, if_pos ⟨dep, member, rfl⟩]
    · rw [old] at new
      cases new

theorem status_agrees_iff (lib : Libraries) (fuel : Nat) (s : PoolState) (tx : Transaction) :
    StatusAgrees lib fuel s tx ↔
      (∃ id ∈ tx.getInputsId, missing s.pool id = true) ∨ tx.getInputsId.Nodup := by
  rw [← status_iff]
  constructor
  · intro agrees
    exact agrees.status
  · intro status
    exact ⟨status, deps_listed tx s.pool,
      fun _ _ found new => kept_releasable lib fuel s tx status.mp found new⟩

/-- With its one output named twice, the transaction is stored and nothing releases it. -/
theorem repeated_input_stuck :
    let s : PoolState := ⟨Mempool.new genesisUtxos 0, constantHeap 0⟩
    let tx := spending 1 [genesisOutput, genesisOutput]
    ¬ StatusAgrees prefixLibraries 1 s tx ∧
      (Mempool.addTransaction prefixLibraries 1 tx s).1 = .ok true ∧
      ∀ key, (Mempool.addTransaction prefixLibraries 1 tx s).2.pool.orphanUsingUTXO key = none := by
  intro s tx
  have checked : tx.check prefixLibraries = true := by
    have length : (tx.str prefixLibraries).length = 558 := List.length_replicate
    rw [Transaction.check, length]
    rfl
  have orphan : (LinkedTransaction.new tx s.pool).isOrphan = true := by decide
  have none : (LinkedTransaction.new tx s.pool).getOrphanDeps = [] := by decide
  have run : Mempool.addTransaction prefixLibraries 1 tx s = (.ok true, { s with
      pool := keepOrphan prefixLibraries.toCrypto s.pool (LinkedTransaction.new tx s.pool) }) := by
    rw [addTransaction_run, if_neg (by rw [checked]; decide), if_pos orphan]
    rfl
  refine ⟨fun agrees => agrees.status.mp orphan none, by rw [run], ?_⟩
  intro key
  rw [run]
  simp only [keepOrphan_entry, none, List.not_mem_nil, false_and, exists_false, if_false]
  rfl

end EnsicoinOrphanStatus
