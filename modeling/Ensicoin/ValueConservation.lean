import Ensicoin.OrphanPromotion

/-!
The comparison of validate. Both sums are over the 64-bit values that are stored: of
database entries for the inputs linked to the database, and of outputs in mainPool for
the others. inputValue and outputValue return the zeros that their folds start from, so
the comparison holds wherever the reads of inputValue are defined.
-/
namespace EnsicoinValueConservation
open BigEndianWords EnsicoinRuntime EnsicoinNetworkable EnsicoinScript EnsicoinTransaction
open EnsicoinUtxo EnsicoinLinkedTransaction EnsicoinMempool EnsicoinOrphanPromotion

/-- An entry of the database starts with its value. -/
def databaseValue (utxos : UTXOManager) (id : UTXO) : Option Nat :=
  (utxos.db id.byteRepr).map fun record => ofBytes (record.take 8)

def poolOutput (pool : Mempool) (id : UTXO) : Option OutputTransaction :=
  (pool.mainPool id.transactionHash.value).bind fun tx => tx.outputs[id.index.toNat]?

def spentValue (tx : LinkedTransaction) (pool : Mempool) (id : UTXO) : Option Nat :=
  if id ∈ tx.mempoolDeps then (poolOutput pool id).map fun output => output.value.toNat
  else databaseValue pool.utxos id

def spentSum (tx : LinkedTransaction) (pool : Mempool) : Nat :=
  (tx.getInputsId.map fun id => (spentValue tx pool id).getD 0).sum

def paidSum (tx : LinkedTransaction) : Nat := (tx.outputs.map fun output => output.value.toNat).sum

/-- The comparison has a result, and it is that of the exact sums. -/
def ComparesExactly (tx : LinkedTransaction) (pool : Mempool) (heap : Heap) : Prop :=
  ∃ v heap', (tx.inputValue pool).run heap = .ok (v, heap') ∧
    (v ≤ tx.outputValue ↔ spentSum tx pool ≤ paidSum tx)

/-- The database records of the inputs can be read in the memory there is. -/
def RecordsRead (tx : LinkedTransaction) (pool : Mempool) (heap : Heap) : Prop :=
  ∃ data heap', (tx.dependencies.mapM pool.utxos.getData).run heap = .ok (data, heap')

/-- The value of an output as the int that valueOfOutput returns. -/
def poolInt (pool : Mempool) (id : UTXO) : Int :=
  ((poolOutput pool id).map fun output => output.value.toUInt32.toInt32.toInt).getD 0

/-- No sum on the way through mempoolDeps leaves the ints. -/
def SumsFit (tx : LinkedTransaction) (pool : Mempool) : Prop :=
  ∀ front, front <+: tx.mempoolDeps → InInt ((front.map (poolInt pool)).sum)

/-- The sets are those of the other one, which an unordered_set goes through in any order. -/
structure SameSets (tx other : LinkedTransaction) : Prop where
  transaction : tx.toTransaction = other.toTransaction
  dependencies : tx.dependencies.Perm other.dependencies
  mempoolDeps : tx.mempoolDeps.Perm other.mempoolDeps

theorem reads_sum_iff_reads (utxos : UTXOManager) (ids : List UTXO) (sum : UInt32) (heap : Heap) :
    (∃ total heap', (ids.foldlM (fun s utxo => do
        let data ← utxos.getData utxo
        return s + data.value.toUInt32) sum : Memory UInt32).run heap = .ok (total, heap')) ↔
      ∃ data heap', (ids.mapM utxos.getData).run heap = .ok (data, heap') := by
  induction ids generalizing sum heap with
  | nil => exact ⟨fun _ => ⟨[], heap, rfl⟩, fun _ => ⟨sum, heap, rfl⟩⟩
  | cons id ids ih =>
    rw [List.foldlM_cons, List.mapM_cons]
    constructor
    · rintro ⟨total, heap', run⟩
      obtain ⟨next, mid, first, rest⟩ := run_bind_ok.mp run
      obtain ⟨data, mid', read, same⟩ := run_bind_ok.mp first
      cases same
      obtain ⟨others, heap2, run2⟩ := (ih _ _).mp ⟨total, heap', rest⟩
      exact ⟨data :: others, heap2, run_bind_ok.mpr ⟨data, mid, read,
        run_bind_ok.mpr ⟨others, heap2, run2, rfl⟩⟩⟩
    · rintro ⟨all, heap', run⟩
      obtain ⟨data, mid, read, rest⟩ := run_bind_ok.mp run
      obtain ⟨others, mid', run2, _⟩ := run_bind_ok.mp rest
      obtain ⟨total, heap2, run3⟩ := (ih (sum + data.value.toUInt32) mid).mpr ⟨others, mid', run2⟩
      exact ⟨total, heap2,
        run_bind_ok.mpr ⟨_, mid, run_bind_ok.mpr ⟨data, mid, read, rfl⟩, run3⟩⟩

theorem poolOutput_value {pool : Mempool} {id : UTXO} {output : OutputTransaction}
    (found : poolOutput pool id = some output) :
    pool.valueOfOutput id = .ok output.value.toUInt32.toInt32 := by
  obtain ⟨tx, there, at_index⟩ := Option.bind_eq_some_iff.mp found
  simp only [Mempool.valueOfOutput, HashMemory.get, there, Transaction.valueOfOutput,
    Transaction.outputAt, at_index, bind, Except.bind]
  rfl

theorem addInts_ok_iff {a b c : Int32} :
    addInts a b = .ok c ↔ InInt (a.toInt + b.toInt) ∧ c = a + b := by
  unfold addInts
  split
  · rename_i inside
    simp [inside, eq_comm]
  · rename_i outside
    simp [outside]

theorem sum_toInt {a b : Int32} (inside : InInt (a.toInt + b.toInt)) :
    (a + b).toInt = a.toInt + b.toInt := by
  rw [Int32.toInt_add]
  exact Int.bmod_eq_of_le inside.1 inside.2

theorem int_in (a : Int32) : InInt a.toInt := ⟨a.le_toInt, a.toInt_lt⟩

/-- The fold over the pool is defined as long as every sum on the way is an int. -/
theorem pool_sums_iff {pool : Mempool} {ids : List UTXO}
    (there : ∀ id ∈ ids, (poolOutput pool id).isSome) (sum : UInt32) (heap : Heap) :
    (∃ total heap', (ids.foldlM (fun s utxo => do
        let value ← (pool.valueOfOutput utxo : Memory Int32)
        let added ← (addInts s.toInt32 value : Memory Int32)
        return added.toUInt32) sum : Memory UInt32).run heap = .ok (total, heap')) ↔
      ∀ front, front <+: ids → InInt (sum.toInt32.toInt + (front.map (poolInt pool)).sum) := by
  induction ids generalizing sum heap with
  | nil =>
    refine iff_of_true ⟨sum, heap, rfl⟩ ?_
    intro front empty
    rw [List.prefix_nil.mp empty, List.map_nil, List.sum_nil, Int.add_zero]
    exact int_in _
  | cons id ids ih =>
    obtain ⟨output, found⟩ := Option.isSome_iff_exists.mp (there id List.mem_cons_self)
    have value : poolInt pool id = output.value.toUInt32.toInt32.toInt := by
      rw [poolInt, found, Option.map_some, Option.getD_some]
    have others := fun sum =>
      ih (fun other member => there other (List.mem_cons_of_mem _ member)) sum heap
    have step : ∀ added, addInts sum.toInt32 output.value.toUInt32.toInt32 = .ok added →
        (do
          let value ← (pool.valueOfOutput id : Memory Int32)
          let added ← (addInts sum.toInt32 value : Memory Int32)
          return added.toUInt32 : Memory UInt32).run heap = .ok (added.toUInt32, heap) := by
      intro added fits
      refine run_bind_ok.mpr ⟨output.value.toUInt32.toInt32, heap, ?_,
        run_bind_ok.mpr ⟨added, heap, ?_, rfl⟩⟩
      · rw [poolOutput_value found]
        rfl
      · rw [fits]
        rfl
    rw [List.foldlM_cons]
    constructor
    · intro defined front start
      obtain ⟨total, heap', run⟩ := defined
      obtain ⟨next, mid, first, rest⟩ := run_bind_ok.mp run
      obtain ⟨v, mid', read, first⟩ := run_bind_ok.mp first
      obtain ⟨got, rfl⟩ := lifted_ok read
      cases (poolOutput_value found).symm.trans got
      obtain ⟨added, mid'', checked, same⟩ := run_bind_ok.mp first
      obtain ⟨fits, rfl⟩ := lifted_ok checked
      cases same
      obtain ⟨inside, rfl⟩ := addInts_ok_iff.mp fits
      cases front with
      | nil =>
        rw [List.map_nil, List.sum_nil, Int.add_zero]
        exact int_in _
      | cons other front =>
        obtain ⟨rfl, inner⟩ := List.cons_prefix_cons.mp start
        have later := (others _).mp ⟨total, heap', rest⟩ front inner
        rw [Int32.toInt32_toUInt32, sum_toInt inside, Int.add_assoc] at later
        rwa [List.map_cons, List.sum_cons, value]
    · intro fits
      have inside := fits [id] (List.cons_prefix_cons.mpr ⟨rfl, List.nil_prefix⟩)
      rw [List.map_singleton, List.sum_singleton, value] at inside
      obtain ⟨total, heap', rest⟩ := (others (sum.toInt32 +
          output.value.toUInt32.toInt32).toUInt32).mpr fun front start => by
        have later := fits (id :: front) (List.cons_prefix_cons.mpr ⟨rfl, start⟩)
        rw [List.map_cons, List.sum_cons, value, ← Int.add_assoc] at later
        rwa [Int32.toInt32_toUInt32, sum_toInt inside]
      exact ⟨total, heap', run_bind_ok.mpr
        ⟨_, heap, step _ (addInts_ok_iff.mpr ⟨inside, rfl⟩), rest⟩⟩

/-- The sums of inputValue are dropped, but its reads and additions must be defined. -/
theorem inputValue_defined_iff {tx : LinkedTransaction} {pool : Mempool} (heap : Heap)
    (linked : tx.isOrphan = false) (there : ∀ id ∈ tx.mempoolDeps, (poolOutput pool id).isSome) :
    (∃ v heap', (tx.inputValue pool).run heap = .ok (v, heap')) ↔
      RecordsRead tx pool heap ∧ SumsFit tx pool := by
  have sums := fun heap => pool_sums_iff there 0 heap
  simp only [show (0 : UInt32).toInt32.toInt = 0 from rfl, Int.zero_add] at sums
  rw [RecordsRead, SumsFit, ← reads_sum_iff_reads pool.utxos tx.dependencies 0 heap]
  unfold LinkedTransaction.inputValue
  simp only [linked, Bool.false_eq_true, ↓reduceIte]
  constructor
  · intro defined
    obtain ⟨v, heap', run⟩ := defined
    obtain ⟨total, mid, reads, run⟩ := run_bind_ok.mp run
    obtain ⟨others, mid', added, _⟩ := run_bind_ok.mp run
    exact ⟨⟨total, mid, reads⟩, (sums mid).mp ⟨others, mid', added⟩⟩
  · intro defined
    obtain ⟨⟨total, mid, reads⟩, fits⟩ := defined
    obtain ⟨others, mid', added⟩ := (sums mid).mpr fits
    exact ⟨0, mid', run_bind_ok.mpr ⟨total, mid, reads,
      run_bind_ok.mpr ⟨others, mid', added, rfl⟩⟩⟩

theorem compares_exactly_iff_covered {given : Transaction} {earlier pool : Mempool}
    {tx : LinkedTransaction} {heap : Heap} (sets : SameSets tx (LinkedTransaction.new given earlier))
    (linked : tx.isOrphan = false)
    (named : ∀ id ∈ tx.getInputsId, (spentValue tx pool id).isSome) :
    ComparesExactly tx pool heap ↔
      RecordsRead tx pool heap ∧ SumsFit tx pool ∧ spentSum tx pool ≤ paidSum tx := by
  have there : ∀ id ∈ tx.mempoolDeps, (poolOutput pool id).isSome := by
    intro id member
    have inside := (linked_members given earlier id).1.mp (sets.mempoolDeps.mem_iff.mp member)
    have same : tx.toTransaction = given := sets.transaction.trans (linked_toTransaction _ _)
    have value := named id (same ▸ inside.1)
    rwa [spentValue, if_pos member, Option.isSome_map] at value
  rw [← and_assoc, ← inputValue_defined_iff heap linked there]
  constructor
  · intro compares
    obtain ⟨v, heap', run, same⟩ := compares
    refine ⟨⟨v, heap', run⟩, same.mp ?_⟩
    rw [inputValue_zero run]
    exact Nat.zero_le _
  · intro both
    obtain ⟨⟨v, heap', run⟩, covered⟩ := both
    refine ⟨v, heap', run, iff_of_true ?_ covered⟩
    rw [inputValue_zero run]
    exact Nat.zero_le _

/-- A pool in which the output of a parent is worth 5. -/
def poolOfParent : Mempool :=
  { Mempool.new genesisUtxos 0 with
    mainPool := Function.update (fun _ => none)
      (outputOf 1 [genesisOutput]).transactionHash.value (some parent) }

theorem sums_fit_single {tx : LinkedTransaction} {pool : Mempool} {id : UTXO}
    (single : tx.mempoolDeps = [id]) (inside : InInt (poolInt pool id)) : SumsFit tx pool := by
  intro front start
  rw [single] at start
  rcases List.prefix_cons_iff.mp start with rfl | ⟨rest, rfl, none⟩
  · exact int_in 0
  · rwa [List.prefix_nil.mp none, List.map_singleton, List.sum_singleton]

theorem passed_on_whole : ComparesExactly
    (LinkedTransaction.new (spending 2 [outputOf 1 [genesisOutput]]) poolOfParent) poolOfParent
    (constantHeap 0) :=
  (compares_exactly_iff_covered ⟨rfl, List.Perm.rfl, List.Perm.rfl⟩ (by decide) (by decide)).mpr
    ⟨⟨[], constantHeap 0, rfl⟩,
      @sums_fit_single _ _ (outputOf 1 [genesisOutput]) (by decide) (by decide), by decide⟩

/-- The constructor links the input to the database, and inputValue() <= outputValue() holds. -/
theorem overpaid_compares_less : spentSum parent (Mempool.new genesisUtxos 0) = 9 ∧
    paidSum parent = 5 ∧
    ∀ heap, ¬ ComparesExactly parent (Mempool.new genesisUtxos 0) heap := by
  have spent : spentSum parent (Mempool.new genesisUtxos 0) = 9 := by decide
  have paid : paidSum parent = 5 := by decide
  refine ⟨spent, paid, ?_⟩
  intro heap compares
  obtain ⟨v, heap', run, same⟩ := compares
  have covered := same.mp (by rw [inputValue_zero run]; exact Nat.zero_le _)
  rw [spent, paid] at covered
  omega

end EnsicoinValueConservation
