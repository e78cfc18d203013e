import Ensicoin.Mempool
import Mathlib.Data.List.Nodup

/-!
What registerTransaction does for waiting orphans. The sets of an orphan are those
of the day it was linked, so it stays one: updateOrphan promotes nothing, and
raises when no orphan waits for the output.
-/
namespace EnsicoinOrphanPromotion
open EnsicoinRuntime EnsicoinNetworkable EnsicoinScript EnsicoinTransaction EnsicoinUtxo
open EnsicoinLinkedTransaction EnsicoinMempool

/-- Every orphan is stored under its hash, was linked by the constructor against
    some pool, and is short of an output, which is why addTransaction kept it. -/
def OrphansLinked (crypto : Crypto) (pool : Mempool) : Prop :=
  ∀ h orphan, pool.orphans h = some orphan → h = (orphan.hash crypto).value ∧
    orphan.isOrphan = true ∧ ∃ tx earlier, orphan = LinkedTransaction.new tx earlier

def Awaited (pool : Mempool) (txOutput : UTXO) : Prop :=
  ∃ orphan, pool.orphanUsingUTXO txOutput.byteRepr = some orphan ∧ pool.orphanExists orphan = true

def Available (pool : Mempool) (id : UTXO) : Prop :=
  (∃ tx, pool.mainPool id.transactionHash.value = some tx ∧ id.index.toNat < tx.outputs.length) ∨
    pool.utxos.exists id = true

/-- Outputs that are there, or of a valid orphan whose inputs are obtainable. -/
inductive Obtainable (Valid : LinkedTransaction → Prop) (pool : Mempool) : UTXO → Prop
  | available (id : UTXO) (there : Available pool id) : Obtainable Valid pool id
  | promoted (orphan : LinkedTransaction) (id : UTXO)
      (waiting : pool.orphans id.transactionHash.value = some orphan) (valid : Valid orphan)
      (inputs : ∀ input ∈ orphan.getInputsId, Obtainable Valid pool input)
      (output : id.index.toNat < orphan.outputs.length) : Obtainable Valid pool id

/-- A valid orphan that has its inputs, some of them perhaps from other orphans. -/
def Promotable (Valid : LinkedTransaction → Prop) (pool : Mempool) (h : Bytes) : Prop :=
  ∃ orphan, pool.orphans h = some orphan ∧ Valid orphan ∧
    ∀ input ∈ orphan.getInputsId, Obtainable Valid pool input

/-- registerTransaction returns and has moved what is promotable. -/
def Promotes (crypto : Crypto) (fuel : Nat) (Valid : LinkedTransaction → Prop) (s : PoolState)
    (tx : LinkedTransaction) : Prop :=
  ∃ t, Mempool.registerTransaction crypto fuel tx s = (.ok (), t) ∧
    ∀ h, Promotable Valid s.pool h → t.pool.exists h = true ∧ t.pool.orphanExists h = false

def Complete (Valid : LinkedTransaction → Prop) (pool : Mempool) (h : Bytes) : Prop :=
  ∃ orphan, pool.orphans h = some orphan ∧ Valid orphan ∧
    ∀ input ∈ orphan.getInputsId, Available pool input

/-- Every chain of orphans to promote starts at a complete one. -/
theorem promotable_needs_complete {Valid : LinkedTransaction → Prop} {pool : Mempool}
    (nobody : ∀ h, ¬ Complete Valid pool h) : ∀ h, ¬ Promotable Valid pool h := by
  have available : ∀ id, Obtainable Valid pool id → Available pool id := by
    intro id obtainable
    induction obtainable with
    | available id there => exact there
    | promoted orphan id waiting valid _ _ ih =>
      exact absurd ⟨orphan, waiting, valid, ih⟩ (nobody _)
  rintro h ⟨orphan, waiting, valid, inputs⟩
  exact nobody h ⟨orphan, waiting, valid, fun input member => available input (inputs input member)⟩

theorem updateOrphan_run {crypto : Crypto} {s : PoolState} (linked : OrphansLinked crypto s.pool)
    (register : LinkedTransaction → PoolM Unit) (orphan : Bytes) :
    Mempool.updateOrphan crypto register orphan s =
      (if s.pool.orphanExists orphan then .ok () else .error .outOfRange, s) := by
  cases found : s.pool.orphans orphan with
  | none =>
    have got : orphansGet orphan s = (.error .outOfRange, s) := by
      simp [orphansGet, HashMemory.get, found]
    simp only [Mempool.updateOrphan, pool_bind_run, got, Mempool.orphanExists, HashMemory.exists,
      found]
    rfl
  | some lTx =>
    have got : orphansGet orphan s = (.ok lTx, s) := by
      simp [orphansGet, HashMemory.get, found]
    have short := (linked orphan lTx found).2.1
    simp only [Mempool.updateOrphan, pool_bind_run, got, Mempool.orphanExists, HashMemory.exists,
      found, short]
    rfl

def setWaiting (s : PoolState) (waiting : Bytes → Option Bytes) : PoolState :=
  { s with pool := { s.pool with orphanUsingUTXO := waiting } }

/-- One turn of the loop: the entry goes, and nothing else changes. -/
theorem registerOutput_run {crypto : Crypto} {s : PoolState} (linked : OrphansLinked crypto s.pool)
    (register : LinkedTransaction → PoolM Unit) (txOutput : UTXO) :
    Mempool.registerOutput crypto register txOutput s =
      (if s.pool.orphanExists ((s.pool.orphanUsingUTXO txOutput.byteRepr).getD []) then .ok ()
        else .error .outOfRange,
       setWaiting s (Function.update s.pool.orphanUsingUTXO txOutput.byteRepr none)) := by
  simp only [Mempool.registerOutput, pool_bind_run, getPool, setPool]
  have kept : OrphansLinked crypto (setWaiting s
    (Function.update s.pool.orphanUsingUTXO txOutput.byteRepr none)).pool := linked
  exact updateOrphan_run kept register _

theorem awaited_iff {crypto : Crypto} {pool : Mempool} (linked : OrphansLinked crypto pool)
    (txOutput : UTXO) : Awaited pool txOutput ↔
      pool.orphanExists ((pool.orphanUsingUTXO txOutput.byteRepr).getD []) = true := by
  -- the empty string is no hash
  have nobody : pool.orphanExists [] = false := by
    simp only [Mempool.orphanExists, HashMemory.exists]
    cases found : pool.orphans [] with
    | none => rfl
    | some orphan =>
      have length := congrArg List.length (linked [] orphan found).1
      simp [HASH_LENGTH] at length
  unfold Awaited
  cases entry : pool.orphanUsingUTXO txOutput.byteRepr with
  | none => simp [nobody]
  | some orphan => simp

/-- The loop of registerTransaction over distinct outputs: it returns when each of
    them is awaited, and only entries of orphanUsingUTXO go. -/
theorem registerOutputs_run {crypto : Crypto} (register : LinkedTransaction → PoolM Unit)
    (hash : Hash) (indices : List Nat) (s : PoolState) (linked : OrphansLinked crypto s.pool)
    (distinct : (indices.map UInt32.ofNat).Nodup) :
    ∃ result waiting, indices.forM (fun i => Mempool.registerOutput crypto register
        ⟨hash, UInt32.ofNat i⟩) s = (result, setWaiting s waiting) ∧
      (result = .ok () ↔ ∀ i ∈ indices, Awaited s.pool ⟨hash, UInt32.ofNat i⟩) := by
  induction indices generalizing s with
  | nil => exact ⟨.ok (), s.pool.orphanUsingUTXO, rfl, by simp⟩
  | cons i indices ih =>
    rw [List.map_cons, List.nodup_cons] at distinct
    change ∃ result waiting, (Mempool.registerOutput crypto register ⟨hash, UInt32.ofNat i⟩ >>=
      fun _ => indices.forM _) s = _ ∧ _
    simp only [pool_bind_run, registerOutput_run linked]
    let key := TransactionIdentifier.byteRepr ⟨hash, UInt32.ofNat i⟩
    let later := setWaiting s (Function.update s.pool.orphanUsingUTXO key none)
    by_cases first : Awaited s.pool ⟨hash, UInt32.ofNat i⟩
    · have others : ∀ j ∈ indices, (Awaited later.pool ⟨hash, UInt32.ofNat j⟩ ↔
          Awaited s.pool ⟨hash, UInt32.ofNat j⟩) := by
        intro j member
        have apart : TransactionIdentifier.byteRepr ⟨hash, UInt32.ofNat j⟩ ≠ key := by
          intro same
          have index := congrArg TransactionIdentifier.index (identifier_byteRepr_injective same)
          simp only at index
          exact distinct.1 (index ▸ List.mem_map_of_mem member)
        simp only [Awaited, later, setWaiting, Mempool.orphanExists, Function.update_of_ne apart]
      obtain ⟨result, waiting, run, returns⟩ := ih later linked distinct.2
      simp only [(awaited_iff linked _).mp first, ↓reduceIte]
      refine ⟨result, waiting, run, returns.trans ?_⟩
      simp only [List.mem_cons, forall_eq_or_imp, first, true_and]
      exact forall₂_congr others
    · have missing : s.pool.orphanExists ((s.pool.orphanUsingUTXO key).getD []) ≠ true :=
        fun there => first ((awaited_iff linked _).mpr there)
      simp only [key] at missing
      simp only [missing, Bool.false_eq_true, ↓reduceIte]
      exact ⟨.error .outOfRange, _, rfl, by simp [first]⟩

theorem outputs_distinct (tx : LinkedTransaction) :
    ((List.range tx.outputCount.toNat).map UInt32.ofNat).Nodup := by
  have bound := tx.outputCount.toNat_lt
  refine List.Nodup.map_on (fun i hi j hj same => ?_) List.nodup_range
  have value := congrArg UInt32.toNat same
  simp only [List.mem_range] at hi hj
  rw [UInt32.toNat_ofNat', UInt32.toNat_ofNat', Nat.mod_eq_of_lt (by omega),
    Nat.mod_eq_of_lt (by omega)] at value
  exact value

theorem registerTransaction_run {crypto : Crypto} (fuel : Nat) {s : PoolState}
    (linked : OrphansLinked crypto s.pool) (tx : LinkedTransaction) : ∃ result waiting,
    Mempool.registerTransaction crypto (fuel + 1) tx s = (result, setWaiting s waiting) ∧
      (result = .ok () ↔
        ∀ i < tx.outputCount.toNat, Awaited s.pool ⟨tx.hash crypto, UInt32.ofNat i⟩) := by
  obtain ⟨result, waiting, run, returns⟩ := registerOutputs_run
    (Mempool.registerTransaction crypto fuel) (tx.hash crypto) _ s linked (outputs_distinct tx)
  exact ⟨result, waiting, run, by simpa using returns⟩

theorem promotes_iff_nothing_to_promote (crypto : Crypto) (fuel : Nat)
    (Valid : LinkedTransaction → Prop) (s : PoolState) (tx : LinkedTransaction)
    (linked : OrphansLinked crypto s.pool) :
    Promotes crypto (fuel + 1) Valid s tx ↔
      (∀ i < tx.outputCount.toNat, Awaited s.pool ⟨tx.hash crypto, UInt32.ofNat i⟩) ∧
        ∀ h, ¬ Complete Valid s.pool h := by
  obtain ⟨result, waiting, run, returns⟩ := registerTransaction_run fuel linked tx
  constructor
  · rintro ⟨t, returned, promoted⟩
    rw [run] at returned
    obtain ⟨rfl, rfl⟩ := Prod.mk.inj returned
    refine ⟨returns.mp rfl, ?_⟩
    rintro h ⟨orphan, waiting, valid, inputs⟩
    have gone := (promoted h ⟨orphan, waiting, valid, fun input member =>
      .available input (inputs input member)⟩).2
    simp [setWaiting, Mempool.orphanExists, HashMemory.exists, waiting] at gone
  · rintro ⟨awaited, nobody⟩
    rw [returns.mpr awaited] at run
    exact ⟨_, run, fun h promotable => absurd promotable (promotable_needs_complete nobody h)⟩

theorem keepOrphan_linked {crypto : Crypto} {pool : Mempool} (linked : OrphansLinked crypto pool)
    (tx : Transaction) (earlier : Mempool)
    (short : (LinkedTransaction.new tx earlier).isOrphan = true) :
    OrphansLinked crypto (keepOrphan crypto pool (LinkedTransaction.new tx earlier)) := by
  intro h orphan found
  simp only [keepOrphan, HashMemory.add] at found
  split at found
  · exact linked h orphan found
  · by_cases same : h = ((LinkedTransaction.new tx earlier).hash crypto).value
    · rw [same, Function.update_self] at found
      cases found
      exact ⟨same, short, tx, earlier, rfl⟩
    · rw [Function.update_of_ne same] at found
      exact linked h orphan found

/-- The first bytes as a hash, for pools of a few transactions. -/
def prefixCrypto : Crypto :=
  ⟨fun bytes => ⟨(bytes ++ List.replicate 32 0).take 32, by simp [HASH_LENGTH]⟩,
    fun bytes => ⟨(bytes ++ List.replicate 20 0).take 20, by simp⟩, fun _ _ _ => true⟩

def spending (version : Int32) (ids : List UTXO) : Transaction :=
  ⟨version, [], ids.map fun id => ⟨id, Script.empty⟩, [⟨5, Script.empty⟩]⟩

def outputOf (version : Int32) (ids : List UTXO) : UTXO :=
  ⟨(spending version ids).hash prefixCrypto, 0⟩

def genesisOutput : UTXO := ⟨⟨List.replicate 32 7, rfl⟩, 0⟩

def genesisUtxos : UTXOManager :=
  UTXOManager.empty.add genesisOutput (UTXOdata.new 9 false 0 [] false Script.empty)

def parent : LinkedTransaction :=
  LinkedTransaction.new (spending 1 [genesisOutput]) (Mempool.new genesisUtxos 0)

/-- A child of the outputs came before the parent was put in the pool. -/
def poolWithChild (ids : List UTXO) : Mempool :=
  let waiting := keepOrphan prefixCrypto (Mempool.new genesisUtxos 0)
    (LinkedTransaction.new (spending 2 ids) (Mempool.new genesisUtxos 0))
  { waiting with mainPool := waiting.mainPool.add prefixCrypto parent }

theorem spending_inputs (version : Int32) (ids : List UTXO) (pool : Mempool) :
    (LinkedTransaction.new (spending version ids) pool).getInputsId = ids := by
  rw [linked_toTransaction]
  simp [spending, Transaction.getInputsId, Function.comp_def]

theorem poolWithChild_linked (ids : List UTXO)
    (short :
      (LinkedTransaction.new (spending 2 ids) (Mempool.new genesisUtxos 0)).isOrphan = true) :
    OrphansLinked prefixCrypto (poolWithChild ids) := by
  have empty : OrphansLinked prefixCrypto (Mempool.new genesisUtxos 0) := by
    intro h orphan found
    cases found
  intro h orphan found
  exact keepOrphan_linked empty _ _ short h orphan found

theorem poolWithChild_mainPool (ids : List UTXO) : (poolWithChild ids).mainPool =
    Function.update (fun _ => none) (parent.hash prefixCrypto).value (some parent) :=
  HashMemory.add_absent prefixCrypto (fun _ => none) parent rfl

theorem poolWithChild_orphans (ids : List UTXO) : (poolWithChild ids).orphans =
    Function.update (fun _ => none) ((spending 2 ids).hash prefixCrypto).value
      (some (LinkedTransaction.new (spending 2 ids) (Mempool.new genesisUtxos 0))) := by
  have added := HashMemory.add_absent prefixCrypto (fun _ => none)
    (LinkedTransaction.new (spending 2 ids) (Mempool.new genesisUtxos 0)) rfl
  rw [linked_toTransaction] at added
  exact added

theorem parent_available (ids : List UTXO) :
    Available (poolWithChild ids) (outputOf 1 [genesisOutput]) := by
  have hash : (outputOf 1 [genesisOutput]).transactionHash = parent.hash prefixCrypto := by
    rw [parent, linked_toTransaction]
    rfl
  refine Or.inl ⟨parent, ?_, by decide⟩
  rw [hash, poolWithChild_mainPool, Function.update_self]

def missingOutput : UTXO := ⟨⟨List.replicate 32 9, rfl⟩, 0⟩

/-- One of two parents arrives: registerTransaction returns, and nothing was due. -/
theorem incomplete_orphan_waits : Promotes prefixCrypto 1 (fun _ => True)
    ⟨poolWithChild [outputOf 1 [genesisOutput], missingOutput], constantHeap 0⟩ parent := by
  have linked := poolWithChild_linked [outputOf 1 [genesisOutput], missingOutput] (by decide)
  refine (promotes_iff_nothing_to_promote prefixCrypto 0 _
    ⟨poolWithChild [outputOf 1 [genesisOutput], missingOutput], constantHeap 0⟩ parent linked).mpr
    ⟨fun i below => ?_, ?_⟩
  · have one : parent.outputCount.toNat = 1 := by decide
    have first : i = 0 := by omega
    rw [first]
    refine ⟨((spending 2 [outputOf 1 [genesisOutput], missingOutput]).hash prefixCrypto).value,
      by decide, ?_⟩
    simp [Mempool.orphanExists, HashMemory.exists, poolWithChild_orphans]
  · rintro h ⟨orphan, found, _, inputs⟩
    simp only [poolWithChild_orphans] at found
    by_cases same : h = ((spending 2 [outputOf 1 [genesisOutput], missingOutput]).hash
        prefixCrypto).value
    · rw [same, Function.update_self] at found
      cases found
      have gone := inputs missingOutput (by rw [spending_inputs]; simp)
      rcases gone with ⟨tx, inPool, _⟩ | inDatabase
      · simp only [poolWithChild_mainPool] at inPool
        rw [Function.update_of_ne (by decide)] at inPool
        cases inPool
      · revert inDatabase
        decide
    · rw [Function.update_of_ne same] at found
      cases found

/-- The only parent of an orphan arrives, and the orphan stays one. -/
theorem complete_orphan_stays :
    OrphansLinked prefixCrypto (poolWithChild [outputOf 1 [genesisOutput]]) ∧
      ¬ Promotes prefixCrypto 1 (fun _ => True)
        ⟨poolWithChild [outputOf 1 [genesisOutput]], constantHeap 0⟩ parent := by
  have linked := poolWithChild_linked [outputOf 1 [genesisOutput]] (by decide)
  refine ⟨linked, ?_⟩
  rintro ⟨t, returned, promoted⟩
  obtain ⟨result, waiting, run, _⟩ := registerTransaction_run 0
    (s := ⟨poolWithChild [outputOf 1 [genesisOutput]], constantHeap 0⟩) linked parent
  rw [run] at returned
  obtain ⟨_, rfl⟩ := Prod.mk.inj returned
  have child := congrFun (poolWithChild_orphans [outputOf 1 [genesisOutput]])
    ((spending 2 [outputOf 1 [genesisOutput]]).hash prefixCrypto).value
  rw [Function.update_self] at child
  have gone := (promoted _ ⟨_, child, trivial, fun input member => by
    rw [spending_inputs, List.mem_singleton] at member
    rw [member]
    exact .available _ (parent_available _)⟩).2
  revert gone
  simp [setWaiting, Mempool.orphanExists, HashMemory.exists, child]

end EnsicoinOrphanPromotion
