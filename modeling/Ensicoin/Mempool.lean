import Ensicoin.LinkedTransaction

/-!
The Mempool: admission, and the promotion of orphans. A C++ exception leaves the
pool as it was when it was thrown, so an action is a Fault or a result over the
state it leaves. The recursion of registerTransaction and updateOrphan has fuel.
-/
namespace EnsicoinMempool
open EnsicoinRuntime EnsicoinNetworkable EnsicoinScript EnsicoinTransaction EnsicoinUtxo
open EnsicoinLinkedTransaction

structure PoolState where
  pool : Mempool
  heap : Heap

abbrev PoolM (α : Type) := ExceptT Fault (StateM PoolState) α

def getPool : PoolM Mempool := fun s => (.ok s.pool, s)

def setPool (pool : Mempool) : PoolM Unit := fun s => (.ok (), { s with pool := pool })

def fromMemory {α : Type} (action : Memory α) : PoolM α := fun s =>
  match action.run s.heap with
  | .error fault => (.error fault, s)
  | .ok (a, heap) => (.ok a, { s with heap := heap })

def orphansGet (orphan : Bytes) : PoolM LinkedTransaction := fun s =>
  (s.pool.orphans.get orphan, s)

def Mempool.updateOrphan (crypto : Crypto) (register : LinkedTransaction → PoolM Unit)
    (orphan : Bytes) : PoolM Unit := do
  let lTx ← orphansGet orphan
  if !lTx.isOrphan then
    let pool ← getPool
    setPool { pool with orphans := pool.orphans.erase orphan,
                        mainPool := pool.mainPool.add crypto lTx }
    register lTx

/-- orphanUsingUTXO[key] for a key that is missing is the empty string. -/
def Mempool.registerOutput (crypto : Crypto) (register : LinkedTransaction → PoolM Unit)
    (txOutput : UTXO) : PoolM Unit := do
  let pool ← getPool
  let orphan := (pool.orphanUsingUTXO txOutput.byteRepr).getD []
  setPool { pool with
    orphanUsingUTXO := Function.update pool.orphanUsingUTXO txOutput.byteRepr none }
  Mempool.updateOrphan crypto register orphan

def Mempool.registerTransaction (crypto : Crypto) : Nat → LinkedTransaction → PoolM Unit
  | 0, _ => throw .noFuel
  | fuel + 1, tx => (List.range tx.outputCount.toNat).forM fun i =>
      Mempool.registerOutput crypto (Mempool.registerTransaction crypto fuel)
        ⟨tx.hash crypto, UInt32.ofNat i⟩

def Mempool.addTransaction (lib : Libraries) (fuel : Nat) (tr : Transaction) : PoolM Bool := do
  if !tr.check lib then return false
  let pool ← getPool
  let linkedTX := LinkedTransaction.new tr pool
  let hash := (linkedTX.hash lib.toCrypto).value
  if linkedTX.isOrphan then
    if pool.orphanExists hash then return false
    setPool { pool with
      orphans := pool.orphans.add lib.toCrypto linkedTX,
      orphanUsingUTXO := linkedTX.getOrphanDeps.foldl (fun waiting dep =>
        Function.update waiting dep.byteRepr (some hash)) pool.orphanUsingUTXO }
    return true
  else
    if pool.exists hash then return false
    let (valid, linkedTX) ← fromMemory (linkedTX.validate lib fuel pool pool.currentHeight)
    if !valid then return false
    setPool { pool with mainPool := pool.mainPool.add lib.toCrypto linkedTX }
    Mempool.registerTransaction lib.toCrypto fuel linkedTX
    return true

def Mempool.incrementHeight (pool : Mempool) : Mempool :=
  { pool with currentHeight := pool.currentHeight + 1 }

def Mempool.decrementHeight (pool : Mempool) : Mempool :=
  { pool with currentHeight := pool.currentHeight - 1 }

inductive TXType where
  | Orphan
  | Regular
  | Unknown
  deriving DecidableEq, Repr

def Mempool.type (pool : Mempool) (txHash : Bytes) : TXType :=
  if pool.mainPool.exists txHash then .Regular
  else if pool.orphans.exists txHash then .Orphan
  else .Unknown

/-- The Mempool(logger) constructor, over any database. -/
def Mempool.new (utxos : UTXOManager) (currentHeight : Int32) : Mempool :=
  ⟨utxos, currentHeight, fun _ => none, fun _ => none, fun _ => none⟩

theorem pool_bind_run {α β : Type} (x : PoolM α) (f : α → PoolM β) (s : PoolState) :
    (x >>= f) s = match x s with
      | (.ok a, t) => f a t
      | (.error fault, t) => (.error fault, t) := by
  simp only [bind, ExceptT.bind, ExceptT.mk, StateT.bind]
  cases x s with
  | mk result t => cases result <;> rfl

theorem fromMemory_run {α : Type} (action : Memory α) (s : PoolState) :
    fromMemory action s = match action.run s.heap with
      | .error fault => (.error fault, s)
      | .ok (a, heap) => (.ok a, { s with heap := heap }) := rfl

/-- The sum that inputValue returns is the zero it starts with. -/
theorem inputValue_zero {tx : LinkedTransaction} {pool : Mempool} {heap heap' : Heap} {v : UInt32}
    (run : (tx.inputValue pool).run heap = .ok (v, heap')) : v = 0 := by
  unfold LinkedTransaction.inputValue at run
  split at run
  · cases run; rfl
  · obtain ⟨_, _, _, run⟩ := run_bind_ok.mp run
    obtain ⟨_, _, _, run⟩ := run_bind_ok.mp run
    cases run
    rfl

theorem linked_toTransaction (tx : Transaction) (pool : Mempool) :
    (LinkedTransaction.new tx pool).toTransaction = tx := by
  have keeps : ∀ (ids : List UTXO) (acc : LinkedTransaction),
      (ids.foldl (LinkedTransaction.link pool) acc).toTransaction = acc.toTransaction := by
    intro ids
    induction ids with
    | nil => intro acc; rfl
    | cons id ids ih =>
      intro acc
      rw [List.foldl_cons, ih, LinkedTransaction.link]
      split
      · rfl
      · split <;> rfl
  exact keeps _ _

/-- An input is linked to the pool if its transaction is there, and else to the database. -/
theorem linked_members (tx : Transaction) (pool : Mempool) (id : UTXO) :
    (id ∈ (LinkedTransaction.new tx pool).mempoolDeps ↔
      id ∈ tx.getInputsId ∧ pool.exists id.transactionHash.value = true) ∧
    (id ∈ (LinkedTransaction.new tx pool).dependencies ↔ id ∈ tx.getInputsId ∧
      pool.exists id.transactionHash.value = false ∧ pool.utxos.exists id = true) := by
  have linking : ∀ (ids : List UTXO) (acc : LinkedTransaction),
      (id ∈ (ids.foldl (LinkedTransaction.link pool) acc).mempoolDeps ↔
        id ∈ acc.mempoolDeps ∨ id ∈ ids ∧ pool.exists id.transactionHash.value = true) ∧
      (id ∈ (ids.foldl (LinkedTransaction.link pool) acc).dependencies ↔
        id ∈ acc.dependencies ∨ id ∈ ids ∧
          pool.exists id.transactionHash.value = false ∧ pool.utxos.exists id = true) := by
    intro ids
    induction ids with
    | nil => simp
    | cons first ids ih =>
      intro acc
      rw [List.foldl_cons, (ih _).1, (ih _).2, LinkedTransaction.link]
      split
      · grind
      · split <;> grind
  simpa [LinkedTransaction.new] using
    linking tx.getInputsId { tx with dependencies := [], mempoolDeps := [] }

theorem validate_run (lib : Libraries) (fuel : Nat) {tx : LinkedTransaction} {pool : Mempool}
    (height : Int32) (heap : Heap) (checked : tx.check lib = true) (linked : tx.isOrphan = false)
    (absent : pool.exists (tx.hash lib.toCrypto).value = false) :
    (tx.validate lib fuel pool height).run heap = match (tx.inputValue pool).run heap with
      | .error fault => .error fault
      | .ok (_, heap) => .ok ((false, tx), heap) := by
  unfold LinkedTransaction.validate
  simp only [checked, linked, absent, Bool.not_true, Bool.false_eq_true, ↓reduceIte]
  rw [StateT.run_bind]
  cases run : (tx.inputValue pool).run heap with
  | error fault => rfl
  | ok pair =>
    obtain ⟨v, heap'⟩ := pair
    have none : v ≤ tx.outputValue := by
      rw [inputValue_zero run]
      exact Nat.zero_le _
    simp only [bind, Except.bind, if_pos none]
    rfl

def keepOrphan (crypto : Crypto) (pool : Mempool) (orphan : LinkedTransaction) : Mempool :=
  { pool with
    orphans := pool.orphans.add crypto orphan,
    orphanUsingUTXO := orphan.getOrphanDeps.foldl (fun waiting dep =>
      Function.update waiting dep.byteRepr (some (orphan.hash crypto).value)) pool.orphanUsingUTXO }

/-- All that addTransaction can do: it adds orphans, and no other transaction. -/
theorem addTransaction_run (lib : Libraries) (fuel : Nat) (tr : Transaction) (s : PoolState) :
    Mempool.addTransaction lib fuel tr s =
      if tr.check lib = false then (.ok false, s)
      else if (LinkedTransaction.new tr s.pool).isOrphan then
        if s.pool.orphanExists (tr.hash lib.toCrypto).value then (.ok false, s)
        else (.ok true,
          { s with pool := keepOrphan lib.toCrypto s.pool (LinkedTransaction.new tr s.pool) })
      else if s.pool.exists (tr.hash lib.toCrypto).value then (.ok false, s)
      else match ((LinkedTransaction.new tr s.pool).inputValue s.pool).run s.heap with
        | .error fault => (.error fault, s)
        | .ok (_, heap) => (.ok false, { s with heap := heap }) := by
  have same := linked_toTransaction tr s.pool
  unfold Mempool.addTransaction
  cases checked : tr.check lib with
  | false => rfl
  | true =>
    simp only [Bool.not_true, Bool.false_eq_true, Bool.true_eq_false, ↓reduceIte, pool_bind_run,
      getPool, same]
    cases linked : (LinkedTransaction.new tr s.pool).isOrphan with
    | true =>
      simp only [↓reduceIte]
      split
      · rfl
      · simp only [pool_bind_run, setPool, keepOrphan, same]
        rfl
    | false =>
      simp only [Bool.false_eq_true, ↓reduceIte]
      cases there : s.pool.exists (tr.hash lib.toCrypto).value with
      | true => rfl
      | false =>
        simp only [Bool.false_eq_true, ↓reduceIte, pool_bind_run, fromMemory_run]
        rw [validate_run lib fuel s.pool.currentHeight s.heap (by rw [same, checked]) linked
          (by rw [same, there])]
        cases ((LinkedTransaction.new tr s.pool).inputValue s.pool).run s.heap with
        | error fault => rfl
        | ok pair => rfl

end EnsicoinMempool
