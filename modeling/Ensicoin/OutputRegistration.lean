import Ensicoin.OrphanPromotion
import Mathlib.Data.Set.Card

/-!
The recursion of registerTransaction and updateOrphan, as one list of outputs still to be
registered. Those of an orphan that is promoted come in front of it. An output whose
orphan is not there raises, with the entries before it erased and the orphans before it
moved.
-/
namespace EnsicoinOutputRegistration
open EnsicoinRuntime EnsicoinNetworkable EnsicoinScript EnsicoinTransaction EnsicoinUtxo
open EnsicoinLinkedTransaction EnsicoinMempool EnsicoinOrphanPromotion

def outputIds (crypto : Crypto) (tx : LinkedTransaction) : List UTXO :=
  (List.range tx.outputCount.toNat).map fun i => ⟨tx.hash crypto, UInt32.ofNat i⟩

/-- The orphan that waits for an output has all its inputs, so that it is promoted with it. -/
def Wakes (pool : Mempool) (id : UTXO) (h : Bytes) (orphan : LinkedTransaction) : Prop :=
  pool.orphanUsingUTXO id.byteRepr = some h ∧ pool.orphans h = some orphan ∧
    orphan.isOrphan = false

/-- The outputs that are to be registered: those of the transaction, and those of the orphans
    that are promoted with one. -/
inductive Due (crypto : Crypto) (pool : Mempool) (tx : LinkedTransaction) : UTXO → Prop
  | own {id : UTXO} (output : id ∈ outputIds crypto tx) : Due crypto pool tx id
  | promoted {id output : UTXO} {h : Bytes} {orphan : LinkedTransaction}
      (due : Due crypto pool tx id) (wakes : Wakes pool id h orphan)
      (member : output ∈ outputIds crypto orphan) : Due crypto pool tx output

def Promoted (crypto : Crypto) (pool : Mempool) (tx : LinkedTransaction) (h : Bytes) : Prop :=
  ∃ id orphan, Due crypto pool tx id ∧ Wakes pool id h orphan

/-- Nothing has changed but the orphans that are promoted and the entries of the outputs. -/
structure Confined (crypto : Crypto) (before : Mempool) (tx : LinkedTransaction)
    (after : Mempool) : Prop where
  utxos : after.utxos = before.utxos
  height : after.currentHeight = before.currentHeight
  entries : ∀ key, after.orphanUsingUTXO key = before.orphanUsingUTXO key ∨
    after.orphanUsingUTXO key = none ∧ ∃ id, Due crypto before tx id ∧ key = id.byteRepr
  orphans : ∀ h, after.orphans h = before.orphans h ∨
    after.orphans h = none ∧ Promoted crypto before tx h
  mainPool : ∀ h, after.mainPool h = before.mainPool h ∨
    after.mainPool h = before.orphans h ∧ Promoted crypto before tx h

structure RegistersWhole (crypto : Crypto) (tx : LinkedTransaction) (s : PoolState) : Prop where
  returns : ∃ fuel t, Mempool.registerTransaction crypto fuel tx s = (.ok (), t)
  confined : ∀ fuel result t, Mempool.registerTransaction crypto fuel tx s = (result, t) →
    Confined crypto s.pool tx t.pool ∧ t.heap = s.heap
  admission : ∀ lib fuel tr fault t, Mempool.addTransaction lib fuel tr s = (.error fault, t) →
    t.pool.mainPool = s.pool.mainPool

/-- Every output to be registered has its entry, no orphan is promoted with two of them, and
    none that is promoted has an output of the transaction itself. -/
structure Untangled (crypto : Crypto) (pool : Mempool) (tx : LinkedTransaction) : Prop where
  awaited : ∀ id, Due crypto pool tx id → (pool.orphanUsingUTXO id.byteRepr).isSome
  once : ∀ id id' h orphan, Due crypto pool tx id → Due crypto pool tx id' →
    Wakes pool id h orphan → Wakes pool id' h orphan → id = id'
  apart : ∀ id h orphan, Due crypto pool tx id → Wakes pool id h orphan →
    ∀ output ∈ outputIds crypto orphan, output ∉ outputIds crypto tx

/-- Orphans are kept under their hashes, which HashMemory::add sees to. -/
def Filed (crypto : Crypto) (pool : Mempool) : Prop :=
  ∀ h orphan, pool.orphans h = some orphan → h = (orphan.hash crypto).value

def unlisted (pool : Mempool) (id : UTXO) : Mempool :=
  { pool with orphanUsingUTXO := Function.update pool.orphanUsingUTXO id.byteRepr none }

def promote (crypto : Crypto) (pool : Mempool) (h : Bytes) (orphan : LinkedTransaction) :
    Mempool :=
  { pool with
    orphans := pool.orphans.erase h
    mainPool := pool.mainPool.add crypto orphan }

theorem unlisted_here (pool : Mempool) (id : UTXO) :
    (unlisted pool id).orphanUsingUTXO id.byteRepr = none := by
  simp [unlisted]

theorem unlisted_other {key : Bytes} {id : UTXO} (pool : Mempool) (other : key ≠ id.byteRepr) :
    (unlisted pool id).orphanUsingUTXO key = pool.orphanUsingUTXO key := by
  simp [unlisted, other]

theorem promote_here (crypto : Crypto) (pool : Mempool) (h : Bytes) (orphan : LinkedTransaction) :
    (promote crypto pool h orphan).orphans h = none := by
  simp [promote, HashMemory.erase]

theorem promote_other {crypto : Crypto} {h key : Bytes} (pool : Mempool)
    (orphan : LinkedTransaction) (other : key ≠ h) :
    (promote crypto pool h orphan).orphans key = pool.orphans key := by
  simp [promote, HashMemory.erase, other]

/-- The pool after the turn of the loop for an output that this orphan waits for. -/
def visited (crypto : Crypto) (pool : Mempool) (id : UTXO) (h : Bytes)
    (orphan : LinkedTransaction) : Mempool :=
  if orphan.isOrphan then unlisted pool id else promote crypto (unlisted pool id) h orphan

/-- The outputs that the turn adds to those to be registered. -/
def released (crypto : Crypto) (orphan : LinkedTransaction) : List UTXO :=
  if orphan.isOrphan then [] else outputIds crypto orphan

/-- The outputs are registered one after the other, with those of an orphan that is promoted
    in front. -/
inductive Handles (crypto : Crypto) : Mempool → List UTXO → List UTXO → Mempool → Prop
  | done (pool : Mempool) : Handles crypto pool [] [] pool
  | turn {pool after : Mempool} {id : UTXO} {pending handled : List UTXO} {h : Bytes}
      {orphan : LinkedTransaction} (entry : pool.orphanUsingUTXO id.byteRepr = some h)
      (found : pool.orphans h = some orphan)
      (rest : Handles crypto (visited crypto pool id h orphan) (released crypto orphan ++ pending)
        handled after) :
      Handles crypto pool (id :: pending) (id :: handled) after

section Visits
variable {crypto : Crypto} {pool : Mempool} {id : UTXO} {h : Bytes} {orphan : LinkedTransaction}

theorem visited_entries :
    (visited crypto pool id h orphan).orphanUsingUTXO = (unlisted pool id).orphanUsingUTXO := by
  unfold visited
  split
  · rfl
  · rfl

theorem visited_entry_kept {other : UTXO} (apart : other ≠ id) :
    (visited crypto pool id h orphan).orphanUsingUTXO other.byteRepr =
      pool.orphanUsingUTXO other.byteRepr := by
  rw [visited_entries, unlisted_other]
  exact fun same => apart (identifier_byteRepr_injective same)

theorem visited_orphans (key : Bytes) : (visited crypto pool id h orphan).orphans key =
    if key = h ∧ orphan.isOrphan = false then none else pool.orphans key := by
  unfold visited
  cases short : orphan.isOrphan with
  | true => simp [unlisted]
  | false =>
    by_cases here : key = h
    · simp [here, promote_here]
    · simp only [here, false_and, ↓reduceIte, Bool.false_eq_true]
      rw [promote_other _ orphan here]
      rfl

end Visits

section Recursion
variable {crypto : Crypto}

/-- The loop of registerTransaction, where the calls it makes have this fuel. -/
def registerAll (crypto : Crypto) (fuel : Nat) (ids : List UTXO) : PoolM Unit :=
  forM ids (Mempool.registerOutput crypto (Mempool.registerTransaction crypto fuel))

theorem registerTransaction_succ (fuel : Nat) (tx : LinkedTransaction) :
    Mempool.registerTransaction crypto (fuel + 1) tx =
      registerAll crypto fuel (outputIds crypto tx) := by
  rw [registerAll, outputIds, List.forM_map]
  rfl

theorem registerOutput_cases (register : LinkedTransaction → PoolM Unit) (id : UTXO)
    (s : PoolState) : Mempool.registerOutput crypto register id s =
      match s.pool.orphans ((s.pool.orphanUsingUTXO id.byteRepr).getD []) with
      | none => (.error .outOfRange, ⟨unlisted s.pool id, s.heap⟩)
      | some orphan =>
        if orphan.isOrphan then (.ok (), ⟨unlisted s.pool id, s.heap⟩)
        else register orphan ⟨promote crypto (unlisted s.pool id)
          ((s.pool.orphanUsingUTXO id.byteRepr).getD []) orphan, s.heap⟩ := by
  simp only [Mempool.registerOutput, pool_bind_run, getPool, setPool, Mempool.updateOrphan,
    orphansGet, HashMemory.get]
  cases s.pool.orphans ((s.pool.orphanUsingUTXO id.byteRepr).getD []) with
  | none => rfl
  | some orphan =>
    cases short : orphan.isOrphan with
    | true =>
      simp only [short]
      rfl
    | false =>
      simp only [short]
      rfl

/-- No orphan is kept under the empty string, which stands for a missing entry. -/
theorem entry_found {pool : Mempool} (filed : Filed crypto pool) {id : UTXO}
    {orphan : LinkedTransaction}
    (found : pool.orphans ((pool.orphanUsingUTXO id.byteRepr).getD []) = some orphan) :
    ∃ h, pool.orphanUsingUTXO id.byteRepr = some h ∧ pool.orphans h = some orphan := by
  cases entry : pool.orphanUsingUTXO id.byteRepr with
  | none =>
    rw [entry] at found
    have length := congrArg List.length (filed [] orphan found)
    simp [HASH_LENGTH] at length
  | some h =>
    rw [entry] at found
    exact ⟨h, rfl, found⟩

section Output
variable {register : LinkedTransaction → PoolM Unit} {id : UTXO} {h : Bytes}
  {orphan : LinkedTransaction} {s t : PoolState}

theorem registerOutput_found (entry : s.pool.orphanUsingUTXO id.byteRepr = some h)
    (found : s.pool.orphans h = some orphan) :
    Mempool.registerOutput crypto register id s =
      if orphan.isOrphan then (.ok (), ⟨visited crypto s.pool id h orphan, s.heap⟩)
      else register orphan ⟨visited crypto s.pool id h orphan, s.heap⟩ := by
  rw [registerOutput_cases]
  simp only [entry, Option.getD_some, found, visited]
  split
  · rfl
  · rfl

/-- A turn of the loop that raises nothing has found an orphan. -/
theorem registerOutput_ok (filed : Filed crypto s.pool)
    (run : Mempool.registerOutput crypto register id s = (.ok (), t)) :
    ∃ h orphan, s.pool.orphanUsingUTXO id.byteRepr = some h ∧ s.pool.orphans h = some orphan := by
  cases there : s.pool.orphans ((s.pool.orphanUsingUTXO id.byteRepr).getD []) with
  | none =>
    rw [registerOutput_cases, there] at run
    cases run
  | some orphan =>
    obtain ⟨h, entry, found⟩ := entry_found filed there
    exact ⟨h, orphan, entry, found⟩

end Output

theorem registerAll_cons (fuel : Nat) (id : UTXO) (ids : List UTXO) (s : PoolState) :
    registerAll crypto fuel (id :: ids) s =
      match Mempool.registerOutput crypto (Mempool.registerTransaction crypto fuel) id s with
      | (.ok _, t) => registerAll crypto fuel ids t
      | (.error fault, t) => (.error fault, t) := by
  rw [registerAll, List.forM_cons, pool_bind_run]
  rcases Mempool.registerOutput crypto (Mempool.registerTransaction crypto fuel) id s with
    ⟨result, t⟩
  cases result with
  | error fault => rfl
  | ok _ => rfl

theorem registerAll_append (fuel : Nat) (ids more : List UTXO) (s : PoolState) :
    registerAll crypto fuel (ids ++ more) s = match registerAll crypto fuel ids s with
      | (.ok _, t) => registerAll crypto fuel more t
      | (.error fault, t) => (.error fault, t) := by
  rw [registerAll, List.forM_append, pool_bind_run, ← registerAll]
  rcases registerAll crypto fuel ids s with ⟨result, t⟩
  cases result with
  | error fault => rfl
  | ok _ => rfl

end Recursion

section Confinement
variable {crypto : Crypto} {before pool : Mempool} {tx orphan : LinkedTransaction} {id : UTXO}
  {h : Bytes}

theorem confined_refl (pool : Mempool) (tx : LinkedTransaction) : Confined crypto pool tx pool :=
  ⟨rfl, rfl, fun _ => Or.inl rfl, fun _ => Or.inl rfl, fun _ => Or.inl rfl⟩

theorem wakes_before (confined : Confined crypto before tx pool) (wakes : Wakes pool id h orphan) :
    Wakes before id h orphan := by
  obtain ⟨entry, found, whole⟩ := wakes
  refine ⟨?_, ?_, whole⟩
  · rcases confined.entries id.byteRepr with same | ⟨gone, _⟩
    · exact same.symm.trans entry
    · cases gone.symm.trans entry
  · rcases confined.orphans h with same | ⟨gone, _⟩
    · exact same.symm.trans found
    · cases gone.symm.trans found

theorem filed_confined (filed : Filed crypto before) (confined : Confined crypto before tx pool) :
    Filed crypto pool := by
  intro key other found
  rcases confined.orphans key with same | ⟨gone, _⟩
  · exact filed key other (same.symm.trans found)
  · cases gone.symm.trans found

theorem unlisted_confined (confined : Confined crypto before tx pool)
    (due : Due crypto before tx id) : Confined crypto before tx (unlisted pool id) := by
  refine ⟨confined.utxos, confined.height, ?_, confined.orphans, confined.mainPool⟩
  intro key
  by_cases here : key = id.byteRepr
  · right
    rw [here]
    exact ⟨unlisted_here pool id, id, due, rfl⟩
  · rw [unlisted_other pool here]
    exact confined.entries key

theorem promote_confined (filed : Filed crypto before) (confined : Confined crypto before tx pool)
    (due : Due crypto before tx id) (wakes : Wakes pool id h orphan) :
    Confined crypto before tx (promote crypto (unlisted pool id) h orphan) := by
  have woken := wakes_before confined wakes
  have kept := unlisted_confined confined due
  have promoted : Promoted crypto before tx h := ⟨id, orphan, due, woken⟩
  refine ⟨kept.utxos, kept.height, kept.entries, ?_, ?_⟩
  · intro key
    by_cases here : key = h
    · right
      rw [here]
      exact ⟨promote_here crypto _ h orphan, promoted⟩
    · rw [promote_other _ orphan here]
      exact kept.orphans key
  · intro key
    change (pool.mainPool.add crypto orphan) key = _ ∨ (pool.mainPool.add crypto orphan) key = _ ∧ _
    unfold HashMemory.add
    split
    · exact confined.mainPool key
    · rw [← filed h orphan woken.2.1]
      by_cases here : key = h
      · right
        rw [here, Function.update_self, woken.2.1]
        exact ⟨rfl, promoted⟩
      · rw [Function.update_of_ne here]
        exact confined.mainPool key

theorem registerOutput_confined {register : LinkedTransaction → PoolM Unit}
    (keeps : ∀ other s, (∀ output ∈ outputIds crypto other, Due crypto before tx output) →
      Confined crypto before tx s.pool → Confined crypto before tx (register other s).2.pool ∧
        (register other s).2.heap = s.heap)
    (filed : Filed crypto before) (due : Due crypto before tx id) {s : PoolState}
    (confined : Confined crypto before tx s.pool) :
    Confined crypto before tx (Mempool.registerOutput crypto register id s).2.pool ∧
      (Mempool.registerOutput crypto register id s).2.heap = s.heap := by
  rw [registerOutput_cases]
  split
  · exact ⟨unlisted_confined confined due, rfl⟩
  · rename_i other there
    split
    · exact ⟨unlisted_confined confined due, rfl⟩
    · rename_i whole
      obtain ⟨key, entry, found⟩ := entry_found (filed_confined filed confined) there
      have wakes : Wakes s.pool id key other := ⟨entry, found, by simpa using whole⟩
      rw [entry, Option.getD_some]
      exact keeps other _ (fun output member => due.promoted (wakes_before confined wakes) member)
        (promote_confined filed confined due wakes)

theorem forM_confined {register : LinkedTransaction → PoolM Unit}
    (keeps : ∀ other s, (∀ output ∈ outputIds crypto other, Due crypto before tx output) →
      Confined crypto before tx s.pool → Confined crypto before tx (register other s).2.pool ∧
        (register other s).2.heap = s.heap)
    (filed : Filed crypto before) (ids : List UTXO) (due : ∀ id ∈ ids, Due crypto before tx id)
    (s : PoolState) (confined : Confined crypto before tx s.pool) :
    Confined crypto before tx (forM ids (Mempool.registerOutput crypto register) s).2.pool ∧
      (forM ids (Mempool.registerOutput crypto register) s).2.heap = s.heap := by
  induction ids generalizing s with
  | nil => exact ⟨confined, rfl⟩
  | cons id ids ih =>
    obtain ⟨first, others⟩ := List.forall_mem_cons.mp due
    have one := registerOutput_confined keeps filed first confined
    rw [List.forM_cons, pool_bind_run]
    split
    · rename_i t run
      rw [run] at one
      obtain ⟨rest, heap⟩ := ih others t one.1
      exact ⟨rest, heap.trans one.2⟩
    · rename_i fault t run
      rw [run] at one
      exact one

/-- By induction on the fuel, and on the outputs at each depth. -/
theorem registerTransaction_confined (filed : Filed crypto before) (fuel : Nat)
    (other : LinkedTransaction) (s : PoolState)
    (due : ∀ output ∈ outputIds crypto other, Due crypto before tx output)
    (confined : Confined crypto before tx s.pool) :
    Confined crypto before tx (Mempool.registerTransaction crypto fuel other s).2.pool ∧
      (Mempool.registerTransaction crypto fuel other s).2.heap = s.heap := by
  induction fuel generalizing other s with
  | zero => exact ⟨confined, rfl⟩
  | succ fuel deeper =>
    rw [registerTransaction_succ]
    exact forM_confined deeper filed _ due s confined

end Confinement

section Worklist
variable {crypto : Crypto}

theorem filed_visited {pool : Mempool} (filed : Filed crypto pool) (id : UTXO) (h : Bytes)
    (orphan : LinkedTransaction) : Filed crypto (visited crypto pool id h orphan) := by
  intro key other found
  rw [visited_orphans] at found
  split at found
  · cases found
  · exact filed key other found

/-- A run over these outputs goes in front of any run from where it ends. -/
def Prepends (crypto : Crypto) (ids : List UTXO) (s t : PoolState) : Prop :=
  Filed crypto t.pool ∧ ∀ pending after, (∃ handled, Handles crypto t.pool pending handled after) →
    ∃ handled, Handles crypto s.pool (ids ++ pending) handled after

theorem forM_prepends {register : LinkedTransaction → PoolM Unit}
    (deeper : ∀ other s t, Filed crypto s.pool → register other s = (.ok (), t) →
      Prepends crypto (outputIds crypto other) s t) (ids : List UTXO) (s t : PoolState)
    (filed : Filed crypto s.pool)
    (run : forM ids (Mempool.registerOutput crypto register) s = (.ok (), t)) :
    Prepends crypto ids s t := by
  induction ids generalizing s with
  | nil =>
    cases run
    exact ⟨filed, fun pending after rest => rest⟩
  | cons id ids ih =>
    rw [List.forM_cons, pool_bind_run] at run
    split at run
    · rename_i mid first
      obtain ⟨h, orphan, entry, found⟩ := registerOutput_ok filed first
      rw [registerOutput_found entry found] at first
      have turn : Prepends crypto (released crypto orphan)
          ⟨visited crypto s.pool id h orphan, s.heap⟩ mid := by
        have filed' := filed_visited filed id h orphan
        unfold released
        split at first
        · rename_i short
          cases first
          rw [if_pos short]
          exact ⟨filed', fun pending after rest => rest⟩
        · rename_i whole
          rw [if_neg whole]
          exact deeper orphan ⟨_, s.heap⟩ mid filed' first
      obtain ⟨kept, front⟩ := turn
      obtain ⟨kept', onward⟩ := ih mid kept run
      refine ⟨kept', fun pending after rest => ?_⟩
      obtain ⟨handled, later⟩ := front (ids ++ pending) after (onward pending after rest)
      exact ⟨id :: handled, .turn entry found later⟩
    · cases run

theorem registerTransaction_prepends (fuel : Nat) (tx : LinkedTransaction) (s t : PoolState)
    (filed : Filed crypto s.pool)
    (run : Mempool.registerTransaction crypto fuel tx s = (.ok (), t)) :
    Prepends crypto (outputIds crypto tx) s t := by
  induction fuel generalizing tx s t with
  | zero => cases run
  | succ fuel deeper =>
    rw [registerTransaction_succ] at run
    exact forM_prepends deeper _ s t filed run

theorem forM_more {register longer : LinkedTransaction → PoolM Unit}
    (more : ∀ other s t, register other s = (.ok (), t) → longer other s = (.ok (), t))
    (ids : List UTXO) (s t : PoolState)
    (run : forM ids (Mempool.registerOutput crypto register) s = (.ok (), t)) :
    forM ids (Mempool.registerOutput crypto longer) s = (.ok (), t) := by
  induction ids generalizing s with
  | nil => exact run
  | cons id ids ih =>
    have first : ∀ mid, Mempool.registerOutput crypto register id s = (.ok (), mid) →
        Mempool.registerOutput crypto longer id s = (.ok (), mid) := by
      intro mid one
      rw [registerOutput_cases] at one ⊢
      split at one
      · exact one
      · split at one
        · rename_i short
          rwa [if_pos short]
        · rename_i whole
          rw [if_neg whole]
          exact more _ _ mid one
    rw [List.forM_cons, pool_bind_run] at run ⊢
    split at run
    · rename_i mid one
      rw [first mid one]
      exact ih mid run
    · cases run

theorem registerTransaction_more (fuel : Nat) (tx : LinkedTransaction) (s t : PoolState)
    (run : Mempool.registerTransaction crypto fuel tx s = (.ok (), t)) :
    Mempool.registerTransaction crypto (fuel + 1) tx s = (.ok (), t) := by
  induction fuel generalizing tx s t with
  | zero => cases run
  | succ fuel ih =>
    rw [registerTransaction_succ] at run ⊢
    exact forM_more ih _ s t run

theorem run_of_handles {pool after : Mempool} {ids handled : List UTXO} (heap : Heap)
    (handles : Handles crypto pool ids handled after) :
    ∃ fuel, registerAll crypto fuel ids ⟨pool, heap⟩ = (.ok (), ⟨after, heap⟩) := by
  induction handles with
  | done pool => exact ⟨0, rfl⟩
  | @turn pool after id pending handled h orphan entry found rest ih =>
    obtain ⟨fuel, run⟩ := ih
    refine ⟨fuel + 1, ?_⟩
    rw [registerAll_append] at run
    rw [registerAll_cons, registerOutput_found (s := ⟨pool, heap⟩) entry found]
    split at run
    · rename_i mid first
      have turn : (if orphan.isOrphan then (.ok (), ⟨visited crypto pool id h orphan, heap⟩)
          else Mempool.registerTransaction crypto (fuel + 1) orphan
            ⟨visited crypto pool id h orphan, heap⟩) = (.ok (), mid) := by
        unfold released at first
        split at first
        · rename_i short
          rw [if_pos short]
          exact first
        · rename_i whole
          rw [if_neg whole, registerTransaction_succ]
          exact first
      simp only [turn]
      exact forM_more (registerTransaction_more fuel) _ mid _ run
    · cases run

theorem returns_iff_handles {s : PoolState} (filed : Filed crypto s.pool) (tx : LinkedTransaction) :
    (∃ fuel t, Mempool.registerTransaction crypto fuel tx s = (.ok (), t)) ↔
      ∃ handled after, Handles crypto s.pool (outputIds crypto tx) handled after := by
  constructor
  · intro returns
    obtain ⟨fuel, t, run⟩ := returns
    obtain ⟨_, front⟩ := registerTransaction_prepends fuel tx s t filed run
    obtain ⟨handled, handles⟩ := front [] t.pool ⟨[], .done t.pool⟩
    rw [List.append_nil] at handles
    exact ⟨handled, t.pool, handles⟩
  · intro handles
    obtain ⟨handled, after, handles⟩ := handles
    obtain ⟨fuel, run⟩ := run_of_handles s.heap handles
    exact ⟨fuel + 1, _, (registerTransaction_succ fuel tx).symm ▸ run⟩

end Worklist

/-- What a whole run says of the pool it starts from. -/
structure HandledOnce (crypto : Crypto) (pool : Mempool) (pending handled : List UTXO) : Prop where
  all : pending.Sublist handled
  distinct : handled.Nodup
  entry : ∀ id ∈ handled, ∃ h orphan, pool.orphanUsingUTXO id.byteRepr = some h ∧
    pool.orphans h = some orphan
  outputs : ∀ id ∈ handled, ∀ h orphan, Wakes pool id h orphan →
    ∀ output ∈ outputIds crypto orphan, output ∈ handled ∧ output ∉ pending
  once : ∀ id ∈ handled, ∀ id' ∈ handled, ∀ h orphan, Wakes pool id h orphan →
    Wakes pool id' h orphan → id = id'

section Turns
variable {crypto : Crypto} {pool : Mempool} {id : UTXO} {h : Bytes} {orphan : LinkedTransaction}
  {pending handled : List UTXO}

/-- An output that is handled later is another one, and finds what is there now. -/
theorem later_found (rest : HandledOnce crypto (visited crypto pool id h orphan) pending handled)
    {later : UTXO} (member : later ∈ handled) : later ≠ id ∧
      ∃ key other, pool.orphanUsingUTXO later.byteRepr = some key ∧ pool.orphans key = some other ∧
        (key ≠ h ∨ orphan.isOrphan = true) := by
  obtain ⟨key, other, entry, found⟩ := rest.entry later member
  have apart : later ≠ id := by
    intro same
    rw [visited_entries, same, unlisted_here] at entry
    cases entry
  rw [visited_entry_kept apart] at entry
  rw [visited_orphans] at found
  split at found
  · cases found
  · rename_i stays
    exact ⟨apart, key, other, entry, found, by simpa [imp_iff_not_or] using stays⟩

theorem later_wakes (rest : HandledOnce crypto (visited crypto pool id h orphan) pending handled)
    {later : UTXO} (member : later ∈ handled) {key : Bytes} {other : LinkedTransaction}
    (wakes : Wakes pool later key other) :
    Wakes (visited crypto pool id h orphan) later key other := by
  obtain ⟨apart, key', other', entry', found', stays⟩ := later_found rest member
  obtain ⟨entry, found, whole⟩ := wakes
  obtain rfl := Option.some.inj (entry.symm.trans entry')
  refine ⟨by rw [visited_entry_kept apart, entry], ?_, whole⟩
  rw [visited_orphans, if_neg, found]
  intro both
  obtain ⟨rfl, gone⟩ := both
  rcases stays with differs | short
  · exact differs rfl
  · rw [gone] at short
    cases short

/-- An orphan that is woken now is not woken again. -/
theorem later_unshared (entry : pool.orphanUsingUTXO id.byteRepr = some h)
    (found : pool.orphans h = some orphan)
    (rest : HandledOnce crypto (visited crypto pool id h orphan) pending handled)
    {later : UTXO} (member : later ∈ handled) {key : Bytes} {other : LinkedTransaction}
    (wakes : Wakes pool id key other) : ¬ Wakes pool later key other := by
  intro again
  obtain ⟨_, key', _, entry', _, stays⟩ := later_found rest member
  obtain rfl := Option.some.inj (entry.symm.trans wakes.1)
  obtain rfl := Option.some.inj (found.symm.trans wakes.2.1)
  obtain rfl := Option.some.inj (again.1.symm.trans entry')
  rcases stays with differs | short
  · exact differs rfl
  · rw [wakes.2.2] at short
    cases short

/-- The outputs of the orphan that is woken now are all handled later. -/
theorem released_later (rest : HandledOnce crypto (visited crypto pool id h orphan)
    (released crypto orphan ++ pending) handled) (whole : orphan.isOrphan = false) {output : UTXO}
    (own : output ∈ outputIds crypto orphan) : output ∈ handled ∧ output ∉ pending := by
  have new : released crypto orphan = outputIds crypto orphan := by simp [released, whole]
  have distinct := rest.distinct.sublist rest.all
  rw [new] at distinct
  refine ⟨rest.all.subset (List.mem_append_left _ (new ▸ own)), ?_⟩
  exact (List.nodup_append'.mp distinct).2.2 own

theorem handledOnce_turn (entry : pool.orphanUsingUTXO id.byteRepr = some h)
    (found : pool.orphans h = some orphan)
    (rest : HandledOnce crypto (visited crypto pool id h orphan)
      (released crypto orphan ++ pending) handled) :
    HandledOnce crypto pool (id :: pending) (id :: handled) := by
  have apart : id ∉ handled := fun member => (later_found rest member).1 rfl
  have inside : pending.Sublist handled :=
    (List.sublist_append_right _ pending).trans rest.all
  refine ⟨inside.cons_cons id, List.nodup_cons.mpr ⟨apart, rest.distinct⟩, ?_, ?_, ?_⟩
  · intro id' member
    rcases List.mem_cons.mp member with rfl | member
    · exact ⟨h, orphan, entry, found⟩
    · obtain ⟨_, key, other, entry', found', _⟩ := later_found rest member
      exact ⟨key, other, entry', found'⟩
  · intro id' member key other wakes output out
    have later : output ∈ handled ∧ output ∉ pending := by
      rcases List.mem_cons.mp member with rfl | member
      · obtain rfl := Option.some.inj (entry.symm.trans wakes.1)
        obtain rfl := Option.some.inj (found.symm.trans wakes.2.1)
        exact released_later rest wakes.2.2 out
      · obtain ⟨also, away⟩ := rest.outputs id' member key other (later_wakes rest member wakes)
          output out
        exact ⟨also, fun there => away (List.mem_append_right _ there)⟩
    refine ⟨List.mem_cons_of_mem id later.1, ?_⟩
    intro front
    rcases List.mem_cons.mp front with rfl | there
    · exact apart later.1
    · exact later.2 there
  · intro a inA b inB key other wakes wakes'
    rcases List.mem_cons.mp inA with hereA | laterA
    · rcases List.mem_cons.mp inB with hereB | laterB
      · rw [hereA, hereB]
      · exact absurd wakes' (later_unshared entry found rest laterB (hereA ▸ wakes))
    · rcases List.mem_cons.mp inB with hereB | laterB
      · exact absurd wakes (later_unshared entry found rest laterA (hereB ▸ wakes'))
      · exact rest.once a laterA b laterB key other (later_wakes rest laterA wakes)
          (later_wakes rest laterB wakes')

theorem handled_once {after : Mempool} (handles : Handles crypto pool pending handled after) :
    HandledOnce crypto pool pending handled := by
  induction handles with
  | done pool => exact ⟨List.Sublist.refl [], List.nodup_nil, nofun, nofun, nofun⟩
  | turn entry found _ ih => exact handledOnce_turn entry found ih

/-- By induction on the outputs that are due: all of them are handled. -/
theorem due_handled {tx : LinkedTransaction}
    (run : HandledOnce crypto pool (outputIds crypto tx) handled)
    (due : Due crypto pool tx id) : id ∈ handled := by
  induction due with
  | own output => exact run.all.subset output
  | promoted _ wakes member ih => exact (run.outputs _ ih _ _ wakes _ member).1

theorem untangled_of_handled {tx : LinkedTransaction}
    (run : HandledOnce crypto pool (outputIds crypto tx) handled) : Untangled crypto pool tx := by
  refine ⟨?_, ?_, ?_⟩
  · intro id due
    obtain ⟨h, _, entry, _⟩ := run.entry id (due_handled run due)
    rw [entry]
    rfl
  · intro id id' h orphan due due' wakes wakes'
    exact run.once id (due_handled run due) id' (due_handled run due') h orphan wakes wakes'
  · intro id h orphan due wakes output member
    exact (run.outputs id (due_handled run due) h orphan wakes output member).2

end Turns

/-- A run that has come so far over an untangled pool. -/
structure Midway (crypto : Crypto) (before : Mempool) (tx : LinkedTransaction) (pool : Mempool)
    (pending handled : List UTXO) : Prop where
  due : ∀ id ∈ pending ++ handled, Due crypto before tx id
  distinct : (pending ++ handled).Nodup
  entries : ∀ id, id ∉ handled → pool.orphanUsingUTXO id.byteRepr = before.orphanUsingUTXO id.byteRepr
  orphans : ∀ h orphan, before.orphans h = some orphan →
    (∀ id ∈ handled, ¬ Wakes before id h orphan) → pool.orphans h = some orphan
  owners : ∀ id ∈ pending ++ handled, id ∈ outputIds crypto tx ∨
    ∃ woken ∈ handled, ∃ h orphan, Wakes before woken h orphan ∧ id ∈ outputIds crypto orphan

section Converse
variable {crypto : Crypto} {before pool : Mempool} {tx : LinkedTransaction}
  {pending handled : List UTXO}

theorem outputIds_nodup (crypto : Crypto) (tx : LinkedTransaction) :
    (outputIds crypto tx).Nodup := by
  have indices := outputs_distinct tx
  refine List.Nodup.of_map TransactionIdentifier.index ?_
  simpa [outputIds, Function.comp_def] using indices

theorem midway_start (pool : Mempool) (tx : LinkedTransaction) :
    Midway crypto pool tx pool (outputIds crypto tx) [] := by
  have distinct := outputIds_nodup crypto tx
  refine ⟨?_, by rwa [List.append_nil], fun _ _ => rfl, fun _ _ found _ => found, ?_⟩
  · intro id member
    rw [List.append_nil] at member
    exact .own member
  · intro id member
    rw [List.append_nil] at member
    exact Or.inl member

theorem released_owner {orphan : LinkedTransaction} {output : UTXO}
    (member : output ∈ released crypto orphan) :
    orphan.isOrphan = false ∧ output ∈ outputIds crypto orphan := by
  unfold released at member
  split at member
  · cases member
  · rename_i whole
    exact ⟨by simpa using whole, member⟩

theorem output_hash {owner : LinkedTransaction} {output : UTXO}
    (member : output ∈ outputIds crypto owner) : output.transactionHash = owner.hash crypto := by
  obtain ⟨i, _, rfl⟩ := List.mem_map.mp member
  rfl

theorem released_nodup (orphan : LinkedTransaction) : (released crypto orphan).Nodup := by
  unfold released
  split
  · exact List.nodup_nil
  · exact outputIds_nodup crypto orphan

/-- An orphan is woken by one output only, so not by those before. -/
theorem midway_unwoken (untangled : Untangled crypto before tx) {id : UTXO}
    (midway : Midway crypto before tx pool (id :: pending) handled) {h : Bytes}
    {orphan : LinkedTransaction} (entry : before.orphanUsingUTXO id.byteRepr = some h)
    (found : before.orphans h = some orphan) :
    ∀ other ∈ handled, ¬ Wakes before other h orphan := by
  intro other member wakes
  have same := untangled.once id other h orphan (midway.due id (by simp))
    (midway.due other (List.mem_append_right _ member)) ⟨entry, found, wakes.2.2⟩ wakes
  have distinct := midway.distinct
  rw [List.cons_append, List.nodup_cons, same] at distinct
  exact distinct.1 (List.mem_append_right _ member)

/-- The outputs of an orphan that is promoted have not been due before. -/
theorem midway_fresh (untangled : Untangled crypto before tx) (filed : Filed crypto before)
    {id : UTXO} (midway : Midway crypto before tx pool (id :: pending) handled) {h : Bytes}
    {orphan : LinkedTransaction} (woken : Wakes before id h orphan) {output : UTXO}
    (own : output ∈ outputIds crypto orphan) : output ∉ id :: pending ++ handled := by
  intro old
  rcases midway.owners output old with first | ⟨other, also, key, owner, wakes, own'⟩
  · exact untangled.apart id h orphan (midway.due id (by simp)) woken output own first
  · -- orphans with a common output have one hash, and are one
    have hashes := (output_hash own).symm.trans (output_hash own')
    have keys : key = h := by
      rw [filed key owner wakes.2.1, filed h orphan woken.2.1, hashes]
    rw [keys] at wakes
    obtain rfl := Option.some.inj (woken.2.1.symm.trans wakes.2.1)
    exact midway_unwoken untangled midway woken.1 woken.2.1 other also wakes

/-- In an untangled pool the orphan of the next output is there, and its outputs are new. -/
theorem midway_turn (untangled : Untangled crypto before tx)
    (indexed : ∀ key h, before.orphanUsingUTXO key = some h → before.orphanExists h = true)
    (filed : Filed crypto before) {id : UTXO}
    (midway : Midway crypto before tx pool (id :: pending) handled) :
    ∃ h orphan, pool.orphanUsingUTXO id.byteRepr = some h ∧ pool.orphans h = some orphan ∧
      Midway crypto before tx (visited crypto pool id h orphan)
        (released crypto orphan ++ pending) (id :: handled) := by
  have due := midway.due id (by simp)
  have distinct := midway.distinct
  have unhandled : id ∉ handled := by
    rw [List.cons_append, List.nodup_cons] at distinct
    exact fun member => distinct.1 (List.mem_append_right _ member)
  obtain ⟨h, entry⟩ := Option.isSome_iff_exists.mp (untangled.awaited id due)
  obtain ⟨orphan, found⟩ := Option.isSome_iff_exists.mp (indexed _ h entry)
  have wakes : ∀ output ∈ released crypto orphan, Wakes before id h orphan ∧
      output ∈ outputIds crypto orphan := by
    intro output member
    obtain ⟨whole, own⟩ := released_owner member
    exact ⟨⟨entry, found, whole⟩, own⟩
  have members : ∀ x ∈ released crypto orphan ++ pending ++ id :: handled,
      x ∈ released crypto orphan ∨ x ∈ id :: pending ++ handled := by
    intro x
    simp only [List.mem_append, List.mem_cons]
    tauto
  refine ⟨h, orphan, (midway.entries id unhandled).trans entry,
    midway.orphans h orphan found (midway_unwoken untangled midway entry found), ?_, ?_, ?_, ?_, ?_⟩
  · intro x member
    rcases members x member with new | old
    · exact due.promoted (wakes x new).1 (wakes x new).2
    · exact midway.due x old
  · rw [List.append_assoc, List.nodup_append']
    refine ⟨released_nodup orphan, List.nodup_middle.mpr distinct, ?_⟩
    intro x new old
    apply midway_fresh untangled filed midway (wakes x new).1 (wakes x new).2
    simpa [or_left_comm] using old
  · intro x away
    obtain ⟨apart, unhandled⟩ := List.ne_and_not_mem_of_not_mem_cons away
    rw [visited_entry_kept apart]
    exact midway.entries x unhandled
  · intro key other there unwoken
    obtain ⟨here, others⟩ := List.forall_mem_cons.mp unwoken
    rw [visited_orphans, if_neg]
    · exact midway.orphans key other there others
    · intro gone
      obtain ⟨rfl, whole⟩ := gone
      obtain rfl := Option.some.inj (found.symm.trans there)
      exact here ⟨entry, found, whole⟩
  · intro x member
    rcases members x member with new | old
    · exact Or.inr ⟨id, by simp, h, orphan, wakes x new⟩
    · rcases midway.owners x old with first | ⟨other, also, owner⟩
      · exact Or.inl first
      · exact Or.inr ⟨other, List.mem_cons_of_mem id also, owner⟩

/-- By induction on the number of orphans, and on the outputs that are pending. -/
theorem handles_of_midway (untangled : Untangled crypto before tx)
    (indexed : ∀ key h, before.orphanUsingUTXO key = some h → before.orphanExists h = true)
    (filed : Filed crypto before) (finite : {h | pool.orphans h ≠ none}.Finite)
    (midway : Midway crypto before tx pool pending handled) :
    ∃ later after, Handles crypto pool pending later after := by
  induction count : {h | pool.orphans h ≠ none}.ncard using Nat.strong_induction_on
    generalizing pool pending handled with
  | _ n fewer =>
    induction pending generalizing pool handled with
    | nil => exact ⟨[], pool, .done pool⟩
    | cons id pending ih =>
      obtain ⟨h, orphan, entry, found, next⟩ := midway_turn untangled indexed filed midway
      have rest : ∃ later after, Handles crypto (visited crypto pool id h orphan)
          (released crypto orphan ++ pending) later after := by
        cases short : orphan.isOrphan with
        | true =>
          have same : (visited crypto pool id h orphan).orphans = pool.orphans := by
            funext key
            rw [visited_orphans, if_neg (by simp [short])]
          have nothing : released crypto orphan = [] := by simp [released, short]
          rw [nothing, List.nil_append] at next ⊢
          exact ih (by rwa [same]) next (by rwa [same])
        | false =>
          have less : {key | (visited crypto pool id h orphan).orphans key ≠ none} ⊂
              {key | pool.orphans key ≠ none} := by
            refine ⟨fun key there gone => there ?_, fun all => ?_⟩
            · rw [visited_orphans, gone, ite_self]
            · have still : pool.orphans h ≠ none := by simp [found]
              exact all still (by rw [visited_orphans, if_pos ⟨rfl, short⟩])
          exact fewer _ (count ▸ Set.ncard_lt_ncard less finite) (finite.subset less.subset)
            next rfl
      obtain ⟨later, after, handles⟩ := rest
      exact ⟨id :: later, after, .turn entry found handles⟩

end Converse

theorem addTransaction_mainPool (lib : Libraries) (fuel : Nat) (tr : Transaction) (s : PoolState) :
    (Mempool.addTransaction lib fuel tr s).2.pool.mainPool = s.pool.mainPool := by
  rw [addTransaction_run]
  split
  · rfl
  · split
    · split <;> rfl
    · split
      · rfl
      · split <;> rfl

theorem registers_whole_iff_untangled (crypto : Crypto) (tx : LinkedTransaction) {s : PoolState}
    (indexed : ∀ key h, s.pool.orphanUsingUTXO key = some h → s.pool.orphanExists h = true)
    (filed : Filed crypto s.pool) (finite : {h | s.pool.orphans h ≠ none}.Finite) :
    RegistersWhole crypto tx s ↔ Untangled crypto s.pool tx := by
  constructor
  · intro whole
    obtain ⟨handled, after, handles⟩ := (returns_iff_handles filed tx).mp whole.returns
    exact untangled_of_handled (handled_once handles)
  · intro untangled
    refine ⟨?_, ?_, ?_⟩
    · have run := handles_of_midway untangled indexed filed finite (midway_start s.pool tx)
      exact (returns_iff_handles filed tx).mpr run
    · intro fuel result t run
      have confined := registerTransaction_confined filed fuel tx s (fun _ member => .own member)
        (confined_refl s.pool tx)
      rw [run] at confined
      exact confined
    · intro lib fuel tr fault t run
      have kept := addTransaction_mainPool lib fuel tr s
      rwa [run] at kept

def childPool : Mempool := poolWithChild [outputOf 1 [genesisOutput]]

theorem childPool_orphan {h : Bytes} {orphan : LinkedTransaction}
    (found : childPool.orphans h = some orphan) :
    h = ((spending 2 [outputOf 1 [genesisOutput]]).hash prefixCrypto).value ∧
      orphan = LinkedTransaction.new (spending 2 [outputOf 1 [genesisOutput]])
        (Mempool.new genesisUtxos 0) := by
  rw [childPool, poolWithChild_orphans] at found
  by_cases here : h = ((spending 2 [outputOf 1 [genesisOutput]]).hash prefixCrypto).value
  · rw [here, Function.update_self] at found
    exact ⟨here, (Option.some.inj found).symm⟩
  · rw [Function.update_of_ne here] at found
    cases found

theorem childPool_entries : childPool.orphanUsingUTXO =
    Function.update (fun _ => none) (outputOf 1 [genesisOutput]).byteRepr
      (some ((spending 2 [outputOf 1 [genesisOutput]]).hash prefixCrypto).value) := rfl

theorem childPool_untangled : Untangled prefixCrypto childPool parent := by
  have asleep : ∀ id h orphan, ¬ Wakes childPool id h orphan := by
    intro id h orphan wakes
    obtain ⟨_, found, whole⟩ := wakes
    obtain ⟨_, rfl⟩ := childPool_orphan found
    revert whole
    decide
  refine ⟨?_, fun _ _ _ _ _ _ wakes => absurd wakes (asleep _ _ _),
    fun _ _ _ _ wakes => absurd wakes (asleep _ _ _)⟩
  intro id due
  cases due with
  | own output =>
    have one : outputIds prefixCrypto parent = [outputOf 1 [genesisOutput]] := by decide
    rw [one, List.mem_singleton] at output
    rw [output, childPool_entries, Function.update_self]
    rfl
  | promoted _ wakes _ => exact absurd wakes (asleep _ _ _)

/-- The child in the pool waits for the one output of the parent. -/
theorem awaited_output_registered :
    RegistersWhole prefixCrypto parent ⟨childPool, constantHeap 0⟩ := by
  have indexed : ∀ key h, childPool.orphanUsingUTXO key = some h →
      childPool.orphanExists h = true := by
    intro key h entry
    rw [childPool_entries] at entry
    by_cases here : key = (outputOf 1 [genesisOutput]).byteRepr
    · rw [here, Function.update_self] at entry
      obtain rfl := Option.some.inj entry
      simp [Mempool.orphanExists, HashMemory.exists, childPool, poolWithChild_orphans]
    · rw [Function.update_of_ne here] at entry
      cases entry
  have filed : Filed prefixCrypto childPool := by
    intro h orphan found
    obtain ⟨here, rfl⟩ := childPool_orphan found
    rw [here, linked_toTransaction]
  have finite : {h | childPool.orphans h ≠ none}.Finite := by
    refine (Set.finite_singleton
      ((spending 2 [outputOf 1 [genesisOutput]]).hash prefixCrypto).value).subset ?_
    intro h there
    obtain ⟨orphan, found⟩ := Option.ne_none_iff_exists'.mp there
    exact (childPool_orphan found).1
  exact (registers_whole_iff_untangled prefixCrypto parent indexed filed finite).mpr
    childPool_untangled

/-- No orphan waits for the one output of the parent. -/
theorem unawaited_output_raises :
    (∀ fuel, (Mempool.registerTransaction prefixCrypto (fuel + 1) parent
      ⟨Mempool.new genesisUtxos 0, constantHeap 0⟩).1 = .error .outOfRange) ∧
    ¬ RegistersWhole prefixCrypto parent ⟨Mempool.new genesisUtxos 0, constantHeap 0⟩ := by
  have raises : ∀ fuel, (Mempool.registerTransaction prefixCrypto (fuel + 1) parent
      ⟨Mempool.new genesisUtxos 0, constantHeap 0⟩).1 = .error .outOfRange := fun fuel => rfl
  refine ⟨raises, ?_⟩
  intro whole
  obtain ⟨fuel, t, run⟩ := whole.returns
  cases fuel with
  | zero => cases run
  | succ fuel =>
    have raised := raises fuel
    rw [run] at raised
    cases raised

end EnsicoinOutputRegistration
