import Ensicoin.MempoolAdmission
import Ensicoin.Library.StepRuns

/-!
The index of orphans by the outputs they miss. addTransaction writes an entry for
each missing output of a new orphan and never looks whether another orphan waits for
it, so a run keeps the index exactly as long as no new orphan competes with one that
is there.
-/
namespace EnsicoinOrphanIndex
open EnsicoinRuntime EnsicoinNetworkable EnsicoinScript EnsicoinTransaction EnsicoinUtxo
open EnsicoinLinkedTransaction EnsicoinMempool EnsicoinOrphanPromotion EnsicoinMempoolAdmission
open StepRuns

structure Indexed (crypto : Crypto) (pool : Mempool) : Prop where
  apart : ∀ h h' orphan orphan', pool.orphans h = some orphan → pool.orphans h' = some orphan' →
    orphan.toTransaction ≠ orphan'.toTransaction →
    ∀ dep ∈ orphan.getOrphanDeps, dep ∉ orphan'.getOrphanDeps
  complete : ∀ h orphan, pool.orphans h = some orphan → ∀ dep ∈ orphan.getOrphanDeps,
    pool.orphanUsingUTXO dep.byteRepr = some (orphan.hash crypto).value
  waiting : ∀ key value, pool.orphanUsingUTXO key = some value →
    ∃ h orphan, pool.orphans h = some orphan ∧ value = (orphan.hash crypto).value
  disjoint : ∀ h h' orphan tx, pool.orphans h = some orphan → pool.mainPool h' = some tx →
    orphan.toTransaction ≠ tx.toTransaction

/-- The transaction becomes an orphan, and one that is there misses an output it misses. -/
def Competes (lib : Libraries) (s : PoolState) (tx : Transaction) : Prop :=
  tx.check lib = true ∧ (LinkedTransaction.new tx s.pool).isOrphan = true ∧
    s.pool.orphanExists (tx.hash lib.toCrypto).value = false ∧
    ∃ h orphan, s.pool.orphans h = some orphan ∧
      ∃ dep ∈ orphan.getOrphanDeps, dep ∈ (LinkedTransaction.new tx s.pool).getOrphanDeps

def Uncontested (lib : Libraries) (s : PoolState) (event : Event) : Prop :=
  ∀ tx, event = .addTransaction tx → ¬ Competes lib s tx

/-- What holds in every run: orphans are stored under their hashes, and mainPool is empty. -/
def Stored (crypto : Crypto) (pool : Mempool) : Prop :=
  (∀ h orphan, pool.orphans h = some orphan → h = (orphan.hash crypto).value) ∧
    ∀ h, pool.mainPool h = none

section KeptOrphan
variable {crypto : Crypto} {pool : Mempool} {orphan : LinkedTransaction}

theorem absent_none (absent : pool.orphanExists (orphan.hash crypto).value = false) :
    pool.orphans (orphan.hash crypto).value = none := by
  simpa [Mempool.orphanExists, HashMemory.exists] using absent

theorem keepOrphan_orphans (absent : pool.orphanExists (orphan.hash crypto).value = false) :
    (keepOrphan crypto pool orphan).orphans =
      Function.update pool.orphans (orphan.hash crypto).value (some orphan) :=
  HashMemory.add_absent crypto pool.orphans orphan (absent_none absent)

theorem keepOrphan_entry (key : Bytes) : (keepOrphan crypto pool orphan).orphanUsingUTXO key =
    if ∃ dep ∈ orphan.getOrphanDeps, dep.byteRepr = key then some (orphan.hash crypto).value
    else pool.orphanUsingUTXO key :=
  MapHistory.writes_lookup _ _ orphan.getOrphanDeps pool.orphanUsingUTXO key

/-- An orphan in the new pool is the new one or one that was there. -/
theorem keepOrphan_found (absent : pool.orphanExists (orphan.hash crypto).value = false)
    {h : Bytes} {other : LinkedTransaction}
    (found : (keepOrphan crypto pool orphan).orphans h = some other) :
    h = (orphan.hash crypto).value ∧ other = orphan ∨ pool.orphans h = some other := by
  rw [keepOrphan_orphans absent] at found
  by_cases here : h = (orphan.hash crypto).value
  · rw [here, Function.update_self] at found
    exact Or.inl ⟨here, (Option.some.inj found).symm⟩
  · rw [Function.update_of_ne here] at found
    exact Or.inr found

theorem keepOrphan_kept (absent : pool.orphanExists (orphan.hash crypto).value = false)
    {h : Bytes} {other : LinkedTransaction} (found : pool.orphans h = some other) :
    (keepOrphan crypto pool orphan).orphans h = some other := by
  have there : h ≠ (orphan.hash crypto).value := by
    intro same
    rw [same, absent_none absent] at found
    cases found
  rw [keepOrphan_orphans absent, Function.update_of_ne there, found]

theorem keepOrphan_new (absent : pool.orphanExists (orphan.hash crypto).value = false) :
    (keepOrphan crypto pool orphan).orphans (orphan.hash crypto).value = some orphan := by
  rw [keepOrphan_orphans absent, Function.update_self]

theorem keepOrphan_stored (absent : pool.orphanExists (orphan.hash crypto).value = false)
    (stored : Stored crypto pool) : Stored crypto (keepOrphan crypto pool orphan) := by
  refine ⟨?_, stored.2⟩
  intro h other found
  rcases keepOrphan_found absent found with ⟨here, rfl⟩ | old
  · exact here
  · exact stored.1 h other old

/-- A newcomer is another transaction than those that wait. -/
theorem newcomer_differs (absent : pool.orphanExists (orphan.hash crypto).value = false)
    (stored : Stored crypto pool) {h : Bytes} {other : LinkedTransaction}
    (found : pool.orphans h = some other) : other.toTransaction ≠ orphan.toTransaction := by
  intro same
  have key := stored.1 h other found
  rw [key, same, absent_none absent] at found
  cases found

theorem keepOrphan_indexed_iff (absent : pool.orphanExists (orphan.hash crypto).value = false)
    (stored : Stored crypto pool) (indexed : Indexed crypto pool) :
    Indexed crypto (keepOrphan crypto pool orphan) ↔ ∀ h other, pool.orphans h = some other →
      ∀ dep ∈ other.getOrphanDeps, dep ∉ orphan.getOrphanDeps := by
  constructor
  · intro after h other found
    exact after.apart h _ other orphan (keepOrphan_kept absent found) (keepOrphan_new absent)
      (newcomer_differs absent stored found)
  · intro apart
    refine ⟨?_, ?_, ?_, ?_⟩
    · intro h h' o o' found found' differ dep missing missing'
      rcases keepOrphan_found absent found with ⟨_, rfl⟩ | old
      · rcases keepOrphan_found absent found' with ⟨_, rfl⟩ | old'
        · exact differ rfl
        · exact apart h' o' old' dep missing' missing
      · rcases keepOrphan_found absent found' with ⟨_, rfl⟩ | old'
        · exact apart h o old dep missing missing'
        · exact indexed.apart h h' o o' old old' differ dep missing missing'
    · intro h o found dep missing
      rw [keepOrphan_entry]
      rcases keepOrphan_found absent found with ⟨_, rfl⟩ | old
      · rw [if_pos ⟨dep, missing, rfl⟩]
      · rw [if_neg, indexed.complete h o old dep missing]
        intro written
        obtain ⟨other, also, same⟩ := written
        rw [identifier_byteRepr_injective same] at also
        exact apart h o old dep missing also
    · intro key value entry
      rw [keepOrphan_entry] at entry
      split at entry
      · cases entry
        exact ⟨_, orphan, keepOrphan_new absent, rfl⟩
      · obtain ⟨h, o, found, same⟩ := indexed.waiting key value entry
        exact ⟨h, o, keepOrphan_kept absent found, same⟩
    · intro h h' o tx _ found
      rw [show (keepOrphan crypto pool orphan).mainPool h' = none from stored.2 h'] at found
      cases found

end KeptOrphan

/-- One event: what the index is about stays, or one more orphan is kept. -/
theorem after_cases (lib : Libraries) (fuel : Nat) (s : PoolState) (event : Event) :
    ((after lib fuel s event).pool.orphans = s.pool.orphans ∧
      (after lib fuel s event).pool.orphanUsingUTXO = s.pool.orphanUsingUTXO ∧
      (after lib fuel s event).pool.mainPool = s.pool.mainPool ∧ Uncontested lib s event) ∨
    ∃ tx, event = .addTransaction tx ∧ tx.check lib = true ∧
      (LinkedTransaction.new tx s.pool).isOrphan = true ∧
      s.pool.orphanExists (tx.hash lib.toCrypto).value = false ∧
      (after lib fuel s event).pool =
        keepOrphan lib.toCrypto s.pool (LinkedTransaction.new tx s.pool) := by
  cases event with
  | incrementHeight | decrementHeight =>
    exact Or.inl ⟨rfl, rfl, rfl, fun tx added => by cases added⟩
  | addTransaction tx =>
    have uncontested : ¬ Competes lib s tx → Uncontested lib s (.addTransaction tx) := by
      intro alone other same
      cases same
      exact alone
    rw [after, addTransaction_run]
    split
    · rename_i refused
      exact Or.inl ⟨rfl, rfl, rfl, uncontested fun competes => by simp [competes.1] at refused⟩
    · rename_i checked
      split
      · rename_i short
        split
        · rename_i known
          exact Or.inl ⟨rfl, rfl, rfl, uncontested fun competes => by
            simp [competes.2.2.1] at known⟩
        · rename_i fresh
          exact Or.inr ⟨tx, rfl, by simpa using checked, short, by simpa using fresh, rfl⟩
      · rename_i linked
        have alone := uncontested fun competes => linked competes.2.1
        split
        · exact Or.inl ⟨rfl, rfl, rfl, alone⟩
        · split <;> exact Or.inl ⟨rfl, rfl, rfl, alone⟩

theorem indexed_congr {crypto : Crypto} {pool pool' : Mempool}
    (orphans : pool'.orphans = pool.orphans)
    (waiting : pool'.orphanUsingUTXO = pool.orphanUsingUTXO)
    (mainPool : pool'.mainPool = pool.mainPool) (indexed : Indexed crypto pool) :
    Indexed crypto pool' := by
  refine ⟨?_, ?_, ?_, ?_⟩
  · rw [orphans]; exact indexed.apart
  · rw [orphans, waiting]; exact indexed.complete
  · rw [orphans, waiting]; exact indexed.waiting
  · rw [orphans, mainPool]; exact indexed.disjoint

theorem after_stored (lib : Libraries) (fuel : Nat) {s : PoolState} (event : Event)
    (stored : Stored lib.toCrypto s.pool) :
    Stored lib.toCrypto (after lib fuel s event).pool := by
  rcases after_cases lib fuel s event with ⟨orphans, _, mainPool, _⟩ | ⟨tx, _, _, _, fresh, kept⟩
  · rw [Stored, orphans, mainPool]
    exact stored
  · rw [kept]
    exact keepOrphan_stored (by rw [linked_toTransaction]; exact fresh) stored

theorem after_indexed_iff (lib : Libraries) (fuel : Nat) {s : PoolState} (event : Event)
    (stored : Stored lib.toCrypto s.pool) (indexed : Indexed lib.toCrypto s.pool) :
    Indexed lib.toCrypto (after lib fuel s event).pool ↔ Uncontested lib s event := by
  rcases after_cases lib fuel s event with ⟨orphans, waiting, mainPool, alone⟩ |
    ⟨tx, rfl, checked, short, fresh, kept⟩
  · exact ⟨fun _ => alone, fun _ => indexed_congr orphans waiting mainPool indexed⟩
  · have absent : s.pool.orphanExists
        ((LinkedTransaction.new tx s.pool).hash lib.toCrypto).value = false := by
      rw [linked_toTransaction]
      exact fresh
    rw [kept, keepOrphan_indexed_iff absent stored indexed]
    constructor
    · intro apart other same competes
      cases same
      obtain ⟨_, _, _, h, orphan, found, dep, missing, shared⟩ := competes
      exact apart h orphan found dep missing shared
    · intro alone h orphan found dep missing shared
      exact alone tx rfl ⟨checked, short, fresh, h, orphan, found, dep, missing, shared⟩

/-- The pool of a run, event by event. -/
def runStep (lib : Libraries) (fuel : Nat) (s : PoolState) (event : Event) : Option PoolState :=
  some (after lib fuel s event)

theorem new_stored (crypto : Crypto) (utxos : UTXOManager) (height : Int32) :
    Stored crypto (Mempool.new utxos height) :=
  ⟨fun h orphan found => (by cases found), fun _ => rfl⟩

theorem new_indexed (crypto : Crypto) (utxos : UTXOManager) (height : Int32) :
    Indexed crypto (Mempool.new utxos height) where
  apart := fun h h' orphan orphan' found => by cases found
  complete := fun h orphan found => by cases found
  waiting := fun key value entry => by cases entry
  disjoint := fun h h' orphan tx found => by cases found

theorem indexed_iff_uncontested (lib : Libraries) (fuel : Nat) (utxos : UTXOManager)
    (height : Int32) (heap : Heap) (events : List Event) :
    Throughout (runStep lib fuel) (fun s => Indexed lib.toCrypto s.pool)
      ⟨Mempool.new utxos height, heap⟩ events ↔
    EachStep (runStep lib fuel) (Uncontested lib) ⟨Mempool.new utxos height, heap⟩ events := by
  refine throughout_iff_each (fun s => Stored lib.toCrypto s.pool) _ _ ?_ ?_
    (play_total (after lib fuel) _ events) (new_stored _ utxos height) (new_indexed _ utxos height)
  · intro s event t stored go
    cases go
    exact after_stored lib fuel event stored
  · intro s event t stored indexed go
    cases go
    exact after_indexed_iff lib fuel event stored indexed

theorem first_spender_waits : (after prefixLibraries 1 ⟨Mempool.new UTXOManager.empty 0,
    constantHeap 0⟩ (.addTransaction (spending 1 [genesisOutput]))).pool =
      keepOrphan prefixCrypto (Mempool.new UTXOManager.empty 0)
        (LinkedTransaction.new (spending 1 [genesisOutput]) (Mempool.new UTXOManager.empty 0)) := by
  have short : (LinkedTransaction.new (spending 1 [genesisOutput])
      (Mempool.new UTXOManager.empty 0)).isOrphan = true := by decide
  rw [after, addTransaction_run, spending_checked]
  simp only [short]
  rfl

/-- The second transaction that spends a missing output takes the entry of the first. -/
theorem competing_orphan_unlinks : ¬ Throughout (runStep prefixLibraries 1)
    (fun s => Indexed prefixLibraries.toCrypto s.pool)
    ⟨Mempool.new UTXOManager.empty 0, constantHeap 0⟩
    [.addTransaction (spending 1 [genesisOutput]),
      .addTransaction (spending 2 [genesisOutput])] := by
  intro always
  have indexed := always [.addTransaction (spending 1 [genesisOutput])] _ ⟨[_], rfl⟩ rfl
  have last := always _ _ (List.prefix_refl _) rfl
  have stored := after_stored prefixLibraries 1 (.addTransaction (spending 1 [genesisOutput]))
    (new_stored _ UTXOManager.empty 0) (s := ⟨Mempool.new UTXOManager.empty 0, constantHeap 0⟩)
  have waits := first_spender_waits
  refine (after_indexed_iff prefixLibraries 1 _ stored indexed).mp last _ rfl
    ⟨spending_checked 2, ?_, ?_, ?_⟩
  · rw [waits]
    decide
  · rw [waits]
    decide
  · rw [waits]
    exact ⟨_, _, keepOrphan_new rfl, genesisOutput, by decide, by decide⟩

end EnsicoinOrphanIndex
