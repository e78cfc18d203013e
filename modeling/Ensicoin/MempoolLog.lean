import Ensicoin.OrphanStatus
import Ensicoin.Library.FirstComers

/-!
The Mempool as a log. What a run of calls leaves is the list of the orphans in the order of
their arrival, one for each hash: orphans holds the entry of a hash, orphanUsingUTXO the
last entry that misses an output, and nothing ever leaves. Two nodes over one database that
were given the same transactions, in any order and any number of times, agree on the type of
every hash.
-/
namespace EnsicoinMempoolLog
open EnsicoinRuntime EnsicoinNetworkable EnsicoinScript EnsicoinTransaction EnsicoinUtxo
open EnsicoinLinkedTransaction EnsicoinMempool EnsicoinOrphanPromotion EnsicoinMempoolAdmission
open EnsicoinOrphanIndex EnsicoinOrphanStatus FirstComers

/-- The transaction as it is linked as long as mainPool is empty. -/
def overDatabase (utxos : UTXOManager) (tx : Transaction) : LinkedTransaction :=
  LinkedTransaction.new tx (Mempool.new utxos 0)

/-- Checked, but an input is named twice or is not in the database. -/
def joins (lib : Libraries) (utxos : UTXOManager) (tx : Transaction) : Bool :=
  tx.check lib && !(decide tx.getInputsId.Nodup && tx.getInputsId.all utxos.exists)

def hashOf (lib : Libraries) (tx : Transaction) : Bytes := (tx.hash lib.toCrypto).value

/-- addTransaction on the log: the new log and what it returns. -/
def submit (lib : Libraries) (utxos : UTXOManager) (log : List Transaction) (tx : Transaction) :
    List Transaction × Bool :=
  if joins lib utxos tx ∧ hashOf lib tx ∉ log.map (hashOf lib) then (log ++ [tx], true)
  else (log, false)

def record (lib : Libraries) (utxos : UTXOManager) (log : List Transaction) :
    Event → List Transaction
  | .addTransaction tx => (submit lib utxos log tx).1
  | .incrementHeight | .decrementHeight => log

def misses (utxos : UTXOManager) (key : Bytes) (tx : Transaction) : Bool :=
  tx.getInputsId.any fun id => !utxos.exists id && id.byteRepr == key

structure Holds (lib : Libraries) (utxos : UTXOManager) (log : List Transaction)
    (s : PoolState) : Prop where
  unused : Unused utxos s
  orphans : ∀ h, s.pool.orphans h =
    (log.find? fun tx => hashOf lib tx = h).map (overDatabase utxos)
  waiting : ∀ key, s.pool.orphanUsingUTXO key =
    (log.reverse.find? (misses utxos key)).map (hashOf lib)

section Calls
variable {lib : Libraries} {utxos : UTXOManager} {log : List Transaction} {s : PoolState}

theorem linked_unused_eq (unused : Unused utxos s) (tx : Transaction) :
    LinkedTransaction.new tx s.pool = overDatabase utxos tx := by
  have step : LinkedTransaction.link s.pool = LinkedTransaction.link (Mempool.new utxos 0) := by
    funext acc id
    have same : ∀ h, s.pool.exists h = (Mempool.new utxos 0).exists h := by
      intro h
      simp [Mempool.exists, HashMemory.exists, unused.2, Mempool.new]
    rw [LinkedTransaction.link, LinkedTransaction.link, same, unused.1]
    rfl
  rw [LinkedTransaction.new, step]
  rfl

theorem holds_known (holds : Holds lib utxos log s) (tx : Transaction) :
    s.pool.orphanExists (hashOf lib tx) = decide (hashOf lib tx ∈ log.map (hashOf lib)) := by
  rw [Mempool.orphanExists, HashMemory.exists, holds.orphans, Option.isSome_map, Bool.eq_iff_iff,
    List.find?_isSome]
  simp

theorem overDatabase_isOrphan (utxos : UTXOManager) (tx : Transaction) :
    (overDatabase utxos tx).isOrphan =
      !(decide tx.getInputsId.Nodup && tx.getInputsId.all utxos.exists) := by
  have whole := linked_whole_iff tx (Mempool.new utxos 0)
  have known : ∀ id, missing (Mempool.new utxos 0) id = false ↔ utxos.exists id = true := by
    intro id
    simp [missing, Mempool.exists, HashMemory.exists, Mempool.new]
  simp only [known] at whole
  rw [← Bool.not_eq_eq_eq_not, Bool.eq_iff_iff, Bool.not_eq_eq_eq_not, Bool.not_true]
  rw [overDatabase, whole]
  simp

theorem overDatabase_misses (utxos : UTXOManager) (tx : Transaction) (key : Bytes) :
    (∃ dep ∈ (overDatabase utxos tx).getOrphanDeps, dep.byteRepr = key) ↔
      misses utxos key tx = true := by
  have lost : ∀ id, missing (Mempool.new utxos 0) id = !utxos.exists id := by
    intro id
    simp [missing, Mempool.exists, HashMemory.exists, Mempool.new]
  rw [overDatabase, deps_listed]
  simp [misses, lost, and_assoc]

/-- The hash that a linked transaction is kept under. -/
theorem overDatabase_hash (lib : Libraries) (utxos : UTXOManager) (tx : Transaction) :
    ((overDatabase utxos tx).hash lib.toCrypto).value = hashOf lib tx := by
  have same := linked_toTransaction tx (Mempool.new utxos 0)
  rw [overDatabase, same, hashOf]

theorem keepOrphan_holds (holds : Holds lib utxos log s) {tx : Transaction}
    (fresh : hashOf lib tx ∉ log.map (hashOf lib)) :
    Holds lib utxos (log ++ [tx])
      { s with pool := keepOrphan lib.toCrypto s.pool (overDatabase utxos tx) } := by
  have absent : s.pool.orphanExists ((overDatabase utxos tx).hash lib.toCrypto).value = false := by
    rw [overDatabase_hash, holds_known holds]
    simpa using fresh
  refine ⟨holds.unused, ?_, ?_⟩
  · intro h
    change (keepOrphan lib.toCrypto s.pool (overDatabase utxos tx)).orphans h = _
    rw [keepOrphan_orphans absent, overDatabase_hash, List.find?_append]
    by_cases here : h = hashOf lib tx
    · have none : (log.find? fun other => hashOf lib other = h) = none := by
        rw [List.find?_eq_none]
        intro other member same
        exact fresh (List.mem_map.mpr ⟨other, member, (of_decide_eq_true same).trans here⟩)
      rw [none, here, Function.update_self]
      simp
    · rw [Function.update_of_ne here, holds.orphans]
      simp [Ne.symm here]
  · intro key
    change (keepOrphan lib.toCrypto s.pool (overDatabase utxos tx)).orphanUsingUTXO key = _
    rw [keepOrphan_entry, overDatabase_hash, List.reverse_append, List.reverse_singleton,
      List.singleton_append, List.find?_cons, holds.waiting]
    have missed := overDatabase_misses utxos tx key
    by_cases last : misses utxos key tx = true
    · rw [if_pos (missed.mpr last), last]
      rfl
    · rw [if_neg fun there => last (missed.mp there), Bool.not_eq_true _ |>.mp last]

/-- A call keeps a new orphan, or answers otherwise and leaves the pool. -/
theorem add_cases (fuel : Nat) (holds : Holds lib utxos log s) (tx : Transaction) :
    (submit lib utxos log tx = (log ++ [tx], true) ∧ hashOf lib tx ∉ log.map (hashOf lib) ∧
      Mempool.addTransaction lib fuel tx s = (.ok true,
        { s with pool := keepOrphan lib.toCrypto s.pool (overDatabase utxos tx) })) ∨
    (submit lib utxos log tx = (log, false) ∧
      (Mempool.addTransaction lib fuel tx s).1 ≠ .ok true ∧
      (Mempool.addTransaction lib fuel tx s).2.pool = s.pool) := by
  have known := holds_known holds tx
  rw [hashOf] at known
  rw [addTransaction_run, linked_unused_eq holds.unused, known]
  unfold submit joins
  rw [← overDatabase_isOrphan]
  cases checked : tx.check lib with
  | false => simp
  | true =>
    cases short : (overDatabase utxos tx).isOrphan with
    | true =>
      by_cases old : (tx.hash lib.toCrypto).value ∈ log.map (hashOf lib)
      · right
        simp [hashOf, old]
      · left
        simp [hashOf, old]
    | false =>
      right
      simp only [Bool.true_and, Bool.false_eq_true, false_and, ↓reduceIte, Bool.true_eq_false,
        true_and]
      split
      · simp
      · cases ((overDatabase utxos tx).inputValue s.pool).run s.heap with
        | error fault => simp
        | ok pair => simp

theorem after_holds (fuel : Nat) (holds : Holds lib utxos log s) (event : Event) :
    Holds lib utxos (record lib utxos log event) (after lib fuel s event) := by
  cases event with
  | incrementHeight | decrementHeight => exact ⟨holds.unused, holds.orphans, holds.waiting⟩
  | addTransaction tx =>
    rcases add_cases fuel holds tx with ⟨kept, fresh, run⟩ | ⟨same, _, pool⟩
    · rw [record, kept, after, run]
      exact keepOrphan_holds holds fresh
    · rw [record, same, after]
      refine ⟨?_, ?_, ?_⟩
      · rw [Unused, pool]
        exact holds.unused
      · rw [pool]
        exact holds.orphans
      · rw [pool]
        exact holds.waiting

theorem answer_submit (fuel : Nat) (holds : Holds lib utxos log s) (tx : Transaction) :
    (Mempool.addTransaction lib fuel tx s).1 = .ok true ↔ (submit lib utxos log tx).2 = true := by
  rcases add_cases fuel holds tx with ⟨kept, _, run⟩ | ⟨same, refused, _⟩
  · simp [kept, run]
  · simp [same, refused]

end Calls

section Runs
variable (lib : Libraries) (utxos : UTXOManager)

def poolAfter (fuel : Nat) (height : Int32) (heap : Heap) (events : List Event) : PoolState :=
  events.foldl (after lib fuel) ⟨Mempool.new utxos height, heap⟩

def logAfter (events : List Event) : List Transaction := events.foldl (record lib utxos) []

def submitted (events : List Event) : List Transaction :=
  events.filterMap fun
    | .addTransaction tx => some tx
    | _ => none

theorem run_holds (fuel : Nat) (height : Int32) (heap : Heap) (events : List Event) :
    Holds lib utxos (logAfter lib utxos events) (poolAfter lib utxos fuel height heap events) := by
  have general : ∀ log s, Holds lib utxos log s →
      Holds lib utxos (events.foldl (record lib utxos) log) (events.foldl (after lib fuel) s) := by
    induction events with
    | nil => intro log s holds; exact holds
    | cons event events ih =>
      intro log s holds
      exact ih _ _ (after_holds fuel holds event)
  exact general [] _ ⟨⟨rfl, fun _ => rfl⟩, fun _ => rfl, fun _ => rfl⟩

/-- The pool of every run is its log, and so are the answers that the next call can give. -/
theorem pool_is_log (fuel : Nat) (height : Int32) (heap : Heap) (events : List Event) :
    Holds lib utxos (logAfter lib utxos events) (poolAfter lib utxos fuel height heap events) ∧
      ∀ tx, (Mempool.addTransaction lib fuel tx
          (poolAfter lib utxos fuel height heap events)).1 = .ok true ↔
        (submit lib utxos (logAfter lib utxos events) tx).2 = true := by
  have holds := run_holds lib utxos fuel height heap events
  exact ⟨holds, answer_submit fuel holds⟩

/-- The log is made of the first comers among the transactions that miss an output. -/
theorem logAfter_firsts (events : List Event) : logAfter lib utxos events =
    firsts (hashOf lib) ((submitted events).filter (joins lib utxos)) := by
  have general : ∀ log, events.foldl (record lib utxos) log =
      ((submitted events).filter (joins lib utxos)).foldl (offer (hashOf lib)) log := by
    induction events with
    | nil => intro log; rfl
    | cons event events ih =>
      intro log
      rw [List.foldl_cons, ih]
      cases event with
      | incrementHeight | decrementHeight => rfl
      | addTransaction tx =>
        have first : submitted (.addTransaction tx :: events) = tx :: submitted events := rfl
        rw [first, List.filter_cons]
        by_cases joined : joins lib utxos tx = true
        · rw [if_pos joined, List.foldl_cons]
          congr 1
          by_cases old : hashOf lib tx ∈ log.map (hashOf lib)
          · rw [offer, if_pos old, record, submit, if_neg fun fresh => fresh.2 old]
          · rw [offer, if_neg old, record, submit, if_pos ⟨joined, old⟩]
        · rw [if_neg joined]
          simp [record, submit, joined]
  exact general []

theorem orphans_found (fuel : Nat) (height : Int32) (heap : Heap) (events : List Event)
    (h : Bytes) : (poolAfter lib utxos fuel height heap events).pool.orphans h =
      (((submitted events).filter (joins lib utxos)).find? fun tx => hashOf lib tx = h).map
        (overDatabase utxos) := by
  rw [(run_holds lib utxos fuel height heap events).orphans, logAfter_firsts, find_firsts]

theorem log_grows (events more : List Event) :
    logAfter lib utxos events <+: logAfter lib utxos (events ++ more) := by
  have general : ∀ log, log <+: more.foldl (record lib utxos) log := by
    induction more with
    | nil => intro log; exact List.prefix_refl log
    | cons event more ih =>
      intro log
      refine List.IsPrefix.trans ?_ (ih _)
      cases event with
      | incrementHeight | decrementHeight => exact List.prefix_refl log
      | addTransaction tx =>
        rw [record, submit]
        split
        · exact List.prefix_append log [tx]
        · exact List.prefix_refl log
  rw [logAfter, logAfter, List.foldl_append]
  exact general _

/-- Whatever comes later, an orphan is kept under its hash and an output that is waited for
    stays so; what is waited for was missed by an orphan that is there. -/
theorem pool_never_forgets (fuel : Nat) (height : Int32) (heap : Heap)
    (events more : List Event) :
    (∀ h orphan, (poolAfter lib utxos fuel height heap events).pool.orphans h = some orphan →
      (poolAfter lib utxos fuel height heap (events ++ more)).pool.orphans h = some orphan) ∧
    (∀ key, ((poolAfter lib utxos fuel height heap events).pool.orphanUsingUTXO key).isSome →
      ((poolAfter lib utxos fuel height heap (events ++ more)).pool.orphanUsingUTXO key).isSome) ∧
    ∀ key h, (poolAfter lib utxos fuel height heap events).pool.orphanUsingUTXO key = some h →
      ∃ orphan, (poolAfter lib utxos fuel height heap events).pool.orphans h = some orphan := by
  obtain ⟨tail, grown⟩ := log_grows lib utxos events more
  have now := run_holds lib utxos fuel height heap events
  have later := run_holds lib utxos fuel height heap (events ++ more)
  rw [← grown] at later
  refine ⟨?_, ?_, ?_⟩
  · intro h orphan found
    rw [now.orphans] at found
    obtain ⟨tx, first, rfl⟩ := Option.map_eq_some_iff.mp found
    rw [later.orphans, List.find?_append, first]
    rfl
  · intro key waited
    rw [now.waiting, Option.isSome_map, List.find?_isSome] at waited
    obtain ⟨tx, member, missed⟩ := waited
    rw [later.waiting, Option.isSome_map, List.find?_isSome]
    exact ⟨tx, by simpa using Or.inr (List.mem_reverse.mp member), missed⟩
  · intro key h entry
    rw [now.waiting] at entry
    obtain ⟨tx, last, rfl⟩ := Option.map_eq_some_iff.mp entry
    have member := List.mem_reverse.mp (List.mem_of_find?_eq_some last)
    rw [now.orphans]
    have there : ((logAfter lib utxos events).find? fun other =>
        hashOf lib other = hashOf lib tx).isSome = true :=
      List.find?_isSome.mpr ⟨tx, member, by simp⟩
    obtain ⟨first, found⟩ := Option.isSome_iff_exists.mp there
    exact ⟨_, by rw [found]; rfl⟩

end Runs

/-- Two nodes over one database that saw the same transactions give every hash the same type,
    and keep the same orphan under it if only one of the transactions has it. -/
theorem same_transactions_same_types (lib : Libraries) (utxos : UTXOManager)
    {events events' : List Event} (same : ∀ tx, tx ∈ submitted events ↔ tx ∈ submitted events')
    (fuel fuel' : Nat) (height height' : Int32) (heap heap' : Heap) (h : Bytes) :
    Mempool.type (poolAfter lib utxos fuel height heap events).pool h =
        Mempool.type (poolAfter lib utxos fuel' height' heap' events').pool h ∧
      ((∀ tx ∈ submitted events, ∀ tx' ∈ submitted events, hashOf lib tx = h →
          hashOf lib tx' = h → tx = tx') →
        (poolAfter lib utxos fuel height heap events).pool.orphans h =
          (poolAfter lib utxos fuel' height' heap' events').pool.orphans h) := by
  have members : ∀ tx, tx ∈ (submitted events).filter (joins lib utxos) ↔
      tx ∈ (submitted events').filter (joins lib utxos) := by
    intro tx
    rw [List.mem_filter, List.mem_filter, same]
  constructor
  · have noneMain : ∀ fuel height heap events,
        (poolAfter lib utxos fuel height heap events).pool.mainPool.exists h = false := by
      intro fuel height heap events
      rw [HashMemory.exists, (run_holds lib utxos fuel height heap events).unused.2]
      rfl
    unfold Mempool.type
    rw [noneMain, noneMain, HashMemory.exists, HashMemory.exists, orphans_found, orphans_found,
      Option.isSome_map, Option.isSome_map, find_same_members members]
  · intro only
    rw [orphans_found, orphans_found, find_only_member members]
    intro tx member tx' member' here here'
    exact only tx (List.mem_filter.mp member).1 tx' (List.mem_filter.mp member').1
      (of_decide_eq_true here) (of_decide_eq_true here')

/-- The same orphan once and, at another node, twice with a block in between. -/
theorem repeated_orphan_same_type :
    Mempool.type (poolAfter prefixLibraries UTXOManager.empty 1 0 (constantHeap 0)
        [.addTransaction (spending 1 [genesisOutput])]).pool
          (hashOf prefixLibraries (spending 1 [genesisOutput])) =
      Mempool.type (poolAfter prefixLibraries UTXOManager.empty 1 7 (constantHeap 1)
        [.addTransaction (spending 1 [genesisOutput]), .incrementHeight,
          .addTransaction (spending 1 [genesisOutput])]).pool
          (hashOf prefixLibraries (spending 1 [genesisOutput])) :=
  (same_transactions_same_types prefixLibraries UTXOManager.empty
    (by intro tx; simp [submitted]) 1 1 0 7 (constantHeap 0) (constantHeap 1) _).1

end EnsicoinMempoolLog
