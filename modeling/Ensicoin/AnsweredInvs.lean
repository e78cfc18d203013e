import Ensicoin.DecodedValues
import Ensicoin.InvAnswer
import Ensicoin.MempoolLog

/-!
What a peer sees of the Mempool. A Connection asks its Node nothing but which hashes are known,
and those are the hashes of the transactions that were ever given to the pool and miss an
output. So a peer cannot tell two nodes apart that were given the same ones, and what was
given once is never asked for again.
-/
namespace EnsicoinAnsweredInvs
open EnsicoinRuntime EnsicoinNetworkable EnsicoinTransaction EnsicoinUtxo
open EnsicoinLinkedTransaction EnsicoinMempool EnsicoinOrphanPromotion EnsicoinMempoolAdmission
open EnsicoinMempoolLog EnsicoinMessages EnsicoinConnection EnsicoinConnectionRuns
open EnsicoinInvAnswer EnsicoinReceivedBytes EnsicoinDecodedValues StepRuns

/-- How a pool came about. -/
structure History where
  fuel : Nat
  height : Int32
  heap : Heap
  events : List EnsicoinMempoolAdmission.Event

section Stores
variable (lib : Libraries) (utxos : UTXOManager) (blocksDB : Bytes → Option Bytes)

def History.stores (history : History) : Stores :=
  ⟨(poolAfter lib utxos history.fuel history.height history.heap history.events).pool, blocksDB⟩

theorem knows_submitted (history : History) (hash : Bytes) :
    (history.stores lib utxos blocksDB).transactionExists hash =
      (submitted history.events).any fun tx => joins lib utxos tx && hashOf lib tx == hash := by
  have holds := run_holds lib utxos history.fuel history.height history.heap history.events
  have unused : (history.stores lib utxos blocksDB).mempool.exists hash = false := by
    rw [History.stores, Mempool.exists, HashMemory.exists, holds.unused.2]
    rfl
  rw [Stores.transactionExists, unused, Bool.false_or, History.stores, Mempool.orphanExists,
    HashMemory.exists, orphans_found, Option.isSome_map, Bool.eq_iff_iff, List.find?_isSome,
    List.any_eq_true]
  simp [and_assoc]

variable {lib utxos blocksDB}

theorem knows_same {left right : History}
    (same : ∀ tx, tx ∈ submitted left.events ↔ tx ∈ submitted right.events) :
    (left.stores lib utxos blocksDB).transactionExists =
      (right.stores lib utxos blocksDB).transactionExists := by
  funext hash
  rw [knows_submitted, knows_submitted, Bool.eq_iff_iff, List.any_eq_true, List.any_eq_true]
  simp only [same]

theorem stores_blocks (history : History) : (history.stores lib utxos blocksDB).blockExists =
    fun hash => (blocksDB hash).isSome := rfl

theorem surroundings_same {left right : History}
    (same : ∀ tx, tx ∈ submitted left.events ↔ tx ∈ submitted right.events)
    (env : Surroundings) : (left.stores lib utxos blocksDB).surroundings env =
      (right.stores lib utxos blocksDB).surroundings env := by
  rw [Stores.surroundings, Stores.surroundings, knows_same same, stores_blocks, stores_blocks]

end Stores

/-- An event of a Connection, at two nodes whose pools have histories of their own. -/
structure Twin where
  env : Surroundings
  left : History
  right : History
  event : EnsicoinConnection.Event

section Twins
variable (lib : Libraries) (utxos : UTXOManager) (blocksDB : Bytes → Option Bytes)

def Twin.atLeft (twin : Twin) : Surroundings × EnsicoinConnection.Event :=
  ((twin.left.stores lib utxos blocksDB).surroundings twin.env, twin.event)

def Twin.atRight (twin : Twin) : Surroundings × EnsicoinConnection.Event :=
  ((twin.right.stores lib utxos blocksDB).surroundings twin.env, twin.event)

/-- Two nodes over the same databases answer a peer alike, whatever it sends and however their
    pools change meanwhile, as long as both were given the same transactions. -/
theorem conversations_agree {twins : List Twin} (same : ∀ twin ∈ twins, ∀ tx,
    tx ∈ submitted twin.left.events ↔ tx ∈ submitted twin.right.events) (c : Connection) :
    play Connection.step c (twins.map (Twin.atLeft lib utxos blocksDB)) =
      play Connection.step c (twins.map (Twin.atRight lib utxos blocksDB)) := by
  apply play_map_same
  intro twin member d
  rw [Twin.atLeft, Twin.atRight, surroundings_same (same twin member)]

end Twins

/-- One orphan that one node was given once, and the other one twice. -/
def givenOnce : History := ⟨1, 0, constantHeap 0, [.addTransaction (spending 1 [genesisOutput])]⟩

def givenTwice : History := ⟨1, 7, constantHeap 1, [.addTransaction (spending 1 [genesisOutput]),
  .incrementHeight, .addTransaction (spending 1 [genesisOutput])]⟩

theorem repeated_orphan_unseen : play Connection.step (Opening.accepted.connection (constantHeap 0))
    ([⟨offline, givenOnce, givenTwice, .readDone whoAmIAckFrame⟩].map
      (Twin.atLeft prefixLibraries UTXOManager.empty fun _ => none)) =
    play Connection.step (Opening.accepted.connection (constantHeap 0))
      ([⟨offline, givenOnce, givenTwice, .readDone whoAmIAckFrame⟩].map
        (Twin.atRight prefixLibraries UTXOManager.empty fun _ => none)) := by
  apply conversations_agree
  intro twin member tx
  rw [List.mem_singleton.mp member]
  simp [givenOnce, givenTwice, submitted]

end EnsicoinAnsweredInvs
