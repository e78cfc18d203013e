import Ensicoin.ConnectionStanding

/-!
The Node's tables of Connections, which it finds by their remotes. A Connection::pointer
is the place of its Connection in the order of creation. What a step of a Connection adds
to its registrations are the calls of registerConnection made on the way.
-/
namespace EnsicoinNode
open EnsicoinRuntime EnsicoinConnection

/-- std::map from remotes to pointers. -/
abbrev ConnectionMap := Bytes → Option Nat

/-- An older entry is kept. -/
def ConnectionMap.insert (map : ConnectionMap) (remote : Bytes) (conn : Nat) : ConnectionMap :=
  if (map remote).isSome then map else Function.update map remote (some conn)

def ConnectionMap.erase (map : ConnectionMap) (remote : Bytes) : ConnectionMap :=
  Function.update map remote none

def ConnectionMap.count (map : ConnectionMap) (remote : Bytes) : Nat :=
  if (map remote).isSome then 1 else 0

structure Tables where
  connectedNodes : ConnectionMap
  connectedRelays : ConnectionMap
  unregistred : ConnectionMap

def Tables.registerConnection (tables : Tables) (remote : Bytes) (conn : Nat)
    (type : PeerType) : Tables :=
  if type ≠ .peer ∧ tables.unregistred.count remote ≠ 0 then
    let tables := if type = .nodepeer then
      { tables with connectedNodes := tables.connectedNodes.insert remote conn } else tables
    let tables := if type = .relaypeer then
      { tables with connectedRelays := tables.connectedRelays.insert remote conn } else tables
    { tables with unregistred := tables.unregistred.erase remote }
  else tables

/-- A Connection and the remote of its socket. -/
structure Peer where
  remote : Bytes
  connection : Connection

structure Node where
  peers : List Peer
  tables : Tables

def Node.empty : Node := ⟨[], ⟨fun _ => none, fun _ => none, fun _ => none⟩⟩

/-- A new Connection is started or bound, and then inserted. -/
def Node.opened (node : Node) (opening : Opening) (remote : Bytes) (heap : Heap) : Node where
  peers := node.peers ++ [⟨remote, opening.connection heap⟩]
  tables := { node.tables with
    unregistred := node.tables.unregistred.insert remote node.peers.length }

def Node.handleAccept (node : Node) (remote : Bytes) (heap : Heap) : Node :=
  node.opened .accepted remote heap

/-- The part of the constructor that opens a Connection. -/
def Node.connect (node : Node) (env : Surroundings) (remote : Bytes) (heap : Heap) : Node :=
  node.opened (.bound env) remote heap

def Node.moved (node : Node) (conn : Nat) (peer : Peer) (after : Connection) : Node where
  peers := node.peers.set conn { peer with connection := after }
  tables := (after.registrations.drop peer.connection.registrations.length).foldl
    (fun tables type => tables.registerConnection peer.remote conn type) node.tables

inductive NodeEvent where
  | handleAccept (remote : Bytes) (heap : Heap)
  | connect (env : Surroundings) (remote : Bytes) (heap : Heap)
  | connection (conn : Nat) (env : Surroundings) (event : Event)

def Node.step (node : Node) : NodeEvent → Option Node
  | .handleAccept remote heap => some (node.handleAccept remote heap)
  | .connect env remote heap => some (node.connect env remote heap)
  | .connection conn env event => do
    let peer ← node.peers[conn]?
    let after ← peer.connection.step (env, event)
    return node.moved conn peer after

theorem insert_kept {map : ConnectionMap} {remote key : Bytes} {conn old : Nat}
    (there : map key = some old) : map.insert remote conn key = some old := by
  unfold ConnectionMap.insert
  split
  · exact there
  · rename_i free
    have apart : key ≠ remote := by
      intro same
      rw [same] at there
      simp [there] at free
    rw [Function.update_of_ne apart, there]

/-- What is found after an insert was there, or is the new pointer in a free place. -/
theorem insert_found {map : ConnectionMap} {remote key : Bytes} {conn found : Nat}
    (there : map.insert remote conn key = some found) :
    map key = some found ∨ key = remote ∧ found = conn ∧ map remote = none := by
  unfold ConnectionMap.insert at there
  split at there
  · exact Or.inl there
  · rename_i free
    by_cases same : key = remote
    · rw [same, Function.update_self] at there
      exact Or.inr ⟨same, (Option.some.inj there).symm, by simpa using free⟩
    · rw [Function.update_of_ne same] at there
      exact Or.inl there

theorem insert_here_iff {map : ConnectionMap} {remote : Bytes} {conn : Nat}
    (new : map remote ≠ some conn) : map.insert remote conn remote = some conn ↔
      map remote = none := by
  constructor
  · intro there
    rcases insert_found there with old | ⟨_, _, free⟩
    · exact absurd old new
    · exact free
  · intro free
    simp [ConnectionMap.insert, free]

end EnsicoinNode
