import Ensicoin.Node

/-!
Where the Node keeps its Connections. insert leaves an older entry under a remote, and
registerConnection takes the entry out of unregistred whatever becomes of the Connection,
so a second one from a remote is in no table, and neither is a wallet.
-/
namespace EnsicoinConnectionTables
open EnsicoinRuntime EnsicoinConnection EnsicoinConnectionRuns EnsicoinConnectionStanding
open EnsicoinNode StepRuns

def Holds (map : ConnectionMap) (conn : Nat) : Prop := ∃ remote, map remote = some conn

/-- One of the tables holds the Connection, and the others do not. -/
def HeldOnce (tables : Tables) (conn : Nat) : Prop :=
  (Holds tables.unregistred conn ∧ ¬ Holds tables.connectedNodes conn ∧
    ¬ Holds tables.connectedRelays conn) ∨
  (¬ Holds tables.unregistred conn ∧ Holds tables.connectedNodes conn ∧
    ¬ Holds tables.connectedRelays conn) ∨
  (¬ Holds tables.unregistred conn ∧ ¬ Holds tables.connectedNodes conn ∧
    Holds tables.connectedRelays conn)

structure NoneLost (node : Node) : Prop where
  once : ∀ conn peer, node.peers[conn]? = some peer → HeldOnce node.tables conn
  nodes : ∀ conn peer, node.peers[conn]? = some peer →
    .nodepeer ∈ peer.connection.registrations →
      node.tables.connectedNodes peer.remote = some conn
  relays : ∀ conn peer, node.peers[conn]? = some peer →
    .relaypeer ∈ peer.connection.registrations →
      node.tables.connectedRelays peer.remote = some conn

/-- A node or relay is the first of its remote in its table, and nobody is a wallet. -/
def Fits (tables : Tables) (remote : Bytes) : PeerType → Prop
  | .nodepeer => tables.connectedNodes remote = none
  | .relaypeer => tables.connectedRelays remote = none
  | .walletpeer => False
  | .peer => True

/-- The remote of a new Connection is not in unregistred, and one that is registered fits. -/
def Allowed (node : Node) : NodeEvent → Prop
  | .handleAccept remote _ => node.tables.unregistred remote = none
  | .connect _ remote _ => node.tables.unregistred remote = none
  | .connection conn env event => ∀ peer after type, node.peers[conn]? = some peer →
    peer.connection.step (env, event) = some after →
    after.registrations = peer.connection.registrations ++ [type] →
    Fits node.tables peer.remote type

/-- The entries of a map are Connections of their remotes, registered so far like this. -/
def Filed (node : Node) (map : ConnectionMap) (like : List PeerType → Prop) : Prop :=
  ∀ remote conn, map remote = some conn → ∃ peer, node.peers[conn]? = some peer ∧
    peer.remote = remote ∧ like peer.connection.registrations

def Unplaced (types : List PeerType) : Prop := types = [] ∨ types = [.peer]

/-- The table a Connection belongs to, by the calls of registerConnection on it. -/
def home (tables : Tables) : List PeerType → ConnectionMap
  | [.nodepeer] => tables.connectedNodes
  | [.relaypeer] => tables.connectedRelays
  | [.walletpeer] => fun _ => none
  | _ => tables.unregistred

/-- What holds in every run, with Connections lost or not. -/
structure Sound (node : Node) : Prop where
  registered : ∀ (conn : Nat) (peer : Peer), node.peers[conn]? = some peer →
    peer.connection.registrations = [] ∨
    ∃ type, peer.connection.registrations = [type] ∧ peer.connection.currentStatus = .Ack
  unregistred : Filed node node.tables.unregistred Unplaced
  placed : ∀ kind, kind ≠ .peer → Filed node (home node.tables [kind]) (· = [kind])

def AtHome (tables : Tables) (conn : Nat) (peer : Peer) : Prop :=
  home tables peer.connection.registrations peer.remote = some conn

section Homes
variable {node : Node} {conn : Nat} {peer : Peer}

theorem filed_holds {map : ConnectionMap} {like : List PeerType → Prop}
    (filed : Filed node map like) (there : node.peers[conn]? = some peer)
    (holds : Holds map conn) :
    map peer.remote = some conn ∧ like peer.connection.registrations := by
  obtain ⟨remote, entry⟩ := holds
  obtain ⟨other, found, same, kind⟩ := filed remote conn entry
  obtain rfl := Option.some.inj (there.symm.trans found)
  rw [same]
  exact ⟨entry, kind⟩

theorem atHome_iff (sound : Sound node) (there : node.peers[conn]? = some peer) :
    AtHome node.tables conn peer ↔ HeldOnce node.tables conn ∧
      (.nodepeer ∈ peer.connection.registrations →
        node.tables.connectedNodes peer.remote = some conn) ∧
      (.relaypeer ∈ peer.connection.registrations →
        node.tables.connectedRelays peer.remote = some conn) := by
  have waits := filed_holds sound.unregistred there
  have isNode : Holds node.tables.connectedNodes conn → _ :=
    filed_holds (sound.placed .nodepeer nofun) there
  have isRelay : Holds node.tables.connectedRelays conn → _ :=
    filed_holds (sound.placed .relaypeer nofun) there
  have found : ∀ {map : ConnectionMap}, map peer.remote = some conn → Holds map conn :=
    fun entry => ⟨peer.remote, entry⟩
  unfold AtHome HeldOnce
  rcases sound.registered conn peer there with none | ⟨type, one, _⟩
  · simp only [none, Unplaced] at waits isNode isRelay ⊢
    simp only [home]
    grind
  · cases type <;>
    · simp only [one, Unplaced] at waits isNode isRelay ⊢
      simp only [home]
      grind

theorem noneLost_iff (sound : Sound node) : NoneLost node ↔
    ∀ conn peer, node.peers[conn]? = some peer → AtHome node.tables conn peer := by
  constructor
  · intro kept conn peer there
    exact (atHome_iff sound there).mpr
      ⟨kept.once conn peer there, kept.nodes conn peer there, kept.relays conn peer there⟩
  · intro all
    have each := fun conn peer there => (atHome_iff sound there).mp (all conn peer there)
    exact ⟨fun conn peer there => (each conn peer there).1,
      fun conn peer there => (each conn peer there).2.1,
      fun conn peer there => (each conn peer there).2.2⟩

end Homes

section Registration
variable {tables : Tables} {remote key : Bytes} {conn found : Nat} {type : PeerType}

theorem register_peer (tables : Tables) (remote : Bytes) (conn : Nat) :
    tables.registerConnection remote conn .peer = tables := by
  simp [Tables.registerConnection]

theorem register_absent (absent : tables.unregistred remote = none) (conn : Nat)
    (type : PeerType) : tables.registerConnection remote conn type = tables := by
  simp [Tables.registerConnection, ConnectionMap.count, absent]

theorem register_there {old : Nat} (there : tables.unregistred remote = some old) (conn : Nat)
    (other : type ≠ .peer) : tables.registerConnection remote conn type =
      ⟨if type = .nodepeer then tables.connectedNodes.insert remote conn
        else tables.connectedNodes,
      if type = .relaypeer then tables.connectedRelays.insert remote conn
        else tables.connectedRelays,
      tables.unregistred.erase remote⟩ := by
  cases type with
  | peer => exact absurd rfl other
  | _ => simp [Tables.registerConnection, ConnectionMap.count, there]

theorem register_home_there {old : Nat} (there : tables.unregistred remote = some old)
    (conn : Nat) (other : type ≠ .peer) {kind : PeerType} (placed : kind ≠ .peer) :
    home (tables.registerConnection remote conn type) [kind] =
      if type = kind ∧ kind ≠ .walletpeer then (home tables [kind]).insert remote conn
      else home tables [kind] := by
  rw [register_there there conn other]
  cases kind with
  | nodepeer | relaypeer => simp [home]
  | walletpeer => simp [home]
  | peer => exact absurd rfl placed

theorem register_unregistred (other : type ≠ .peer)
    (entry : (tables.registerConnection remote conn type).unregistred key = some found) :
    tables.unregistred key = some found ∧ key ≠ remote := by
  cases there : tables.unregistred remote with
  | none =>
    rw [register_absent there] at entry
    refine ⟨entry, ?_⟩
    intro same
    rw [same, there] at entry
    cases entry
  | some old =>
    rw [register_there there conn other] at entry
    by_cases same : key = remote
    · simp [ConnectionMap.erase, same] at entry
    · simp only [ConnectionMap.erase, Function.update_of_ne same] at entry
      exact ⟨entry, same⟩

/-- An entry for a kind is older, or the new Connection if it is of this kind. -/
theorem register_home {kind : PeerType} (placed : kind ≠ .peer)
    (entry : home (tables.registerConnection remote conn type) [kind] key = some found) :
    home tables [kind] key = some found ∨
      type = kind ∧ key = remote ∧ found = conn ∧ home tables [kind] remote = none := by
  by_cases other : type = .peer
  · rw [other, register_peer] at entry
    exact Or.inl entry
  · cases there : tables.unregistred remote with
    | none =>
      rw [register_absent there] at entry
      exact Or.inl entry
    | some old =>
      rw [register_home_there there conn other placed] at entry
      split at entry
      · rename_i same
        rcases insert_found entry with before | new
        · exact Or.inl before
        · exact Or.inr ⟨same.1, new⟩
      · exact Or.inl entry

end Registration

section Opened
variable {node : Node} {opening : Opening} {remote : Bytes} {heap : Heap} {conn : Nat} {peer : Peer}

theorem opened_peer : (node.opened opening remote heap).peers[conn]? = some peer ↔
    node.peers[conn]? = some peer ∨
      conn = node.peers.length ∧ peer = ⟨remote, opening.connection heap⟩ := by
  simp only [Node.opened, List.getElem?_append]
  by_cases inside : conn < node.peers.length
  · have apart : conn ≠ node.peers.length := Nat.ne_of_lt inside
    simp [inside, apart]
  · have outside : node.peers[conn]? = none := List.getElem?_eq_none (Nat.le_of_not_lt inside)
    rw [if_neg inside, outside, List.getElem?_singleton]
    by_cases last : conn = node.peers.length
    · simp [last, eq_comm]
    · have later : conn - node.peers.length ≠ 0 := by omega
      simp [last, later]

theorem opened_registrations (opening : Opening) (heap : Heap) :
    (opening.connection heap).registrations = [] :=
  congrArg Standing.registrations (opening_standing opening heap)

theorem filed_opened {map : ConnectionMap} {like : List PeerType → Prop}
    (filed : Filed node map like) : Filed (node.opened opening remote heap) map like := by
  intro key found entry
  obtain ⟨peer, there, rest⟩ := filed key found entry
  exact ⟨peer, opened_peer.mpr (Or.inl there), rest⟩

theorem opened_sound (sound : Sound node) : Sound (node.opened opening remote heap) := by
  refine ⟨?_, ?_, ?_⟩
  · intro conn peer there
    rcases opened_peer.mp there with old | ⟨_, rfl⟩
    · exact sound.registered conn peer old
    · exact Or.inl (opened_registrations opening heap)
  · intro key found entry
    rcases insert_found entry with old | ⟨rfl, rfl, _⟩
    · exact filed_opened sound.unregistred key found old
    · exact ⟨_, opened_peer.mpr (Or.inr ⟨rfl, rfl⟩), rfl,
        Or.inl (opened_registrations opening heap)⟩
  · intro kind placed
    have same : home (node.opened opening remote heap).tables [kind] = home node.tables [kind] := by
      cases kind with
      | peer => exact absurd rfl placed
      | _ => rfl
    rw [same]
    exact filed_opened (sound.placed kind placed)

/-- The older Connections stay where they are. -/
theorem opened_home (placed : AtHome node.tables conn peer) :
    AtHome (node.opened opening remote heap).tables conn peer := by
  unfold AtHome at placed ⊢
  match peer.connection.registrations, placed with
  | [], placed => exact insert_kept placed
  | [.nodepeer], placed => exact placed
  | [.relaypeer], placed => exact placed
  | [.walletpeer], placed => cases placed
  | [.peer], placed => exact insert_kept placed
  | kind :: _ :: _, placed => cases kind <;> exact insert_kept placed

theorem opened_noneLost_iff (sound : Sound node) (kept : NoneLost node) :
    NoneLost (node.opened opening remote heap) ↔ node.tables.unregistred remote = none := by
  have new : node.tables.unregistred remote ≠ some node.peers.length := by
    intro entry
    obtain ⟨peer, there, _⟩ := sound.unregistred remote _ entry
    rw [List.getElem?_eq_none (Nat.le_refl _)] at there
    cases there
  have last : AtHome (node.opened opening remote heap).tables node.peers.length
      ⟨remote, opening.connection heap⟩ ↔ node.tables.unregistred remote = none := by
    rw [AtHome, opened_registrations]
    exact insert_here_iff new
  rw [noneLost_iff sound] at kept
  rw [noneLost_iff (opened_sound sound), ← last]
  constructor
  · intro all
    exact all _ _ (opened_peer.mpr (Or.inr ⟨rfl, rfl⟩))
  · intro here conn peer there
    rcases opened_peer.mp there with old | ⟨rfl, rfl⟩
    · exact opened_home (kept conn peer old)
    · exact here

end Opened

section Moved
variable {node : Node} {conn place : Nat} {old peer : Peer} {after : Connection}

theorem moved_peer (there : node.peers[conn]? = some old) :
    (node.moved conn old after).peers[place]? = some peer ↔
      place = conn ∧ peer = { old with connection := after } ∨
        place ≠ conn ∧ node.peers[place]? = some peer := by
  simp only [Node.moved, List.getElem?_set]
  by_cases same : conn = place
  · subst same
    have inside := (List.getElem?_eq_some_iff.mp there).1
    simp [inside, eq_comm]
  · simp [same, Ne.symm same]

/-- Without a call of registerConnection the tables stay. -/
theorem moved_quiet (same : after.registrations = old.connection.registrations) :
    (node.moved conn old after).tables = node.tables := by
  simp [Node.moved, same]

theorem moved_registers {type : PeerType} (none : old.connection.registrations = [])
    (one : after.registrations = [type]) : (node.moved conn old after).tables =
      node.tables.registerConnection old.remote conn type := by
  simp [Node.moved, none, one]

theorem moved_filed {map : ConnectionMap} {like like' : List PeerType → Prop}
    (there : node.peers[conn]? = some old) (filed : Filed node map like)
    (turned : like old.connection.registrations → like' after.registrations)
    (others : ∀ types, like types → like' types) :
    Filed (node.moved conn old after) map like' := by
  intro remote place entry
  obtain ⟨peer, found, here, kind⟩ := filed remote place entry
  by_cases same : place = conn
  · rw [same] at found ⊢
    obtain rfl := Option.some.inj (there.symm.trans found)
    exact ⟨_, (moved_peer there).mpr (Or.inl ⟨rfl, rfl⟩), here, turned kind⟩
  · exact ⟨peer, (moved_peer there).mpr (Or.inr ⟨same, found⟩), here, others _ kind⟩

/-- registerConnection is not called, or for the first time and with the status Ack. -/
theorem registers_cases (there : node.peers[conn]? = some old) (sound : Sound node)
    (registers : Registers (standing old.connection) (standing after)) :
    (after.registrations = old.connection.registrations ∧
      (old.connection.currentStatus = .Ack → after.currentStatus = .Ack)) ∨
    ∃ type, old.connection.registrations = [] ∧ after.registrations = [type] ∧
      after.currentStatus = .Ack := by
  rcases registers with ⟨same, ack⟩ | ⟨type, one, early, ack⟩
  · exact Or.inl ⟨same, ack⟩
  · have none : old.connection.registrations = [] := by
      rcases sound.registered conn old there with none | ⟨_, _, done⟩
      · exact none
      · exact absurd done early
    have all : after.registrations = old.connection.registrations ++ [type] := one
    rw [none, List.nil_append] at all
    exact Or.inr ⟨type, none, all, ack⟩

theorem moved_quiet_sound (there : node.peers[conn]? = some old) (sound : Sound node)
    (types : after.registrations = old.connection.registrations)
    (ack : old.connection.currentStatus = .Ack → after.currentStatus = .Ack) :
    Sound (node.moved conn old after) where
  registered := by
    intro place peer found
    rcases (moved_peer there).mp found with ⟨_, rfl⟩ | ⟨_, other⟩
    · rw [types]
      exact (sound.registered conn old there).imp_right fun ⟨type, one, done⟩ =>
        ⟨type, one, ack done⟩
    · exact sound.registered place peer other
  unregistred := by
    rw [moved_quiet types]
    exact moved_filed there sound.unregistred (fun kind => types ▸ kind) fun _ kind => kind
  placed := by
    intro kind placed
    rw [moved_quiet types]
    exact moved_filed there (sound.placed kind placed) (fun kind => types ▸ kind) fun _ kind => kind

/-- A Connection that is registered as anything but a peer leaves unregistred. -/
theorem moved_unregistred (there : node.peers[conn]? = some old) (sound : Sound node)
    (none : old.connection.registrations = []) {type : PeerType}
    (types : after.registrations = [type]) :
    Filed (node.moved conn old after) (node.moved conn old after).tables.unregistred Unplaced := by
  rw [moved_registers none types]
  by_cases isPeer : type = .peer
  · rw [isPeer, register_peer]
    exact moved_filed there sound.unregistred (fun _ => Or.inr (isPeer ▸ types)) fun _ kind => kind
  · intro key place entry
    obtain ⟨before, apart⟩ := register_unregistred isPeer entry
    obtain ⟨peer, found, here, kind⟩ := sound.unregistred key place before
    have other : place ≠ conn := by
      intro same
      rw [same] at found
      obtain rfl := Option.some.inj (there.symm.trans found)
      exact apart here.symm
    exact ⟨peer, (moved_peer there).mpr (Or.inr ⟨other, found⟩), here, kind⟩

theorem moved_registered_sound (there : node.peers[conn]? = some old) (sound : Sound node)
    (none : old.connection.registrations = []) {type : PeerType}
    (types : after.registrations = [type]) (ack : after.currentStatus = .Ack) :
    Sound (node.moved conn old after) where
  registered := by
    intro place peer found
    rcases (moved_peer there).mp found with ⟨_, rfl⟩ | ⟨_, other⟩
    · exact Or.inr ⟨type, types, ack⟩
    · exact sound.registered place peer other
  unregistred := moved_unregistred there sound none types
  placed := by
    intro kind placed key place entry
    rw [moved_registers none types] at entry
    rcases register_home placed entry with before | ⟨rfl, rfl, rfl, _⟩
    · refine moved_filed there (sound.placed kind placed) ?_ (fun _ kind => kind) key place before
      intro one
      rw [none] at one
      cases one
    · exact ⟨_, (moved_peer there).mpr (Or.inl ⟨rfl, rfl⟩), rfl, types⟩

theorem moved_sound (there : node.peers[conn]? = some old) (sound : Sound node)
    (registers : Registers (standing old.connection) (standing after)) :
    Sound (node.moved conn old after) := by
  rcases registers_cases there sound registers with ⟨types, ack⟩ | ⟨type, none, types, ack⟩
  · exact moved_quiet_sound there sound types ack
  · exact moved_registered_sound there sound none types ack

/-- The others stay at home when one leaves unregistred. -/
theorem others_home {tables : Tables} {remote : Bytes} {type : PeerType} (isPlaced : type ≠ .peer)
    (there : tables.unregistred remote = some conn) (other : place ≠ conn)
    (placed : AtHome tables place peer) :
    AtHome (tables.registerConnection remote conn type) place peer := by
  have waits : ∀ key, tables.unregistred key = some place →
      (tables.registerConnection remote conn type).unregistred key = some place := by
    intro key entry
    have apart : key ≠ remote := by
      intro same
      rw [same, there] at entry
      exact other (Option.some.inj entry).symm
    rw [register_there there conn isPlaced]
    simp only [ConnectionMap.erase, Function.update_of_ne apart, entry]
  have stays : ∀ kind, kind ≠ .peer → home tables [kind] peer.remote = some place →
      home (tables.registerConnection remote conn type) [kind] peer.remote = some place := by
    intro kind isKind entry
    rw [register_home_there there conn isPlaced isKind]
    split
    · exact insert_kept entry
    · exact entry
  unfold AtHome at placed ⊢
  match peer.connection.registrations, placed with
  | [], placed => exact waits _ placed
  | [.nodepeer], placed => exact stays .nodepeer nofun placed
  | [.relaypeer], placed => exact stays .relaypeer nofun placed
  | [.walletpeer], placed => cases placed
  | [.peer], placed => exact waits _ placed
  | kind :: _ :: _, placed => cases kind <;> exact waits _ placed

/-- The Connection that leaves unregistred comes to the table of its kind if that is free. -/
theorem registered_home_iff (there : node.peers[conn]? = some old) (sound : Sound node)
    (none : old.connection.registrations = [])
    (waits : node.tables.unregistred old.remote = some conn) {type : PeerType}
    (isPlaced : type ≠ .peer) :
    home (node.tables.registerConnection old.remote conn type) [type] old.remote = some conn ↔
      Fits node.tables old.remote type := by
  have new : home node.tables [type] old.remote ≠ some conn := by
    intro entry
    have one := (filed_holds (sound.placed type isPlaced) there ⟨_, entry⟩).2
    rw [none] at one
    cases one
  rw [register_home_there waits conn isPlaced isPlaced]
  cases type with
  | nodepeer => exact insert_here_iff new
  | relaypeer => exact insert_here_iff new
  | walletpeer => simp [home, Fits]
  | peer => exact absurd rfl isPlaced

/-- While the tables stay, everyone is at home if the Connection that moves is. -/
theorem moved_stays (there : node.peers[conn]? = some old)
    (kept : ∀ place peer, node.peers[place]? = some peer → AtHome node.tables place peer)
    (same : (node.moved conn old after).tables = node.tables)
    (stays : AtHome node.tables conn { old with connection := after }) (place : Nat) (peer : Peer)
    (found : (node.moved conn old after).peers[place]? = some peer) :
    AtHome (node.moved conn old after).tables place peer := by
  rw [same]
  rcases (moved_peer there).mp found with ⟨rfl, rfl⟩ | ⟨_, other⟩
  · exact stays
  · exact kept place peer other

theorem moved_placed_iff (there : node.peers[conn]? = some old) (sound : Sound node)
    (kept : ∀ place peer, node.peers[place]? = some peer → AtHome node.tables place peer)
    (none : old.connection.registrations = [])
    (waits : node.tables.unregistred old.remote = some conn) {type : PeerType}
    (types : after.registrations = [type]) (isPlaced : type ≠ .peer) :
    (∀ place peer, (node.moved conn old after).peers[place]? = some peer →
      AtHome (node.moved conn old after).tables place peer) ↔
        Fits node.tables old.remote type := by
  rw [moved_registers none types, ← registered_home_iff there sound none waits isPlaced]
  constructor
  · intro all
    have here := all conn _ ((moved_peer there).mpr (Or.inl ⟨rfl, rfl⟩))
    unfold AtHome at here
    rw [types] at here
    exact here
  · intro here place peer found
    rcases (moved_peer there).mp found with ⟨rfl, rfl⟩ | ⟨apart, other⟩
    · unfold AtHome
      rw [types]
      exact here
    · exact others_home isPlaced waits apart (kept place peer other)

theorem moved_noneLost_iff (there : node.peers[conn]? = some old) (sound : Sound node)
    (registers : Registers (standing old.connection) (standing after)) (kept : NoneLost node) :
    NoneLost (node.moved conn old after) ↔ ∀ type,
      after.registrations = old.connection.registrations ++ [type] →
        Fits node.tables old.remote type := by
  rw [noneLost_iff sound] at kept
  rw [noneLost_iff (moved_sound there sound registers)]
  have placed := kept conn old there
  rcases registers_cases there sound registers with ⟨types, _⟩ | ⟨type, none, types, _⟩
  · refine iff_of_true ?_ fun type one => absurd (types.symm.trans one) (by simp)
    apply moved_stays there kept (moved_quiet types)
    unfold AtHome at placed ⊢
    rw [types]
    exact placed
  · have waits : node.tables.unregistred old.remote = some conn := by
      unfold AtHome at placed
      rw [none] at placed
      exact placed
    have only : (∀ kind, after.registrations = old.connection.registrations ++ [kind] →
        Fits node.tables old.remote kind) ↔ Fits node.tables old.remote type := by
      rw [types, none]
      simp
    rw [only]
    by_cases isPeer : type = .peer
    · rw [isPeer] at types ⊢
      refine iff_of_true ?_ trivial
      apply moved_stays there kept (by rw [moved_registers none types, register_peer])
      unfold AtHome
      rw [types]
      exact waits
    · exact moved_placed_iff there sound kept none waits types isPeer

end Moved

/-- A step opens a Connection, or moves one. -/
theorem step_cases {node next : Node} {event : NodeEvent} (go : node.step event = some next) :
    (∃ opening remote heap, next = node.opened opening remote heap ∧
      (Allowed node event ↔ node.tables.unregistred remote = none)) ∨
    ∃ conn old after, node.peers[conn]? = some old ∧
      Registers (standing old.connection) (standing after) ∧ next = node.moved conn old after ∧
      (Allowed node event ↔ ∀ type,
        after.registrations = old.connection.registrations ++ [type] →
          Fits node.tables old.remote type) := by
  cases event with
  | handleAccept remote heap =>
    cases go
    exact Or.inl ⟨.accepted, remote, heap, rfl, Iff.rfl⟩
  | connect env remote heap =>
    cases go
    exact Or.inl ⟨.bound env, remote, heap, rfl, Iff.rfl⟩
  | connection conn env event =>
    obtain ⟨old, there, rest⟩ := Option.bind_eq_some_iff.mp go
    obtain ⟨after, moved, done⟩ := Option.bind_eq_some_iff.mp rest
    cases done
    refine Or.inr ⟨conn, old, after, there, step_registers moved, rfl, ?_⟩
    constructor
    · intro allowed type one
      exact allowed old after type there moved one
    · intro fits old' after' type there' moved' one
      obtain rfl := Option.some.inj (there.symm.trans there')
      obtain rfl := Option.some.inj (moved.symm.trans moved')
      exact fits type one

theorem empty_sound : Sound Node.empty := by
  refine ⟨nofun, nofun, ?_⟩
  intro kind placed
  cases kind with
  | peer => exact absurd rfl placed
  | _ => exact nofun

theorem none_lost_iff_allowed {events : List NodeEvent} {node : Node}
    (run : play Node.step Node.empty events = some node) :
    Throughout Node.step NoneLost Node.empty events ↔
      EachStep Node.step Allowed Node.empty events := by
  refine throughout_iff_each Sound NoneLost Allowed ?_ ?_ run empty_sound ⟨nofun, nofun, nofun⟩
  · intro node event next sound go
    rcases step_cases go with ⟨_, _, _, rfl, _⟩ | ⟨conn, old, after, there, registers, rfl, _⟩
    · exact opened_sound sound
    · exact moved_sound there sound registers
  · intro node event next sound kept go
    rcases step_cases go with
      ⟨_, _, _, rfl, allowed⟩ | ⟨conn, old, after, there, registers, rfl, allowed⟩
    · rw [allowed]
      exact opened_noneLost_iff sound kept
    · rw [allowed]
      exact moved_noneLost_iff there sound registers kept

def localRemote : Bytes := ascii "127.0.0.1:4224"

def distantRemote : Bytes := ascii "78.248.188.120:4224"

/-- A Connection is accepted and another one is opened. -/
theorem two_remotes_held : Throughout Node.step NoneLost Node.empty
    [.handleAccept localRemote (constantHeap 0),
      .connect offline distantRemote (constantHeap 0)] := by
  have run : play Node.step Node.empty [.handleAccept localRemote (constantHeap 0),
      .connect offline distantRemote (constantHeap 0)] = some _ := rfl
  refine (none_lost_iff_allowed run).mpr ((eachStep_cons rfl _).mpr ⟨rfl,
    (eachStep_cons rfl _).mpr ⟨?_, ?_⟩⟩)
  · change ConnectionMap.insert (fun _ => none) localRemote 0 distantRemote = none
    have apart : distantRemote ≠ localRemote := by decide
    simp [ConnectionMap.insert, Function.update_of_ne apart]
  · intro before event node early
    simp at early

/-- The second Connection from a remote is in no table. -/
theorem second_accept_lost : ¬ Throughout Node.step NoneLost Node.empty
    [.handleAccept localRemote (constantHeap 0), .handleAccept localRemote (constantHeap 0)] := by
  intro always
  have first := always [.handleAccept localRemote (constantHeap 0)] _ ⟨[_], rfl⟩ rfl
  have second := always _ _ (List.prefix_refl _) rfl
  have sound : Sound (Node.empty.opened .accepted localRemote (constantHeap 0)) :=
    opened_sound empty_sound
  have free := (opened_noneLost_iff sound first).mp second
  change ConnectionMap.insert (fun _ => none) localRemote 0 localRemote = none at free
  simp [ConnectionMap.insert] at free

end EnsicoinConnectionTables
