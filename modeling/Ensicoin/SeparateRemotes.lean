import Ensicoin.ConnectionTables
import Ensicoin.Library.ProductRuns

/-!
The Node as a product. What it has under a remote is changed by the events of Connections from
this remote and by no others, so a run of the Node is a run at every remote, and two runs in
which every remote sees the same are one. The Connections never meet: each of them is where
its own conversation leads, whatever the Node does with the others.
-/
namespace EnsicoinSeparateRemotes
open EnsicoinRuntime EnsicoinMessages EnsicoinConnection EnsicoinConnectionRuns
open EnsicoinNode EnsicoinConnectionTables ProductRuns StepRuns

/-- The three tables under one remote. -/
@[ext] structure Entries where
  connectedNodes : Option Nat
  connectedRelays : Option Nat
  unregistred : Option Nat

/-- The Connections from one remote, by their pointers, and its entries. -/
@[ext] structure Place where
  peers : Nat → Option Connection
  entries : Entries

def Entries.registerConnection (entries : Entries) (conn : Nat) (type : PeerType) : Entries :=
  if type ≠ .peer ∧ entries.unregistred.isSome then
    ⟨if type = .nodepeer then entries.connectedNodes.or (some conn) else entries.connectedNodes,
      if type = .relaypeer then entries.connectedRelays.or (some conn)
        else entries.connectedRelays, none⟩
  else entries

def Place.empty : Place := ⟨fun _ => none, none, none, none⟩

def Place.opened (place : Place) (conn : Nat) (opening : Opening) (heap : Heap) : Place where
  peers := Function.update place.peers conn (some (opening.connection heap))
  entries := { place.entries with unregistred := place.entries.unregistred.or (some conn) }

def Place.moved (place : Place) (conn : Nat) (before after : Connection) : Place where
  peers := Function.update place.peers conn (some after)
  entries := (after.registrations.drop before.registrations.length).foldl
    (fun entries type => entries.registerConnection conn type) place.entries

/-- Node::step at one remote, for a Connection that is known by its pointer. -/
def Place.step (place : Place) : Nat × NodeEvent → Option Place
  | (conn, .handleAccept _ heap) => some (place.opened conn .accepted heap)
  | (conn, .connect env _ heap) => some (place.opened conn (.bound env) heap)
  | (conn, .connection _ env event) => do
    let before ← place.peers conn
    let after ← before.step (env, event)
    return place.moved conn before after

/-- The remote and the pointer an event is about. A pointer to nothing has no remote. -/
def about (remotes : List Bytes) : NodeEvent → Bytes × Nat
  | .handleAccept remote _ => (remote, remotes.length)
  | .connect _ remote _ => (remote, remotes.length)
  | .connection conn _ _ => (remotes[conn]?.getD [], conn)

def opens : NodeEvent → List Bytes
  | .handleAccept remote _ => [remote]
  | .connect _ remote _ => [remote]
  | .connection _ _ _ => []

def located : List Bytes → List NodeEvent → List (Bytes × Nat × NodeEvent)
  | _, [] => []
  | remotes, event :: events =>
    ((about remotes event).1, (about remotes event).2, event) ::
      located (remotes ++ opens event) events

/-- The events of Connections from this remote, with the pointers of these. -/
def concerning (remote : Bytes) (events : List NodeEvent) : List (Nat × NodeEvent) :=
  eventsAt remote (located [] events)

def tablesAt (tables : Tables) (remote : Bytes) : Entries :=
  ⟨tables.connectedNodes remote, tables.connectedRelays remote, tables.unregistred remote⟩

def spread (node : Node) (remote : Bytes) : Place where
  peers conn := node.peers[conn]?.bind fun peer =>
    if peer.remote = remote then some peer.connection else none
  entries := tablesAt node.tables remote

def remotesOf (node : Node) : List Bytes := node.peers.map Peer.remote

section Tables
variable {tables : Tables} {map : ConnectionMap} {remote key : Bytes} {conn : Nat}

theorem insert_at (map : ConnectionMap) (remote key : Bytes) (conn : Nat) :
    map.insert remote conn key = if key = remote then (map key).or (some conn) else map key := by
  unfold ConnectionMap.insert
  by_cases here : key = remote
  · subst here
    cases there : map key <;> simp [there]
  · split
    · simp
    · simp [here]

theorem erase_at (map : ConnectionMap) (remote key : Bytes) :
    map.erase remote key = if key = remote then none else map key :=
  Function.update_apply map remote none key

theorem register_at (tables : Tables) (remote key : Bytes) (conn : Nat) (type : PeerType) :
    tablesAt (tables.registerConnection remote conn type) key =
      if key = remote then (tablesAt tables key).registerConnection conn type
      else tablesAt tables key := by
  by_cases other : type = .peer
  · subst other
    simp [register_peer, Entries.registerConnection]
  · cases there : tables.unregistred remote with
    | none =>
      rw [register_absent there]
      split
      · rename_i here
        simp [Entries.registerConnection, tablesAt, here, there]
      · rfl
    | some old =>
      rw [register_there there conn other]
      by_cases here : key = remote
      · subst here
        cases type <;>
          simp [tablesAt, Entries.registerConnection, there, insert_at, erase_at] at other ⊢
      · cases type <;> simp [tablesAt, insert_at, erase_at, here]

theorem registers_at (types : List PeerType) (tables : Tables) (remote key : Bytes) (conn : Nat) :
    tablesAt (types.foldl (fun tables type => tables.registerConnection remote conn type) tables)
      key = if key = remote then
        types.foldl (fun entries type => entries.registerConnection conn type) (tablesAt tables key)
      else tablesAt tables key := by
  induction types generalizing tables with
  | nil => simp
  | cons type types ih =>
    rw [List.foldl_cons, ih, register_at]
    split <;> rfl

end Tables

section Steps
variable {node next : Node} {event : NodeEvent}

theorem spread_opened (node : Node) (opening : Opening) (remote : Bytes) (heap : Heap) :
    spread (node.opened opening remote heap) = Function.update (spread node) remote
      ((spread node remote).opened node.peers.length opening heap) := by
  have peers : ∀ conn, (node.opened opening remote heap).peers[conn]? =
      if conn = node.peers.length then some ⟨remote, opening.connection heap⟩
      else node.peers[conn]? := by
    intro conn
    ext peer
    rw [opened_peer]
    split
    · rename_i last
      simp [last, eq_comm]
    · rename_i other
      simp [other]
  funext key
  by_cases here : key = remote
  · subst here
    rw [Function.update_self]
    ext1
    · funext conn
      simp only [spread, peers, Place.opened, Function.update_apply]
      split
      · simp
      · rfl
    · simp [spread, Place.opened, tablesAt, Node.opened, insert_at]
  · rw [Function.update_of_ne here]
    ext1
    · funext conn
      simp only [spread, peers]
      split
      · rename_i last
        simp [last, Ne.symm here]
      · rfl
    · simp [spread, tablesAt, Node.opened, insert_at, here]

theorem spread_moved {conn : Nat} {old : Peer} (there : node.peers[conn]? = some old)
    (after : Connection) : spread (node.moved conn old after) = Function.update (spread node)
      old.remote ((spread node old.remote).moved conn old.connection after) := by
  have peers : ∀ place, (node.moved conn old after).peers[place]? =
      if place = conn then some { old with connection := after } else node.peers[place]? := by
    intro place
    ext peer
    rw [moved_peer there]
    split
    · rename_i here
      simp [here, eq_comm]
    · rename_i other
      simp [other]
  funext key
  by_cases here : key = old.remote
  · subst here
    rw [Function.update_self]
    ext1
    · funext place
      simp only [spread, peers, Place.moved, Function.update_apply]
      split
      · simp
      · rfl
    · simp only [spread, Place.moved, Node.moved]
      rw [registers_at, if_pos rfl]
  · rw [Function.update_of_ne here]
    ext1
    · funext place
      simp only [spread, peers]
      split
      · rename_i same
        simp [same, there, Ne.symm here]
      · rfl
    · simp only [spread, Node.moved]
      rw [registers_at, if_neg here]

theorem remotes_opened (node : Node) (opening : Opening) (remote : Bytes) (heap : Heap) :
    remotesOf (node.opened opening remote heap) = remotesOf node ++ [remote] := by
  simp [remotesOf, Node.opened]

theorem remotes_moved {conn : Nat} {old : Peer} (there : node.peers[conn]? = some old)
    (after : Connection) : remotesOf (node.moved conn old after) = remotesOf node := by
  obtain ⟨inside, rfl⟩ := List.getElem?_eq_some_iff.mp there
  have within : conn < (node.peers.map Peer.remote).length := by simpa
  have kept : node.peers[conn].remote = (node.peers.map Peer.remote)[conn] := by simp
  rw [remotesOf, remotesOf, Node.moved, List.map_set, kept, List.set_getElem_self]

/-- A step of the Node is a step at the remote of the Connection it is about. -/
theorem step_spread (node : Node) (event : NodeEvent) :
    (node.step event).map spread = productStep Place.step (spread node)
      ((about (remotesOf node) event).1, (about (remotesOf node) event).2, event) := by
  have size : (remotesOf node).length = node.peers.length := List.length_map ..
  cases event with
  | handleAccept remote heap =>
    simp only [Node.step, Option.map_some, productStep, about, Place.step, size]
    exact congrArg some (spread_opened node .accepted remote heap)
  | connect env remote heap =>
    simp only [Node.step, Option.map_some, productStep, about, Place.step, size]
    exact congrArg some (spread_opened node (.bound env) remote heap)
  | connection conn env event =>
    cases there : node.peers[conn]? with
    | none =>
      have nobody : ∀ remote, (spread node remote).peers conn = none := by
        intro remote
        simp [spread, there]
      simp [Node.step, there, productStep, Place.step, about, nobody]
    | some old =>
      have remote : (remotesOf node)[conn]?.getD [] = old.remote := by
        simp [remotesOf, there]
      have here : (spread node old.remote).peers conn = some old.connection := by
        simp [spread, there]
      simp only [Node.step, there, productStep, Place.step, about, remote, here,
        Option.bind_eq_bind, Option.bind_some]
      cases old.connection.step (env, event) with
      | none => rfl
      | some after => exact congrArg some (spread_moved there after)

theorem step_remotes (go : node.step event = some next) :
    remotesOf next = remotesOf node ++ opens event := by
  cases event with
  | handleAccept remote heap =>
    cases go
    exact remotes_opened node .accepted remote heap
  | connect env remote heap =>
    cases go
    exact remotes_opened node (.bound env) remote heap
  | connection conn env event =>
    obtain ⟨old, there, rest⟩ := Option.bind_eq_some_iff.mp go
    obtain ⟨after, _, moved⟩ := Option.bind_eq_some_iff.mp rest
    cases moved
    rw [remotes_moved there, opens, List.append_nil]

end Steps

theorem spread_injective : Function.Injective spread := by
  intro node other same
  obtain ⟨peers, tables⟩ := node
  obtain ⟨peers', tables'⟩ := other
  have places : ∀ remote, spread ⟨peers, tables⟩ remote = spread ⟨peers', tables'⟩ remote :=
    congrFun same
  congr 1
  · apply List.ext_getElem?
    intro conn
    ext peer
    have found : ∀ peers tables, (spread ⟨peers, tables⟩ peer.remote).peers conn =
        some peer.connection ↔ peers[conn]? = some peer := by
      intro peers tables
      simp only [spread, Option.bind_eq_some_iff, Option.ite_none_right_eq_some, Option.some.injEq]
      constructor
      · intro found
        obtain ⟨other, there, remote, connection⟩ := found
        obtain ⟨_, _⟩ := other
        obtain ⟨_, _⟩ := peer
        cases remote
        cases connection
        exact there
      · intro there
        exact ⟨peer, there, rfl, rfl⟩
    rw [← found peers tables, places, found]
  · have entries : ∀ remote, tablesAt tables remote = tablesAt tables' remote :=
      fun remote => congrArg Place.entries (places remote)
    obtain ⟨nodes, relays, waiting⟩ := tables
    obtain ⟨nodes', relays', waiting'⟩ := tables'
    congr 1
    · exact funext fun remote => congrArg Entries.connectedNodes (entries remote)
    · exact funext fun remote => congrArg Entries.connectedRelays (entries remote)
    · exact funext fun remote => congrArg Entries.unregistred (entries remote)

theorem play_spread (node : Node) (events : List NodeEvent) :
    (play Node.step node events).map spread =
      play (productStep Place.step) (spread node) (located (remotesOf node) events) := by
  induction events generalizing node with
  | nil => rfl
  | cons event events ih =>
    have first := step_spread node event
    rw [located, play, play, ← first]
    cases go : node.step event with
    | none => rfl
    | some next =>
      rw [← step_remotes go]
      exact ih next

/-- Two runs in which every remote sees the same are one. -/
theorem interleavings_agree {events events' : List NodeEvent}
    (same : ∀ remote, concerning remote events = concerning remote events') :
    play Node.step Node.empty events = play Node.step Node.empty events' := by
  apply Option.map_injective spread_injective
  rw [play_spread, play_spread]
  exact play_product_same same _

/-- Two Connections that send, in both orders. -/
theorem two_senders_agree :
    play Node.step Node.empty [.handleAccept localRemote (constantHeap 0),
      .handleAccept distantRemote (constantHeap 1),
      .connection 0 offline (.sendMessage (Message.new .getAddr)),
      .connection 1 offline (.sendMessage (Message.new .whoAmIAck))] =
    play Node.step Node.empty [.handleAccept localRemote (constantHeap 0),
      .handleAccept distantRemote (constantHeap 1),
      .connection 1 offline (.sendMessage (Message.new .whoAmIAck)),
      .connection 0 offline (.sendMessage (Message.new .getAddr))] := by
  apply interleavings_agree
  intro remote
  have apart : localRemote ≠ distantRemote := by decide
  by_cases here : localRemote = remote
  · have other : distantRemote ≠ remote := fun there => apart (here.trans there.symm)
    simp [concerning, located, about, opens, eventsAt, here, other]
  · by_cases there : distantRemote = remote
    · simp [concerning, located, about, opens, eventsAt, here, there]
    · simp [concerning, located, about, opens, eventsAt, here, there]

/-- How a Connection was opened, from which remote and over which memory. -/
def openedBy : NodeEvent → List (Opening × Bytes × Heap)
  | .handleAccept remote heap => [(.accepted, remote, heap)]
  | .connect env remote heap => [(.bound env, remote, heap)]
  | .connection _ _ _ => []

def openings (events : List NodeEvent) : List (Opening × Bytes × Heap) := events.flatMap openedBy

def toldTo (conn : Nat) : NodeEvent → List (Surroundings × Event)
  | .connection place env event => if place = conn then [(env, event)] else []
  | _ => []

/-- What one Connection goes through. -/
def conversation (conn : Nat) (events : List NodeEvent) : List (Surroundings × Event) :=
  events.flatMap (toldTo conn)

/-- Where a conversation leads a Connection. -/
def ledTo (conversation : List (Surroundings × Event)) (opened : Opening × Bytes × Heap) :
    Option Peer :=
  (play Connection.step (opened.1.connection opened.2.2) conversation).map (Peer.mk opened.2.1)

structure Conversed (events : List NodeEvent) (node : Node) : Prop where
  size : node.peers.length = (openings events).length
  own : ∀ conn, node.peers[conn]? = (openings events)[conn]?.bind (ledTo (conversation conn events))
  quiet : ∀ conn, node.peers.length ≤ conn → conversation conn events = []

section Conversations
variable {events : List NodeEvent} {node : Node} {conn : Nat}

theorem openings_concat (events : List NodeEvent) (event : NodeEvent) :
    openings (events ++ [event]) = openings events ++ openedBy event := by
  simp [openings]

theorem conversation_concat (conn : Nat) (events : List NodeEvent) (event : NodeEvent) :
    conversation conn (events ++ [event]) = conversation conn events ++ toldTo conn event := by
  simp [conversation]

theorem ledTo_more {opened : Opening × Bytes × Heap} {told : List (Surroundings × Event)}
    {peer : Peer} (here : ledTo told opened = some peer) (move : Surroundings × Event) :
    ledTo (told ++ [move]) opened =
      (peer.connection.step move).map fun after => { peer with connection := after } := by
  obtain ⟨c, run, rfl⟩ := Option.map_eq_some_iff.mp here
  rw [ledTo, play_append, run]
  simp only [Option.bind_some, play]
  cases c.step move <;> rfl

theorem opened_conversed (kept : Conversed events node) (opening : Opening) (remote : Bytes)
    (heap : Heap) {event : NodeEvent} (opens : openedBy event = [(opening, remote, heap)])
    (silent : ∀ conn, toldTo conn event = []) :
    Conversed (events ++ [event]) (node.opened opening remote heap) := by
  have told : ∀ conn, conversation conn (events ++ [event]) = conversation conn events := by
    intro conn
    rw [conversation_concat, silent, List.append_nil]
  refine ⟨?_, ?_, ?_⟩
  · simp [Node.opened, openings_concat, opens, kept.size]
  · intro conn
    rw [told, openings_concat, opens, Node.opened]
    rcases Nat.lt_trichotomy conn node.peers.length with before | rfl | behind
    · rw [List.getElem?_append_left before, List.getElem?_append_left (kept.size ▸ before)]
      exact kept.own conn
    · rw [List.getElem?_concat_length, kept.size, List.getElem?_concat_length, Option.bind_some,
        kept.quiet _ kept.size.le]
      rfl
    · have past : node.peers.length + 1 ≤ conn := behind
      rw [List.getElem?_eq_none (by simpa using past),
        List.getElem?_eq_none (by simpa [← kept.size] using past), Option.bind_none]
  · intro conn behind
    rw [told]
    refine kept.quiet conn (Nat.le_of_succ_le ?_)
    simpa [Node.opened] using behind

theorem moved_conversed (kept : Conversed events node) {old : Peer} {after : Connection}
    {env : Surroundings} {event : Event} (there : node.peers[conn]? = some old)
    (go : old.connection.step (env, event) = some after) :
    Conversed (events ++ [.connection conn env event]) (node.moved conn old after) := by
  have inside := (List.getElem?_eq_some_iff.mp there).1
  have length : (node.moved conn old after).peers.length = node.peers.length := List.length_set ..
  refine ⟨?_, ?_, ?_⟩
  · rw [length, kept.size, openings_concat, openedBy, List.append_nil]
  · intro place
    rw [openings_concat, conversation_concat, openedBy, List.append_nil, toldTo]
    by_cases here : conn = place
    · subst here
      obtain ⟨opened, first, led⟩ := Option.bind_eq_some_iff.mp ((kept.own conn).symm.trans there)
      rw [if_pos rfl, first, Option.bind_some, ledTo_more led, go]
      simp [Node.moved, inside]
    · rw [if_neg here, List.append_nil, ← kept.own, Node.moved, List.getElem?_set_ne here]
  · intro place behind
    rw [length] at behind
    have apart : conn ≠ place := Nat.ne_of_lt (Nat.lt_of_lt_of_le inside behind)
    rw [conversation_concat, kept.quiet place behind, toldTo, if_neg apart, List.append_nil]

theorem run_conversed (run : play Node.step Node.empty events = some node) :
    Conversed events node := by
  refine play_history Conversed ⟨rfl, fun _ => rfl, fun _ _ => rfl⟩ ?_ events node run
  intro events node event next kept go
  cases event with
  | handleAccept remote heap =>
    cases go
    exact opened_conversed kept .accepted remote heap rfl fun _ => rfl
  | connect env remote heap =>
    cases go
    exact opened_conversed kept (.bound env) remote heap rfl fun _ => rfl
  | connection conn env event =>
    obtain ⟨old, there, rest⟩ := Option.bind_eq_some_iff.mp go
    obtain ⟨after, moves, done⟩ := Option.bind_eq_some_iff.mp rest
    cases done
    exact moved_conversed kept there moves

/-- A Connection is opened before anything happens to it. -/
def InOrder (events : List NodeEvent) : Prop := ∀ before conn env event,
  before ++ [NodeEvent.connection conn env event] <+: events → conn < (openings before).length

/-- Whatever its Node does with others, a Connection is where its conversation leads. -/
theorem connections_apart (run : play Node.step Node.empty events = some node) (conn : Nat) :
    node.peers[conn]? = (openings events)[conn]?.bind (ledTo (conversation conn events)) :=
  (run_conversed run).own conn

/-- The second Connection, with the first one served in between. -/
theorem second_sender_apart : ∃ node, play Node.step Node.empty
    [.handleAccept localRemote (constantHeap 0), .handleAccept distantRemote (constantHeap 1),
      .connection 0 offline (.sendMessage (Message.new .getAddr)),
      .connection 1 offline (.sendMessage (Message.new .whoAmIAck))] = some node ∧
    node.peers[1]? = ledTo [(offline, .sendMessage (Message.new .whoAmIAck))]
      (.accepted, distantRemote, constantHeap 1) := by
  have run : play Node.step Node.empty
      [.handleAccept localRemote (constantHeap 0), .handleAccept distantRemote (constantHeap 1),
        .connection 0 offline (.sendMessage (Message.new .getAddr)),
        .connection 1 offline (.sendMessage (Message.new .whoAmIAck))] = some _ := rfl
  exact ⟨_, run, connections_apart run 1⟩

/-- No event comes before its Connection, and no conversation gets stuck. -/
structure Possible (events : List NodeEvent) : Prop where
  inOrder : InOrder events
  led : ∀ conn opened, (openings events)[conn]? = some opened →
    ∃ peer, ledTo (conversation conn events) opened = some peer

theorem run_possible (run : play Node.step Node.empty events = some node) : Possible events := by
  constructor
  · intro before conn env event front
    obtain ⟨rest, rfl⟩ := front
    obtain ⟨next, first, _⟩ := play_split run
    obtain ⟨u, early, go⟩ := (play_concat Node.step _ _ _ _).mp first
    obtain ⟨old, there, _⟩ := Option.bind_eq_some_iff.mp go
    rw [← (run_conversed early).size]
    exact (List.getElem?_eq_some_iff.mp there).1
  · intro conn opened there
    have kept := run_conversed run
    have inside := (List.getElem?_eq_some_iff.mp there).1
    rw [← kept.size] at inside
    refine ⟨node.peers[conn], ?_⟩
    have led := kept.own conn
    rwa [there, Option.bind_some, List.getElem?_eq_getElem inside, eq_comm] at led

theorem possible_before {event : NodeEvent} (possible : Possible (events ++ [event])) :
    Possible events := by
  constructor
  · intro before conn env last front
    exact possible.inOrder before conn env last (front.trans (List.prefix_append events [event]))
  · intro conn opened there
    have inside := (List.getElem?_eq_some_iff.mp there).1
    have later : (openings (events ++ [event]))[conn]? = some opened := by
      rw [openings_concat, List.getElem?_append_left inside, there]
    obtain ⟨peer, led⟩ := possible.led conn opened later
    obtain ⟨c, run, _⟩ := Option.map_eq_some_iff.mp led
    rw [conversation_concat] at run
    obtain ⟨u, first, _⟩ := play_split run
    exact ⟨_, congrArg (Option.map (Peer.mk opened.2.1)) first⟩

theorem possible_step {event : NodeEvent} (possible : Possible (events ++ [event]))
    (kept : Conversed events node) : ∃ next, node.step event = some next := by
  cases event with
  | handleAccept remote heap => exact ⟨_, rfl⟩
  | connect env remote heap => exact ⟨_, rfl⟩
  | connection conn env event =>
    have inside := possible.inOrder events conn env event (List.prefix_refl _)
    have first := List.getElem?_eq_getElem inside
    obtain ⟨peer, led⟩ := possible.led conn (openings events)[conn]
      (by rw [openings_concat, List.getElem?_append_left inside, first])
    have there := kept.own conn
    rw [← kept.size] at inside
    rw [List.getElem?_eq_getElem inside, first, Option.bind_some, eq_comm] at there
    rw [conversation_concat, toldTo, if_pos rfl, ledTo_more there] at led
    obtain ⟨after, go, _⟩ := Option.map_eq_some_iff.mp led
    refine ⟨node.moved conn node.peers[conn] after, ?_⟩
    simp [Node.step, inside, go]

/-- The Node goes on as long as every conversation does. -/
theorem node_runs_iff (events : List NodeEvent) :
    (∃ node, play Node.step Node.empty events = some node) ↔ Possible events := by
  constructor
  · intro runs
    obtain ⟨node, run⟩ := runs
    exact run_possible run
  · intro possible
    induction events using List.reverseRecOn with
    | nil => exact ⟨_, rfl⟩
    | append_singleton events event ih =>
      obtain ⟨node, run⟩ := ih (possible_before possible)
      obtain ⟨next, go⟩ := possible_step possible (run_conversed run)
      exact ⟨next, (play_concat Node.step _ _ _ _).mpr ⟨node, run, go⟩⟩

end Conversations

end EnsicoinSeparateRemotes
