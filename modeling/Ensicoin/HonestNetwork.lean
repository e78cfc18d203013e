import Ensicoin.SeparateRemotes
import Ensicoin.StreamedProgress
import Mathlib.Algebra.BigOperators.Group.Finset.Basic

/-!
A Node among honest nodes. Every Connection of the Node has a Connection of another node at its
other end, which runs the same code, and the bytes between the two stay between the two. When
their remotes differ, everyone is kept in unregistred up to Ack and in connectedNodes then, in
whatever order the many conversations take their turns, and all of them can be brought to Ack.
-/
namespace EnsicoinHonestNetwork
open EnsicoinRuntime EnsicoinMessages EnsicoinConnection EnsicoinConnectionRuns
open EnsicoinConnectionStanding EnsicoinNode EnsicoinConnectionTables EnsicoinSeparateRemotes
open EnsicoinHonestHandshake EnsicoinHonestAgreement EnsicoinStreamedNodes
open EnsicoinStreamedProgress StepRuns

/-- The other end of a Connection, with its part in the handshake. -/
structure Far where
  role : Party
  connection : Connection

structure Network where
  node : Node
  fars : List Far

def Network.empty : Network := ⟨Node.empty, []⟩

def ends (far : Far) (near : Connection) : Nodes :=
  Function.update (fun _ => near) far.role far.connection

/-- Both ends of a Connection of the Node. -/
def Network.link (net : Network) (conn : Nat) : Option Nodes := do
  let near ← net.node.peers[conn]?
  let far ← net.fars[conn]?
  return ends far near.connection

inductive Move where
  | opened (role : Party) (env : Surroundings) (remote : Bytes)
  | moved (conn : Nat) (move : Party × Surroundings × Action)

/-- The Node opens a Connection or accepts one, or one end of a Connection moves. -/
def Network.step (net : Network) : Move → Option Network
  | .opened role env remote => some ⟨net.node.opened (role.opening env) remote (constantHeap 0),
      net.fars ++ [⟨role.peer, (role.peer.opening env).connection (constantHeap 0)⟩]⟩
  | .moved conn (p, around, action) => do
    let near ← net.node.peers[conn]?
    let far ← net.fars[conn]?
    let after ← streamAct (ends far near.connection) p around action
    return if p = far.role then
      { net with fars := net.fars.set conn { far with connection := after } }
    else { net with node := net.node.moved conn near after }

/-- New Connections are from new remotes, and the reads of each are orderly. -/
def Tidy (net : Network) : Move → Prop
  | .opened _ _ remote => remote ∉ remotesOf net.node
  | .moved conn move => ∀ s, net.link conn = some s → Orderly s move

/-- Two nodes that were only ever given each other's bytes. -/
def Talked (env : Surroundings) (s : Nodes) : Prop := ∃ moves,
  play streamStep (connected env (fun _ => constantHeap 0) fun _ => []) moves = some s ∧
    EachStep streamStep Orderly (connected env (fun _ => constantHeap 0) fun _ => []) moves

structure Woven (net : Network) : Prop where
  size : net.fars.length = net.node.peers.length
  apart : (remotesOf net.node).Nodup
  sound : Sound net.node
  kept : NoneLost net.node
  ran : ∃ events, play Node.step Node.empty events = some net.node
  talked : ∀ conn s, net.link conn = some s → ∃ env, Talked env s

section Ends
variable {env around : Surroundings} {s t : Nodes} {p : Party} {action : Action}

theorem talked_moved {move : Party × Surroundings × Action} (talked : Talked env s)
    (orderly : Orderly s move) (go : streamStep s move = some t) : Talked env t := by
  obtain ⟨moves, run, each⟩ := talked
  exact ⟨moves ++ [move], (play_concat streamStep _ _ _ _).mpr ⟨s, run, go⟩,
    eachStep_concat run each orderly⟩

theorem talked_linked (talked : Talked env s) : ∃ u, Linked env s u := by
  obtain ⟨moves, run, each⟩ := talked
  obtain ⟨_, u, _, _, linked⟩ := streams_linked run each
  exact ⟨u, linked⟩

theorem talked_agreed (talked : Talked env s) : Safe s ∧ Agreed s := by
  obtain ⟨moves, run, each⟩ := talked
  obtain ⟨_, u, shadow, _, linked⟩ := streams_linked run each
  exact linked_agreed linked (run_expected shadow)

theorem ends_opened (role : Party) (env : Surroundings) :
    ends ⟨role.peer, (role.peer.opening env).connection (constantHeap 0)⟩
      ((role.opening env).connection (constantHeap 0)) =
        connected env (fun _ => constantHeap 0) fun _ => [] := by
  funext p
  cases role <;> cases p <;> rfl

theorem ends_far (far : Far) (near : Connection) : ends far near far.role = far.connection :=
  Function.update_self ..

theorem ends_near {far : Far} (other : p ≠ far.role) (near : Connection) :
    ends far near p = near := Function.update_of_ne other ..

theorem ends_far_moved (far : Far) (near after : Connection) :
    ends { far with connection := after } near = Function.update (ends far near) far.role after :=
  (Function.update_idem ..).symm

theorem ends_near_moved {far : Far} (other : p ≠ far.role) (near after : Connection) :
    ends far after = Function.update (ends far near) p after := by
  funext q
  by_cases here : q = p
  · subst here
    rw [Function.update_self, ends_near other]
  · have role : q = far.role := by
      revert here other
      generalize far.role = r
      cases p <;> cases q <;> cases r <;> decide
    rw [Function.update_of_ne here, role, ends_far, ends_far]

theorem acted_event {d : Connection} (acted : streamAct s p around action = some d) :
    ∃ event, (s p).step (around, event) = some d := by
  cases action with
  | sendMessage m => exact ⟨.sendMessage m.1, acted⟩
  | writeDone => exact ⟨.writeDone, acted⟩
  | receive =>
    simp only [streamAct] at acted
    split at acted
    · cases acted
    · exact ⟨_, acted⟩

end Ends

section Steps
variable {net next : Network} {around : Surroundings} {p : Party} {action : Action}
  {conn : Nat} {near : Peer} {far : Far} {after : Connection} {s : Nodes}

theorem link_some : net.link conn = some s ↔ ∃ near far, net.node.peers[conn]? = some near ∧
    net.fars[conn]? = some far ∧ ends far near.connection = s := by
  simp [Network.link, Option.bind_eq_some_iff]

/-- A move of the network is a move of one link, and the Node takes part in it or not. -/
theorem step_moved (there : net.node.peers[conn]? = some near)
    (beyond : net.fars[conn]? = some far)
    (acted : streamAct (ends far near.connection) p around action = some after) :
    ∃ next, net.step (.moved conn (p, around, action)) = some next ∧
      next.fars.length = net.fars.length ∧
      (∀ place, next.link place = if place = conn then
        some (Function.update (ends far near.connection) p after) else net.link place) ∧
      (next.node = net.node ∨ p ≠ far.role ∧ next.node = net.node.moved conn near after) := by
  by_cases role : p = far.role
  · subst role
    refine ⟨{ net with fars := net.fars.set conn { far with connection := after } }, ?_, ?_, ?_,
      Or.inl rfl⟩
    · simp [Network.step, there, beyond, acted]
    · exact List.length_set ..
    · intro place
      by_cases here : place = conn
      · subst here
        have inside := (List.getElem?_eq_some_iff.mp beyond).1
        simp [Network.link, there, inside, ends_far_moved]
      · simp [Network.link, List.getElem?_set_ne (Ne.symm here), here]
  · refine ⟨{ net with node := net.node.moved conn near after }, ?_, rfl, ?_, Or.inr ⟨role, rfl⟩⟩
    · simp [Network.step, there, beyond, acted, role]
    · intro place
      by_cases here : place = conn
      · subst here
        have inside := (List.getElem?_eq_some_iff.mp there).1
        rw [← ends_near_moved role near.connection after]
        simp [Network.link, Node.moved, beyond, inside]
      · simp [Network.link, Node.moved, List.getElem?_set_ne (Ne.symm here), here]

theorem opened_link (net : Network) (size : net.fars.length = net.node.peers.length)
    (role : Party) (env : Surroundings) (remote : Bytes) (place : Nat) :
    Network.link ⟨net.node.opened (role.opening env) remote (constantHeap 0),
      net.fars ++ [⟨role.peer, (role.peer.opening env).connection (constantHeap 0)⟩]⟩ place =
    if place = net.fars.length then some (connected env (fun _ => constantHeap 0) fun _ => [])
    else net.link place := by
  rcases Nat.lt_trichotomy place net.fars.length with before | rfl | behind
  · have apart : place ≠ net.fars.length := Nat.ne_of_lt before
    simp [Network.link, Node.opened, List.getElem?_append_left before,
      List.getElem?_append_left (size ▸ before), apart]
  · rw [if_pos rfl, ← ends_opened role env]
    simp [Network.link, Node.opened, size]
  · have apart : place ≠ net.fars.length := Nat.ne_of_gt behind
    have nobody : net.fars[place]? = none := List.getElem?_eq_none behind.le
    have still : (net.fars ++ [(⟨role.peer, (role.peer.opening env).connection
        (constantHeap 0)⟩ : Far)])[place]? = none :=
      List.getElem?_eq_none (by rw [List.length_append]; exact behind)
    rw [if_neg apart]
    simp only [Network.link, nobody, still, Option.bind_eq_bind, Option.bind_none,
      Option.bind_fun_none]

theorem remote_unique (woven : Woven net) (there : net.node.peers[conn]? = some near)
    {other : Nat} {peer : Peer} (found : net.node.peers[other]? = some peer)
    (same : peer.remote = near.remote) : other = conn := by
  have inside := (List.getElem?_eq_some_iff.mp found).1
  have within : other < (remotesOf net.node).length := by rwa [remotesOf, List.length_map]
  refine (List.getElem?_inj within woven.apart).mp ?_
  rw [remotesOf, List.getElem?_map, List.getElem?_map, there, found, Option.map_some,
    Option.map_some, same]

theorem opened_woven (woven : Woven net) (role : Party) (env : Surroundings) {remote : Bytes}
    (new : remote ∉ remotesOf net.node) :
    Woven ⟨net.node.opened (role.opening env) remote (constantHeap 0),
      net.fars ++ [⟨role.peer, (role.peer.opening env).connection (constantHeap 0)⟩]⟩ where
  size := by simp [Node.opened, woven.size]
  apart := by
    rw [remotes_opened, List.nodup_append]
    refine ⟨woven.apart, List.nodup_singleton _, ?_⟩
    intro old member last here
    rw [List.mem_singleton.mp here]
    intro same
    rw [same] at member
    exact new member
  sound := opened_sound woven.sound
  kept := by
    refine (opened_noneLost_iff woven.sound woven.kept).mpr ?_
    by_contra waits
    obtain ⟨other, entry⟩ := Option.ne_none_iff_exists'.mp waits
    obtain ⟨peer, there, rfl, _⟩ := woven.sound.unregistred remote other entry
    exact new (List.mem_map_of_mem (List.mem_of_getElem? there))
  ran := by
    obtain ⟨events, run⟩ := woven.ran
    cases role with
    | accepter =>
      exact ⟨events ++ [.handleAccept remote (constantHeap 0)],
        (play_concat Node.step _ _ _ _).mpr ⟨_, run, rfl⟩⟩
    | opener =>
      exact ⟨events ++ [.connect env remote (constantHeap 0)],
        (play_concat Node.step _ _ _ _).mpr ⟨_, run, rfl⟩⟩
  talked := by
    intro conn s linked
    rw [opened_link net woven.size] at linked
    split at linked
    · cases linked
      refine ⟨env, [], rfl, ?_⟩
      intro before e u early
      simp at early
    · exact woven.talked conn s linked

/-- An honest node that is registered is the first of its remote. -/
theorem near_fits (woven : Woven net) (there : net.node.peers[conn]? = some near)
    (filed : after.registrations = if after.currentStatus = .Ack then [.nodepeer] else [])
    (type : PeerType) (one : after.registrations = near.connection.registrations ++ [type]) :
    Fits net.node.tables near.remote type := by
  rw [one] at filed
  split at filed
  · obtain ⟨fresh, same⟩ := List.append_eq_singleton_iff.mp filed |>.resolve_right (by simp)
    obtain rfl := List.singleton_inj.mp same
    change net.node.tables.connectedNodes near.remote = none
    by_contra waits
    obtain ⟨other, entry⟩ := Option.ne_none_iff_exists'.mp waits
    obtain ⟨peer, found, here, registered⟩ :=
      woven.sound.placed .nodepeer nofun near.remote other entry
    obtain rfl := remote_unique woven there found here
    obtain rfl := Option.some.inj (there.symm.trans found)
    cases fresh.symm.trans registered
  · simp at filed

theorem node_woven (woven : Woven net) (there : net.node.peers[conn]? = some near)
    {event : Event} (go : near.connection.step (around, event) = some after)
    (filed : after.registrations = if after.currentStatus = .Ack then [.nodepeer] else []) :
    Sound (net.node.moved conn near after) ∧ NoneLost (net.node.moved conn near after) ∧
      ∃ events, play Node.step Node.empty events = some (net.node.moved conn near after) := by
  have registers := step_registers go
  obtain ⟨events, run⟩ := woven.ran
  refine ⟨moved_sound there woven.sound registers,
    (moved_noneLost_iff there woven.sound registers woven.kept).mpr (near_fits woven there filed),
    events ++ [.connection conn around event],
    (play_concat Node.step _ _ _ _).mpr ⟨net.node, run, ?_⟩⟩
  simp [Node.step, there, go]

/-- What a move of one end leaves, and that it keeps the invariant. -/
theorem moved_woven (woven : Woven net) {move : Party × Surroundings × Action}
    (linked : net.link conn = some s) (orderly : Orderly s move) {t : Nodes}
    (go : streamStep s move = some t) : ∃ next, net.step (.moved conn move) = some next ∧
      Woven next ∧ remotesOf next.node = remotesOf net.node ∧
      ∀ place, next.link place = if place = conn then some t else net.link place := by
  obtain ⟨p, around, action⟩ := move
  obtain ⟨near, far, there, beyond, rfl⟩ := link_some.mp linked
  obtain ⟨after, acted, rfl⟩ := Option.map_eq_some_iff.mp go
  obtain ⟨next, step, size, links, moves⟩ := step_moved there beyond acted
  obtain ⟨env, talked⟩ := woven.talked conn _ linked
  have more := talked_moved talked orderly go
  have talks : ∀ place s, next.link place = some s → ∃ env, Talked env s := by
    intro place s found
    rw [links] at found
    split at found
    · cases found
      exact ⟨env, more⟩
    · exact woven.talked place s found
  have node : next.node.peers.length = net.node.peers.length ∧
      remotesOf next.node = remotesOf net.node ∧ Sound next.node ∧ NoneLost next.node ∧
      ∃ events, play Node.step Node.empty events = some next.node := by
    rcases moves with same | ⟨role, moved⟩
    · rw [same]
      exact ⟨rfl, rfl, woven.sound, woven.kept, woven.ran⟩
    · obtain ⟨event, turn⟩ := acted_event acted
      rw [ends_near role] at turn
      have filed := (talked_agreed more).2.filed p
      rw [Function.update_self] at filed
      rw [moved]
      exact ⟨List.length_set .., remotes_moved there after, node_woven woven there turn filed⟩
  obtain ⟨length, remotes, sound, kept, ran⟩ := node
  exact ⟨next, step, ⟨by rw [size, length, woven.size], remotes ▸ woven.apart, sound, kept, ran,
    talks⟩, remotes, links⟩

theorem step_woven {move : Move} (woven : Woven net) (tidy : Tidy net move)
    (go : net.step move = some next) : Woven next := by
  cases move with
  | opened role env remote =>
    cases go
    exact opened_woven woven role env tidy
  | moved conn move =>
    obtain ⟨near, there, rest⟩ := Option.bind_eq_some_iff.mp go
    obtain ⟨far, beyond, rest⟩ := Option.bind_eq_some_iff.mp rest
    obtain ⟨after, acted, _⟩ := Option.bind_eq_some_iff.mp rest
    have linked : net.link conn = some (ends far near.connection) :=
      link_some.mpr ⟨near, far, there, beyond, rfl⟩
    have moved : streamStep (ends far near.connection) move =
        some (Function.update (ends far near.connection) move.1 after) :=
      congrArg (Option.map _) acted
    obtain ⟨_, step, kept, _⟩ := moved_woven woven linked (tidy _ linked) moved
    obtain rfl := Option.some.inj (step.symm.trans go)
    exact kept

theorem run_woven {moves : List Move} (run : play Network.step Network.empty moves = some net)
    (tidy : EachStep Network.step Tidy Network.empty moves) : Woven net := by
  refine play_keeps Woven (fun _ _ _ woven tidy go => step_woven woven tidy go) run tidy ?_
  exact ⟨rfl, List.nodup_nil, empty_sound, ⟨nofun, nofun, nofun⟩, ⟨[], rfl⟩, nofun⟩

end Steps

/-- The table of a Connection by its status. -/
def Kept (tables : Tables) (conn : Nat) (near : Peer) : Prop :=
  if near.connection.currentStatus = .Ack then tables.connectedNodes near.remote = some conn
  else tables.unregistred near.remote = some conn

/-- The Node runs as it does alone, its links agree, and everyone is in their table. -/
structure Settled (net : Network) : Prop where
  ran : ∃ events, play Node.step Node.empty events = some net.node
  linked : ∀ conn near, net.node.peers[conn]? = some near → ∃ s, net.link conn = some s
  agreed : ∀ conn s, net.link conn = some s → Safe s ∧ Agreed s
  kept : ∀ conn near, net.node.peers[conn]? = some near → Kept net.node.tables conn near

/-- The completions that all Connections need up to Ack. -/
def Network.left (net : Network) : Nat :=
  ∑ conn ∈ Finset.range net.fars.length, (net.link conn).elim 0 streamLeft

def Completed (around : Surroundings) : Move → Prop
  | .opened _ _ _ => False
  | .moved _ move => Completion around move

section Networks
variable {net : Network} {around : Surroundings} {conn : Nat} {near : Peer} {s : Nodes}

theorem woven_far (woven : Woven net) (there : net.node.peers[conn]? = some near) :
    ∃ far, net.fars[conn]? = some far ∧ net.link conn = some (ends far near.connection) := by
  have inside := (List.getElem?_eq_some_iff.mp there).1
  rw [← woven.size] at inside
  have beyond := List.getElem?_eq_getElem inside
  exact ⟨_, beyond, link_some.mpr ⟨near, _, there, beyond, rfl⟩⟩

theorem woven_settled (woven : Woven net) : Settled net where
  ran := woven.ran
  linked := by
    intro conn near there
    obtain ⟨far, _, linked⟩ := woven_far woven there
    exact ⟨_, linked⟩
  agreed := by
    intro conn s linked
    obtain ⟨env, talked⟩ := woven.talked conn s linked
    exact talked_agreed talked
  kept := by
    intro conn near there
    obtain ⟨far, _, linked⟩ := woven_far woven there
    obtain ⟨env, talked⟩ := woven.talked conn _ linked
    have other : far.role.peer ≠ far.role := by
      cases far.role <;> decide
    have filed := (talked_agreed talked).2.filed far.role.peer
    rw [ends_near other] at filed
    have placed := (noneLost_iff woven.sound).mp woven.kept conn near there
    unfold AtHome at placed
    rw [filed] at placed
    unfold Kept
    split at placed <;> rename_i ack
    · rwa [if_pos ack]
    · rwa [if_neg ack]

theorem sum_lowered {n k : Nat} {f g : Nat → Nat} (inside : k < n) (less : f k + 1 = g k)
    (same : ∀ i, i ≠ k → f i = g i) :
    ∑ i ∈ Finset.range n, f i + 1 = ∑ i ∈ Finset.range n, g i := by
  have member : k ∈ Finset.range n := Finset.mem_range.mpr inside
  rw [← Finset.add_sum_erase _ f member, ← Finset.add_sum_erase _ g member, ← less]
  have rest : ∑ i ∈ (Finset.range n).erase k, f i = ∑ i ∈ (Finset.range n).erase k, g i :=
    Finset.sum_congr rfl fun i other => same i (Finset.ne_of_mem_erase other)
  omega

theorem network_progress (around : Surroundings) (woven : Woven net) (more : net.left ≠ 0) :
    ∃ move next, Completed around move ∧ net.step move = some next ∧ Woven next ∧
      remotesOf next.node = remotesOf net.node ∧ next.left + 1 = net.left := by
  obtain ⟨conn, member, waits⟩ := Finset.exists_ne_zero_of_sum_ne_zero more
  have inside := Finset.mem_range.mp member
  cases linked : net.link conn with
  | none =>
    rw [linked] at waits
    exact absurd rfl waits
  | some s =>
    rw [linked] at waits
    obtain ⟨env, talked⟩ := woven.talked conn s linked
    obtain ⟨u, shadow⟩ := talked_linked talked
    obtain ⟨move, t, kind, orderly, go, less⟩ := stream_progress around shadow waits
    obtain ⟨next, step, kept, remotes, links⟩ := moved_woven woven linked orderly go
    have size : next.fars.length = net.fars.length := by
      have same := congrArg List.length remotes
      rw [remotesOf, remotesOf, List.length_map, List.length_map] at same
      rw [kept.size, woven.size, same]
    refine ⟨.moved conn move, next, kind, step, kept, remotes, ?_⟩
    rw [Network.left, Network.left, size]
    refine sum_lowered inside ?_ ?_
    · rw [links, if_pos rfl, linked]
      exact less
    · intro place other
      rw [links, if_neg other]

theorem nothing_left (woven : Woven net) (done : net.left = 0)
    (there : net.node.peers[conn]? = some near) : near.connection.currentStatus = .Ack := by
  obtain ⟨far, beyond, linked⟩ := woven_far woven there
  have inside := (List.getElem?_eq_some_iff.mp beyond).1
  have none := Finset.sum_eq_zero_iff.mp done conn (Finset.mem_range.mpr inside)
  rw [linked] at none
  obtain ⟨env, talked⟩ := woven.talked conn _ linked
  obtain ⟨u, shadow⟩ := talked_linked talked
  have other : far.role.peer ≠ far.role := by
    cases far.role <;> decide
  have ack := (nothing_left_iff shadow).mp none far.role.peer
  rwa [ends_near other] at ack

end Networks

/-- One node connects, another one is connected to, and the first one has something to send. -/
def twoPeers : List Move :=
  [.opened .accepter offline localRemote, .opened .opener offline distantRemote,
    .moved 0 (.opener, offline, .sendMessage ⟨Message.new .getMempool, rfl⟩)]

theorem twoPeers_tidy : ∃ net, play Network.step Network.empty twoPeers = some net ∧
    EachStep Network.step Tidy Network.empty twoPeers ∧ net.left = 14 := by
  have run : play Network.step Network.empty twoPeers = some _ := rfl
  refine ⟨_, run, ?_, rfl⟩
  refine (eachStep_cons rfl _).mpr ⟨List.not_mem_nil, (eachStep_cons rfl _).mpr ⟨?_,
    (eachStep_cons rfl _).mpr ⟨fun _ _ => trivial, ?_⟩⟩⟩
  · change distantRemote ∉ [localRemote]
    decide
  · intro before e u early
    simp at early

theorem network_settled {moves : List Move} {net : Network}
    (run : play Network.step Network.empty moves = some net)
    (tidy : EachStep Network.step Tidy Network.empty moves) : Settled net :=
  woven_settled (run_woven run tidy)

theorem two_peers_settled : ∃ net, play Network.step Network.empty twoPeers = some net ∧
    Settled net := by
  obtain ⟨net, run, tidy, _⟩ := twoPeers_tidy
  exact ⟨net, run, network_settled run tidy⟩

theorem network_never_stuck {moves : List Move} {net : Network}
    (run : play Network.step Network.empty moves = some net)
    (tidy : EachStep Network.step Tidy Network.empty moves) (around : Surroundings) :
    ∃ completions after, (∀ move ∈ completions, Completed around move) ∧
      completions.length = net.left ∧ play Network.step net completions = some after ∧
      remotesOf after.node = remotesOf net.node ∧
      ∀ conn near, after.node.peers[conn]? = some near → near.connection.currentStatus = .Ack ∧
        after.node.tables.connectedNodes near.remote = some conn := by
  have progress : ∀ now : Network, Woven now ∧ remotesOf now.node = remotesOf net.node →
      now.left ≠ 0 → ∃ move next, Completed around move ∧ now.step move = some next ∧
        (Woven next ∧ remotesOf next.node = remotesOf net.node) ∧ next.left + 1 = now.left := by
    intro now kept more
    obtain ⟨move, next, kind, go, woven, remotes, less⟩ := network_progress around kept.1 more
    exact ⟨move, next, kind, go, ⟨woven, remotes.trans kept.2⟩, less⟩
  obtain ⟨completions, after, kinds, count, finish, ⟨woven, remotes⟩, done⟩ :=
    play_uses_up _ Network.left (Completed around) progress net ⟨run_woven run tidy, rfl⟩
  refine ⟨completions, after, kinds, count, finish, remotes, ?_⟩
  intro conn near there
  have ack := nothing_left woven done there
  have kept := (woven_settled woven).kept conn near there
  rw [Kept, if_pos ack] at kept
  exact ⟨ack, kept⟩

/-- Seven completions for each of the two. -/
theorem two_peers_complete : ∃ net, play Network.step Network.empty twoPeers = some net ∧
    net.left = 14 ∧ ∃ completions after, (∀ move ∈ completions, Completed offline move) ∧
      completions.length = net.left ∧ play Network.step net completions = some after ∧
      remotesOf after.node = remotesOf net.node ∧
      ∀ conn near, after.node.peers[conn]? = some near → near.connection.currentStatus = .Ack ∧
        after.node.tables.connectedNodes near.remote = some conn := by
  obtain ⟨net, run, tidy, left⟩ := twoPeers_tidy
  exact ⟨net, run, left, network_never_stuck run tidy offline⟩

end EnsicoinHonestNetwork
