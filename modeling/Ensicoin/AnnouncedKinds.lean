import Ensicoin.ConnectionTables
import Ensicoin.TruncatedMessages
import Ensicoin.VersionNegotiation

/-!
Why a Connection is in a table of the Node. Its label is written once, by a WhoAmI of its own
peer that lists a service, and registerConnection files it under that label when the
handshake is over. So nobody is filed on the word of another peer, or before it spoke.
-/
namespace EnsicoinAnnouncedKinds
open EnsicoinRuntime EnsicoinMessages EnsicoinConnection EnsicoinConnectionRuns
open EnsicoinConnectionStanding EnsicoinNode EnsicoinConnectionTables EnsicoinTruncatedMessages
open EnsicoinVersionNegotiation StepRuns

/-- In this memory the payload is read as a WhoAmI with the services of this type. -/
def Lists (payload : Bytes) (heap : Heap) (type : PeerType) : Prop := ∃ m st,
  WhoAmI.ofBuffer.run ⟨⟨payload, false⟩, heap⟩ = .ok (m, st) ∧
    peerTypeOf (Message.getServices m) = type

/-- The Connection is handed this payload and handles it as a WhoAmI, which in the memory that
    it has then lists the services of this type. -/
structure Tells (c : Connection) (env : Surroundings) (payload : Bytes) (type : PeerType) :
    Prop where
  waiting : ∃ header, c.pendingReads.head? = some (.payload header)
  handled : ∃ d, c.step (env, .readDone payload) = some d ∧ d.handled = c.handled ++ [.whoami]
  lists : Lists payload c.heap type

/-- On its way the run hands such a payload to conn. -/
def Announced (events : List NodeEvent) (conn : Nat) (type : PeerType) : Prop :=
  ∃ before env payload after node peer,
    events = before ++ .connection conn env (.readDone payload) :: after ∧
    play Node.step Node.empty before = some node ∧ node.peers[conn]? = some peer ∧
    Tells peer.connection env payload type

/-- The label has been told, and no other label was ever registered. -/
structure Labelled (told : PeerType → Prop) (s : Standing) : Prop where
  label : s.peerType ≠ .peer → told s.peerType
  registered : ∀ type ∈ s.registrations, type ≠ .peer → s.peerType = type

section Labels
variable {told told' : PeerType → Prop} {s : Standing}

theorem labelled_more (labelled : Labelled told s) (more : ∀ type, told type → told' type) :
    Labelled told' s :=
  ⟨fun other => more _ (labelled.label other), labelled.registered⟩

theorem label_peerType (s : Standing) (type : PeerType) :
    (s.label type).peerType = if s.peerType = .peer then type else s.peerType := by
  unfold Standing.label
  split <;> rfl

theorem lower_peerType (s : Standing) (version : Int32) :
    (s.lower version).peerType = s.peerType := by
  unfold Standing.lower
  split <;> rfl

/-- A turn labels, and may register under the label it leaves. -/
theorem turn_label (s : Standing) (version : Int32) (type : PeerType) :
    (s.turn version type).peerType = (s.label type).peerType ∧
      ((s.turn version type).registrations = s.registrations ∨
        (s.turn version type).registrations =
          s.registrations ++ [(s.turn version type).peerType]) := by
  unfold Standing.turn
  cases now : s.status with
  | Idle | Initiated | Ack => simp [now, lower_peerType]
  | WaitingAck | Waiting => simp [now, lower_peerType, Standing.register]

theorem labelled_turn (labelled : Labelled told s) (version : Int32) {type : PeerType}
    (new : type ≠ .peer → told type) :
    Labelled told (s.turn version type) := by
  obtain ⟨kept, registered⟩ := turn_label s version type
  rw [label_peerType] at kept
  by_cases fresh : s.peerType = .peer
  · rw [if_pos fresh] at kept
    have none : ∀ old ∈ s.registrations, old = .peer := by
      intro old member
      by_contra other
      exact other ((labelled.registered old member other).symm.trans fresh)
    refine ⟨by rwa [kept], ?_⟩
    intro old member other
    rcases registered with same | one
    · rw [same] at member
      exact absurd (none old member) other
    · rw [one] at member
      rcases List.mem_append.mp member with before | now
      · exact absurd (none old before) other
      · exact (List.mem_singleton.mp now).symm
  · rw [if_neg fresh] at kept
    refine ⟨by rw [kept]; exact labelled.label, ?_⟩
    intro old member other
    rw [kept]
    rcases registered with same | one
    · rw [same] at member
      exact labelled.registered old member other
    · rw [one] at member
      rcases List.mem_append.mp member with before | now
      · exact labelled.registered old before other
      · exact kept.symm.trans (List.mem_singleton.mp now).symm

theorem lists_nothing {heap : Heap} {type : PeerType} (lists : Lists [] heap type) :
    type = .peer := by
  obtain ⟨m, st, run, rfl⟩ := lists
  obtain ⟨address, _, empty⟩ := whoAmI_empty heap
  cases empty.symm.trans run
  rfl

theorem labelled_turns {c d : Connection} {heap : Heap} {payload : Bytes} {type : MessageType}
    (labelled : Labelled told (standing c)) (turns : Turns c heap payload type d)
    (new : type = .whoami → ∀ kind, kind ≠ .peer → Lists payload heap kind → told kind) :
    Labelled told (standing d) := by
  cases turns with
  | kept other same => rwa [same]
  | whoAmIAck turned =>
    rw [turned]
    exact labelled_turn labelled 0 fun other => absurd rfl other
  | @whoAmI _ m st reading turned =>
    rw [turned]
    exact labelled_turn labelled _ fun other => new rfl _ other ⟨m, st, reading, rfl⟩

/-- What one event tells the Connection that it moves. -/
theorem step_labelled {c d : Connection} {env : Surroundings} {event : Event}
    (labelled : Labelled told (standing c)) (go : c.step (env, event) = some d)
    (new : ∀ payload type, event = .readDone payload → Tells c env payload type → told type) :
    Labelled told (standing d) := by
  cases step_stands go with
  | quiet _ same => rwa [same]
  | bare _ _ turns =>
    exact labelled_turns labelled turns fun _ kind other lists =>
      absurd (lists_nothing lists) other
  | @filled header payload type _ first handled turns =>
    refine labelled_turns labelled turns fun greets kind _ lists => ?_
    subst greets
    exact new payload kind rfl ⟨⟨header, first⟩, ⟨d, go, handled⟩, lists⟩

end Labels

/-- The labels of all Connections, beside what holds of their tables. -/
structure Known (events : List NodeEvent) (node : Node) : Prop where
  reached : play Node.step Node.empty events = some node
  sound : Sound node
  labelled : ∀ conn peer, node.peers[conn]? = some peer →
    Labelled (Announced events conn) (standing peer.connection)

theorem announced_more {events : List NodeEvent} {conn : Nat} (event : NodeEvent) (type : PeerType)
    (announced : Announced events conn type) : Announced (events ++ [event]) conn type := by
  obtain ⟨before, env, payload, after, node, peer, rfl, rest⟩ := announced
  exact ⟨before, env, payload, after ++ [event], node, peer, by simp, rest⟩

theorem step_known {events : List NodeEvent} {node next : Node} {event : NodeEvent}
    (known : Known events node) (go : node.step event = some next) :
    Known (events ++ [event]) next := by
  have reached := (play_concat _ _ _ _ _).mpr ⟨node, known.reached, go⟩
  have old : ∀ conn peer, node.peers[conn]? = some peer →
      Labelled (Announced (events ++ [event]) conn) (standing peer.connection) :=
    fun conn peer there => labelled_more (known.labelled conn peer there) (announced_more event)
  have opened : ∀ opening remote heap, next = node.opened opening remote heap →
      Known (events ++ [event]) next := by
    intro opening remote heap same
    subst same
    refine ⟨reached, opened_sound known.sound, ?_⟩
    intro conn peer there
    rcases opened_peer.mp there with before | ⟨_, rfl⟩
    · exact old conn peer before
    · rw [opening_standing]
      exact ⟨fun other => absurd rfl other, fun _ none => absurd none List.not_mem_nil⟩
  cases event with
  | handleAccept remote heap =>
    cases go
    exact opened .accepted remote heap rfl
  | connect env remote heap =>
    cases go
    exact opened (.bound env) remote heap rfl
  | connection place env event =>
    obtain ⟨before, there, rest⟩ := Option.bind_eq_some_iff.mp go
    obtain ⟨after, moved, done⟩ := Option.bind_eq_some_iff.mp rest
    cases done
    refine ⟨reached, moved_sound there known.sound (step_registers moved), ?_⟩
    intro conn peer found
    rcases (moved_peer there).mp found with ⟨rfl, rfl⟩ | ⟨_, other⟩
    · refine step_labelled (old conn before there) moved ?_
      rintro payload type rfl tells
      exact ⟨events, env, payload, [], node, before, rfl, known.reached, there, tells⟩
    · exact old conn peer other

theorem filed_on_own_word {events : List NodeEvent} {node : Node}
    (run : play Node.step Node.empty events = some node) {kind : PeerType} (placed : kind ≠ .peer)
    {remote : Bytes} {conn : Nat} (entry : home node.tables [kind] remote = some conn) :
    ∃ peer, node.peers[conn]? = some peer ∧ peer.remote = remote ∧
      peer.connection.currentStatus = .Ack ∧ peer.connection.peerType = kind ∧
      Announced events conn kind := by
  have known : Known events node := by
    refine play_history Known ⟨rfl, empty_sound, nofun⟩ ?_ events node run
    intro before s event t known go
    exact step_known known go
  obtain ⟨peer, there, here, one⟩ := known.sound.placed kind placed remote conn entry
  have labelled := known.labelled conn peer there
  have agreed : peer.connection.peerType = kind := by
    refine labelled.registered kind ?_ placed
    change kind ∈ peer.connection.registrations
    rw [one]
    exact List.mem_singleton.mpr rfl
  have ack : peer.connection.currentStatus = .Ack := by
    rcases known.sound.registered conn peer there with none | ⟨_, _, done⟩
    · cases one.symm.trans none
    · exact done
  refine ⟨peer, there, here, ack, agreed, ?_⟩
  have announced := labelled.label
  change peer.connection.peerType ≠ .peer → Announced _ _ peer.connection.peerType at announced
  rw [agreed] at announced
  exact announced placed

theorem connection_moves {node : Node} {conn : Nat} {peer : Peer} {env : Surroundings}
    {event : Event} {after : Connection} (there : node.peers[conn]? = some peer)
    (go : peer.connection.step (env, event) = some after) :
    node.step (.connection conn env event) = some (node.moved conn peer after) := by
  simp only [Node.step, there, go, bind, Option.bind, pure]

/-- An accepted Connection greets as a node and acknowledges. -/
def greets (v : UInt32) : List NodeEvent :=
  .handleAccept localRemote (constantHeap 0) ::
    (greeted v).map fun move => .connection 0 move.1 move.2

theorem greeting_filed : ∃ node peer, play Node.step Node.empty (greets 0) = some node ∧
    node.peers[0]? = some peer ∧ peer.remote = localRemote ∧
    peer.connection.currentStatus = .Ack ∧ peer.connection.peerType = .nodepeer ∧
    Announced (greets 0) 0 .nodepeer := by
  have more : 0 < (EnsicoinHonestHandshake.headerOf (greeting 0)).payloadLength := by
    rw [EnsicoinHonestHandshake.headerOf, greeting_length]
    exact (by decide : (0 : UInt64) < EnsicoinNetworkable.sizeT 36)
  have run : play Node.step Node.empty (greets 0) = some _ :=
    Option.bind_eq_some_iff.mpr ⟨_, rfl, Option.bind_eq_some_iff.mpr
      ⟨_, connection_moves rfl (header_step offline rfl rfl more), Option.bind_eq_some_iff.mpr
      ⟨_, connection_moves rfl (greeting_step offline rfl rfl), Option.bind_eq_some_iff.mpr
      ⟨_, connection_moves rfl (whoAmIAck_step offline rfl rfl), rfl⟩⟩⟩⟩
  have isNode : PeerType.nodepeer ≠ .peer := by decide
  obtain ⟨peer, rest⟩ := filed_on_own_word run isNode
    (show home _ [.nodepeer] localRemote = some 0 from rfl)
  exact ⟨_, peer, run, rest⟩

end EnsicoinAnnouncedKinds
