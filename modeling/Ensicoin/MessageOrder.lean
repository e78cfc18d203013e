import Ensicoin.WrittenMessages

/-!
The order of the messages passed to sendMessage. Those that wait for Ack go out all
at once, from the last to the first, so the order is kept exactly by the runs in
which what waits reads the same backwards.
-/
namespace EnsicoinMessageOrder
open EnsicoinRuntime EnsicoinNetworkBuffer EnsicoinNetworkable EnsicoinMessages
open EnsicoinConnection EnsicoinConnectionRuns EnsicoinWrittenMessages StepRuns

/-- The messages that do not belong to the handshake. -/
def others (messages : List Message) : List Message :=
  messages.filter fun m => !handshakeType m.getType

theorem others_append (front back : List Message) :
    others (front ++ back) = others front ++ others back := List.filter_append _ _

theorem others_none {messages : List Message}
    (hand : ∀ m ∈ messages, handshakeType m.getType = true) : others messages = [] := by
  refine List.filter_eq_nil_iff.mpr ?_
  intro m member
  simp [hand m member]

theorem others_reverse (messages : List Message) :
    others messages.reverse = (others messages).reverse := List.filter_reverse

/-- The type of the message that these bytes complete. -/
def completed (c : Connection) (data : Bytes) : Option MessageType :=
  match c.pendingReads with
  | [] => none
  | .payload header :: _ => some (getTypeFromString header.type.value)
  | .header :: _ =>
    match MessageHeader.ofBuffer.run ⟨⟨data, false⟩, c.heap⟩ with
    | .error _ => none
    | .ok (header, _) =>
      if 0 < header.payloadLength then none else some (getTypeFromString header.type.value)

def incoming (c : Connection) : Event → Option MessageType
  | .readDone data => completed c data
  | _ => none

def passedBy : Event → List Message
  | .sendMessage m => [m]
  | _ => []

/-- A connection and the messages passed to sendMessage, while no Inv comes in. -/
structure Traced where
  connection : Connection
  passed : List Message

def Traced.step (s : Traced) (move : Surroundings × Event) : Option Traced :=
  if incoming s.connection move.2 = some .inv then none
  else (s.connection.step move).map fun c => ⟨c, s.passed ++ passedBy move.2⟩

def opened (opening : Opening) (heap : Heap) (early : List Message) : Traced :=
  ⟨openedAfter opening heap early, early⟩

def InOrder (s : Traced) : Prop :=
  s.connection.currentStatus = .Ack → others s.connection.written = others s.passed

/-- The event completes a message of the handshake, and one was missing. -/
def LastTurn (c : Connection) (event : Event) : Prop :=
  (c.currentStatus = .Waiting ∨ c.currentStatus = .WaitingAck) ∧
    ∃ type, incoming c event = some type ∧ handshakeType type = true

def Mirrored (s : Traced) (move : Surroundings × Event) : Prop :=
  LastTurn s.connection move.2 →
    s.connection.bufferedMessages.reverse = s.connection.bufferedMessages

/-- What an event does to the messages, up to idle. -/
inductive Posts (c : Connection) (event : Event) : Connection → Prop where
  | sent {m : Message} (same : event = .sendMessage m) : Posts c event (c.sendMessage m)
  | part {d : Connection} (quiet : passedBy event = []) (none : incoming c event = none)
    (still : Still c d) : Posts c event d
  | kept {d : Connection} (quiet : passedBy event = [])
    (other : ∀ type, incoming c event = some type → handshakeType type = false)
    (still : Still c d) : Posts c event d.idle
  | turned {d : Connection} {type : MessageType} (quiet : passedBy event = [])
    (read : incoming c event = some type) (hand : handshakeType type = true)
    (turned : Turned c d) : Posts c event d.idle

theorem handleMessage_posts {env : Surroundings} {c d e : Connection} {event : Event}
    {header : MessageHeader} {payload : Bytes} (still : Still c d) (quiet : passedBy event = [])
    (read : incoming c event = some (getTypeFromString header.type.value))
    (noInv : incoming c event ≠ some .inv)
    (run : d.handleMessage env header payload = .ok e) : Posts c event e := by
  obtain ⟨handled, handling, rfl⟩ := handleMessage_ok run
  have kept : Still c (noted d (getTypeFromString header.type.value)) :=
    still_trans still (noted_still d _)
  by_cases hand : handshakeType (getTypeFromString header.type.value) = true
  · exact .turned quiet read hand (still_turned kept (messageHandler_turned handling hand))
  · have other : handshakeType (getTypeFromString header.type.value) = false := by simpa using hand
    refine .kept quiet ?_ (still_trans kept (messageHandler_still handling other ?_))
    · intro type same
      rw [read] at same
      cases same
      exact other
    · intro isInv
      rw [isInv] at read
      exact noInv read

theorem step_posts {env : Surroundings} {event : Event} {c d : Connection}
    (noInv : incoming c event ≠ some .inv) (go : c.step (env, event) = some d) :
    Posts c event d := by
  cases step_taken go with
  | sent m => exact .sent rfl
  | wrote writes => exact .kept rfl (by intro type read; cases read) ⟨rfl, rfl, rfl, rfl⟩
  | announced first size reading more =>
    refine .part rfl ?_ ⟨rfl, rfl, rfl, rfl⟩
    simp only [incoming, completed, first, reading, if_pos more]
  | @bare data reads header st _ first size reading none run =>
    have read : incoming c (.readDone data) = some (getTypeFromString header.type.value) := by
      simp only [incoming, completed, first, reading, if_neg none]
    exact handleMessage_posts (d := { received c .header reads data with heap := st.heap })
      ⟨rfl, rfl, rfl, rfl⟩ rfl read noInv run
  | @filled data reads header _ first size run =>
    have read : incoming c (.readDone data) = some (getTypeFromString header.type.value) := by
      simp only [incoming, completed, first]
    exact handleMessage_posts (d := received c (.payload header) reads data)
      ⟨rfl, rfl, rfl, rfl⟩ rfl read noInv run

/-- What waits is what was passed before Ack, and nothing waits in Ack. -/
structure Held (s : Traced) : Prop where
  waits : s.connection.currentStatus ≠ .Ack →
    s.connection.bufferedMessages = others s.passed ∧ others s.connection.written = []
  emptied : s.connection.currentStatus = .Ack → s.connection.bufferedMessages = []

theorem idle_still {c : Connection}
    (emptied : c.currentStatus = .Ack → c.bufferedMessages = []) : Still c c.idle := by
  by_cases ack : c.currentStatus = .Ack
  · have flushed := idle_ack ack
    simp only [emptied ack, List.reverse_nil, List.append_nil] at flushed
    exact ⟨flushed.status, flushed.written, flushed.buffered.trans (emptied ack).symm,
      flushed.registrations⟩
  · exact idle_waiting ack

theorem turned_others {c d : Connection} (turned : Turned c d) :
    others d.written = others c.written := by
  obtain ⟨messages, written, types⟩ := turned.written
  have none : others messages = [] := by
    refine others_none ?_
    intro m member
    have listed : m.getType ∈ replies c.currentStatus := types ▸ List.mem_map_of_mem member
    revert listed
    cases c.currentStatus <;> simp only [replies, handshakeType] <;> grind
  rw [written, others_append, none, List.append_nil]

/-- Nothing went out or came in that is not of the handshake. -/
theorem held_still {s t : Traced} (status : t.connection.currentStatus = .Ack ↔
      s.connection.currentStatus = .Ack)
    (written : others t.connection.written = others s.connection.written)
    (buffered : t.connection.bufferedMessages = s.connection.bufferedMessages)
    (passed : others t.passed = others s.passed) (held : Held s) :
    Held t ∧ (InOrder s → InOrder t) := by
  refine ⟨⟨?_, ?_⟩, ?_⟩
  · rw [Ne, status, written, buffered, passed]
    exact held.waits
  · rw [status, buffered]
    exact held.emptied
  · intro before ack
    rw [written, passed]
    exact before (status.mp ack)

theorem sent_outcome {s : Traced} (m : Message) (held : Held s) :
    Held ⟨s.connection.sendMessage m, s.passed ++ [m]⟩ ∧
      (InOrder s → InOrder ⟨s.connection.sendMessage m, s.passed ++ [m]⟩) := by
  by_cases hand : handshakeType m.getType = true
  · have none : others [m] = [] := others_none (by simpa using hand)
    rw [sendMessage_handshake hand]
    refine held_still Iff.rfl ?_ rfl ?_ held
    · exact (others_append _ _).trans (by rw [none, List.append_nil])
    · rw [others_append, none, List.append_nil]
  · have other : others [m] = [m] := by simpa [others] using hand
    by_cases ack : s.connection.currentStatus = .Ack
    · rw [sendMessage_ack ack]
      refine ⟨⟨fun early => absurd ack early, held.emptied⟩, ?_⟩
      intro before _
      rw [others_append, ← before ack]
      exact others_append _ _
    · rw [sendMessage_waits ack (by simpa using hand)]
      refine ⟨⟨?_, fun late => absurd late ack⟩, fun _ late => absurd late ack⟩
      intro _
      obtain ⟨waits, silent⟩ := held.waits ack
      refine ⟨?_, silent⟩
      rw [others_append, other, ← waits]

theorem turn_last {status : Status} (early : status ≠ .Ack) (done : nextStatus status = .Ack) :
    status = .Waiting ∨ status = .WaitingAck := by
  cases status <;> simp_all [nextStatus]

/-- The turn to Ack sends what was held from the back. -/
theorem last_turn_flushes {s : Traced} {e : Connection} (held : Held s)
    (ready : s.connection.currentStatus = .Waiting ∨ s.connection.currentStatus = .WaitingAck)
    (turned : Turned s.connection e) :
    s.connection.currentStatus ≠ .Ack ∧ e.idle.currentStatus = .Ack ∧
      e.idle.bufferedMessages = [] ∧
      others e.idle.written = (others s.connection.bufferedMessages).reverse := by
  have early : s.connection.currentStatus ≠ .Ack := by
    rcases ready with now | now <;> simp [now]
  have late : e.currentStatus = .Ack := by
    rw [turned.status]
    rcases ready with now | now <;> rw [now] <;> rfl
  have flushed := idle_ack late
  have out : others e.idle.written = others e.written ++ others e.bufferedMessages.reverse :=
    (congrArg others flushed.written).trans (others_append _ _)
  refine ⟨early, flushed.status.trans late, flushed.buffered, ?_⟩
  rw [out, turned_others turned, (held.waits early).2, turned.buffered, others_reverse]
  rfl

/-- Any other turn keeps what is held: it does not come to Ack, or comes from it. -/
theorem other_turn_keeps {s : Traced} {e : Connection} (held : Held s)
    (apart : ¬ (s.connection.currentStatus = .Waiting ∨ s.connection.currentStatus = .WaitingAck))
    (turned : Turned s.connection e) {passed : List Message}
    (same : others passed = others s.passed) :
    Held ⟨e.idle, passed⟩ ∧ (InOrder s → InOrder ⟨e.idle, passed⟩) := by
  have status : e.currentStatus = .Ack ↔ s.connection.currentStatus = .Ack := by
    rw [turned.status]
    constructor
    · intro done
      by_contra early
      exact apart (turn_last early done)
    · intro ack
      rw [ack]
      rfl
  have idle : Still e e.idle :=
    idle_still fun late => turned.buffered.trans (held.emptied (status.mp late))
  refine held_still ?_ ?_ ?_ same held
  · rw [idle.status, status]
  · rw [idle.written, turned_others turned]
  · rw [idle.buffered, turned.buffered]

/-- Every step keeps what is held and the order, but for the one that makes the
    status Ack, and that one sends what was held from the back. -/
theorem step_outcome {s t : Traced} {move : Surroundings × Event} (held : Held s)
    (go : s.step move = some t) :
    (¬ LastTurn s.connection move.2 ∧ Held t ∧ (InOrder s → InOrder t)) ∨
    (LastTurn s.connection move.2 ∧ s.connection.currentStatus ≠ .Ack ∧
      t.connection.currentStatus = .Ack ∧ t.connection.bufferedMessages = [] ∧
      others t.connection.written = (others s.connection.bufferedMessages).reverse ∧
      t.passed = s.passed) := by
  unfold Traced.step at go
  split at go
  · cases go
  · rename_i noInv
    obtain ⟨d, moved, rfl⟩ := Option.map_eq_some_iff.mp go
    obtain ⟨env, event⟩ := move
    cases step_posts noInv moved with
    | sent same =>
      cases same
      refine Or.inl ⟨?_, sent_outcome _ held⟩
      intro last
      obtain ⟨_, type, read, _⟩ := last
      cases read
    | part quiet none still =>
      refine Or.inl ⟨?_, held_still (by rw [still.status]) (by rw [still.written]) still.buffered
        (by rw [quiet, List.append_nil]) held⟩
      intro last
      obtain ⟨_, type, read, _⟩ := last
      cases none.symm.trans read
    | @kept e quiet other still =>
      have idle : Still e e.idle :=
        idle_still (by rw [still.status, still.buffered]; exact held.emptied)
      have whole := still_trans still idle
      refine Or.inl ⟨?_, held_still (by rw [whole.status]) (by rw [whole.written]) whole.buffered
        (by rw [quiet, List.append_nil]) held⟩
      intro last
      obtain ⟨_, type, read, hand⟩ := last
      rw [other type read] at hand
      cases hand
    | @turned e type quiet read hand turned =>
      rw [quiet, List.append_nil]
      by_cases last : LastTurn s.connection event
      · obtain ⟨early, late, empty, sent⟩ := last_turn_flushes held last.1 turned
        exact Or.inr ⟨last, early, late, empty, sent, rfl⟩
      · have apart := fun ready => last ⟨ready, type, read, hand⟩
        exact Or.inl ⟨last, other_turn_keeps held apart turned rfl⟩

theorem step_held {s t : Traced} {move : Surroundings × Event} (held : Held s)
    (go : s.step move = some t) : Held t := by
  rcases step_outcome held go with ⟨_, kept, _⟩ | ⟨_, _, ack, sent, _⟩
  · exact kept
  · exact ⟨fun early => absurd ack early, fun _ => sent⟩

theorem step_inOrder_iff {s t : Traced} {move : Surroundings × Event} (held : Held s)
    (start : InOrder s) (go : s.step move = some t) : InOrder t ↔ Mirrored s move := by
  rcases step_outcome held go with ⟨more, _, kept⟩ | ⟨last, early, ack, _, written, passed⟩
  · exact ⟨fun _ last => absurd last more, fun _ => kept start⟩
  · obtain ⟨waits, _⟩ := held.waits early
    have only : others s.connection.bufferedMessages = s.connection.bufferedMessages := by
      rw [waits]
      exact List.filter_filter.trans (by simp [others])
    rw [only] at written
    constructor
    · intro ordered _
      rw [← written, ordered ack, passed, ← waits]
    · intro mirrored _
      rw [written, mirrored last, waits, passed]

theorem sendEarly_held (early : List Message) (s : Traced) (held : Held s) :
    Held ⟨early.foldl Connection.sendMessage s.connection, s.passed ++ early⟩ := by
  induction early generalizing s with
  | nil => simpa using held
  | cons m early ih =>
    have rest := ih ⟨s.connection.sendMessage m, s.passed ++ [m]⟩ (sent_outcome m held).1
    simpa using rest

theorem opened_held (opening : Opening) (heap : Heap) (early : List Message) :
    Held (opened opening heap early) ∧ InOrder (opened opening heap early) := by
  have new : Held ⟨Connection.new heap, []⟩ := ⟨fun _ => ⟨rfl, rfl⟩, fun ack => by cases ack⟩
  have before := sendEarly_held early ⟨Connection.new heap, []⟩ new
  have idle : (early.foldl Connection.sendMessage (Connection.new heap)).currentStatus = .Idle :=
    (sendAll_effect early _).status
  have notAck :
      (early.foldl Connection.sendMessage (Connection.new heap)).currentStatus ≠ .Ack := by
    simp [idle]
  cases opening with
  | bound env =>
    have status : (opened (.bound env) heap early).connection.currentStatus = .Initiated := rfl
    refine ⟨⟨fun _ => ?_, by simp [status]⟩, by simp [InOrder, status]⟩
    obtain ⟨waits, silent⟩ := before.waits notAck
    refine ⟨waits, ?_⟩
    exact (others_append _ _).trans (by rw [silent]; rfl)
  | accepted =>
    have still := idle_waiting notAck
    have kept := held_still (s := ⟨early.foldl Connection.sendMessage (Connection.new heap), early⟩)
      (t := opened .accepted heap early) (iff_of_eq (congrArg (· = Status.Ack) still.status))
      (congrArg others still.written) still.buffered rfl before
    refine ⟨kept.1, ?_⟩
    intro ack
    exact absurd (still.status.symm.trans ack) notAck

theorem sent_in_order_iff {opening : Opening} {heap : Heap} {early : List Message}
    {moves : List (Surroundings × Event)} {t : Traced}
    (run : play Traced.step (opened opening heap early) moves = some t) :
    Throughout Traced.step InOrder (opened opening heap early) moves ↔
      EachStep Traced.step Mirrored (opened opening heap early) moves := by
  obtain ⟨held, start⟩ := opened_held opening heap early
  refine throughout_iff_each Held InOrder Mirrored ?_ ?_ run held start
  · intro s move t held go
    exact step_held held go
  · intro s move t held ordered go
    exact step_inOrder_iff held ordered go

/-- Over zeros a WhoAmIAck turns the status of a connection that reads a header. -/
theorem traced_ack {s : Traced} (pending : s.connection.pendingReads = [.header])
    (zeros : s.connection.heap = constantHeap 0) :
    s.step (offline, .readDone whoAmIAckFrame) = some ⟨(onWhoAmIAck offline
      { received s.connection .header [] whoAmIAckFrame with
        heap := constantHeap 0, handled := s.connection.handled ++ [.whoamiack] }).idle,
      s.passed⟩ := by
  have read : incoming s.connection (.readDone whoAmIAckFrame) = some .whoamiack := by
    simp only [incoming, completed, pending, zeros, whoAmIAckFrame_read]
    decide
  simp only [Traced.step, read, whoAmIAck_step offline pending zeros, passedBy, List.append_nil]
  rfl

def sendThenAcks (messages : List Message) : List (Surroundings × Event) :=
  messages.map (fun m => (offline, Event.sendMessage m)) ++
    [(offline, .readDone whoAmIAckFrame), (offline, .readDone whoAmIAckFrame)]

theorem single_message_in_order : Throughout Traced.step InOrder
    (opened .accepted (constantHeap 0) []) (sendThenAcks [Message.new .getAddr]) := by
  have run : play Traced.step (opened .accepted (constantHeap 0) [])
      (sendThenAcks [Message.new .getAddr]) = some _ :=
    Option.bind_eq_some_iff.mpr ⟨_, rfl, Option.bind_eq_some_iff.mpr ⟨_, traced_ack rfl rfl,
      Option.bind_eq_some_iff.mpr ⟨_, traced_ack rfl rfl, rfl⟩⟩⟩
  refine (sent_in_order_iff run).mpr ?_
  refine (eachStep_cons rfl _).mpr ⟨fun _ => rfl, (eachStep_cons (traced_ack rfl rfl) _).mpr
    ⟨fun _ => rfl, (eachStep_cons (traced_ack rfl rfl) _).mpr ⟨fun _ => rfl, ?_⟩⟩⟩
  intro before move u early
  simp at early

/-- Two messages that wait for Ack go out the wrong way round. -/
theorem waiting_messages_reversed : ¬ Throughout Traced.step InOrder
    (opened .accepted (constantHeap 0) [])
    (sendThenAcks [Message.new .getAddr, Message.new .getMempool]) := by
  intro always
  have ordered := always _ _ (List.prefix_refl _) (Option.bind_eq_some_iff.mpr ⟨_, rfl,
    Option.bind_eq_some_iff.mpr ⟨_, rfl, Option.bind_eq_some_iff.mpr ⟨_, traced_ack rfl rfl,
      Option.bind_eq_some_iff.mpr ⟨_, traced_ack rfl rfl, rfl⟩⟩⟩⟩)
  have same : others _ = others _ := ordered rfl
  revert same
  decide

end EnsicoinMessageOrder
