import Ensicoin.ConnectionRuns

/-!
What a Connection writes. A handshake message turns the status and is answered by
messages of fixed types, and what waits in bufferedMessages is left for idle, which
takes it from the back.
-/
namespace EnsicoinWrittenMessages
open EnsicoinRuntime EnsicoinNetworkBuffer EnsicoinNetworkable EnsicoinMessages
open EnsicoinConnection EnsicoinConnectionRuns

/-- Reads, versions, labels and memory may differ. -/
structure Still (c d : Connection) : Prop where
  status : d.currentStatus = c.currentStatus
  written : d.written = c.written
  buffered : d.bufferedMessages = c.bufferedMessages
  registrations : d.registrations = c.registrations

theorem still_trans {c d e : Connection} (first : Still c d) (second : Still d e) : Still c e where
  status := second.status.trans first.status
  written := second.written.trans first.written
  buffered := second.buffered.trans first.buffered
  registrations := second.registrations.trans first.registrations

/-- The types of the messages that answer a handshake message. -/
def replies : Status → List MessageType
  | .Idle => [.whoami, .whoamiack]
  | .Waiting => [.whoamiack]
  | _ => []

def registers : Status → Nat
  | .WaitingAck => 1
  | .Waiting => 1
  | _ => 0

structure Turned (c d : Connection) : Prop where
  status : d.currentStatus = nextStatus c.currentStatus
  written : ∃ messages, d.written = c.written ++ messages ∧
    messages.map Message.getType = replies c.currentStatus
  buffered : d.bufferedMessages = c.bufferedMessages
  registrations : d.registrations.length = c.registrations.length + registers c.currentStatus

theorem still_turned {c d e : Connection} (still : Still c d) (turned : Turned d e) :
    Turned c e where
  status := by rw [turned.status, still.status]
  written := by
    rw [← still.status, ← still.written]
    exact turned.written
  buffered := turned.buffered.trans still.buffered
  registrations := by rw [turned.registrations, still.registrations, still.status]

theorem turned_still {c d e : Connection} (turned : Turned c d) (still : Still d e) :
    Turned c e where
  status := still.status.trans turned.status
  written := by
    rw [still.written]
    exact turned.written
  buffered := still.buffered.trans turned.buffered
  registrations := by rw [still.registrations, turned.registrations]

theorem sendMessage_handshake {m : Message} (hand : handshakeType m.getType = true)
    (c : Connection) : c.sendMessage m = c.asyncWrite m := by
  simp [Connection.sendMessage, hand]

theorem sendMessage_ack {c : Connection} (ack : c.currentStatus = .Ack) (m : Message) :
    c.sendMessage m = c.asyncWrite m := by
  simp [Connection.sendMessage, ack]

theorem sendMessage_waits {c : Connection} {m : Message} (early : c.currentStatus ≠ .Ack)
    (other : handshakeType m.getType = false) :
    c.sendMessage m = { c with bufferedMessages := c.bufferedMessages ++ [m] } := by
  simp [Connection.sendMessage, early, other]

theorem lowerVersion_still (c : Connection) (connectionVersion : Int32) :
    Still c (c.lowerVersion connectionVersion) := by
  unfold Connection.lowerVersion
  split <;> exact ⟨rfl, rfl, rfl, rfl⟩

theorem updateStatus_turned (env : Surroundings) (c : Connection) (connectionVersion : Int32)
    (peerType : PeerType) : Turned c (c.updateStatus env connectionVersion peerType) := by
  have label : Still c (if c.peerType = .peer then { c with peerType := peerType } else c) := by
    split <;> exact ⟨rfl, rfl, rfl, rfl⟩
  unfold Connection.updateStatus
  generalize (if c.peerType = .peer then { c with peerType := peerType } else c) = d at label
  refine still_turned label ?_
  cases now : d.currentStatus with
  | Idle =>
    simp only [now]
    have lower := lowerVersion_still d connectionVersion
    refine still_turned lower ?_
    rw [sendMessage_handshake (by rfl), sendMessage_handshake (by rfl)]
    have idle : (d.lowerVersion connectionVersion).currentStatus = .Idle := lower.status.trans now
    exact ⟨by rw [idle]; rfl, ⟨_, List.append_assoc _ _ _, by rw [idle]; rfl⟩, rfl,
      by rw [idle]; rfl⟩
  | WaitingAck =>
    simp only [now]
    have turned : Turned d { d with currentStatus := .Ack }.register :=
      ⟨by rw [now]; rfl, ⟨[], by simp [Connection.register], by rw [now]; rfl⟩, rfl,
        by rw [now]; simp [Connection.register, registers]⟩
    exact turned_still turned (lowerVersion_still _ connectionVersion)
  | Initiated =>
    simp only [now]
    exact ⟨by rw [now]; rfl, ⟨[], by simp, by rw [now]; rfl⟩, rfl, by rw [now]; rfl⟩
  | Waiting =>
    simp only [now]
    have lower := lowerVersion_still d.register connectionVersion
    rw [sendMessage_handshake (by rfl)]
    refine ⟨by rw [now]; rfl, ⟨[Message.new .whoAmIAck], ?_, by rw [now]; rfl⟩, lower.buffered, ?_⟩
    · exact congrArg (· ++ _) lower.written
    · refine (congrArg List.length lower.registrations).trans ?_
      rw [now]
      exact List.length_append
  | Ack =>
    simp only [now]
    exact ⟨by rw [now]; rfl, ⟨[], by simp, by rw [now]; rfl⟩, rfl, by rw [now]; rfl⟩

theorem readMessage_still {c d : Connection} {ofBuffer : Decoder Message} {payload : Bytes}
    {m : Message} (run : c.readMessage ofBuffer payload = .ok (m, d)) : Still c d := by
  obtain ⟨st, _, rfl⟩ := readMessage_reads run
  exact ⟨rfl, rfl, rfl, rfl⟩

theorem noted_still (c : Connection) (type : MessageType) : Still c (noted c type) :=
  ⟨rfl, rfl, rfl, rfl⟩

theorem messageHandler_turned {env : Surroundings} {type : MessageType} {c d : Connection}
    {payload : Bytes} (run : messageHandler env type c payload = .ok d)
    (hand : handshakeType type = true) : Turned c d := by
  cases type with
  | whoami =>
    obtain ⟨⟨m, read⟩, reading, done⟩ := bind_ok run
    cases done
    exact still_turned (readMessage_still reading) (updateStatus_turned env _ _ _)
  | whoamiack =>
    cases run
    exact updateStatus_turned env c 0 .peer
  | _ => cases hand

/-- Apart from an Inv, which is answered. -/
theorem messageHandler_still {env : Surroundings} {type : MessageType} {c d : Connection}
    {payload : Bytes} (run : messageHandler env type c payload = .ok d)
    (other : handshakeType type = false) (noInv : type ≠ .inv) : Still c d := by
  cases type with
  | whoami | whoamiack => cases other
  | inv => exact absurd rfl noInv
  | _ =>
    cases run
    exact ⟨rfl, rfl, rfl, rfl⟩

theorem onInv_answers {env : Surroundings} {c d : Connection} {payload : Bytes}
    (run : onInv env c payload = .ok d) :
    ∃ e m, Still c e ∧ handshakeType m.getType = false ∧ d = e.sendMessage m := by
  obtain ⟨⟨m, e⟩, reading, done⟩ := bind_ok run
  cases done
  exact ⟨e, _, readMessage_still reading, rfl, rfl⟩

theorem sendAll_ack {c : Connection} (messages : List Message) (ack : c.currentStatus = .Ack) :
    Still { c with written := c.written ++ messages }
      (messages.foldl Connection.sendMessage c) := by
  induction messages generalizing c with
  | nil => exact ⟨rfl, (List.append_nil _).symm, rfl, rfl⟩
  | cons m messages ih =>
    rw [List.foldl_cons, sendMessage_ack ack]
    have rest := ih (c := c.asyncWrite m) ack
    exact ⟨rest.status.trans rfl, rest.written.trans (List.append_assoc _ _ _), rest.buffered,
      rest.registrations⟩

theorem idle_waiting {c : Connection} (early : c.currentStatus ≠ .Ack) : Still c c.idle := by
  have same : (c.asyncRead .header).currentStatus = c.currentStatus := rfl
  unfold Connection.idle
  simp only [same, early, ↓reduceIte]
  exact ⟨rfl, rfl, rfl, rfl⟩

theorem idle_ack {c : Connection} (ack : c.currentStatus = .Ack) :
    Still { c with written := c.written ++ c.bufferedMessages.reverse, bufferedMessages := [] }
      c.idle := by
  have same : (c.asyncRead .header).currentStatus = c.currentStatus := rfl
  unfold Connection.idle
  simp only [same, ack, ↓reduceIte]
  have sent := sendAll_ack (c := c.asyncRead .header) c.bufferedMessages.reverse ack
  exact ⟨sent.status.trans ack, sent.written, rfl, sent.registrations⟩

def Opening.apply : Opening → Connection → Connection
  | .bound env, c => c.bind env
  | .accepted, c => c.start

/-- Some messages are passed before bind or start. -/
def openedAfter (opening : Opening) (heap : Heap) (early : List Message) : Connection :=
  Opening.apply opening (early.foldl Connection.sendMessage (Connection.new heap))

theorem opened_handled (opening : Opening) (heap : Heap) (early : List Message) :
    (openedAfter opening heap early).handled = [] := by
  have quiet : (early.foldl Connection.sendMessage (Connection.new heap)).handled = [] :=
    (sendAll_effect early _).handled
  cases opening with
  | accepted => exact ((idle_effect _).handled.trans (List.append_nil _)).trans quiet
  | bound env => exact quiet

end EnsicoinWrittenMessages
