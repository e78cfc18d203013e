import Ensicoin.ConnectionRuns

/-!
What the handshake makes of a Connection, with its reads, writes and memory left out: the
status, the version, the label and the calls of registerConnection. A step that handles a
WhoAmI or a WhoAmIAck turns this standing once, and every other step leaves it.
-/
namespace EnsicoinConnectionStanding
open EnsicoinRuntime EnsicoinNetworkBuffer EnsicoinNetworkable EnsicoinMessages
open EnsicoinConnection EnsicoinConnectionRuns StepRuns

structure Standing where
  status : Status
  versionUsed : Int32
  peerType : PeerType
  registrations : List PeerType
  deriving DecidableEq, Repr

def standing (c : Connection) : Standing :=
  ⟨c.currentStatus, c.versionUsed, c.peerType, c.registrations⟩

def Standing.lower (s : Standing) (connectionVersion : Int32) : Standing :=
  if connectionVersion < s.versionUsed then { s with versionUsed := connectionVersion } else s

def Standing.register (s : Standing) : Standing :=
  { s with registrations := s.registrations ++ [s.peerType] }

def Standing.label (s : Standing) (peerType : PeerType) : Standing :=
  if s.peerType = .peer then { s with peerType := peerType } else s

/-- What updateStatus does to the standing. -/
def Standing.turn (s : Standing) (connectionVersion : Int32) (peerType : PeerType) : Standing :=
  let s := s.label peerType
  match s.status with
  | .Idle => { s.lower connectionVersion with status := .WaitingAck }
  | .WaitingAck => { s with status := .Ack }.register.lower connectionVersion
  | .Initiated => { s with status := .Waiting }
  | .Waiting => { s.register.lower connectionVersion with status := .Ack }
  | .Ack => s

section Fields
variable (s : Standing) (connectionVersion : Int32) (peerType : PeerType)

@[simp] theorem lower_status : (s.lower connectionVersion).status = s.status := by
  unfold Standing.lower
  split <;> rfl

@[simp] theorem lower_registrations :
    (s.lower connectionVersion).registrations = s.registrations := by
  unfold Standing.lower
  split <;> rfl

@[simp] theorem label_status : (s.label peerType).status = s.status := by
  unfold Standing.label
  split <;> rfl

@[simp] theorem label_versionUsed : (s.label peerType).versionUsed = s.versionUsed := by
  unfold Standing.label
  split <;> rfl

@[simp] theorem label_registrations : (s.label peerType).registrations = s.registrations := by
  unfold Standing.label
  split <;> rfl

end Fields

/-- What handling a message does to the standing, by its type and the payload, in this
    memory. -/
inductive Turns (c : Connection) (heap : Heap) (payload : Bytes) : MessageType → Connection → Prop
  | kept {type : MessageType} {d : Connection} (other : handshakeType type = false)
      (same : standing d = standing c) : Turns c heap payload type d
  | whoAmI {d : Connection} {m : Message} {st : ReadState}
      (reading : WhoAmI.ofBuffer.run ⟨⟨payload, false⟩, heap⟩ = .ok (m, st))
      (turned : standing d = (standing c).turn (Message.getVersion m).toInt32
        (peerTypeOf (Message.getServices m))) : Turns c heap payload .whoami d
  | whoAmIAck {d : Connection} (turned : standing d = (standing c).turn 0 .peer) :
      Turns c heap payload .whoamiack d

/-- A step handles no message, or one that came without a payload or with these data. -/
inductive Stands (c : Connection) : Event → Connection → Prop
  | quiet {event : Event} {d : Connection} (handled : d.handled = c.handled)
      (same : standing d = standing c) : Stands c event d
  | bare {data : Bytes} {heap : Heap} {type : MessageType} {d : Connection}
      (first : c.pendingReads.head? = some .header) (handled : d.handled = c.handled ++ [type])
      (turns : Turns c heap [] type d) : Stands c (.readDone data) d
  | filled {header : MessageHeader} {payload : Bytes} {type : MessageType} {d : Connection}
      (first : c.pendingReads.head? = some (.payload header))
      (handled : d.handled = c.handled ++ [type]) (turns : Turns c c.heap payload type d) :
      Stands c (.readDone payload) d

section Standings
variable {c d : Connection}

theorem sendMessage_standing (c : Connection) (m : Message) :
    standing (c.sendMessage m) = standing c := by
  unfold Connection.sendMessage
  split
  · rfl
  · rfl

theorem sendAll_standing (messages : List Message) (c : Connection) :
    standing (messages.foldl Connection.sendMessage c) = standing c := by
  induction messages generalizing c with
  | nil => rfl
  | cons m messages ih =>
    rw [List.foldl_cons, ih, sendMessage_standing]

theorem idle_standing (c : Connection) : standing c.idle = standing c := by
  unfold Connection.idle
  simp only
  split
  · exact sendAll_standing _ (c.asyncRead .header)
  · rfl

theorem lowerVersion_standing (c : Connection) (connectionVersion : Int32) :
    standing (c.lowerVersion connectionVersion) = (standing c).lower connectionVersion :=
  apply_ite standing _ _ _

theorem status_standing (c : Connection) (status : Status) :
    standing { c with currentStatus := status } = { standing c with status := status } := rfl

theorem register_standing (c : Connection) : standing c.register = (standing c).register := rfl

theorem updateStatus_standing (env : Surroundings) (c : Connection) (connectionVersion : Int32)
    (peerType : PeerType) : standing (c.updateStatus env connectionVersion peerType) =
      (standing c).turn connectionVersion peerType := by
  have label : (standing c).label peerType =
      standing (if c.peerType = .peer then { c with peerType := peerType } else c) := by
    rw [apply_ite standing]
    rfl
  unfold Connection.updateStatus Standing.turn
  rw [label]
  generalize (if c.peerType = .peer then { c with peerType := peerType } else c) = d
  have status : (standing d).status = d.currentStatus := rfl
  cases now : d.currentStatus with
  | Idle =>
    simp only [now, status, status_standing, sendMessage_standing, lowerVersion_standing]
  | WaitingAck =>
    simp only [now, status, lowerVersion_standing, register_standing, status_standing]
  | Initiated => simp only [now, status, status_standing]
  | Waiting =>
    simp only [now, status, sendMessage_standing, status_standing, lowerVersion_standing,
      register_standing]
  | Ack => simp only [now, status]

theorem readMessage_ok {ofBuffer : Decoder Message} {payload : Bytes} {m : Message}
    (run : c.readMessage ofBuffer payload = .ok (m, d)) : standing d = standing c ∧
      d.handled = c.handled ∧ ∃ st, ofBuffer.run ⟨⟨payload, false⟩, c.heap⟩ = .ok (m, st) := by
  obtain ⟨st, reading, rfl⟩ := readMessage_reads run
  exact ⟨rfl, rfl, st, reading⟩

theorem messageHandler_turns {env : Surroundings} {type : MessageType} {payload : Bytes}
    (run : messageHandler env type c payload = .ok d) : Turns c c.heap payload type d := by
  cases type with
  | whoami =>
    obtain ⟨⟨m, e⟩, reading, done⟩ := bind_ok run
    cases done
    obtain ⟨same, _, st, read⟩ := readMessage_ok reading
    exact .whoAmI read (by rw [updateStatus_standing, same])
  | whoamiack =>
    cases run
    exact .whoAmIAck (updateStatus_standing env c 0 .peer)
  | inv =>
    obtain ⟨⟨m, e⟩, reading, done⟩ := bind_ok run
    cases done
    obtain ⟨same, _⟩ := readMessage_ok reading
    exact .kept rfl ((sendMessage_standing e _).trans same)
  | _ =>
    cases run
    exact .kept rfl rfl

theorem handleMessage_turns {env : Surroundings} {header : MessageHeader} {payload : Bytes}
    (run : c.handleMessage env header payload = .ok d) :
    ∃ type, d.handled = c.handled ++ [type] ∧ Turns c c.heap payload type d := by
  have handled := (handleMessage_effect run).handled
  obtain ⟨e, handling, rfl⟩ := handleMessage_ok run
  have same := idle_standing e
  generalize getTypeFromString header.type.value = type at handled handling
  refine ⟨type, handled, ?_⟩
  cases messageHandler_turns handling with
  | kept other kept => exact .kept other (same.trans kept)
  | whoAmI reading turned => exact .whoAmI reading (same.trans turned)
  | whoAmIAck turned => exact .whoAmIAck (same.trans turned)

/-- What came before a message was handled does not matter to the standing. -/
theorem turns_from {c' : Connection} {heap : Heap} {payload : Bytes} {type : MessageType}
    (turns : Turns c' heap payload type d) (same : standing c' = standing c) :
    Turns c heap payload type d := by
  cases turns with
  | kept other kept => exact .kept other (kept.trans same)
  | whoAmI reading turned => exact .whoAmI reading (by rw [turned, same])
  | whoAmIAck turned => exact .whoAmIAck (by rw [turned, same])

theorem step_stands {env : Surroundings} {event : Event}
    (go : c.step (env, event) = some d) : Stands c event d := by
  cases step_taken go with
  | sent m =>
    have handled := (sendMessage_effect c m).handled
    exact .quiet (by rw [handled, List.append_nil]) (sendMessage_standing c m)
  | wrote writes =>
    have handled := (idle_effect { c with pendingWrites := writes }).handled
    exact .quiet (by rw [handled, List.append_nil]) (idle_standing _)
  | announced => exact .quiet rfl rfl
  | @bare data reads header st _ first _ _ _ run =>
    obtain ⟨type, handled, turns⟩ := handleMessage_turns run
    exact .bare (by rw [first]; rfl) handled (turns_from turns rfl)
  | @filled _ _ header _ first _ run =>
    obtain ⟨type, handled, turns⟩ := handleMessage_turns run
    exact .filled (by rw [first]; rfl) handled (turns_from turns rfl)

end Standings

theorem opening_standing (opening : Opening) (heap : Heap) :
    standing (opening.connection heap) =
      ⟨openingStatus opening, Int32.ofNat VERSION, .peer, []⟩ := by
  cases opening with
  | bound env => exact sendMessage_standing _ _
  | accepted => exact idle_standing _

/-- registerConnection is not called, or once and on the way to Ack, which is not left. -/
def Registers (s t : Standing) : Prop :=
  (t.registrations = s.registrations ∧ (s.status = .Ack → t.status = .Ack)) ∨
    ∃ type, t.registrations = s.registrations ++ [type] ∧ s.status ≠ .Ack ∧ t.status = .Ack

theorem turn_registers (s : Standing) (connectionVersion : Int32) (peerType : PeerType) :
    Registers s (s.turn connectionVersion peerType) := by
  unfold Registers Standing.turn
  cases now : s.status with
  | Idle => simp [now]
  | WaitingAck => exact Or.inr ⟨(s.label peerType).peerType, by simp [now, Standing.register]⟩
  | Initiated => simp [now]
  | Waiting => exact Or.inr ⟨(s.label peerType).peerType, by simp [now, Standing.register]⟩
  | Ack => simp [now]

theorem turns_registers {heap : Heap} {payload : Bytes} {type : MessageType} {c d : Connection}
    (turns : Turns c heap payload type d) : Registers (standing c) (standing d) := by
  cases turns with
  | kept _ same =>
    rw [same]
    exact Or.inl ⟨rfl, id⟩
  | whoAmI _ turned =>
    rw [turned]
    exact turn_registers _ _ _
  | whoAmIAck turned =>
    rw [turned]
    exact turn_registers _ _ _

theorem step_registers {env : Surroundings} {event : Event} {c d : Connection}
    (go : c.step (env, event) = some d) : Registers (standing c) (standing d) := by
  cases step_stands go with
  | quiet _ same =>
    rw [same]
    exact Or.inl ⟨rfl, id⟩
  | bare _ _ turns => exact turns_registers turns
  | filled _ _ turns => exact turns_registers turns

end EnsicoinConnectionStanding
