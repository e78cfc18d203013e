import Ensicoin.Connection
import Mathlib.Logic.Function.Iterate

/-!
Runs of a Connection. What a handler can do is one relation (Effect): the reads it
starts, the types it handles, how many times it turns the status, and that only
handshake messages are written before Ack. Every step is an Effect on what is left
of the connection, and the run lemmas follow by induction.
-/
namespace EnsicoinConnectionRuns
open BigEndianWords EnsicoinRuntime EnsicoinNetworkBuffer EnsicoinNetworkable EnsicoinMessages
open EnsicoinConnection StepRuns

def nextStatus : Status → Status
  | .Idle => .WaitingAck
  | .WaitingAck => .Ack
  | .Initiated => .Waiting
  | .Waiting => .Ack
  | .Ack => .Ack

/-- Messages other than those of the handshake are written in Ack only. -/
def WritesInAck (c : Connection) : Prop :=
  ∀ m ∈ c.written, handshakeType m.getType = false → c.currentStatus = .Ack

structure Effect (c d : Connection) (reads : List PendingRead) (types : List MessageType)
    (turns : Nat) : Prop where
  pendingReads : d.pendingReads = c.pendingReads ++ reads
  served : d.served = c.served
  handled : d.handled = c.handled ++ types
  status : d.currentStatus = nextStatus^[turns] c.currentStatus
  writes : WritesInAck c → WritesInAck d

theorem effect_trans {c d e : Connection} {reads reads' : List PendingRead}
    {types types' : List MessageType} {turns turns' : Nat} (first : Effect c d reads types turns)
    (second : Effect d e reads' types' turns') :
    Effect c e (reads ++ reads') (types ++ types') (turns + turns') where
  pendingReads := by rw [second.pendingReads, first.pendingReads, List.append_assoc]
  served := second.served.trans first.served
  handled := by rw [second.handled, first.handled, List.append_assoc]
  status := by rw [second.status, first.status, Nat.add_comm, Function.iterate_add_apply]
  writes := second.writes ∘ first.writes

/-- Nothing but sent messages in front of an Effect, or behind it. -/
theorem quiet_before {c d e : Connection} {reads : List PendingRead} {types : List MessageType}
    {turns : Nat} (quiet : Effect c d [] [] 0) (rest : Effect d e reads types turns) :
    Effect c e reads types turns := by
  simpa using effect_trans quiet rest

theorem quiet_after {c d e : Connection} {reads : List PendingRead} {types : List MessageType}
    {turns : Nat} (first : Effect c d reads types turns) (quiet : Effect d e [] [] 0) :
    Effect c e reads types turns := by
  simpa using effect_trans first quiet

theorem effect_frame {c d : Connection} (pendingReads : d.pendingReads = c.pendingReads)
    (served : d.served = c.served) (handled : d.handled = c.handled)
    (status : d.currentStatus = c.currentStatus) (written : d.written = c.written) :
    Effect c d [] [] 0 where
  pendingReads := by simp [pendingReads]
  served := served
  handled := by simp [handled]
  status := status
  writes := by
    intro before m member other
    rw [status]
    exact before m (written ▸ member) other

theorem heap_effect (c : Connection) (heap : Heap) : Effect c { c with heap := heap } [] [] 0 :=
  effect_frame rfl rfl rfl rfl rfl

theorem sendMessage_effect (c : Connection) (m : Message) : Effect c (c.sendMessage m) [] [] 0 := by
  unfold Connection.sendMessage
  split
  · rename_i sent
    refine ⟨by simp [Connection.asyncWrite], rfl, by simp [Connection.asyncWrite], rfl, ?_⟩
    intro before n member other
    simp only [Connection.asyncWrite, List.mem_append, List.mem_singleton] at member
    rcases member with old | rfl
    · exact before n old other
    · simpa [other, Connection.asyncWrite] using sent
  · exact effect_frame rfl rfl rfl rfl rfl

theorem sendAll_effect (messages : List Message) (c : Connection) :
    Effect c (messages.foldl Connection.sendMessage c) [] [] 0 := by
  induction messages generalizing c with
  | nil => exact effect_frame rfl rfl rfl rfl rfl
  | cons m messages ih => exact quiet_before (sendMessage_effect c m) (ih _)

theorem asyncRead_effect (c : Connection) (first : PendingRead) :
    Effect c (c.asyncRead first) [first] [] 0 :=
  ⟨rfl, rfl, by simp [Connection.asyncRead], rfl, id⟩

theorem idle_effect (c : Connection) : Effect c c.idle [.header] [] 0 := by
  have reading := asyncRead_effect c .header
  unfold Connection.idle
  by_cases ack : (c.asyncRead .header).currentStatus = .Ack
  · simp only [ack, ↓reduceIte]
    have sent := quiet_after reading
      (sendAll_effect (c.asyncRead .header).bufferedMessages.reverse _)
    exact quiet_after sent (effect_frame rfl rfl rfl rfl rfl)
  · simp only [ack, ↓reduceIte]
    exact reading

theorem lowerVersion_effect (c : Connection) (connectionVersion : Int32) :
    Effect c (c.lowerVersion connectionVersion) [] [] 0 := by
  unfold Connection.lowerVersion
  split <;> exact effect_frame rfl rfl rfl rfl rfl

theorem register_effect (c : Connection) : Effect c c.register [] [] 0 :=
  effect_frame rfl rfl rfl rfl rfl

/-- Ack is never left, so a turn keeps what was written. -/
theorem turn_effect {c : Connection} {status : Status}
    (turn : nextStatus c.currentStatus = status) :
    Effect c { c with currentStatus := status } [] [] 1 where
  pendingReads := by simp
  served := rfl
  handled := by simp
  status := turn.symm
  writes := by
    intro before m member other
    simp only [← turn, before m member other, nextStatus]

theorem updateStatus_effect (env : Surroundings) (c : Connection) (connectionVersion : Int32)
    (peerType : PeerType) : Effect c (c.updateStatus env connectionVersion peerType) [] [] 1 := by
  have label : Effect c (if c.peerType = .peer then { c with peerType := peerType } else c)
      [] [] 0 := by
    split <;> exact effect_frame rfl rfl rfl rfl rfl
  unfold Connection.updateStatus
  generalize (if c.peerType = .peer then { c with peerType := peerType } else c) = d at label
  refine quiet_before label ?_
  have lower := lowerVersion_effect d connectionVersion
  cases now : d.currentStatus with
  | Idle =>
    simp only [now]
    have first := quiet_after lower (sendMessage_effect _
      (WhoAmI.new ⟨env.time, env.ip, env.localPort⟩))
    have sent := quiet_after first (sendMessage_effect _ (Message.new .whoAmIAck))
    exact quiet_before sent (turn_effect (by rw [sent.status]; simp [now, nextStatus]))
  | WaitingAck =>
    simp only [now]
    have turn : Effect d { d with currentStatus := .Ack } [] [] 1 :=
      turn_effect (by rw [now]; rfl)
    have registered := quiet_after turn (register_effect _)
    exact quiet_after registered (lowerVersion_effect _ connectionVersion)
  | Initiated =>
    simp only [now]
    exact turn_effect (by rw [now]; rfl)
  | Waiting =>
    simp only [now]
    have registered : Effect d (d.register.lowerVersion connectionVersion) [] [] 0 :=
      quiet_before (register_effect d) (lowerVersion_effect d.register _)
    have turn : Effect (d.register.lowerVersion connectionVersion)
        { d.register.lowerVersion connectionVersion with currentStatus := .Ack } [] [] 1 :=
      turn_effect (by rw [registered.status]; simp [now, nextStatus])
    exact quiet_after (quiet_before registered turn) (sendMessage_effect _ _)
  | Ack =>
    simp only [now]
    exact turn_effect (by rw [now]; rfl)

theorem sendMessage_heap (c : Connection) (m : Message) : (c.sendMessage m).heap = c.heap := by
  unfold Connection.sendMessage
  split <;> rfl

theorem sendAll_heap (messages : List Message) (c : Connection) :
    (messages.foldl Connection.sendMessage c).heap = c.heap := by
  induction messages generalizing c with
  | nil => rfl
  | cons m messages ih => exact (ih _).trans (sendMessage_heap c m)

theorem idle_heap (c : Connection) : c.idle.heap = c.heap := by
  unfold Connection.idle
  by_cases ack : (c.asyncRead .header).currentStatus = .Ack
  · simp only [ack, ↓reduceIte]
    exact sendAll_heap _ _
  · simp only [ack, ↓reduceIte]
    rfl

theorem lowerVersion_heap (c : Connection) (connectionVersion : Int32) :
    (c.lowerVersion connectionVersion).heap = c.heap := by
  unfold Connection.lowerVersion
  split <;> rfl

theorem updateStatus_heap (env : Surroundings) (c : Connection) (connectionVersion : Int32)
    (peerType : PeerType) : (c.updateStatus env connectionVersion peerType).heap = c.heap := by
  have label : (if c.peerType = .peer then { c with peerType := peerType } else c).heap =
      c.heap := by
    split <;> rfl
  unfold Connection.updateStatus
  generalize (if c.peerType = .peer then { c with peerType := peerType } else c) = d at label
  rw [← label]
  cases now : d.currentStatus with
  | Idle =>
    simp only [now]
    exact (sendMessage_heap _ _).trans ((sendMessage_heap _ _).trans (lowerVersion_heap d _))
  | WaitingAck =>
    simp only [now]
    exact lowerVersion_heap _ _
  | Waiting =>
    simp only [now]
    exact (sendMessage_heap _ _).trans (lowerVersion_heap d.register _)
  | Initiated | Ack => simp only [now]

theorem readMessage_frame {c d : Connection} {ofBuffer : Decoder Message} {payload : Bytes}
    {m : Message} (run : c.readMessage ofBuffer payload = .ok (m, d)) : Effect c d [] [] 0 := by
  obtain ⟨st, _, rfl⟩ := readMessage_reads run
  exact effect_frame rfl rfl rfl rfl rfl

theorem onInv_effect {env : Surroundings} {c d : Connection} {payload : Bytes}
    (run : onInv env c payload = .ok d) : Effect c d [] [] 0 := by
  obtain ⟨⟨m, read⟩, reading, done⟩ := bind_ok run
  cases done
  exact quiet_before (readMessage_frame reading) (sendMessage_effect _ _)

theorem onWhoAmI_effect {env : Surroundings} {c d : Connection} {payload : Bytes}
    (run : onWhoAmI env c payload = .ok d) : Effect c d [] [] 1 := by
  obtain ⟨⟨m, read⟩, reading, done⟩ := bind_ok run
  cases done
  exact quiet_before (readMessage_frame reading) (updateStatus_effect env _ _ _)

/-- The turns of a message: one when it belongs to the handshake. -/
def turns (types : List MessageType) : Nat := (types.filter handshakeType).length

theorem messageHandler_effect {env : Surroundings} {type : MessageType} {c d : Connection}
    {payload : Bytes} (run : messageHandler env type c payload = .ok d) :
    Effect c d [] [] (turns [type]) := by
  cases type with
  | whoami => exact onWhoAmI_effect run
  | whoamiack =>
    cases run
    exact updateStatus_effect env c 0 .peer
  | inv => exact onInv_effect run
  | _ =>
    cases run
    exact effect_frame rfl rfl rfl rfl rfl

def noted (c : Connection) (type : MessageType) : Connection :=
  { c with handled := c.handled ++ [type] }

theorem handleMessage_ok {env : Surroundings} {c d : Connection} {header : MessageHeader}
    {payload : Bytes} (run : c.handleMessage env header payload = .ok d) :
    ∃ e, messageHandler env (getTypeFromString header.type.value)
      (noted c (getTypeFromString header.type.value)) payload = .ok e ∧ d = e.idle := by
  obtain ⟨e, handling, done⟩ := bind_ok run
  cases done
  exact ⟨e, handling, rfl⟩

theorem handleMessage_effect {env : Surroundings} {c d : Connection} {header : MessageHeader}
    {payload : Bytes} (run : c.handleMessage env header payload = .ok d) :
    Effect c d [.header] [getTypeFromString header.type.value]
      (turns [getTypeFromString header.type.value]) := by
  obtain ⟨handled, handling, rfl⟩ := handleMessage_ok run
  have kept : Effect c (noted c (getTypeFromString header.type.value)) []
      [getTypeFromString header.type.value] 0 :=
    ⟨by simp [noted], rfl, rfl, rfl, id⟩
  have whole := effect_trans kept (effect_trans (messageHandler_effect handling)
    (idle_effect handled))
  simpa using whole

def openingStatus : Opening → Status
  | .bound _ => .Initiated
  | .accepted => .Idle

def openingReads : Opening → List PendingRead
  | .bound _ => []
  | .accepted => [.header]

def blank (opening : Opening) (heap : Heap) : Connection :=
  { Connection.new heap with currentStatus := openingStatus opening }

theorem opening_effect (opening : Opening) (heap : Heap) :
    Effect (blank opening heap) (opening.connection heap) (openingReads opening) [] 0 := by
  cases opening with
  | bound env =>
    exact sendMessage_effect (blank (.bound env) heap)
      (WhoAmI.new ⟨env.time, IP_bytes, env.localPort⟩)
  | accepted => exact idle_effect _

/-- The bytes of the first pending read have come. -/
def received (c : Connection) (first : PendingRead) (reads : List PendingRead) (data : Bytes) :
    Connection :=
  { c with pendingReads := reads, served := c.served ++ [(first, data)] }

/-- A step by its cases; a completed read is of a header, or of the payload it announced. -/
inductive Taken (env : Surroundings) (c : Connection) : Event → Connection → Prop where
  | sent (m : Message) : Taken env c (.sendMessage m) (c.sendMessage m)
  | wrote (writes : List MessageType) :
    Taken env c .writeDone { c with pendingWrites := writes }.idle
  | announced {data : Bytes} {reads : List PendingRead} {header : MessageHeader} {st : ReadState}
    (first : c.pendingReads = .header :: reads) (size : data.length = MessageHeader.size)
    (reading : MessageHeader.ofBuffer.run ⟨⟨data, false⟩, c.heap⟩ = .ok (header, st))
    (more : 0 < header.payloadLength) : Taken env c (.readDone data)
      ({ received c .header reads data with heap := st.heap }.asyncRead (.payload header))
  | bare {data : Bytes} {reads : List PendingRead} {header : MessageHeader} {st : ReadState}
    {d : Connection} (first : c.pendingReads = .header :: reads)
    (size : data.length = MessageHeader.size)
    (reading : MessageHeader.ofBuffer.run ⟨⟨data, false⟩, c.heap⟩ = .ok (header, st))
    (none : ¬ 0 < header.payloadLength)
    (run : { received c .header reads data with heap := st.heap }.handleMessage env header [] =
      .ok d) : Taken env c (.readDone data) d
  | filled {data : Bytes} {reads : List PendingRead} {header : MessageHeader} {d : Connection}
    (first : c.pendingReads = .payload header :: reads)
    (size : data.length = header.payloadLength.toNat)
    (run : (received c (.payload header) reads data).handleMessage env header data = .ok d) :
    Taken env c (.readDone data) d

theorem step_taken {env : Surroundings} {event : Event} {c d : Connection}
    (go : c.step (env, event) = some d) : Taken env c event d := by
  cases event with
  | sendMessage m =>
    cases go
    exact .sent m
  | writeDone =>
    simp only [Connection.step] at go
    split at go
    · cases go
    · cases go
      exact .wrote _
  | readDone data =>
    simp only [Connection.step] at go
    split at go
    · cases go
    · rename_i first reads pending
      split at go
      · rename_i size
        have run := toOption_some go
        cases first with
        | payload header => exact .filled pending size run
        | header =>
          obtain ⟨⟨header, st⟩, reading, run⟩ := bind_ok run
          dsimp only at run
          split at run
          · rename_i more
            cases run
            exact .announced pending size reading more
          · rename_i none
            exact .bare pending size reading none run
      · cases go

inductive Moves (c : Connection) : Event → Connection → Prop where
  | sent {m : Message} {d : Connection} (rest : Effect c d [] [] 0) : Moves c (.sendMessage m) d
  | wrote {d : Connection} (rest : Effect c d [.header] [] 0) : Moves c .writeDone d
  | announced {data : Bytes} {reads : List PendingRead} {header : MessageHeader} {d : Connection}
    (first : c.pendingReads = .header :: reads) (size : data.length = MessageHeader.size)
    (length : header.payloadLength.toNat = ofBytes (data.drop 16))
    (more : ofBytes (data.drop 16) ≠ 0)
    (rest : Effect (received c .header reads data) d [.payload header] [] 0) :
    Moves c (.readDone data) d
  | bare {data : Bytes} {reads : List PendingRead} {type : MessageType} {d : Connection}
    (first : c.pendingReads = .header :: reads) (size : data.length = MessageHeader.size)
    (none : ofBytes (data.drop 16) = 0)
    (rest : Effect (received c .header reads data) d [.header] [type] (turns [type])) :
    Moves c (.readDone data) d
  | filled {data : Bytes} {reads : List PendingRead} {header : MessageHeader} {type : MessageType}
    {d : Connection} (first : c.pendingReads = .payload header :: reads)
    (size : data.length = header.payloadLength.toNat)
    (rest : Effect (received c (.payload header) reads data) d [.header] [type] (turns [type])) :
    Moves c (.readDone data) d

theorem step_moves {env : Surroundings} {event : Event} {c d : Connection}
    (go : c.step (env, event) = some d) : Moves c event d := by
  cases step_taken go with
  | sent m => exact .sent (sendMessage_effect c m)
  | wrote writes =>
    have popped : Effect c { c with pendingWrites := writes } [] [] 0 :=
      effect_frame rfl rfl rfl rfl rfl
    exact .wrote (quiet_before popped (idle_effect _))
  | @announced data reads header st first size reading more =>
    have length := MessageHeader.payloadLength_read size reading
    have rested := heap_effect (received c .header reads data) st.heap
    have positive : 0 < header.payloadLength.toNat := more
    exact .announced first size length (by omega) (quiet_before rested (asyncRead_effect _ _))
  | @bare data reads header st _ first size reading none run =>
    have length := MessageHeader.payloadLength_read size reading
    have rested := heap_effect (received c .header reads data) st.heap
    have zero : ¬ 0 < header.payloadLength.toNat := none
    exact .bare first size (by omega) (quiet_before rested (handleMessage_effect run))
  | filled first size run => exact .filled first size (handleMessage_effect run)

def whoAmIAckFrame : Bytes := (Message.new .whoAmIAck).byteRepr

/-- Over zeros a header is read back with the padding of its type. -/
theorem messageHeader_zeros (type : MessageType) (length : UInt64) : MessageHeader.ofBuffer.run
    ⟨⟨MessageHeader.byteRepr ⟨UInt32.ofNat MAGIC, paddedType type, length⟩, false⟩,
      constantHeap 0⟩ = .ok (⟨UInt32.ofNat MAGIC, paddedType type, length⟩,
        ⟨⟨[], false⟩, constantHeap 0⟩) := by
  have shape : MessageHeader.byteRepr ⟨UInt32.ofNat MAGIC, paddedType type, length⟩ =
      Uint32.byteRepr (UInt32.ofNat MAGIC) ++ ((paddedType type).value ++
        (Uint64.byteRepr length ++ [])) := by simp [MessageHeader.byteRepr]
  have padded : (FixedStr.ofBuffer 12).run
      ⟨⟨(paddedType type).value ++ (Uint64.byteRepr length ++ []), false⟩, constantHeap 0⟩ =
      .ok (paddedType type, ⟨⟨Uint64.byteRepr length ++ [], false⟩, constantHeap 0⟩) := by
    have terminated : 0 ∈ (paddedType type).value := by cases type <;> decide
    refine run_bind_ok.mpr ⟨_, _, readStr_terminated (paddedType type).size_eq (by decide)
      terminated _, ?_⟩
    refine run_bind_ok.mpr ⟨_, _, newArray_constant 12 0 _ rfl, ?_⟩
    cases type <;> rfl
  rw [shape]
  exact run_bind_ok.mpr ⟨_, _, Uint32.byteRepr_read _ _ _, run_bind_ok.mpr ⟨_, _, padded,
    run_bind_ok.mpr ⟨_, _, Uint64.byteRepr_read _ _ _, rfl⟩⟩⟩

theorem whoAmIAckFrame_read : MessageHeader.ofBuffer.run ⟨⟨whoAmIAckFrame, false⟩, constantHeap 0⟩ =
    .ok (⟨UInt32.ofNat MAGIC, paddedType .whoamiack, 0⟩, ⟨⟨[], false⟩, constantHeap 0⟩) := by
  have frame : whoAmIAckFrame =
      MessageHeader.byteRepr ⟨UInt32.ofNat MAGIC, paddedType .whoamiack, 0⟩ := List.append_nil _
  rw [frame]
  exact messageHeader_zeros .whoamiack 0

theorem whoAmIAck_step (env : Surroundings) {c : Connection} (pending : c.pendingReads = [.header])
    (zeros : c.heap = constantHeap 0) : c.step (env, .readDone whoAmIAckFrame) =
      some (onWhoAmIAck env { received c .header [] whoAmIAckFrame with
        heap := constantHeap 0, handled := c.handled ++ [.whoamiack] }).idle := by
  have size : whoAmIAckFrame.length = PendingRead.header.size := by decide
  have type : getTypeFromString (paddedType .whoamiack).value = .whoamiack := by decide
  simp only [Connection.step, pending, size, ↓reduceIte, Connection.handleRead,
    Connection.handleHeader, zeros, whoAmIAckFrame_read]
  simp only [bind, Except.bind, Connection.handleMessage, type]
  rfl

end EnsicoinConnectionRuns
