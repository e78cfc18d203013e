import Ensicoin.HonestHandshake
import Ensicoin.ConstantMemory

/-!
What the handlers of a Connection do not look at. They start reads and never ask which ones
wait, so the rest of a Connection does not depend on its queue; what they write they also wait
for; and memory that holds zeros does so afterwards.
-/
namespace EnsicoinReadQueues
open EnsicoinRuntime EnsicoinNetworkBuffer EnsicoinNetworkable EnsicoinMessages
open EnsicoinConnection EnsicoinConnectionRuns EnsicoinWrittenMessages EnsicoinConstantMemory

/-- The connection with another queue of reads, and another history of them. -/
def fed (c : Connection) (reads : List PendingRead) (served : List (PendingRead × Bytes)) :
    Connection := { c with pendingReads := reads, served := served }

section Fed
variable (c : Connection) (reads : List PendingRead) (served : List (PendingRead × Bytes))

theorem sendMessage_fed (m : Message) :
    (fed c reads served).sendMessage m = fed (c.sendMessage m) reads served := by
  unfold Connection.sendMessage
  change (if handshakeType m.getType || c.currentStatus = .Ack then _ else _) = _
  split <;> rfl

theorem sendAll_fed (messages : List Message) :
    messages.foldl Connection.sendMessage (fed c reads served) =
      fed (messages.foldl Connection.sendMessage c) reads served := by
  induction messages generalizing c with
  | nil => rfl
  | cons m messages ih => rw [List.foldl_cons, sendMessage_fed, ih, List.foldl_cons]

theorem idle_fed : (fed c reads served).idle = fed c.idle (reads ++ [.header]) served := by
  have start : (fed c reads served).asyncRead .header =
      fed (c.asyncRead .header) (reads ++ [.header]) served := rfl
  unfold Connection.idle
  rw [start]
  change (if c.currentStatus = .Ack then _ else _) =
    fed (if c.currentStatus = .Ack then _ else _) _ _
  split
  · change { c.bufferedMessages.reverse.foldl Connection.sendMessage (fed _ _ _) with
      bufferedMessages := [] } = _
    rw [sendAll_fed]
    rfl
  · rfl

theorem lowerVersion_fed (version : Int32) :
    (fed c reads served).lowerVersion version = fed (c.lowerVersion version) reads served := by
  unfold Connection.lowerVersion
  change (if version < c.versionUsed then _ else _) = _
  split <;> rfl

theorem updateStatus_fed (env : Surroundings) (version : Int32) (peerType : PeerType) :
    (fed c reads served).updateStatus env version peerType =
      fed (c.updateStatus env version peerType) reads served := by
  have label : (if (fed c reads served).peerType = .peer then
      { fed c reads served with peerType := peerType } else fed c reads served) =
      fed (if c.peerType = .peer then { c with peerType := peerType } else c) reads served := by
    change (if c.peerType = .peer then _ else _) = _
    split <;> rfl
  unfold Connection.updateStatus
  rw [label]
  generalize (if c.peerType = .peer then { c with peerType := peerType } else c) = d
  have status : (fed d reads served).currentStatus = d.currentStatus := rfl
  cases now : d.currentStatus with
  | Idle =>
    simp only [status, now, lowerVersion_fed, sendMessage_fed]
    rfl
  | WaitingAck =>
    simp only [status, now]
    have acknowledged : { fed d reads served with currentStatus := .Ack }.register =
      fed { d with currentStatus := .Ack }.register reads served := rfl
    rw [acknowledged, lowerVersion_fed]
  | Waiting =>
    simp only [status, now]
    have registered : (fed d reads served).register = fed d.register reads served := rfl
    rw [registered, lowerVersion_fed]
    generalize d.register.lowerVersion version = e
    exact sendMessage_fed { e with currentStatus := .Ack } reads served _
  | Initiated =>
    simp only [status, now]
    rfl
  | Ack => simp only [status, now]

theorem readMessage_fed (ofBuffer : Decoder Message) (payload : Bytes) :
    (fed c reads served).readMessage ofBuffer payload =
      (c.readMessage ofBuffer payload).map fun (m, d) => (m, fed d reads served) := by
  unfold Connection.readMessage
  change (ofBuffer.run ⟨⟨payload, false⟩, c.heap⟩ >>= _) = _
  cases ofBuffer.run ⟨⟨payload, false⟩, c.heap⟩ <;> rfl

theorem messageHandler_fed (env : Surroundings) (type : MessageType) (payload : Bytes) :
    messageHandler env type (fed c reads served) payload =
      (messageHandler env type c payload).map fun d => fed d reads served := by
  cases type with
  | whoami =>
    simp only [messageHandler, onWhoAmI, readMessage_fed]
    cases c.readMessage WhoAmI.ofBuffer payload with
    | error fault => rfl
    | ok read => exact congrArg Except.ok (updateStatus_fed read.2 reads served env _ _)
  | inv =>
    simp only [messageHandler, onInv, readMessage_fed]
    cases c.readMessage Inv.ofBuffer payload with
    | error fault => rfl
    | ok read => exact congrArg Except.ok (sendMessage_fed read.2 reads served _)
  | whoamiack => exact congrArg Except.ok (updateStatus_fed c reads served env 0 .peer)
  | _ => rfl

theorem handleMessage_fed (env : Surroundings) (header : MessageHeader) (payload : Bytes) :
    (fed c reads served).handleMessage env header payload =
      (c.handleMessage env header payload).map fun d => fed d (reads ++ [.header]) served := by
  let type := getTypeFromString header.type.value
  change (messageHandler env type (fed (noted c type) reads served) payload >>= _) =
    (messageHandler env type (noted c type) payload >>= _).map _
  rw [messageHandler_fed]
  cases messageHandler env type (noted c type) payload with
  | error fault => rfl
  | ok d => exact congrArg Except.ok (idle_fed d reads served)

end Fed

theorem handled_fed {env : Surroundings} {c d : Connection} {reads : List PendingRead}
    {served : List (PendingRead × Bytes)} {header : MessageHeader} {payload : Bytes}
    (run : (fed c reads served).handleMessage env header payload = .ok d) :
    ∃ e, c.handleMessage env header payload = .ok e ∧ d = fed e (reads ++ [.header]) served := by
  rw [handleMessage_fed] at run
  cases handled : c.handleMessage env header payload with
  | error fault =>
    rw [handled] at run
    cases run
  | ok e =>
    rw [handled] at run
    cases run
    exact ⟨e, rfl, rfl⟩

/-- What is written is also waited for. -/
def Queued (c d : Connection) : Prop := ∃ messages, d.written = c.written ++ messages ∧
  d.pendingWrites = c.pendingWrites ++ messages.map Message.getType

section Queues
variable {c d e : Connection}

theorem queued_same (written : d.written = c.written)
    (pending : d.pendingWrites = c.pendingWrites) : Queued c d :=
  ⟨[], by simp [written], by simp [pending]⟩

theorem queued_trans (first : Queued c d) (second : Queued d e) : Queued c e := by
  obtain ⟨messages, written, pending⟩ := first
  obtain ⟨more, written', pending'⟩ := second
  exact ⟨messages ++ more, by rw [written', written, List.append_assoc],
    by rw [pending', pending, List.map_append, List.append_assoc]⟩

theorem queued_grows (queued : Queued c d) : c.written <+: d.written := by
  obtain ⟨messages, written, _⟩ := queued
  exact ⟨messages, written.symm⟩

theorem sendMessage_queued (c : Connection) (m : Message) : Queued c (c.sendMessage m) := by
  unfold Connection.sendMessage
  split
  · exact ⟨[m], rfl, rfl⟩
  · exact queued_same rfl rfl

theorem sendAll_queued (messages : List Message) (c : Connection) :
    Queued c (messages.foldl Connection.sendMessage c) := by
  induction messages generalizing c with
  | nil => exact queued_same rfl rfl
  | cons m messages ih => exact queued_trans (sendMessage_queued c m) (ih _)

theorem idle_queued (c : Connection) : Queued c c.idle := by
  unfold Connection.idle
  by_cases ack : (c.asyncRead .header).currentStatus = .Ack
  · simp only [ack, ↓reduceIte]
    obtain ⟨messages, written, pending⟩ :=
      sendAll_queued (c.asyncRead .header).bufferedMessages.reverse (c.asyncRead .header)
    exact ⟨messages, written, pending⟩
  · simp only [ack, ↓reduceIte]
    exact queued_same rfl rfl

theorem lowerVersion_queued (c : Connection) (version : Int32) :
    Queued c (c.lowerVersion version) := by
  unfold Connection.lowerVersion
  split <;> exact queued_same rfl rfl

theorem updateStatus_queued (env : Surroundings) (c : Connection) (version : Int32)
    (peerType : PeerType) : Queued c (c.updateStatus env version peerType) := by
  have label : Queued c (if c.peerType = .peer then { c with peerType := peerType } else c) := by
    split <;> exact queued_same rfl rfl
  unfold Connection.updateStatus
  generalize (if c.peerType = .peer then { c with peerType := peerType } else c) = d at label
  refine queued_trans label ?_
  cases now : d.currentStatus with
  | Idle =>
    simp only [now]
    have greeted := queued_trans (lowerVersion_queued d version)
      (sendMessage_queued _ (WhoAmI.new ⟨env.time, env.ip, env.localPort⟩))
    have answered := queued_trans greeted (sendMessage_queued _ (Message.new .whoAmIAck))
    exact queued_trans answered (queued_same rfl rfl)
  | WaitingAck =>
    simp only [now]
    have acknowledged : Queued d { d with currentStatus := .Ack }.register := queued_same rfl rfl
    exact queued_trans acknowledged (lowerVersion_queued _ version)
  | Waiting =>
    simp only [now]
    have registered : Queued d d.register := queued_same rfl rfl
    have lowered := queued_trans registered (lowerVersion_queued _ version)
    have acknowledged : Queued (d.register.lowerVersion version)
      { d.register.lowerVersion version with currentStatus := .Ack } := queued_same rfl rfl
    exact queued_trans (queued_trans lowered acknowledged) (sendMessage_queued _ _)
  | Initiated | Ack =>
    simp only [now]
    exact queued_same rfl rfl

theorem handleMessage_queued {env : Surroundings} {header : MessageHeader} {payload : Bytes}
    (run : c.handleMessage env header payload = .ok d) : Queued c d := by
  obtain ⟨e, handling, rfl⟩ := handleMessage_ok run
  refine queued_trans ?_ (idle_queued e)
  generalize getTypeFromString header.type.value = type at handling
  cases type with
  | whoami =>
    obtain ⟨⟨m, read⟩, reading, done⟩ := bind_ok handling
    cases done
    obtain ⟨st, _, rfl⟩ := readMessage_reads reading
    exact updateStatus_queued env { noted c .whoami with heap := st.heap } _ _
  | inv =>
    obtain ⟨⟨m, read⟩, reading, done⟩ := bind_ok handling
    cases done
    obtain ⟨st, _, rfl⟩ := readMessage_reads reading
    exact sendMessage_queued { noted c .inv with heap := st.heap } _
  | whoamiack =>
    cases handling
    exact updateStatus_queued env (noted c .whoamiack) 0 .peer
  | _ =>
    cases handling
    exact queued_same rfl rfl

end Queues

section Memory
variable {α : Type}

/-- Memory of zeros is left as such. -/
abbrev Steady (dec : Decoder α) : Prop := Yields 0 dec fun _ _ _ => True

theorem steady_bind {β : Type} {x : Decoder α} {f : α → Decoder β} (first : Steady x)
    (rest : ∀ a, Steady (f a)) : Steady (x >>= f) :=
  yields_weaken (yields_bind first rest) fun _ _ _ _ => trivial

theorem steady_pure (a : α) : Steady (pure a) :=
  yields_weaken (yields_pure a) fun _ _ _ _ => trivial

theorem uint_steady {convert : Nat → α} (width : Nat) : Steady (convert <$> readBigEndian width) :=
  yields_weaken (yields_map (bigEndian_yields width)) fun _ _ _ _ => trivial

theorem varUint_steady : Steady readVarUint :=
  yields_weaken varUint_yields fun _ _ _ _ => trivial

theorem readStr_steady (length : Nat) : Steady (readStr length) := by
  intro s v t zeros run
  obtain ⟨array, mid, fresh, _, same⟩ := (readStr_run length s).mp run
  obtain ⟨after, _⟩ := newArray_yields bufferSize s array mid zeros fresh
  exact ⟨same.trans after, trivial⟩

theorem ofString_steady (size : Nat) (val : Bytes) : Steady (FixedStr.ofString size val) :=
  yields_weaken (fixedStr_ofString_yields size val) fun _ _ _ _ => trivial

theorem array_steady {element : Decoder α} (each : Steady element) :
    Steady (VarArray.ofBuffer element) :=
  steady_bind varUint_steady fun size => yields_weaken
    (yields_elements (Q := fun _ _ _ => True) each (fun _ => trivial)
      (fun _ _ _ _ _ _ _ => trivial) size.toNat) fun _ _ _ _ => trivial

theorem whoAmI_steady : Steady WhoAmI.ofBuffer := by
  have address : Steady Address.ofBuffer :=
    steady_bind (uint_steady 8) fun _ =>
      steady_bind (steady_bind (readStr_steady 16) (ofString_steady 16)) fun _ =>
        steady_bind (ofString_steady 16 _) fun _ => steady_bind (uint_steady 2) fun _ =>
          steady_pure _
  have service : Steady VarStr.ofBuffer :=
    steady_bind varUint_steady fun size => readStr_steady size.toNat
  exact steady_bind (uint_steady 4) fun _ => steady_bind address fun _ =>
    steady_bind (array_steady service) fun _ => steady_pure _

theorem inv_steady : Steady Inv.ofBuffer := by
  have element : Steady InvVect.ofBuffer :=
    steady_bind (uint_steady 4) fun _ => steady_bind (readStr_steady _) fun _ => steady_pure _
  exact steady_bind (array_steady element) fun _ => steady_pure _

theorem handleMessage_zeros {env : Surroundings} {c d : Connection} {header : MessageHeader}
    {payload : Bytes} (zeros : c.heap = constantHeap 0)
    (run : c.handleMessage env header payload = .ok d) : d.heap = constantHeap 0 := by
  obtain ⟨e, handling, rfl⟩ := handleMessage_ok run
  rw [idle_heap]
  generalize getTypeFromString header.type.value = type at handling
  cases type with
  | whoami =>
    obtain ⟨⟨m, read⟩, reading, done⟩ := bind_ok handling
    cases done
    obtain ⟨st, taken, rfl⟩ := readMessage_reads reading
    rw [updateStatus_heap]
    exact (whoAmI_steady _ _ _ zeros taken).1
  | inv =>
    obtain ⟨⟨m, read⟩, reading, done⟩ := bind_ok handling
    cases done
    obtain ⟨st, taken, rfl⟩ := readMessage_reads reading
    rw [sendMessage_heap]
    exact (inv_steady _ _ _ zeros taken).1
  | whoamiack =>
    cases handling
    rw [onWhoAmIAck, updateStatus_heap]
    exact zeros
  | _ =>
    cases handling
    exact zeros

end Memory

end EnsicoinReadQueues
