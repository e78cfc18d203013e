import Ensicoin.MessageOrder
import Ensicoin.HonestHandshake

/-!
No message is lost, repeated or made up. Whatever bytes come in and in whatever order reads
and writes complete, what was written or waits is what was passed to sendMessage, one
GetData for each Inv that was handled, and the messages of the handshake up to the status.
-/
namespace EnsicoinConservedMessages
open EnsicoinRuntime EnsicoinNetworkable EnsicoinMessages EnsicoinConnection
open EnsicoinConnectionRuns EnsicoinWrittenMessages EnsicoinMessageOrder EnsicoinHonestHandshake
open StepRuns

/-- The types of the handshake messages among some messages. -/
def handTypes (messages : List Message) : List MessageType :=
  (messages.map Message.getType).filter handshakeType

structure Balanced (passed : List Message) (c : Connection) : Prop where
  hands : (handTypes c.written).Perm (script c.currentStatus ++ handTypes passed)
  waits : ∀ m ∈ c.bufferedMessages, handshakeType m.getType = false
  rest : ∃ answers : List Message, answers.length = c.handled.count .inv ∧
    (∀ m ∈ answers, m.getType = .getdata) ∧
    (others c.written ++ c.bufferedMessages).Perm (others passed ++ answers)

def Emptied (c : Connection) : Prop := c.currentStatus = .Ack → c.bufferedMessages = []

theorem handTypes_append (front back : List Message) :
    handTypes (front ++ back) = handTypes front ++ handTypes back := by
  simp [handTypes]

theorem handTypes_none {messages : List Message}
    (other : ∀ m ∈ messages, handshakeType m.getType = false) : handTypes messages = [] := by
  refine List.filter_eq_nil_iff.mpr ?_
  intro type member
  obtain ⟨m, here, rfl⟩ := List.mem_map.mp member
  simp [other m here]

theorem others_all {messages : List Message}
    (other : ∀ m ∈ messages, handshakeType m.getType = false) : others messages = messages := by
  refine List.filter_eq_self.mpr ?_
  intro m member
  simp [other m member]

theorem perm_both_middle {α : Type} {a b p q : List α} (x : List α)
    (perm : (a ++ b).Perm (p ++ q)) : (a ++ x ++ b).Perm (p ++ x ++ q) := by
  rw [List.append_assoc, List.append_assoc]
  exact (List.perm_append_comm_assoc a x b).trans
    ((perm.append_left x).trans (List.perm_append_comm_assoc x p q))

section Steps
variable {passed : List Message} {c d : Connection}

theorem balanced_still (still : Still c d) (same : d.handled.count .inv = c.handled.count .inv)
    (balanced : Balanced passed c) : Balanced passed d := by
  obtain ⟨answers, count, types, perm⟩ := balanced.rest
  refine ⟨?_, ?_, answers, count.trans same.symm, types, ?_⟩
  · rw [still.written, still.status]
    exact balanced.hands
  · rw [still.buffered]
    exact balanced.waits
  · rw [still.written, still.buffered]
    exact perm

theorem balanced_sent (m : Message) (balanced : Balanced passed c) :
    Balanced (passed ++ [m]) (c.sendMessage m) := by
  obtain ⟨answers, count, types, perm⟩ := balanced.rest
  by_cases hand : handshakeType m.getType = true
  · have none : others [m] = [] := others_none (by simpa using hand)
    rw [sendMessage_handshake hand]
    refine ⟨?_, balanced.waits, answers, count, types, ?_⟩
    · change (handTypes (c.written ++ [m])).Perm (script c.currentStatus ++ _)
      rw [handTypes_append, handTypes_append, ← List.append_assoc]
      exact balanced.hands.append_right _
    · change (others (c.written ++ [m]) ++ _).Perm _
      rw [others_append, others_append, none, List.append_nil, List.append_nil]
      exact perm
  · have other : handshakeType m.getType = false := by simpa using hand
    have self : others [m] = [m] := others_all (by simpa using other)
    have silent : handTypes [m] = [] := handTypes_none (by simpa using other)
    by_cases ack : c.currentStatus = .Ack
    · rw [sendMessage_ack ack]
      refine ⟨?_, balanced.waits, answers, count, types, ?_⟩
      · change (handTypes (c.written ++ [m])).Perm (script c.currentStatus ++ _)
        rw [handTypes_append, handTypes_append, silent, List.append_nil, List.append_nil]
        exact balanced.hands
      · change (others (c.written ++ [m]) ++ _).Perm _
        rw [others_append, others_append, self]
        exact perm_both_middle [m] perm
    · rw [sendMessage_waits ack other]
      refine ⟨?_, ?_, answers, count, types, ?_⟩
      · rw [handTypes_append, silent, List.append_nil]
        exact balanced.hands
      · exact List.forall_mem_append.mpr ⟨balanced.waits, by simpa using other⟩
      · have whole : ((others c.written ++ c.bufferedMessages) ++ []).Perm
            (others passed ++ answers) := by rwa [List.append_nil]
        simpa [others_append, self] using perm_both_middle [m] whole

/-- The answer to the Inv that is noted already. -/
theorem balanced_answered {m : Message} (request : m.getType = .getdata)
    (still : Still c d) (count : d.handled.count .inv = c.handled.count .inv + 1)
    (balanced : Balanced passed c) : Balanced passed (d.sendMessage m) := by
  obtain ⟨answers, before, types, perm⟩ := balanced.rest
  have other : handshakeType m.getType = false := by rw [request]; rfl
  have self : others [m] = [m] := others_all (by simpa using other)
  have silent : handTypes [m] = [] := handTypes_none (by simpa using other)
  have more : ∀ n ∈ answers ++ [m], n.getType = .getdata :=
    List.forall_mem_append.mpr ⟨types, by simpa using request⟩
  have length : (answers ++ [m]).length = d.handled.count .inv := by
    rw [List.length_append, before, count]
    rfl
  rw [← still.written, ← still.buffered] at perm
  have hands := balanced.hands
  have waits := balanced.waits
  rw [← still.written, ← still.status] at hands
  rw [← still.buffered] at waits
  by_cases ack : d.currentStatus = .Ack
  · rw [sendMessage_ack ack]
    refine ⟨?_, waits, answers ++ [m], length, more, ?_⟩
    · change (handTypes (d.written ++ [m])).Perm (script d.currentStatus ++ _)
      rw [handTypes_append, silent, List.append_nil]
      exact hands
    · change (others (d.written ++ [m]) ++ d.bufferedMessages).Perm _
      have whole : (others d.written ++ d.bufferedMessages).Perm
          ((others passed ++ answers) ++ []) := by rwa [List.append_nil]
      simpa [others_append, self] using perm_both_middle [m] whole
  · rw [sendMessage_waits ack other]
    refine ⟨hands, List.forall_mem_append.mpr ⟨waits, by simpa using other⟩, answers ++ [m],
      length, more, ?_⟩
    rw [← List.append_assoc, ← List.append_assoc]
    exact perm.append_right [m]

theorem balanced_turned (turned : Turned c d) (same : d.handled.count .inv = c.handled.count .inv)
    (balanced : Balanced passed c) : Balanced passed d := by
  obtain ⟨messages, written, types⟩ := turned.written
  obtain ⟨answers, count, requests, perm⟩ := balanced.rest
  have replied : handTypes messages = replies c.currentStatus := by
    rw [handTypes, types]
    cases c.currentStatus <;> rfl
  refine ⟨?_, ?_, answers, count.trans same.symm, requests, ?_⟩
  · have whole : (handTypes c.written ++ []).Perm
        (script c.currentStatus ++ handTypes passed) := by
      rw [List.append_nil]
      exact balanced.hands
    have both := perm_both_middle (replies c.currentStatus) whole
    rw [List.append_nil] at both
    rw [written, handTypes_append, replied, turned.status, script_turn]
    exact both
  · rw [turned.buffered]
    exact balanced.waits
  · rw [turned_others turned, turned.buffered]
    exact perm

theorem balanced_idle (balanced : Balanced passed c) :
    Balanced passed c.idle ∧ Emptied c.idle := by
  have handled : c.idle.handled = c.handled := (idle_effect c).handled.trans (List.append_nil _)
  by_cases ack : c.currentStatus = .Ack
  · have flushed := idle_ack ack
    obtain ⟨answers, count, requests, perm⟩ := balanced.rest
    have back : ∀ m ∈ c.bufferedMessages.reverse, handshakeType m.getType = false :=
      fun m member => balanced.waits m (List.mem_reverse.mp member)
    refine ⟨balanced_still flushed (by rw [handled]) ⟨?_, by simp, answers, count, requests, ?_⟩,
      fun _ => flushed.buffered⟩
    · change (handTypes (c.written ++ _)).Perm (script c.currentStatus ++ _)
      rw [handTypes_append, handTypes_none back, List.append_nil]
      exact balanced.hands
    · rw [others_append, others_all back, List.append_nil]
      exact ((List.reverse_perm _).append_left _).trans perm
  · have still := idle_waiting ack
    exact ⟨balanced_still still (by rw [handled]) balanced,
      fun late => absurd (still.status.symm.trans late) ack⟩

theorem handler_balanced {env : Surroundings} {type : MessageType} {payload : Bytes}
    (run : messageHandler env type (noted c type) payload = .ok d) (balanced : Balanced passed c) :
    Balanced passed d := by
  have handled : d.handled = c.handled ++ [type] :=
    (messageHandler_effect run).handled.trans (List.append_nil _)
  by_cases inv : type = .inv
  · subst inv
    obtain ⟨⟨m, e⟩, reading, done⟩ := bind_ok run
    cases done
    obtain ⟨st, _, rfl⟩ := readMessage_reads reading
    have still : Still c { noted c .inv with heap := st.heap } := ⟨rfl, rfl, rfl, rfl⟩
    exact balanced_answered rfl still (by simp [noted]) balanced
  · have same : d.handled.count .inv = c.handled.count .inv := by
      rw [handled, List.count_append, List.count_singleton, if_neg (by simpa using inv),
        Nat.add_zero]
    by_cases hand : handshakeType type = true
    · exact balanced_turned (still_turned (noted_still c type) (messageHandler_turned run hand))
        same balanced
    · exact balanced_still (still_trans (noted_still c type)
        (messageHandler_still run (by simpa using hand) inv)) same balanced

theorem handled_balanced {env : Surroundings} {header : MessageHeader} {payload : Bytes}
    (run : c.handleMessage env header payload = .ok d) (balanced : Balanced passed c) :
    Balanced passed d ∧ Emptied d := by
  obtain ⟨e, handling, rfl⟩ := handleMessage_ok run
  exact balanced_idle (handler_balanced handling balanced)

theorem step_balanced {move : Surroundings × Event} (balanced : Balanced passed c)
    (emptied : Emptied c) (go : c.step move = some d) :
    Balanced (passed ++ passedBy move.2) d ∧ Emptied d := by
  obtain ⟨env, event⟩ := move
  cases step_taken go with
  | sent m =>
    refine ⟨balanced_sent m balanced, ?_⟩
    intro ack
    have before : c.currentStatus = .Ack := (sendMessage_effect c m).status.symm.trans ack
    rw [sendMessage_ack before]
    exact emptied before
  | wrote writes =>
    change Balanced (passed ++ []) _ ∧ _
    rw [List.append_nil]
    have popped : Still c { c with pendingWrites := writes } := ⟨rfl, rfl, rfl, rfl⟩
    exact balanced_idle (balanced_still popped rfl balanced)
  | @announced data reads header st first size reading more =>
    change Balanced (passed ++ []) _ ∧ _
    rw [List.append_nil]
    have kept : Still c ({ received c .header reads data with heap := st.heap }.asyncRead
        (.payload header)) := ⟨rfl, rfl, rfl, rfl⟩
    exact ⟨balanced_still kept rfl balanced, emptied⟩
  | @bare data reads header st _ first size reading none run =>
    change Balanced (passed ++ []) _ ∧ _
    rw [List.append_nil]
    have kept : Still c { received c .header reads data with heap := st.heap } :=
      ⟨rfl, rfl, rfl, rfl⟩
    exact handled_balanced run (balanced_still kept rfl balanced)
  | @filled data reads header _ first size run =>
    change Balanced (passed ++ []) _ ∧ _
    rw [List.append_nil]
    have kept : Still c (received c (.payload header) reads data) := ⟨rfl, rfl, rfl, rfl⟩
    exact handled_balanced run (balanced_still kept rfl balanced)

end Steps

theorem early_balanced {passed : List Message} {c : Connection} (early : List Message)
    (balanced : Balanced passed c) :
    Balanced (passed ++ early) (early.foldl Connection.sendMessage c) := by
  induction early generalizing passed c with
  | nil => simpa using balanced
  | cons m early ih => simpa using ih (balanced_sent m balanced)

theorem opened_balanced (opening : Opening) (heap : Heap) (early : List Message) :
    Balanced early (openedAfter opening heap early) ∧ Emptied (openedAfter opening heap early) := by
  have new : Balanced [] (Connection.new heap) :=
    ⟨List.Perm.refl _, by simp [Connection.new], [], rfl, by simp, List.Perm.refl _⟩
  have before := early_balanced early new
  rw [List.nil_append] at before
  cases opening with
  | accepted => exact balanced_idle before
  | bound env =>
    have idle : (early.foldl Connection.sendMessage (Connection.new heap)).currentStatus = .Idle :=
      (sendAll_effect early _).status
    obtain ⟨answers, count, types, perm⟩ := before.rest
    refine ⟨⟨?_, before.waits, answers, count, types, ?_⟩, fun ack => by cases ack⟩
    · have hands := before.hands
      rw [idle] at hands
      change (handTypes (_ ++ [_])).Perm ([.whoami] ++ handTypes early)
      have whoami : handTypes [WhoAmI.new ⟨env.time, IP_bytes, env.localPort⟩] = [.whoami] := rfl
      rw [handTypes_append, whoami]
      exact List.perm_append_comm.trans (hands.append_left [.whoami])
    · change (others (_ ++ [_]) ++ _).Perm _
      rw [others_append]
      exact (List.append_nil (others _)).symm ▸ perm

/-- The messages passed before the connection was opened and on the way. -/
def passedAlong (early : List Message) (moves : List (Surroundings × Event)) : List Message :=
  early ++ moves.flatMap fun move => passedBy move.2

theorem messages_conserved {opening : Opening} {heap : Heap} {early : List Message}
    {moves : List (Surroundings × Event)} {t : Connection}
    (run : play Connection.step (openedAfter opening heap early) moves = some t) :
    Balanced (passedAlong early moves) t ∧ Emptied t := by
  refine play_history (fun before c => Balanced (passedAlong early before) c ∧ Emptied c)
    ?_ ?_ moves t run
  · simpa [passedAlong] using opened_balanced opening heap early
  · intro before c move d kept go
    have next := step_balanced kept.1 kept.2 go
    simpa [passedAlong] using next

/-- A message that waits, and one WhoAmIAck. -/
theorem waiting_message_conserved : ∃ t, play Connection.step
    (openedAfter .accepted (constantHeap 0) [])
    [(offline, .sendMessage (Message.new .getAddr)), (offline, .readDone whoAmIAckFrame)] = some t ∧
    Balanced (passedAlong [] [(offline, .sendMessage (Message.new .getAddr)),
      (offline, .readDone whoAmIAckFrame)]) t ∧ Emptied t := by
  have run : play Connection.step (openedAfter .accepted (constantHeap 0) [])
      [(offline, .sendMessage (Message.new .getAddr)), (offline, .readDone whoAmIAckFrame)] =
      some _ :=
    Option.bind_eq_some_iff.mpr ⟨_, rfl, Option.bind_eq_some_iff.mpr
      ⟨_, whoAmIAck_step offline rfl rfl, rfl⟩⟩
  exact ⟨_, run, messages_conserved run⟩

end EnsicoinConservedMessages
