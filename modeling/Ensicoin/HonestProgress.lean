import Ensicoin.HonestHandshake

/-!
The handshake of two nodes is never stuck. As long as one of them is not in Ack, some node
that is not has a message in flight, and it is one that its handler reads: a WhoAmI of this
code, or a WhoAmIAck. Four deliveries are enough, in whatever order they come.
-/
namespace EnsicoinHonestProgress
open EnsicoinRuntime EnsicoinNetworkable EnsicoinMessages EnsicoinConnection
open EnsicoinConnectionRuns EnsicoinWrittenMessages EnsicoinHonestHandshake StepRuns

/-- The messages of the handshake are those that this code makes. -/
def Announced (messages : List Message) : Prop := ∀ m ∈ messages, handshakeType m.getType = true →
  (∃ address, m = WhoAmI.new address) ∨ m = Message.new .whoAmIAck

/-- What updateStatus writes. -/
def answers (env : Surroundings) : Status → List Message
  | .Idle => [WhoAmI.new ⟨env.time, env.ip, env.localPort⟩, Message.new .whoAmIAck]
  | .Waiting => [Message.new .whoAmIAck]
  | _ => []

/-- A node that has handled nothing has not read from its memory either. -/
structure Fresh (c : Connection) : Prop where
  memory : c.handled = [] → c.heap = constantHeap 0
  announced : Announced c.written

/-- The turns up to Ack on both sides. -/
def turnsLeft (s : Nodes) : Nat :=
  (2 - (s .opener).handled.length) + (2 - (s .accepter).handled.length)

structure Completes (around : Surroundings) (s : Nodes) : Prop where
  receives : ∀ p, (s p).currentStatus ≠ .Ack → inFlight s p ≠ [] →
    ∃ t, step s (p, around, .receive) = some t ∧ turnsLeft t + 1 = turnsLeft s
  waits : (∃ p, (s p).currentStatus ≠ .Ack) → ∃ p, (s p).currentStatus ≠ .Ack ∧ inFlight s p ≠ []
  ends : ∃ moves t, (∀ move ∈ moves, move.2 = (around, Action.receive)) ∧
    moves.length = turnsLeft s ∧ play step s moves = some t ∧ ∀ p, (t p).currentStatus = .Ack

section Written
variable {c d : Connection}

theorem announced_append {front back : List Message} (first : Announced front)
    (second : Announced back) : Announced (front ++ back) :=
  List.forall_mem_append.mpr ⟨first, second⟩

theorem announced_other {messages : List Message}
    (other : ∀ m ∈ messages, handshakeType m.getType = false) : Announced messages := by
  intro m member hand
  rw [other m member] at hand
  cases hand

theorem announced_sent {m : Message} (new : Announced [m]) (before : Announced c.written) :
    Announced (c.sendMessage m).written := by
  unfold Connection.sendMessage
  split
  · exact announced_append before new
  · exact before

theorem updateStatus_written (env : Surroundings) (c : Connection) (connectionVersion : Int32)
    (peerType : PeerType) : (c.updateStatus env connectionVersion peerType).written =
      c.written ++ answers env c.currentStatus := by
  have label : Still c (if c.peerType = .peer then { c with peerType := peerType } else c) := by
    split <;> exact ⟨rfl, rfl, rfl, rfl⟩
  unfold Connection.updateStatus
  generalize (if c.peerType = .peer then { c with peerType := peerType } else c) = d at label
  rw [← label.status, ← label.written]
  cases now : d.currentStatus with
  | Idle =>
    simp only [now]
    rw [sendMessage_handshake (by rfl), sendMessage_handshake (by rfl)]
    change ((d.lowerVersion connectionVersion).written ++ [_]) ++ [_] = _
    rw [(lowerVersion_still d connectionVersion).written]
    exact List.append_assoc _ _ _
  | WaitingAck =>
    simp only [now]
    exact (lowerVersion_still _ connectionVersion).written.trans (List.append_nil _).symm
  | Waiting =>
    simp only [now]
    rw [sendMessage_handshake (by rfl)]
    exact congrArg (· ++ _) (lowerVersion_still d.register connectionVersion).written
  | Initiated | Ack =>
    simp only [now]
    exact (List.append_nil _).symm

theorem answers_announced (env : Surroundings) (status : Status) :
    Announced (answers env status) := by
  intro m member _
  cases status with
  | Idle =>
    rcases List.mem_cons.mp member with rfl | last
    · exact Or.inl ⟨_, rfl⟩
    · exact Or.inr (List.mem_singleton.mp last)
  | Waiting => exact Or.inr (List.mem_singleton.mp member)
  | Initiated | WaitingAck | Ack => cases member

theorem updateStatus_announced (env : Surroundings) (connectionVersion : Int32)
    (peerType : PeerType) (before : Announced c.written) :
    Announced (c.updateStatus env connectionVersion peerType).written := by
  rw [updateStatus_written]
  exact announced_append before (answers_announced env c.currentStatus)

theorem handler_announced {env : Surroundings} {type : MessageType} {payload : Bytes}
    (run : messageHandler env type c payload = .ok d) (before : Announced c.written) :
    Announced d.written := by
  cases type with
  | whoami =>
    obtain ⟨⟨m, read⟩, reading, done⟩ := bind_ok run
    cases done
    refine updateStatus_announced env _ _ ?_
    rw [(readMessage_still reading).written]
    exact before
  | whoamiack =>
    cases run
    exact updateStatus_announced env 0 .peer before
  | inv =>
    obtain ⟨read, m, still, other, rfl⟩ := onInv_answers run
    refine announced_sent (announced_other (by simpa using other)) ?_
    rw [still.written]
    exact before
  | _ =>
    cases run
    exact before

theorem idle_announced (waits : ∀ m ∈ c.bufferedMessages, handshakeType m.getType = false)
    (before : Announced c.written) : Announced c.idle.written := by
  by_cases ack : c.currentStatus = .Ack
  · rw [(idle_ack ack).written]
    refine announced_append before (announced_other ?_)
    intro m member
    exact waits m (List.mem_reverse.mp member)
  · rw [(idle_waiting ack).written]
    exact before

end Written

section Steps
variable {env around : Surroundings} {s t : Nodes}

theorem act_fresh {p : Party} {action : Action} {d : Connection} (paired : Paired env s)
    (fresh : Fresh (s p)) (go : act s p around action = some d) : Fresh d := by
  cases action with
  | sendMessage m =>
    cases go
    have same := (sendMessage_effect (s p) m.1).handled.trans (List.append_nil _)
    refine ⟨?_, announced_sent (announced_other (by simpa using m.2)) fresh.announced⟩
    rw [same, sendMessage_heap]
    exact fresh.memory
  | writeDone =>
    have moved : (s p).step (around, .writeDone) = some d := go
    cases step_taken moved with
    | wrote writes =>
      have same := (idle_effect { s p with pendingWrites := writes }).handled.trans
        (List.append_nil _)
      refine ⟨?_, idle_announced (paired.fitted p).buffered fresh.announced⟩
      change (Connection.idle { s p with pendingWrites := writes }).handled = [] →
        (Connection.idle { s p with pendingWrites := writes }).heap = _
      rw [same, idle_heap]
      exact fresh.memory
  | receive =>
    simp only [act] at go
    split at go
    · cases go
    · rename_i m rest flight
      have run := toOption_some go
      have counted := (handleMessage_effect run).handled
      obtain ⟨e, handling, rfl⟩ := handleMessage_ok run
      refine ⟨fun none => absurd (counted.symm.trans none) (by simp), ?_⟩
      have kept := fitted_still (noted_still (s p) m.getType) (paired.fitted p)
      rw [headerOf_type] at handling
      exact idle_announced (fitted_handler kept handling).buffered
        (handler_announced handling fresh.announced)

theorem step_fresh {move : Party × Surroundings × Action} (paired : Paired env s)
    (fresh : ∀ p, Fresh (s p)) (go : step s move = some t) : ∀ p, Fresh (t p) := by
  obtain ⟨p, around, action⟩ := move
  obtain ⟨d, acted, rfl⟩ := Option.map_eq_some_iff.mp go
  have next := act_fresh paired (fresh p) acted
  intro q
  by_cases same : q = p
  · subst same
    simpa using next
  · simpa [Function.update_of_ne same] using fresh q

theorem connected_fresh (env : Surroundings) (early : Party → List AppMessage) (p : Party) :
    Fresh (connected env (fun _ => constantHeap 0) early p) := by
  have other : ∀ m ∈ (early p).map Subtype.val, handshakeType m.getType = false := by
    intro m member
    obtain ⟨app, _, rfl⟩ := List.mem_map.mp member
    exact app.2
  have new : Fitted (Connection.new (constantHeap 0)) :=
    ⟨⟨[], [], rfl, rfl, by simp, fun _ => rfl⟩, by simp [Connection.new], rfl⟩
  have sent := fitted_early new other
  have heap := sendAll_heap ((early p).map Subtype.val) (Connection.new (constantHeap 0))
  have idle := (sendAll_effect ((early p).map Subtype.val)
    (Connection.new (constantHeap 0))).status
  obtain ⟨hands, rest, written, hand, more, waits⟩ := sent.written
  rw [idle] at hand waits
  obtain rfl : hands = [] := List.map_eq_nil_iff.mp hand
  obtain rfl : rest = [] := waits (by decide)
  have nothing : Announced (((early p).map Subtype.val).foldl Connection.sendMessage
      (Connection.new (constantHeap 0))).written := by
    rw [written]
    exact announced_other (by simp)
  cases p with
  | accepter => exact ⟨fun _ => (idle_heap _).trans heap, idle_announced sent.buffered nothing⟩
  | opener =>
    refine ⟨fun _ => (sendMessage_heap _ _).trans heap, announced_sent ?_ nothing⟩
    exact List.forall_mem_cons.mpr ⟨fun _ => Or.inl ⟨_, rfl⟩, by simp⟩

/-- The place of a message in the script tells its type. -/
theorem scripted_type {status : Status} {messages : List Message} {n : Nat} {m : Message}
    (scripted : Scripted status messages) (at_n : messages[n]? = some m) (early : n < 2) :
    m.getType = if n = 0 then .whoami else .whoamiack := by
  obtain ⟨hands, rest, rfl, hand, _, waits⟩ := scripted
  have typed : ((hands ++ rest).map Message.getType)[n]? = some m.getType := by
    rw [List.getElem?_map, at_n]
    rfl
  by_cases ack : status = .Ack
  · rw [List.map_append, hand, ack] at typed
    match n with
    | 0 | 1 => exact (Option.some.inj typed).symm
  · rw [waits ack, List.append_nil, hand] at typed
    revert typed
    match n with
    | 0 | 1 => cases status <;> simp [script, eq_comm]

theorem scripted_first {status : Status} {messages : List Message} {m : Message}
    (scripted : Scripted status messages) (announced : Announced messages)
    (first : messages[0]? = some m) : ∃ address, m = WhoAmI.new address := by
  have type := scripted_type scripted first (by decide)
  rw [if_pos rfl] at type
  rcases announced m (List.mem_of_getElem? first) (by rw [type]; rfl) with whoAmI | rfl
  · exact whoAmI
  · cases type

theorem scripted_second {status : Status} {messages : List Message} {m : Message}
    (scripted : Scripted status messages) (announced : Announced messages)
    (second : messages[1]? = some m) : m = Message.new .whoAmIAck := by
  have type := scripted_type scripted second (by decide)
  rw [if_neg (by decide)] at type
  rcases announced m (List.mem_of_getElem? second) (by rw [type]; rfl) with ⟨address, rfl⟩ | ack
  · cases type
  · exact ack

theorem flight_front {p : Party} {m : Message} {rest : List Message}
    (flight : inFlight s p = m :: rest) : (s p.peer).written[(s p).handled.length]? = some m := by
  have first := congrArg List.head? flight
  rwa [inFlight, List.head?_drop] at first

/-- A delivery to a node that is not in Ack is read, and takes one turn. -/
theorem received_turn (around : Surroundings) (paired : Paired env s) (fresh : ∀ p, Fresh (s p))
    {p : Party} (waiting : (s p).currentStatus ≠ .Ack) (flying : inFlight s p ≠ []) :
    ∃ t, step s (p, around, .receive) = some t ∧ turnsLeft t + 1 = turnsLeft s := by
  obtain ⟨m, rest, flight⟩ := List.exists_cons_of_ne_nil flying
  have early : (s p).handled.length < 2 :=
    Nat.lt_of_not_le fun two => waiting ((ack_iff_two paired p).mpr two)
  have front := flight_front flight
  have written := (paired.fitted p.peer).written
  have announced := (fresh p.peer).announced
  have read : ∃ d, (s p).handleMessage around (headerOf m) m.contents.payload = .ok d := by
    by_cases first : (s p).handled.length = 0
    · rw [first] at front
      obtain ⟨address, rfl⟩ := scripted_first written announced front
      exact ⟨_, whoAmI_handled around (UInt32.ofNat VERSION) address
        ((fresh p).memory (List.eq_nil_of_length_eq_zero first))⟩
    · have second : (s p).handled.length = 1 := by omega
      rw [second] at front
      obtain rfl := scripted_second written announced front
      exact ⟨Connection.idle (onWhoAmIAck around (noted (s p) .whoamiack)), rfl⟩
  obtain ⟨d, run⟩ := read
  have counted := congrArg List.length (handleMessage_effect run).handled
  rw [List.length_append, List.length_singleton] at counted
  refine ⟨Function.update s p d, ?_, ?_⟩
  · simp only [step, act, flight, run]
    rfl
  · cases p <;> simp [turnsLeft] <;> omega

theorem waiting_flight (paired : Paired env s) (waiting : ∃ p, (s p).currentStatus ≠ .Ack) :
    ∃ p, (s p).currentStatus ≠ .Ack ∧ inFlight s p ≠ [] := by
  obtain ⟨first, second, third⟩ := written_ahead paired
  simp only [ne_eq, ack_iff_two paired, inFlight, List.drop_eq_nil_iff] at waiting ⊢
  obtain ⟨q, few⟩ := waiting
  by_cases opened : (s .accepter).handled.length = 0
  · refine ⟨.accepter, by omega, ?_⟩
    change ¬ (s .opener).written.length ≤ _
    omega
  · by_cases answered : 2 ≤ (s .opener).handled.length
    · have last : q = .accepter := by
        cases q with
        | opener => exact absurd answered few
        | accepter => rfl
      subst last
      refine ⟨.accepter, few, ?_⟩
      change ¬ (s .opener).written.length ≤ _
      omega
    · refine ⟨.opener, answered, ?_⟩
      change ¬ (s .accepter).written.length ≤ _
      omega

theorem turnsLeft_zero (paired : Paired env s) :
    turnsLeft s = 0 ↔ ∀ p, (s p).currentStatus = .Ack := by
  simp only [ack_iff_two paired]
  constructor
  · intro none p
    unfold turnsLeft at none
    cases p <;> omega
  · intro both
    have opener := both .opener
    have accepter := both .accepter
    unfold turnsLeft
    omega

theorem fresh_completes (around : Surroundings) (paired : Paired env s)
    (fresh : ∀ p, Fresh (s p)) : Completes around s := by
  refine ⟨fun p => received_turn around paired fresh, waiting_flight paired, ?_⟩
  have progress : ∀ u, Paired env u ∧ (∀ p, Fresh (u p)) → turnsLeft u ≠ 0 →
      ∃ move v, move.2 = (around, Action.receive) ∧ step u move = some v ∧
        (Paired env v ∧ ∀ p, Fresh (v p)) ∧ turnsLeft v + 1 = turnsLeft u := by
    intro u ⟨paired, fresh⟩ more
    rw [ne_eq, turnsLeft_zero paired, not_forall] at more
    obtain ⟨p, waiting, flying⟩ := waiting_flight paired more
    obtain ⟨v, go, less⟩ := received_turn around paired fresh waiting flying
    exact ⟨(p, around, .receive), v, rfl, go, ⟨step_paired paired go, step_fresh paired fresh go⟩,
      less⟩
  obtain ⟨moves, u, kinds, count, run, kept, done⟩ :=
    play_uses_up (fun u => Paired env u ∧ ∀ p, Fresh (u p)) turnsLeft _ progress s ⟨paired, fresh⟩
  exact ⟨moves, u, kinds, count, run, (turnsLeft_zero kept.1).mp done⟩

end Steps

theorem handshake_never_stuck {env : Surroundings} {early : Party → List AppMessage}
    {moves : List (Party × Surroundings × Action)} {t : Nodes}
    (run : play step (connected env (fun _ => constantHeap 0) early) moves = some t)
    (around : Surroundings) : Completes around t := by
  have kept : Paired env t ∧ ∀ p, Fresh (t p) := by
    refine play_history (fun _ s => Paired env s ∧ ∀ p, Fresh (s p)) ?_ ?_ moves t run
    · exact ⟨connected_paired env _ early, connected_fresh env early⟩
    · intro before s move u ⟨paired, fresh⟩ go
      exact ⟨step_paired paired go, step_fresh paired fresh go⟩
  exact fresh_completes around kept.1 kept.2

/-- Three more deliveries end the handshake after the first one. -/
theorem first_delivery_completes : ∃ t, play step (connected offline (fun _ => constantHeap 0)
    fun _ => []) [(.accepter, offline, .receive)] = some t ∧ Completes offline t ∧
    turnsLeft t = 3 := by
  have run : play step (connected offline (fun _ => constantHeap 0) fun _ => [])
      [(.accepter, offline, .receive)] = some _ :=
    Option.bind_eq_some_iff.mpr ⟨_, receive_whoAmI rfl rfl, rfl⟩
  exact ⟨_, run, handshake_never_stuck run offline, rfl⟩

end EnsicoinHonestProgress
