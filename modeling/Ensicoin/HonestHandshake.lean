import Ensicoin.WrittenMessages
import Ensicoin.Handshake
import Ensicoin.ZeroMemory
import Mathlib.Logic.Function.Basic

/-!
Two nodes that run this code. What one has written and the other has not handled is
in flight, in order, and is delivered message by message. The first message of each
is a WhoAmI, the second a WhoAmIAck and none of the later ones belongs to the
handshake, so what is in flight at a place and the status of the node that handled as
many messages fit each other.
-/
namespace EnsicoinHonestHandshake
open EnsicoinRuntime EnsicoinNetworkBuffer EnsicoinNetworkable EnsicoinMessages
open EnsicoinConnection EnsicoinConnectionRuns EnsicoinWrittenMessages EnsicoinHandshake
open EnsicoinZeroMemory StepRuns

inductive Party where
  | opener
  | accepter
  deriving DecidableEq, Repr

def Party.peer : Party → Party
  | .opener => .accepter
  | .accepter => .opener

/-- The handshake messages are for the Connection to send. -/
abbrev AppMessage := { m : Message // handshakeType m.getType = false }

inductive Action where
  | sendMessage (m : AppMessage)
  | writeDone
  | receive

abbrev Nodes := Party → Connection

def inFlight (s : Nodes) (p : Party) : List Message :=
  (s p.peer).written.drop (s p).handled.length

/-- The header in front of the payload in byteRepr. -/
def headerOf (m : Message) : MessageHeader :=
  ⟨UInt32.ofNat MAGIC, paddedType m.type, sizeT m.contents.payload.length⟩

def act (s : Nodes) (p : Party) (env : Surroundings) : Action → Option Connection
  | .sendMessage m => (s p).step (env, .sendMessage m.1)
  | .writeDone => (s p).step (env, .writeDone)
  | .receive =>
    match inFlight s p with
    | [] => none
    | m :: _ => ((s p).handleMessage env (headerOf m) m.contents.payload).toOption

def step (s : Nodes) (move : Party × Surroundings × Action) : Option Nodes :=
  (act s move.1 move.2.1 move.2.2).map (Function.update s move.1)

def Party.opening (env : Surroundings) : Party → Opening
  | .opener => .bound env
  | .accepter => .accepted

def connected (env : Surroundings) (heap : Party → Heap) (early : Party → List AppMessage) :
    Nodes :=
  fun p => openedAfter (p.opening env) (heap p) ((early p).map Subtype.val)

structure Safe (s : Nodes) : Prop where
  receives : ∀ p m, (inFlight s p).head? = some m →
    ((s p).currentStatus = .Ack ↔ handshakeType m.getType = false)
  registers : ∀ p, (s p).registrations.length ≤ 1
  completes : (∀ p, inFlight s p = []) → ∀ p, (s p).currentStatus = .Ack

/-- The types of the handshake messages written up to a status. -/
def script : Status → List MessageType
  | .Idle => []
  | .Initiated => [.whoami]
  | .Waiting => [.whoami]
  | .WaitingAck => [.whoami, .whoamiack]
  | .Ack => [.whoami, .whoamiack]

def registered (status : Status) : Nat := if status = .Ack then 1 else 0

def Scripted (status : Status) (messages : List Message) : Prop :=
  ∃ hands rest, messages = hands ++ rest ∧ hands.map Message.getType = script status ∧
    (∀ m ∈ rest, handshakeType m.getType = false) ∧ (status ≠ .Ack → rest = [])

theorem script_turn (status : Status) :
    script (nextStatus status) = script status ++ replies status := by
  cases status <;> rfl

theorem registered_turn (status : Status) :
    registered (nextStatus status) = registered status + registers status := by
  cases status <;> rfl

theorem scripted_turn {status : Status} {messages answers : List Message}
    (scripted : Scripted status messages) (types : answers.map Message.getType = replies status) :
    Scripted (nextStatus status) (messages ++ answers) := by
  obtain ⟨hands, rest, rfl, hand, other, early⟩ := scripted
  by_cases ack : status = .Ack
  · subst ack
    have none : answers = [] := List.map_eq_nil_iff.mp types
    exact ⟨hands, rest, by simp [none], hand, other, early⟩
  · have none := early ack
    subst none
    refine ⟨hands ++ answers, [], by simp, ?_, by simp, fun _ => rfl⟩
    rw [List.map_append, hand, types, script_turn]

theorem scripted_more {messages more : List Message} (scripted : Scripted .Ack messages)
    (free : ∀ m ∈ more, handshakeType m.getType = false) : Scripted .Ack (messages ++ more) := by
  obtain ⟨hands, rest, rfl, hand, other, _⟩ := scripted
  refine ⟨hands, rest ++ more, List.append_assoc _ _ _, hand, ?_, fun early => absurd rfl early⟩
  intro m member
  rcases List.mem_append.mp member with old | new
  · exact other m old
  · exact free m new

theorem scripted_place {status : Status} {messages : List Message} {n : Nat} {m : Message}
    (scripted : Scripted status messages) (at_n : messages[n]? = some m) :
    handshakeType m.getType = decide (n < 2) := by
  obtain ⟨hands, rest, rfl, hand, other, early⟩ := scripted
  have few : hands.length = (script status).length := by rw [← hand, List.length_map]
  by_cases front : n < hands.length
  · have listed : m.getType ∈ script status := by
      rw [List.getElem?_append_left front] at at_n
      exact hand ▸ List.mem_map_of_mem (List.mem_of_getElem? at_n)
    have both : (script status).length ≤ 2 := by cases status <;> decide
    have isHand : handshakeType m.getType = true := by
      revert listed
      cases status <;> simp only [script, handshakeType] <;> grind
    simp only [isHand]
    exact (decide_eq_true (by omega)).symm
  · rw [List.getElem?_append_right (by omega)] at at_n
    have member := List.mem_of_getElem? at_n
    have ack : status = .Ack := by
      by_contra notAck
      rw [early notAck] at member
      cases member
    subst ack
    rw [other m member]
    exact (decide_eq_false (by rw [few] at front; exact front)).symm

structure Fitted (c : Connection) : Prop where
  written : Scripted c.currentStatus c.written
  buffered : ∀ m ∈ c.bufferedMessages, handshakeType m.getType = false
  registrations : c.registrations.length = registered c.currentStatus

theorem fitted_still {c d : Connection} (still : Still c d) (fitted : Fitted c) : Fitted d where
  written := by
    rw [still.status, still.written]
    exact fitted.written
  buffered := by
    rw [still.buffered]
    exact fitted.buffered
  registrations := by rw [still.registrations, still.status, fitted.registrations]

theorem fitted_turned {c d : Connection} (turned : Turned c d) (fitted : Fitted c) : Fitted d where
  written := by
    obtain ⟨answers, written, types⟩ := turned.written
    rw [turned.status, written]
    exact scripted_turn fitted.written types
  buffered := by
    rw [turned.buffered]
    exact fitted.buffered
  registrations := by
    rw [turned.registrations, turned.status, fitted.registrations, registered_turn]

theorem fitted_sent {c : Connection} {m : Message} (other : handshakeType m.getType = false)
    (fitted : Fitted c) : Fitted (c.sendMessage m) := by
  by_cases ack : c.currentStatus = .Ack
  · rw [sendMessage_ack ack]
    refine ⟨?_, fitted.buffered, fitted.registrations⟩
    have before := fitted.written
    rw [ack] at before
    change Scripted c.currentStatus _
    rw [ack]
    exact scripted_more before (by simpa using other)
  · rw [sendMessage_waits ack other]
    refine ⟨fitted.written, ?_, fitted.registrations⟩
    intro n member
    rcases List.mem_append.mp member with old | new
    · exact fitted.buffered n old
    · rw [List.mem_singleton.mp new]
      exact other

theorem fitted_idle {c : Connection} (fitted : Fitted c) : Fitted c.idle := by
  by_cases ack : c.currentStatus = .Ack
  · refine fitted_still (idle_ack ack) ⟨?_, by simp, fitted.registrations⟩
    have before := fitted.written
    change Scripted c.currentStatus _
    rw [ack] at before ⊢
    refine scripted_more before ?_
    intro m member
    exact fitted.buffered m (List.mem_reverse.mp member)
  · exact fitted_still (idle_waiting ack) fitted

theorem fitted_handler {env : Surroundings} {type : MessageType} {c d : Connection}
    {payload : Bytes} (fitted : Fitted c) (run : messageHandler env type c payload = .ok d) :
    Fitted d := by
  by_cases hand : handshakeType type = true
  · exact fitted_turned (messageHandler_turned run hand) fitted
  · by_cases inv : type = .inv
    · subst inv
      obtain ⟨e, m, still, other, rfl⟩ := onInv_answers run
      exact fitted_sent other (fitted_still still fitted)
    · exact fitted_still (messageHandler_still run (by simpa using hand) inv) fitted

theorem fitted_handled {env : Surroundings} {c d : Connection} {header : MessageHeader}
    {payload : Bytes} (fitted : Fitted c) (run : c.handleMessage env header payload = .ok d) :
    Fitted d := by
  obtain ⟨handled, handling, rfl⟩ := handleMessage_ok run
  have kept := fitted_still (noted_still c (getTypeFromString header.type.value)) fitted
  exact fitted_idle (fitted_handler kept handling)

theorem fitted_early {messages : List Message} {c : Connection} (fitted : Fitted c)
    (other : ∀ m ∈ messages, handshakeType m.getType = false) :
    Fitted (messages.foldl Connection.sendMessage c) := by
  induction messages generalizing c with
  | nil => exact fitted
  | cons m messages ih =>
    exact ih (fitted_sent (other m (by simp)) fitted) fun n member => other n (by simp [member])

/-- Both nodes have taken as many turns as they handled messages. -/
structure Paired (env : Surroundings) (s : Nodes) : Prop where
  status : ∀ p, (s p).currentStatus =
    nextStatus^[(s p).handled.length] (openingStatus (p.opening env))
  fitted : ∀ p, Fitted (s p)

theorem ack_iff_two {env : Surroundings} {s : Nodes} (paired : Paired env s) (p : Party) :
    (s p).currentStatus = .Ack ↔ 2 ≤ (s p).handled.length := by
  rw [paired.status p]
  exact two_turns_ack _ _

theorem headerOf_type (m : Message) :
    getTypeFromString (headerOf m).type.value = m.getType :=
  padded_found m.type

theorem received_place {env : Surroundings} {s : Nodes} {p : Party} {m : Message}
    {rest : List Message} (paired : Paired env s) (flight : inFlight s p = m :: rest) :
    handshakeType m.getType = decide ((s p).handled.length < 2) := by
  refine scripted_place (paired.fitted p.peer).written ?_
  have first := congrArg List.head? flight
  rw [inFlight, List.head?_drop] at first
  exact first

theorem effect_counted {c d : Connection} {reads : List PendingRead} {types : List MessageType}
    {opening : Opening} (effect : Effect c d reads types types.length)
    (counted : c.currentStatus = nextStatus^[c.handled.length] (openingStatus opening)) :
    d.currentStatus = nextStatus^[d.handled.length] (openingStatus opening) := by
  rw [effect.status, counted, effect.handled, List.length_append, Nat.add_comm,
    Function.iterate_add_apply]

/-- A node in Ack stays there, so the later messages count as turns too. -/
theorem received_counted {env : Surroundings} {s : Nodes} {p : Party} {d : Connection}
    {m : Message} {rest : List Message} (paired : Paired env s)
    (flight : inFlight s p = m :: rest)
    (effect : Effect (s p) d [.header] [m.getType] (turns [m.getType])) :
    d.currentStatus = nextStatus^[d.handled.length] (openingStatus (p.opening env)) := by
  have place := received_place paired flight
  by_cases hand : handshakeType m.getType = true
  · have turned : Effect (s p) d [.header] [m.getType] [m.getType].length := by
      simpa [turns, hand] using effect
    exact effect_counted turned (paired.status p)
  · have other : handshakeType m.getType = false := by simpa using hand
    rw [other] at place
    have late : 2 ≤ (s p).handled.length := Nat.not_lt.mp (of_decide_eq_false place.symm)
    have stays : d.currentStatus = (s p).currentStatus := by
      simpa [turns, other] using effect.status
    rw [stays, (ack_iff_two paired p).mpr late]
    refine ((two_turns_ack _ _).mpr ?_).symm
    rw [effect.handled, List.length_append]
    omega

theorem act_paired {env around : Surroundings} {s : Nodes} {p : Party} {action : Action}
    {d : Connection} (paired : Paired env s) (go : act s p around action = some d) :
    Fitted d ∧ d.currentStatus =
      nextStatus^[d.handled.length] (openingStatus (p.opening env)) := by
  cases action with
  | sendMessage m =>
    cases go
    exact ⟨fitted_sent m.2 (paired.fitted p),
      effect_counted (sendMessage_effect _ _) (paired.status p)⟩
  | writeDone =>
    have moved : (s p).step (around, .writeDone) = some d := go
    cases step_taken moved with
    | wrote writes =>
      have popped : Still (s p) { s p with pendingWrites := writes } := ⟨rfl, rfl, rfl, rfl⟩
      have quiet : Effect (s p) { s p with pendingWrites := writes } [] [] 0 :=
        effect_frame rfl rfl rfl rfl rfl
      exact ⟨fitted_idle (fitted_still popped (paired.fitted p)),
        effect_counted (quiet_before quiet (idle_effect _)) (paired.status p)⟩
  | receive =>
    simp only [act] at go
    split at go
    · cases go
    · rename_i m rest flight
      have run := toOption_some go
      have effect := handleMessage_effect run
      rw [headerOf_type] at effect
      exact ⟨fitted_handled (paired.fitted p) run, received_counted paired flight effect⟩

theorem step_paired {env : Surroundings} {s t : Nodes} {move : Party × Surroundings × Action}
    (paired : Paired env s) (go : step s move = some t) : Paired env t := by
  obtain ⟨p, around, action⟩ := move
  obtain ⟨d, acted, rfl⟩ := Option.map_eq_some_iff.mp go
  obtain ⟨fitted, status⟩ := act_paired paired acted
  refine ⟨?_, ?_⟩
  · intro q
    by_cases same : q = p
    · subst same
      simpa using status
    · simpa [Function.update_of_ne same] using paired.status q
  · intro q
    by_cases same : q = p
    · subst same
      simpa using fitted
    · simpa [Function.update_of_ne same] using paired.fitted q

theorem fitted_bind (env : Surroundings) {c : Connection} (idle : c.currentStatus = .Idle)
    (fitted : Fitted c) : Fitted (c.bind env) := by
  obtain ⟨hands, rest, written, hand, _, early⟩ := fitted.written
  rw [idle] at hand early
  obtain rfl : hands = [] := List.map_eq_nil_iff.mp hand
  obtain rfl : rest = [] := early (by decide)
  have only : (c.bind env).written = [WhoAmI.new ⟨env.time, IP_bytes, env.localPort⟩] :=
    congrArg (· ++ _) written
  refine ⟨⟨_, [], by rw [only, List.append_nil], rfl, by simp, fun _ => rfl⟩, fitted.buffered, ?_⟩
  refine fitted.registrations.trans ?_
  rw [idle]
  rfl

theorem connected_paired (env : Surroundings) (heap : Party → Heap)
    (early : Party → List AppMessage) : Paired env (connected env heap early) := by
  have before : ∀ p, Fitted (((early p).map Subtype.val).foldl Connection.sendMessage
      (Connection.new (heap p))) := by
    intro p
    have new : Fitted (Connection.new (heap p)) :=
      ⟨⟨[], [], rfl, rfl, by simp, fun _ => rfl⟩, by simp [Connection.new], rfl⟩
    refine fitted_early new ?_
    intro m member
    obtain ⟨app, _, rfl⟩ := List.mem_map.mp member
    exact app.2
  have quiet := fun p => sendAll_effect ((early p).map Subtype.val) (Connection.new (heap p))
  refine ⟨?_, ?_⟩
  · intro p
    cases p with
    | opener => rw [show ((connected env heap early) .opener).handled = [] from
        (quiet .opener).handled]; rfl
    | accepter => exact effect_counted (quiet_before (quiet .accepter) (idle_effect _)) rfl
  · intro p
    cases p with
    | accepter => exact fitted_idle (before .accepter)
    | opener => exact fitted_bind env (quiet .opener).status (before .opener)

theorem written_length {c : Connection} (fitted : Fitted c) :
    (script c.currentStatus).length ≤ c.written.length := by
  obtain ⟨hands, rest, written, hand, _, _⟩ := fitted.written
  rw [written, List.length_append, ← hand, List.length_map]
  exact Nat.le_add_right _ _

/-- The opener writes one message unasked, and the accepter two for the first it handles. -/
theorem written_ahead {env : Surroundings} {s : Nodes} (paired : Paired env s) :
    1 ≤ (s .opener).written.length ∧
    (2 ≤ (s .opener).handled.length → 2 ≤ (s .opener).written.length) ∧
    (1 ≤ (s .accepter).handled.length → 2 ≤ (s .accepter).written.length) := by
  have fromOpener := written_length (paired.fitted .opener)
  have fromAccepter := written_length (paired.fitted .accepter)
  have opener := paired.status .opener
  have accepter := paired.status .accepter
  refine ⟨?_, ?_, ?_⟩
  · refine Nat.le_trans ?_ fromOpener
    rw [opener]
    match (s .opener).handled.length with
    | 0 => exact Nat.le_refl 1
    | 1 => exact Nat.le_refl 1
    | n + 2 =>
      rw [(two_turns_ack _ _).mpr (by omega)]
      decide
  · intro two
    rw [(ack_iff_two paired .opener).mpr two] at fromOpener
    exact fromOpener
  · intro one
    by_cases two : 2 ≤ (s .accepter).handled.length
    · rw [(ack_iff_two paired .accepter).mpr two] at fromAccepter
      exact fromAccepter
    · have once : (s .accepter).handled.length = 1 := by omega
      rw [accepter, once] at fromAccepter
      exact fromAccepter

theorem paired_safe {env : Surroundings} {s : Nodes} (paired : Paired env s) : Safe s where
  receives := by
    intro p m first
    obtain ⟨rest, flight⟩ := List.head?_eq_some_iff.mp first
    rw [ack_iff_two paired p, received_place paired flight, decide_eq_false_iff_not, Nat.not_lt]
  registers := by
    intro p
    rw [(paired.fitted p).registrations, registered]
    split <;> omega
  completes := by
    intro empty
    have read : ∀ p : Party, (s p.peer).written.length ≤ (s p).handled.length :=
      fun p => List.drop_eq_nil_iff.mp (empty p)
    obtain ⟨first, second, third⟩ := written_ahead paired
    have fromOpener : (s .opener).written.length ≤ (s .accepter).handled.length := read .accepter
    have fromAccepter : (s .accepter).written.length ≤ (s .opener).handled.length := read .opener
    intro p
    rw [ack_iff_two paired p]
    cases p <;> omega

theorem honest_handshake_safe {env : Surroundings} {heap : Party → Heap}
    {early : Party → List AppMessage} {moves : List (Party × Surroundings × Action)} {t : Nodes}
    (run : play step (connected env heap early) moves = some t) : Safe t :=
  paired_safe (play_history (fun _ s => Paired env s) (connected_paired env heap early)
    (fun _ _ _ _ paired go => step_paired paired go) moves t run)

theorem whoAmI_handled (env : Surroundings) {c : Connection} (version : UInt32)
    (address : Address) (zeros : c.heap = constantHeap 0) :
    c.handleMessage env (headerOf (Message.new (.whoAmI version address [ascii "node"])))
      (Contents.whoAmI version address [ascii "node"]).payload =
        .ok (Connection.idle ({ noted c .whoami with heap := constantHeap 0 }.updateStatus env
          version.toInt32 .nodepeer)) := by
  obtain ⟨read, got⟩ := whoAmI_zeros version address
  have type := headerOf_type (Message.new (.whoAmI version address [ascii "node"]))
  have services : peerTypeOf [ascii "node"] = .nodepeer := by decide
  simp only [Connection.handleMessage, type]
  change (onWhoAmI env _ _ >>= _) = _
  simp only [onWhoAmI, Connection.readMessage, zeros, got, bind, Except.bind, pure, Except.pure,
    Message.getVersion, Message.getServices, services]
  rfl

/-- The handshake of two nodes over zeros, without a message of the applications. -/
def handshakeMoves : List (Party × Surroundings × Action) :=
  [(.accepter, offline, .receive), (.opener, offline, .receive), (.opener, offline, .receive),
    (.accepter, offline, .receive)]

theorem receive_whoAmI {s : Nodes} {p : Party} {address : Address} {rest : List Message}
    (flight : inFlight s p = WhoAmI.new address :: rest) (zeros : (s p).heap = constantHeap 0) :
    step s (p, offline, .receive) = some (Function.update s p (Connection.idle
      ({ noted (s p) .whoami with heap := constantHeap 0 }.updateStatus offline
        (UInt32.ofNat VERSION).toInt32 .nodepeer))) := by
  have handled : (s p).handleMessage offline (headerOf (WhoAmI.new address))
      (WhoAmI.new address).contents.payload = .ok _ :=
    whoAmI_handled offline (UInt32.ofNat VERSION) address zeros
  simp only [step, act, flight, handled]
  rfl

theorem receive_whoAmIAck {s : Nodes} {p : Party} {rest : List Message}
    (flight : inFlight s p = Message.new .whoAmIAck :: rest) :
    step s (p, offline, .receive) = some (Function.update s p (Connection.idle
      (onWhoAmIAck offline (noted (s p) .whoamiack)))) := by
  simp only [step, act, flight]
  rfl

theorem handshake_completes : ∃ t, play step (connected offline (fun _ => constantHeap 0)
    fun _ => []) handshakeMoves = some t ∧ Safe t ∧ ∀ p, (t p).currentStatus = .Ack := by
  have run : play step (connected offline (fun _ => constantHeap 0) fun _ => []) handshakeMoves =
      some _ :=
    Option.bind_eq_some_iff.mpr ⟨_, receive_whoAmI rfl rfl, Option.bind_eq_some_iff.mpr
      ⟨_, receive_whoAmI rfl rfl, Option.bind_eq_some_iff.mpr ⟨_, receive_whoAmIAck rfl,
      Option.bind_eq_some_iff.mpr ⟨_, receive_whoAmIAck rfl, rfl⟩⟩⟩⟩
  refine ⟨_, run, honest_handshake_safe run, ?_⟩
  intro p
  cases p <;> rfl

end EnsicoinHonestHandshake
