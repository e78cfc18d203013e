import Ensicoin.ConservedMessages
import Ensicoin.ReadQueues

/-!
The deliveries between two nodes that run this code. Each handles what the other wrote, in
order, each message once; an Inv costs one delivery more, that of its answer. So there are
never more deliveries than the handshake and the messages of the applications ask for, and
when nothing is in flight there were exactly as many.
-/
namespace EnsicoinHonestDeliveries
open EnsicoinRuntime EnsicoinNetworkable EnsicoinMessages EnsicoinConnection
open EnsicoinConnectionRuns EnsicoinWrittenMessages EnsicoinMessageOrder EnsicoinHonestHandshake
open EnsicoinConservedMessages EnsicoinReadQueues StepRuns

abbrev Move := Party × Surroundings × Action

/-- The message that a move passes to a node's sendMessage. -/
def passedTo (p : Party) (move : Move) : List Message :=
  match move.2.2 with
  | .sendMessage m => if move.1 = p then [m.1] else []
  | _ => []

def passedOf (early : Party → List AppMessage) (moves : List Move) (p : Party) : List Message :=
  (early p).map Subtype.val ++ moves.flatMap (passedTo p)

def deliveries (s : Nodes) : Nat := (s .opener).handled.length + (s .accepter).handled.length

/-- Deliveries that the messages of one application ask for. -/
def weight (passed : List Message) : Nat :=
  passed.length + (passed.map Message.getType).count .inv

structure Accounted (passed : Party → List Message) (s : Nodes) : Prop where
  agreed : ∀ p, (s p).handled <+: (s p.peer).written.map Message.getType
  bounded : deliveries s ≤ 4 + weight (passed .opener) + weight (passed .accepter)
  settled : (∀ p, inFlight s p = []) →
    deliveries s = 4 + weight (passed .opener) + weight (passed .accepter)

/-- Both nodes keep their balance, and handle what the other wrote. -/
structure Ledger (passed : Party → List Message) (s : Nodes) : Prop where
  balanced : ∀ p, Balanced (passed p) (s p)
  emptied : ∀ p, Emptied (s p)
  agreed : ∀ p, (s p).handled <+: (s p.peer).written.map Message.getType

/-- What one action does to its node. -/
theorem act_ledger {s : Nodes} {p : Party} {env : Surroundings} {action : Action}
    {d : Connection} {passed : List Message} (balanced : Balanced passed (s p))
    (emptied : Emptied (s p)) (go : act s p env action = some d) :
    Balanced (passed ++ passedTo p (p, env, action)) d ∧ Emptied d ∧
      (s p).written <+: d.written ∧ (d.handled = (s p).handled ∨
        ∃ m rest, inFlight s p = m :: rest ∧ d.handled = (s p).handled ++ [m.getType]) := by
  cases action with
  | sendMessage m =>
    have moved : (s p).step (env, .sendMessage m.1) = some d := go
    obtain ⟨sent, empty⟩ := step_balanced balanced emptied moved
    cases go
    refine ⟨by simpa [passedTo, passedBy] using sent, empty,
      queued_grows (sendMessage_queued _ _), Or.inl ?_⟩
    exact (sendMessage_effect (s p) m.1).handled.trans (List.append_nil _)
  | writeDone =>
    have moved : (s p).step (env, .writeDone) = some d := go
    obtain ⟨wrote, empty⟩ := step_balanced balanced emptied moved
    refine ⟨by simpa [passedTo, passedBy] using wrote, empty, ?_⟩
    cases step_taken moved with
    | wrote writes =>
      have grown := queued_grows (idle_queued { s p with pendingWrites := writes })
      exact ⟨grown, Or.inl ((idle_effect _).handled.trans (List.append_nil _))⟩
  | receive =>
    simp only [act] at go
    split at go
    · cases go
    · rename_i m rest flight
      have run := toOption_some go
      obtain ⟨handled, empty⟩ := handled_balanced run balanced
      have counted := (handleMessage_effect run).handled
      rw [headerOf_type] at counted
      exact ⟨by simpa [passedTo] using handled, empty,
        queued_grows (handleMessage_queued run), Or.inr ⟨m, rest, flight, counted⟩⟩

/-- The message in front of the flight is the next one that was written. -/
theorem delivered_next {s : Nodes} {p : Party} {m : Message} {rest : List Message}
    (agreed : (s p).handled <+: (s p.peer).written.map Message.getType)
    (flight : inFlight s p = m :: rest) :
    (s p).handled ++ [m.getType] <+: (s p.peer).written.map Message.getType := by
  have front := List.prefix_iff_eq_take.mp agreed
  have all := List.take_append_drop (s p).handled.length (s p.peer).written
  rw [← List.map_take] at front
  rw [inFlight] at flight
  rw [flight] at all
  rw [← all, List.map_append, List.map_cons, ← front]
  exact ⟨rest.map Message.getType, by simp⟩

theorem step_ledger {s t : Nodes} {move : Move} {passed : Party → List Message}
    (ledger : Ledger passed s) (go : step s move = some t) :
    Ledger (fun p => passed p ++ passedTo p move) t := by
  obtain ⟨p, env, action⟩ := move
  obtain ⟨d, acted, rfl⟩ := Option.map_eq_some_iff.mp go
  obtain ⟨balanced, emptied, written, handled⟩ :=
    act_ledger (ledger.balanced p) (ledger.emptied p) acted
  have quiet : ∀ q, q ≠ p → passedTo q (p, env, action) = [] := by
    intro q other
    cases action with
    | sendMessage m => simp [passedTo, Ne.symm other]
    | writeDone | receive => rfl
  have apart : ∀ q : Party, q.peer ≠ q := by
    intro q
    cases q <;> decide
  refine ⟨?_, ?_, ?_⟩
  · intro q
    by_cases same : q = p
    · subst same
      simpa using balanced
    · simpa [Function.update_of_ne same, quiet q same] using ledger.balanced q
  · intro q
    by_cases same : q = p
    · subst same
      simpa using emptied
    · simpa [Function.update_of_ne same] using ledger.emptied q
  · intro q
    by_cases same : q = p
    · subst same
      simp only [Function.update_self, Function.update_of_ne (apart q)]
      rcases handled with kept | ⟨m, rest, flight, more⟩
      · rw [kept]
        exact ledger.agreed q
      · rw [more]
        exact delivered_next (ledger.agreed q) flight
    · simp only [Function.update_of_ne same]
      by_cases peer : q.peer = p
      · subst peer
        rw [Function.update_self]
        exact (ledger.agreed q).trans (written.map _)
      · rw [Function.update_of_ne peer]
        exact ledger.agreed q

theorem run_ledger {env : Surroundings} {heap : Party → Heap} {early : Party → List AppMessage}
    {moves : List Move} {t : Nodes} (run : play step (connected env heap early) moves = some t) :
    Ledger (passedOf early moves) t := by
  refine play_history (fun before s => Ledger (passedOf early before) s) ?_ ?_ moves t run
  · have start := fun p => opened_balanced (p.opening env) (heap p) ((early p).map Subtype.val)
    refine ⟨?_, fun p => (start p).2, ?_⟩
    · intro p
      change Balanced (((early p).map Subtype.val) ++ []) _
      rw [List.append_nil]
      exact (start p).1
    · intro p
      have none := opened_handled (p.opening env) (heap p) ((early p).map Subtype.val)
      rw [show (connected env heap early p).handled = [] from none]
      exact List.nil_prefix
  · intro before s move u ledger go
    have next := step_ledger ledger go
    have more : passedOf early (before ++ [move]) =
        fun p => passedOf early before p ++ passedTo p move := by
      funext p
      simp [passedOf]
    rwa [more]

theorem passed_other (early : Party → List AppMessage) (moves : List Move) (p : Party) :
    ∀ m ∈ passedOf early moves p, handshakeType m.getType = false := by
  intro m member
  rcases List.mem_append.mp member with first | later
  · obtain ⟨app, _, rfl⟩ := List.mem_map.mp first
    exact app.2
  · obtain ⟨⟨q, env, action⟩, _, here⟩ := List.mem_flatMap.mp later
    cases action with
    | sendMessage app =>
      by_cases same : q = p
      · obtain rfl : m = app.1 := by simpa [passedTo, same] using here
        exact app.2
      · simp [passedTo, same] at here
    | writeDone | receive => cases here

section Counts
variable {passed : List Message} {c : Connection}

theorem length_hands_others (messages : List Message) :
    messages.length = (handTypes messages).length + (others messages).length := by
  rw [handTypes, List.filter_map, List.length_map, others, ← List.countP_eq_length_filter,
    ← List.countP_eq_length_filter]
  have both := List.length_eq_countP_add_countP (l := messages)
    (handshakeType ∘ Message.getType)
  simpa using both

theorem count_others (messages : List Message) :
    (messages.map Message.getType).count .inv =
      ((others messages).map Message.getType).count .inv := by
  induction messages with
  | nil => rfl
  | cons m messages ih =>
    by_cases hand : handshakeType m.getType = true
    · have apart : m.getType ≠ .inv := by
        intro inv
        rw [inv] at hand
        cases hand
      simpa [others, hand, List.count_cons, apart] using ih
    · have other : handshakeType m.getType = false := by simpa using hand
      simpa [others, other, List.count_cons] using ih

/-- The messages of the status, the messages passed and the answers are written or wait. -/
theorem balanced_length (balanced : Balanced passed c)
    (other : ∀ m ∈ passed, handshakeType m.getType = false) :
    c.written.length + c.bufferedMessages.length =
      (script c.currentStatus).length + passed.length + c.handled.count .inv := by
  obtain ⟨answers, count, _, perm⟩ := balanced.rest
  have hands := balanced.hands.length_eq
  have rest := perm.length_eq
  rw [handTypes_none other, List.append_nil] at hands
  rw [others_all other, List.length_append, List.length_append, count] at rest
  have both := length_hands_others c.written
  omega

theorem balanced_invs (balanced : Balanced passed c)
    (other : ∀ m ∈ passed, handshakeType m.getType = false) :
    (c.written.map Message.getType).count .inv +
      (c.bufferedMessages.map Message.getType).count .inv =
        (passed.map Message.getType).count .inv := by
  obtain ⟨answers, _, requests, perm⟩ := balanced.rest
  have none : (answers.map Message.getType).count .inv = 0 := by
    refine List.count_eq_zero.mpr ?_
    intro member
    obtain ⟨m, here, inv⟩ := List.mem_map.mp member
    rw [requests m here] at inv
    cases inv
  have counts := (perm.map Message.getType).count_eq .inv
  rw [others_all other, List.map_append, List.map_append, List.count_append, List.count_append,
    none, Nat.add_zero] at counts
  rw [count_others c.written]
  exact counts

end Counts

theorem script_two (status : Status) : (script status).length ≤ 2 := by
  cases status <;> decide

theorem ledger_accounted {env : Surroundings} {passed : Party → List Message} {s : Nodes}
    (ledger : Ledger passed s) (paired : Paired env s)
    (other : ∀ p, ∀ m ∈ passed p, handshakeType m.getType = false) : Accounted passed s := by
  have lengths := fun p => balanced_length (ledger.balanced p) (other p)
  have invs := fun p => balanced_invs (ledger.balanced p) (other p)
  have fewer := fun p => (ledger.agreed p).sublist.count_le .inv
  have shorter : ∀ p, (s p).handled.length ≤ (s p.peer).written.length := by
    intro p
    have length := (ledger.agreed p).length_le
    rwa [List.length_map] at length
  have atOpener := lengths .opener
  have atAccepter := lengths .accepter
  have openerInvs := invs .opener
  have accepterInvs := invs .accepter
  refine ⟨ledger.agreed, ?_, ?_⟩
  · have openerFew := script_two (s .opener).currentStatus
    have accepterFew := script_two (s .accepter).currentStatus
    have toOpener : (s .opener).handled.length ≤ (s .accepter).written.length := shorter .opener
    have toAccepter : (s .accepter).handled.length ≤ (s .opener).written.length :=
      shorter .accepter
    have byOpener : (s .opener).handled.count .inv ≤
        ((s .accepter).written.map Message.getType).count .inv := fewer .opener
    have byAccepter : (s .accepter).handled.count .inv ≤
        ((s .opener).written.map Message.getType).count .inv := fewer .accepter
    simp only [deliveries, weight]
    omega
  · intro empty
    have ack := (paired_safe paired).completes empty
    have all : ∀ p, (s p).handled = (s p.peer).written.map Message.getType := by
      intro p
      have read := List.drop_eq_nil_iff.mp (empty p)
      refine (ledger.agreed p).eq_of_length ?_
      rw [List.length_map]
      exact Nat.le_antisymm (shorter p) read
    have byOpener : (s .opener).handled = (s .accepter).written.map Message.getType :=
      all .opener
    have byAccepter : (s .accepter).handled = (s .opener).written.map Message.getType :=
      all .accepter
    rw [ack .opener, ledger.emptied .opener (ack .opener), byOpener] at atOpener
    rw [ack .accepter, ledger.emptied .accepter (ack .accepter), byAccepter] at atAccepter
    rw [ledger.emptied .opener (ack .opener)] at openerInvs
    rw [ledger.emptied .accepter (ack .accepter)] at accepterInvs
    simp only [script, List.length_nil, List.length_cons, List.map_nil, List.count_nil] at *
    simp only [deliveries, weight, byOpener, byAccepter, List.length_map]
    omega

theorem deliveries_accounted {env : Surroundings} {heap : Party → Heap}
    {early : Party → List AppMessage} {moves : List Move} {t : Nodes}
    (run : play step (connected env heap early) moves = some t) :
    Accounted (passedOf early moves) t := by
  have paired : Paired env t := play_history (fun _ s => Paired env s)
    (connected_paired env heap early) (fun _ _ _ _ paired go => step_paired paired go) moves t run
  exact ledger_accounted (run_ledger run) paired (passed_other early moves)

/-- One message that waits at the opener for the end of the handshake. -/
def askEarly : Party → List AppMessage
  | .opener => [⟨Message.new .getAddr, rfl⟩]
  | .accepter => []

theorem early_message_accounted : ∃ t, play step (connected offline (fun _ => constantHeap 0)
    askEarly) (handshakeMoves ++ [(.accepter, offline, .receive)]) = some t ∧
    Accounted (passedOf askEarly (handshakeMoves ++ [(.accepter, offline, .receive)])) t ∧
    (∀ p, inFlight t p = []) ∧ deliveries t = 5 := by
  have run : play step (connected offline (fun _ => constantHeap 0) askEarly)
      (handshakeMoves ++ [(.accepter, offline, .receive)]) = some _ :=
    Option.bind_eq_some_iff.mpr ⟨_, receive_whoAmI rfl rfl, Option.bind_eq_some_iff.mpr
      ⟨_, receive_whoAmI rfl rfl, Option.bind_eq_some_iff.mpr ⟨_, receive_whoAmIAck rfl,
      Option.bind_eq_some_iff.mpr ⟨_, receive_whoAmIAck rfl, Option.bind_eq_some_iff.mpr
      ⟨_, rfl, rfl⟩⟩⟩⟩⟩
  refine ⟨_, run, deliveries_accounted run, ?_, rfl⟩
  intro p
  cases p <;> rfl

end EnsicoinHonestDeliveries
