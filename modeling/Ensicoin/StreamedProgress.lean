import Ensicoin.StreamedNodes

/-!
The handshake over bytes is never stuck. The opener reads nothing before its WhoAmI is written,
and then each node reads a WhoAmI in two pieces and a WhoAmIAck in one: seven completions, and
from every state on the way there is a next one.
-/
namespace EnsicoinStreamedProgress
open EnsicoinRuntime EnsicoinNetworkable EnsicoinMessages EnsicoinConnection
open EnsicoinConnectionRuns EnsicoinWrittenMessages EnsicoinReadQueues EnsicoinVersionNegotiation
open EnsicoinHonestHandshake EnsicoinHonestProgress EnsicoinStreamedNodes StepRuns

/-- The completions that a node needs up to Ack. -/
def piecesLeft (c : Connection) : Nat :=
  match c.handled.length, c.pendingReads with
  | 0, [] => 4
  | 0, .header :: _ => 3
  | 0, .payload _ :: _ => 2
  | 1, _ => 1
  | _, _ => 0

def streamLeft (s : Nodes) : Nat := piecesLeft (s .opener) + piecesLeft (s .accepter)

/-- A completion of a read or a write. -/
def Completion (around : Surroundings) (move : Party × Surroundings × Action) : Prop :=
  move.2.1 = around ∧ (move.2.2 = .receive ∨ move.2.2 = .writeDone)

section Steps
variable {env around : Surroundings} {s u : Nodes} {p : Party} {c : Connection}

theorem left_zero : piecesLeft c = 0 ↔ 2 ≤ c.handled.length := by
  unfold piecesLeft
  generalize c.handled.length = count
  match count, c.pendingReads with
  | 0, [] | 0, .header :: _ | 0, .payload _ :: _ | 1, _ | n + 2, _ => simp

theorem left_idle (none : c.handled = []) (idle : c.pendingReads = []) : piecesLeft c = 4 := by
  simp only [piecesLeft, none, idle, List.length_nil]

theorem left_header {rest : List PendingRead} (none : c.handled = [])
    (pending : c.pendingReads = .header :: rest) : piecesLeft c = 3 := by
  simp only [piecesLeft, none, pending, List.length_nil]

theorem left_payload {header : MessageHeader} {rest : List PendingRead} (none : c.handled = [])
    (pending : c.pendingReads = .payload header :: rest) : piecesLeft c = 2 := by
  simp only [piecesLeft, none, pending, List.length_nil]

theorem left_one (one : c.handled.length = 1) : piecesLeft c = 1 := by
  simp only [piecesLeft, one]

theorem whoAmIAck_read (around : Surroundings) {rest : List PendingRead}
    (pending : c.pendingReads = .header :: rest)
    (zeros : c.heap = constantHeap 0) : ∃ d, c.step (around, .readDone whoAmIAckFrame) = some d ∧
      d.handled = c.handled ++ [.whoamiack] := by
  have size : whoAmIAckFrame.length = PendingRead.header.size := by decide
  have type : getTypeFromString (paddedType .whoamiack).value = .whoamiack := by decide
  refine ⟨Connection.idle (onWhoAmIAck around { received c .header rest whoAmIAckFrame with
    heap := constantHeap 0, handled := c.handled ++ [.whoamiack] }), ?_, ?_⟩
  · simp only [Connection.step, pending, size, ↓reduceIte, Connection.handleRead,
      Connection.handleHeader, zeros, whoAmIAckFrame_read]
    simp only [bind, Except.bind, Connection.handleMessage, type]
    rfl
  · rw [(idle_effect _).handled, onWhoAmIAck, (updateStatus_effect _ _ _ _).handled]
    simp

theorem payload_step {header : MessageHeader} {rest : List PendingRead} {data : Bytes}
    {d : Connection} (pending : c.pendingReads = .payload header :: rest)
    (size : data.length = (PendingRead.payload header).size)
    (run : (received c (.payload header) rest data).handleMessage around header data = .ok d) :
    c.step (around, .readDone data) = some d := by
  simp only [Connection.step, pending, size, ↓reduceIte]
  exact congrArg Except.toOption run

theorem receive_acts {first : PendingRead} {rest : List PendingRead} {data : Bytes}
    {d : Connection} (pending : (s p).pendingReads = first :: rest)
    (ahead : ((stream (s p.peer).written).drop (taken (s p)).length).take first.size = data)
    (go : (s p).step (around, .readDone data) = some d) :
    streamAct s p around .receive = some d := by
  rw [← unread] at ahead
  simp only [streamAct, pending, ahead, go]

/-- A node that waits for no bytes has a write that is not done. -/
theorem write_progress (around : Surroundings) (linked : Linked env s u)
    (idle : (s p).pendingReads = []) :
    ∃ d, streamAct s p around .writeDone = some d ∧ piecesLeft d + 1 = piecesLeft (s p) := by
  have stands := linked.stands p
  rw [idle] at stands
  have none : (s p).handled = [] := by
    rw [handled_same linked]
    by_contra some
    exact stands.busy some rfl
  have more : (s p).pendingWrites ≠ [] := by
    rw [field_same Connection.pendingWrites (fun _ _ _ => rfl) linked]
    have chain := stands.chain
    have opened := (written_ahead linked.paired).1
    intro empty
    rw [empty] at chain
    cases p <;> simp [Party.opening, openingReads] at chain <;> omega
  obtain ⟨type, writes, pending⟩ := List.exists_cons_of_ne_nil more
  refine ⟨Connection.idle { s p with pendingWrites := writes }, ?_, ?_⟩
  · simp only [streamAct, Connection.step, pending]
    rfl
  · have reads := (idle_effect { s p with pendingWrites := writes }).pendingReads
    have handled := (idle_effect { s p with pendingWrites := writes }).handled
    rw [left_idle none idle, left_header (handled.trans ((List.append_nil _).trans none))
      (reads.trans (congrArg (· ++ _) idle))]

/-- The WhoAmI is taken in two pieces. -/
theorem whoAmI_progress (around : Surroundings) (linked : Linked env s u) {address : Address}
    (none : (s p).handled = []) (front : (s p.peer).written[0]? = some (WhoAmI.new address))
    (zeros : (s p).heap = constantHeap 0) {first : PendingRead} {reads : List PendingRead}
    (pending : (s p).pendingReads = first :: reads)
    (placed : Placed (s p.peer).written 0 (first :: reads) (taken (s p))) :
    ∃ d, streamAct s p around .receive = some d ∧ piecesLeft d + 1 = piecesLeft (s p) := by
  cases first with
  | header =>
    have single := first_reads linked (congrArg List.length none)
    rw [pending, List.length_cons] at single
    obtain rfl := List.eq_nil_of_length_eq_zero (Nat.le_zero.mp (Nat.le_of_succ_le_succ single))
    have more : 0 < (headerOf (WhoAmI.new address)).payloadLength := by
      rw [headerOf, whoAmI_length]
      exact (by decide : (0 : UInt64) < sizeT 36)
    refine ⟨_, receive_acts pending (header_ahead placed front)
      (header_step around pending zeros more), ?_⟩
    rw [left_header none pending]
    exact congrArg (· + 1) (left_payload none rfl)
  | payload header =>
    obtain ⟨rfl, fits, _, ahead⟩ := payload_ahead placed front
    have run := whoAmI_handled around (UInt32.ofNat VERSION) address
      (c := received (s p) (.payload (headerOf (WhoAmI.new address))) reads
        (WhoAmI.new address).contents.payload) zeros
    have size : (WhoAmI.new address).contents.payload.length =
        (PendingRead.payload (headerOf (WhoAmI.new address))).size :=
      (headerOf_payload fits).symm
    refine ⟨_, receive_acts pending ahead (payload_step pending size run), ?_⟩
    rw [left_payload none pending, left_one]
    rw [(handleMessage_effect run).handled]
    simp [received, none]

/-- The WhoAmIAck is taken in one. -/
theorem whoAmIAck_progress (around : Surroundings) (one : (s p).handled.length = 1)
    (front : (s p.peer).written[1]? = some (Message.new .whoAmIAck))
    (zeros : (s p).heap = constantHeap 0) {first : PendingRead} {reads : List PendingRead}
    (pending : (s p).pendingReads = first :: reads)
    (placed : Placed (s p.peer).written 1 (first :: reads) (taken (s p))) :
    ∃ d, streamAct s p around .receive = some d ∧ piecesLeft d + 1 = piecesLeft (s p) := by
  cases first with
  | header =>
    have ahead := header_ahead placed front
    have frame : (headerOf (Message.new .whoAmIAck)).byteRepr = whoAmIAckFrame :=
      (List.append_nil _).symm
    rw [frame] at ahead
    obtain ⟨d, go, handled⟩ := whoAmIAck_read around pending zeros
    refine ⟨d, receive_acts pending ahead go, ?_⟩
    rw [left_one one, left_zero.mpr]
    rw [handled, List.length_append, one]
    exact Nat.le_refl 2
  | payload header => exact absurd rfl (payload_ahead placed front).2.2.1

theorem node_progress (around : Surroundings) (linked : Linked env s u)
    (waiting : (u p).currentStatus ≠ .Ack) (flying : inFlight u p ≠ []) :
    ∃ action d, (action = .receive ∨ action = .writeDone) ∧
      streamAct s p around action = some d ∧ piecesLeft d + 1 = piecesLeft (s p) := by
  obtain ⟨m, rest, flight⟩ := List.exists_cons_of_ne_nil flying
  have front := flight_front flight
  have written := (linked.paired.fitted p.peer).written
  have announced := (linked.fresh p.peer).announced
  have early : (u p).handled.length < 2 :=
    Nat.lt_of_not_le fun two => waiting ((ack_iff_two linked.paired p).mpr two)
  have zeros := (field_same Connection.heap (fun _ _ _ => rfl) linked p).trans (linked.zeros p)
  have placed := (linked_shadows linked).placed p
  rw [← written_same linked, ← handled_same linked] at front
  rw [← handled_same linked] at early
  rw [← written_same linked] at written announced
  cases pending : (s p).pendingReads with
  | nil =>
    obtain ⟨d, acted, less⟩ := write_progress around linked pending
    exact ⟨.writeDone, d, Or.inr rfl, acted, less⟩
  | cons first reads =>
    rw [pending] at placed
    refine ⟨.receive, ?_⟩
    by_cases few : (s p).handled.length = 0
    · rw [few] at front placed
      obtain ⟨address, rfl⟩ := scripted_first written announced front
      obtain ⟨d, acted, less⟩ := whoAmI_progress around linked
        (List.eq_nil_of_length_eq_zero few) front zeros pending placed
      exact ⟨d, Or.inl rfl, acted, less⟩
    · have one : (s p).handled.length = 1 := by omega
      rw [one] at front placed
      obtain rfl := scripted_second written announced front
      obtain ⟨d, acted, less⟩ := whoAmIAck_progress around one front zeros pending placed
      exact ⟨d, Or.inl rfl, acted, less⟩

theorem nothing_left_iff (linked : Linked env s u) :
    streamLeft s = 0 ↔ ∀ p, (s p).currentStatus = .Ack := by
  have done : ∀ p, piecesLeft (s p) = 0 ↔ (s p).currentStatus = .Ack := by
    intro p
    rw [field_same Connection.currentStatus (fun _ _ _ => rfl) linked,
      ack_iff_two linked.paired, ← handled_same linked, ← left_zero]
  rw [streamLeft, Nat.add_eq_zero_iff, done, done]
  constructor
  · intro both p
    cases p with
    | opener => exact both.1
    | accepter => exact both.2
  · intro all
    exact ⟨all .opener, all .accepter⟩

/-- While one node is not in Ack, some completion takes one off. -/
theorem stream_progress (around : Surroundings) (linked : Linked env s u)
    (more : streamLeft s ≠ 0) : ∃ move t, Completion around move ∧ Orderly s move ∧
      streamStep s move = some t ∧ streamLeft t + 1 = streamLeft s := by
  have unfinished : ∃ p, (u p).currentStatus ≠ .Ack := by
    by_contra all
    refine more ((nothing_left_iff linked).mpr fun p => ?_)
    rw [field_same Connection.currentStatus (fun _ _ _ => rfl) linked]
    exact not_not.mp fun waiting => all ⟨p, waiting⟩
  obtain ⟨p, waiting, flying⟩ := waiting_flight linked.paired unfinished
  obtain ⟨action, d, kind, acted, less⟩ := node_progress around linked waiting flying
  have go : streamStep s (p, around, action) = some (Function.update s p d) := by
    simp only [streamStep, acted, Option.map_some]
  have orderly : Orderly s (p, around, action) := by
    rcases kind with rfl | rfl
    · refine Or.inl ?_
      rw [handled_same linked]
      exact Nat.lt_of_not_le fun two => waiting ((ack_iff_two linked.paired p).mpr two)
    · trivial
  refine ⟨_, _, ⟨rfl, kind⟩, orderly, go, ?_⟩
  cases p <;> simp [streamLeft] <;> omega

end Steps

theorem streamed_handshake_never_stuck {env : Surroundings} {early : Party → List AppMessage}
    {moves : List (Party × Surroundings × Action)} {t : Nodes}
    (run : play streamStep (connected env (fun _ => constantHeap 0) early) moves = some t)
    (orderly : EachStep streamStep Orderly (connected env (fun _ => constantHeap 0) early) moves)
    (around : Surroundings) : ∃ completions v, (∀ move ∈ completions, Completion around move) ∧
      completions.length = streamLeft t ∧ play streamStep t completions = some v ∧
        ∀ p, (v p).currentStatus = .Ack := by
  obtain ⟨_, u, _, _, linked⟩ := streams_linked run orderly
  have progress : ∀ s, (∃ u, Linked env s u) → streamLeft s ≠ 0 → ∃ move t,
      Completion around move ∧ streamStep s move = some t ∧ (∃ v, Linked env t v) ∧
        streamLeft t + 1 = streamLeft s := by
    intro s linked more
    obtain ⟨u, linked⟩ := linked
    obtain ⟨move, t, kind, orderly, go, less⟩ := stream_progress around linked more
    obtain ⟨_, v, _, _, kept⟩ := stream_simulated linked orderly go
    exact ⟨move, t, kind, go, ⟨v, kept⟩, less⟩
  obtain ⟨completions, v, kinds, count, finish, ⟨w, kept⟩, done⟩ :=
    play_uses_up (fun s => ∃ u, Linked env s u) streamLeft (Completion around) progress t ⟨u, linked⟩
  exact ⟨completions, v, kinds, count, finish, (nothing_left_iff kept).mp done⟩

/-- Once the accepter has read the WhoAmI, five completions are left. -/
theorem two_reads_complete : ∃ t, play streamStep (connected offline (fun _ => constantHeap 0)
    fun _ => []) twoReads = some t ∧ streamLeft t = 5 ∧ ∃ completions v,
    (∀ move ∈ completions, Completion offline move) ∧ completions.length = streamLeft t ∧
      play streamStep t completions = some v ∧ ∀ p, (v p).currentStatus = .Ack := by
  obtain ⟨t, run, orderly, one, same⟩ := twoReads_streamed
  refine ⟨t, run, ?_, streamed_handshake_never_stuck run orderly offline⟩
  rw [streamLeft, same, left_idle rfl rfl, left_one (congrArg List.length one)]

end EnsicoinStreamedProgress
