import Ensicoin.ConnectionRuns

/-!
When a Connection becomes Ack. WhoAmI and WhoAmIAck turn the status alike, so the
second handshake message makes it Ack whatever the two were. A run is safe when
the first two were a WhoAmI and a WhoAmIAck, in this order.
-/
namespace EnsicoinHandshake
open EnsicoinRuntime EnsicoinMessages EnsicoinConnection EnsicoinConnectionRuns StepRuns

def HandshakeDone (types : List MessageType) : Prop :=
  List.Sublist [.whoami, .whoamiack] types

/-- The status is Ack, or a message that waits for Ack was sent. -/
def Acknowledged (c : Connection) : Prop :=
  c.currentStatus = .Ack ∨ ∃ m ∈ c.written, handshakeType m.getType = false

def Secure (c : Connection) : Prop := Acknowledged c → HandshakeDone c.handled

/-- Of two handshake messages or more, the first is a WhoAmI and the second a WhoAmIAck. -/
def HandshakeOrdered (types : List MessageType) : Prop :=
  ∀ first second rest, types.filter handshakeType = first :: second :: rest →
    first = .whoami ∧ second = .whoamiack

theorem moves_advance {c d : Connection} {event : Event} (moves : Moves c event d) :
    ∃ types, types.length ≤ 1 ∧ d.handled = c.handled ++ types ∧
      d.currentStatus = nextStatus^[turns types] c.currentStatus ∧
      (WritesInAck c → WritesInAck d) := by
  cases moves with
  | sent rest => exact ⟨[], by simp, rest.handled, rest.status, rest.writes⟩
  | wrote rest => exact ⟨[], by simp, rest.handled, rest.status, rest.writes⟩
  | announced _ _ _ _ rest => exact ⟨[], by simp, rest.handled, rest.status, rest.writes⟩
  | bare _ _ _ rest => exact ⟨[_], by simp, rest.handled, rest.status, rest.writes⟩
  | filled _ _ rest => exact ⟨[_], by simp, rest.handled, rest.status, rest.writes⟩

theorem turns_append (types types' : List MessageType) :
    turns (types ++ types') = turns types + turns types' := by
  simp [turns]

/-- The status is as many turns from the first one as there were handshake messages. -/
def Counted (start : Status) (c : Connection) : Prop :=
  c.currentStatus = nextStatus^[turns c.handled] start ∧ WritesInAck c

theorem moves_counted {start : Status} {c d : Connection} {event : Event}
    (moves : Moves c event d) (counted : Counted start c) : Counted start d := by
  obtain ⟨types, _, handled, status, writes⟩ := moves_advance moves
  refine ⟨?_, writes counted.2⟩
  rw [status, counted.1, handled, turns_append, Nat.add_comm, Function.iterate_add_apply]

theorem opening_counted (opening : Opening) (heap : Heap) :
    Counted (openingStatus opening) (opening.connection heap) := by
  have begun := opening_effect opening heap
  refine ⟨?_, begun.writes (by intro m member; cases member)⟩
  rw [begun.status, begun.handled]
  rfl

theorem two_turns_ack (opening : Opening) (n : Nat) :
    nextStatus^[n] (openingStatus opening) = .Ack ↔ 2 ≤ n := by
  match n with
  | 0 => cases opening <;> simp [openingStatus]
  | 1 => cases opening <;> simp [openingStatus, nextStatus]
  | n + 2 =>
    have ends : nextStatus (nextStatus (openingStatus opening)) = .Ack := by cases opening <;> rfl
    have stays : nextStatus .Ack = .Ack := rfl
    simp [ends, Function.iterate_fixed stays n]

variable {opening : Opening} {heap : Heap} {events : List (Surroundings × Event)} {t : Connection}

theorem run_counted (run : play Connection.step (opening.connection heap) events = some t) :
    Counted (openingStatus opening) t :=
  play_history (fun _ c => Counted (openingStatus opening) c) (opening_counted opening heap)
    (fun _ _ _ _ counted go => moves_counted (step_moves go) counted) events t run

/-- Two handshake messages, of whatever kind, make a connection acknowledged. -/
theorem acknowledged_iff_two
    (run : play Connection.step (opening.connection heap) events = some t) :
    Acknowledged t ↔ 2 ≤ turns t.handled := by
  obtain ⟨status, writes⟩ := run_counted run
  rw [← two_turns_ack opening, ← status]
  constructor
  · rintro (ack | ⟨m, member, other⟩)
    · exact ack
    · exact writes m member other
  · exact Or.inl

theorem handled_grows {u : Connection} {later : List (Surroundings × Event)}
    (run : play Connection.step u later = some t) : u.handled <+: t.handled := by
  refine play_history (fun _ c => u.handled <+: c.handled) (List.prefix_refl _) ?_ later t run
  intro _ c _ d grown go
  obtain ⟨types, _, handled, _⟩ := moves_advance (step_moves go)
  exact grown.trans ⟨types, handled.symm⟩

theorem step_turns {c d : Connection} {move : Surroundings × Event} (go : c.step move = some d) :
    turns d.handled ≤ turns c.handled + 1 := by
  obtain ⟨types, few, handled, _⟩ := moves_advance (step_moves go)
  have kept := List.length_filter_le handshakeType types
  rw [handled, turns_append]
  simp only [turns] at kept ⊢
  omega

theorem secure_iff_ordered (run : play Connection.step (opening.connection heap) events = some t) :
    Throughout Connection.step Secure (opening.connection heap) events ↔
      HandshakeOrdered t.handled := by
  constructor
  · intro safe first second rest shape
    have start : turns (opening.connection heap).handled ≤ 2 := by
      rw [(opening_effect opening heap).handled]
      simp [turns, blank, Connection.new]
    -- the state just after the second handshake message
    obtain ⟨before, u, early, reached, two⟩ := play_crosses (fun c => turns c.handled)
      (fun c move d => step_turns) run start (k := 2) (by simp [turns, shape])
    have done := safe before u early reached ((acknowledged_iff_two reached).mpr (by omega))
    obtain ⟨after, rfl⟩ := early
    obtain ⟨v, reached', later⟩ := play_split run
    obtain rfl : v = u := Option.some.inj (reached'.symm.trans reached)
    have taken : v.handled.filter handshakeType = [first, second] := by
      have front := List.prefix_iff_eq_take.mp ((handled_grows later).filter handshakeType)
      rw [show (v.handled.filter handshakeType).length = 2 from two, shape] at front
      exact front
    have whole := (done.filter handshakeType).eq_of_length (by rw [taken]; rfl)
    rw [taken] at whole
    injection whole with isFirst tail
    injection tail with isSecond _
    exact ⟨isFirst.symm, isSecond.symm⟩
  · rintro ordered before u ⟨after, rfl⟩ reached acknowledged
    obtain ⟨v, reached', later⟩ := play_split run
    obtain rfl : v = u := Option.some.inj (reached'.symm.trans reached)
    have two := (acknowledged_iff_two reached).mp acknowledged
    match shape : v.handled.filter handshakeType with
    | [] => simp [turns, shape] at two
    | [_] => simp [turns, shape] at two
    | first :: second :: rest =>
      obtain ⟨more, grown⟩ := (handled_grows later).filter handshakeType
      rw [shape] at grown
      obtain ⟨rfl, rfl⟩ := ordered first second (rest ++ more) grown.symm
      have inside : List.Sublist [.whoami, .whoamiack] (v.handled.filter handshakeType) := by
        rw [shape]
        simp
      exact inside.trans List.filter_sublist

theorem single_ack_secure : Throughout Connection.step Secure
    (Opening.accepted.connection (constantHeap 0)) [(offline, .readDone whoAmIAckFrame)] := by
  have run : play Connection.step (Opening.accepted.connection (constantHeap 0))
      [(offline, .readDone whoAmIAckFrame)] = some _ :=
    Option.bind_eq_some_iff.mpr ⟨_, whoAmIAck_step offline rfl rfl, rfl⟩
  refine (secure_iff_ordered run).mpr ?_
  intro first second rest two
  have short : [MessageType.whoamiack] = first :: second :: rest := two
  cases short

/-- A peer that says nothing but WhoAmIAck is acknowledged by its second one. -/
theorem acks_alone_acknowledge : ∃ t, play Connection.step
    (Opening.accepted.connection (constantHeap 0))
    [(offline, .readDone whoAmIAckFrame), (offline, .readDone whoAmIAckFrame)] = some t ∧
    ¬ Secure t := by
  refine ⟨_, Option.bind_eq_some_iff.mpr ⟨_, whoAmIAck_step offline rfl rfl,
    Option.bind_eq_some_iff.mpr ⟨_, whoAmIAck_step offline rfl rfl, rfl⟩⟩, ?_⟩
  intro secure
  have done : HandshakeDone [.whoamiack, .whoamiack] := secure (Or.inl rfl)
  unfold HandshakeDone at done
  revert done
  decide

end EnsicoinHandshake
