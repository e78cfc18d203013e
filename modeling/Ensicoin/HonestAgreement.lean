import Ensicoin.HonestProgress
import Ensicoin.ConnectionStanding

/-!
What two nodes agree on. The first message that a node handles is the WhoAmI of the other one
and the second its WhoAmIAck, so two turns settle the label, the version and the one call of
registerConnection on both sides, and no message after them changes anything.
-/
namespace EnsicoinHonestAgreement
open EnsicoinRuntime EnsicoinNetworkable EnsicoinMessages EnsicoinConnection
open EnsicoinConnectionRuns EnsicoinWrittenMessages EnsicoinConnectionStanding
open EnsicoinHonestHandshake EnsicoinHonestProgress StepRuns

def started (opening : Opening) : Standing :=
  ⟨openingStatus opening, Int32.ofNat VERSION, .peer, []⟩

/-- The standing of a node that has handled so many messages of the other one. -/
def expected (opening : Opening) : Nat → Standing
  | 0 => started opening
  | 1 => (started opening).turn (UInt32.ofNat VERSION).toInt32 .nodepeer
  | _ => ((started opening).turn (UInt32.ofNat VERSION).toInt32 .nodepeer).turn 0 .peer

/-- Each knows the other one as a node from its first message on, and files it in Ack. -/
structure Agreed (s : Nodes) : Prop where
  version : ∀ p, (s p).versionUsed = 0
  label : ∀ p, (s p).peerType = if (s p).handled = [] then .peer else .nodepeer
  filed : ∀ p, (s p).registrations = if (s p).currentStatus = .Ack then [.nodepeer] else []

def Expected (env : Surroundings) (s : Nodes) : Prop :=
  ∀ p, standing (s p) = expected (p.opening env) (s p).handled.length

section Steps
variable {env around : Surroundings} {s t : Nodes}

theorem expected_late (opening : Opening) {n : Nat} (late : 2 ≤ n) :
    expected opening n = expected opening (n + 1) := by
  match n with
  | 0 | 1 => omega
  | n + 2 => rfl

/-- The three kinds of messages that a node can be given. -/
theorem received_standing {p : Party} {m : Message} {rest : List Message} {d : Connection}
    (paired : Paired env s) (fresh : ∀ p, Fresh (s p)) (met : Expected env s)
    (flight : inFlight s p = m :: rest)
    (run : (s p).handleMessage around (headerOf m) m.contents.payload = .ok d) :
    standing d = expected (p.opening env) ((s p).handled.length + 1) := by
  have front := flight_front flight
  have here := met p
  have place := received_place paired flight
  obtain ⟨e, handling, rfl⟩ := handleMessage_ok run
  rw [headerOf_type] at handling
  rw [idle_standing]
  have turns := messageHandler_turns handling
  match count : (s p).handled.length with
  | 0 =>
    rw [count] at front
    obtain ⟨address, rfl⟩ :=
      scripted_first (paired.fitted p.peer).written (fresh p.peer).announced front
    have zeros := (fresh p).memory (List.eq_nil_of_length_eq_zero count)
    have read := whoAmI_handled around (UInt32.ofNat VERSION) address zeros
    have same := Except.ok.inj (run.symm.trans read)
    have standings := congrArg standing same
    rw [idle_standing, idle_standing, updateStatus_standing] at standings
    rw [standings]
    rw [count] at here
    exact congrArg (fun before : Standing =>
      before.turn (UInt32.ofNat VERSION).toInt32 .nodepeer) here
  | 1 =>
    rw [count] at front
    obtain rfl := scripted_second (paired.fitted p.peer).written (fresh p.peer).announced front
    cases handling
    rw [onWhoAmIAck, updateStatus_standing]
    rw [count] at here
    exact congrArg (fun before : Standing => before.turn 0 .peer) here
  | n + 2 =>
    have other : handshakeType m.getType = false := by
      rw [place, count]
      exact decide_eq_false (by omega)
    rw [count] at here
    generalize m.getType = type at turns other
    cases turns with
    | kept _ same => exact same.trans (here.trans (expected_late _ (by omega)))
    | whoAmI | whoAmIAck => cases other

theorem act_expected {p : Party} {action : Action} {d : Connection} (paired : Paired env s)
    (fresh : ∀ p, Fresh (s p)) (met : Expected env s)
    (go : act s p around action = some d) :
    standing d = expected (p.opening env) d.handled.length := by
  cases action with
  | sendMessage m =>
    cases go
    rw [sendMessage_standing, (sendMessage_effect (s p) m.1).handled, List.append_nil]
    exact met p
  | writeDone =>
    have moved : (s p).step (around, .writeDone) = some d := go
    cases step_taken moved with
    | wrote writes =>
      rw [idle_standing, (idle_effect _).handled, List.append_nil]
      exact met p
  | receive =>
    simp only [act] at go
    split at go
    · cases go
    · rename_i m rest flight
      have run := toOption_some go
      rw [(handleMessage_effect run).handled, List.length_append]
      exact received_standing paired fresh met flight run

theorem step_expected {move : Party × Surroundings × Action} (paired : Paired env s)
    (fresh : ∀ p, Fresh (s p)) (met : Expected env s) (go : step s move = some t) :
    Expected env t := by
  obtain ⟨p, around, action⟩ := move
  obtain ⟨d, acted, rfl⟩ := Option.map_eq_some_iff.mp go
  have next := act_expected paired fresh met acted
  intro q
  by_cases same : q = p
  · subst same
    simpa using next
  · simpa [Function.update_of_ne same] using met q

theorem connected_expected (env : Surroundings) (early : Party → List AppMessage) :
    Expected env (connected env (fun _ => constantHeap 0) early) := by
  intro p
  have sent := sendAll_standing ((early p).map Subtype.val) (Connection.new (constantHeap 0))
  have none := opened_handled (p.opening env) (constantHeap 0) ((early p).map Subtype.val)
  rw [connected, none, openedAfter]
  cases p with
  | accepter => exact (idle_standing _).trans sent
  | opener =>
    refine (sendMessage_standing _ _).trans ?_
    rw [status_standing, sent]
    rfl

theorem expected_agreed (met : Expected env s) : Agreed s := by
  have fields : ∀ (p : Party) n, (expected (p.opening env) n).versionUsed = 0 ∧
      (expected (p.opening env) n).peerType = (if n = 0 then .peer else .nodepeer) ∧
      (expected (p.opening env) n).registrations =
        if (expected (p.opening env) n).status = .Ack then [.nodepeer] else [] := by
    intro p n
    match n with
    | 0 | 1 | n + 2 => cases p <;> exact ⟨rfl, rfl, rfl⟩
  refine ⟨?_, ?_, ?_⟩
  · intro p
    exact (congrArg Standing.versionUsed (met p)).trans (fields p _).1
  · intro p
    have label : (s p).peerType = _ :=
      (congrArg Standing.peerType (met p)).trans (fields p _).2.1
    simpa only [List.length_eq_zero_iff] using label
  · intro p
    have filed := (congrArg Standing.registrations (met p)).trans (fields p _).2.2
    rw [← met p] at filed
    exact filed

end Steps

theorem run_expected {env : Surroundings} {early : Party → List AppMessage}
    {moves : List (Party × Surroundings × Action)} {t : Nodes}
    (run : play step (connected env (fun _ => constantHeap 0) early) moves = some t) :
    Expected env t := by
  have kept : Paired env t ∧ (∀ p, Fresh (t p)) ∧ Expected env t := by
    refine play_history (fun _ s => Paired env s ∧ (∀ p, Fresh (s p)) ∧ Expected env s)
      ?_ ?_ moves t run
    · exact ⟨connected_paired env _ early, connected_fresh env early,
        connected_expected env early⟩
    · intro before s move u ⟨paired, fresh, met⟩ go
      exact ⟨step_paired paired go, step_fresh paired fresh go,
        step_expected paired fresh met go⟩
  exact kept.2.2

theorem handshake_agrees {env : Surroundings} {early : Party → List AppMessage}
    {moves : List (Party × Surroundings × Action)} {t : Nodes}
    (run : play step (connected env (fun _ => constantHeap 0) early) moves = some t) :
    Agreed t := expected_agreed (run_expected run)

theorem first_delivery_agreed : ∃ t, play step (connected offline (fun _ => constantHeap 0)
    fun _ => []) [(.accepter, offline, .receive)] = some t ∧ Agreed t ∧
    (t .accepter).peerType = .nodepeer ∧ (t .opener).peerType = .peer := by
  have run : play step (connected offline (fun _ => constantHeap 0) fun _ => [])
      [(.accepter, offline, .receive)] = some _ :=
    Option.bind_eq_some_iff.mpr ⟨_, receive_whoAmI rfl rfl, rfl⟩
  exact ⟨_, run, handshake_agrees run, rfl, rfl⟩

end EnsicoinHonestAgreement
