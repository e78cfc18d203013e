import Ensicoin.ConnectionRuns

/-!
What the reads of a Connection do to the stream of frames. A handled message
starts the read of the next header, and so does every completed write: from the
second chain of reads on, two of them compete for the same bytes.
-/
namespace EnsicoinFraming
open BigEndianWords EnsicoinRuntime EnsicoinNetworkable EnsicoinMessages EnsicoinConnection
open EnsicoinConnectionRuns StepRuns

def announces (data : Bytes) : Option Nat :=
  if ofBytes (data.drop 16) = 0 then none else some (ofBytes (data.drop 16))

/-- The stream cut into frames: a header of 24 bytes, and after one that announces a
    payload exactly that many bytes. The state is the payload still to come. -/
def frameStep : Option Nat → PendingRead × Bytes → Option (Option Nat)
  | none, (.header, data) =>
    if data.length = MessageHeader.size then some (announces data) else none
  | some size, (.payload _, data) => if data.length = size then some none else none
  | _, _ => none

def Framed (served : List (PendingRead × Bytes)) : Prop :=
  ∃ payload, play frameStep none served = some payload

/-- One read at a time, and handlers that see whole frames. -/
def SingleReader (c : Connection) : Prop := c.pendingReads.length ≤ 1 ∧ Framed c.served

def isWriteDone : Event → Bool
  | .writeDone => true
  | _ => false

def completedWrites (events : List (Surroundings × Event)) : Nat :=
  events.countP fun move => isWriteDone move.2

/-- The completed writes that keep a single reader. -/
def spareReads : Opening → Nat
  | .bound _ => 1
  | .accepted => 0

theorem completedWrites_concat (events : List (Surroundings × Event)) (env : Surroundings)
    (event : Event) : completedWrites (events ++ [(env, event)]) =
      completedWrites events + if isWriteDone event then 1 else 0 := by
  rw [completedWrites, List.countP_append, List.countP_singleton]
  rfl

/-- A read that completes starts one other; a write that completes starts one more. -/
theorem moves_reads {c d : Connection} {event : Event} (moves : Moves c event d) :
    d.pendingReads.length = c.pendingReads.length + if isWriteDone event then 1 else 0 := by
  cases moves with
  | sent rest => simp [rest.pendingReads, isWriteDone]
  | wrote rest => simp [rest.pendingReads, isWriteDone]
  | announced first _ _ _ rest => simp [rest.pendingReads, first, received, isWriteDone]
  | bare first _ _ rest => simp [rest.pendingReads, first, received, isWriteDone]
  | filled first _ rest => simp [rest.pendingReads, first, received, isWriteDone]

variable {opening : Opening} {heap : Heap} {events : List (Surroundings × Event)} {t : Connection}

theorem run_reads (run : play Connection.step (opening.connection heap) events = some t) :
    t.pendingReads.length = (openingReads opening).length + completedWrites events := by
  refine play_history (fun before c => c.pendingReads.length =
    (openingReads opening).length + completedWrites before) ?_ ?_ events t run
  · rw [(opening_effect opening heap).pendingReads]
    simp [blank, Connection.new, completedWrites]
  · intro before c move d count go
    rw [moves_reads (step_moves go), count, completedWrites_concat, Nat.add_assoc]

def Awaits : Option Nat → List PendingRead → Prop
  | none, reads => ∀ read ∈ reads, read = .header
  | some size, reads => ∃ header : MessageHeader,
    reads = [.payload header] ∧ header.payloadLength.toNat = size

def InStep (c : Connection) : Prop :=
  ∃ payload, play frameStep none c.served = some payload ∧ Awaits payload c.pendingReads

theorem alone {c : Connection} {first : PendingRead} {reads : List PendingRead}
    (single : c.pendingReads.length ≤ 1) (pending : c.pendingReads = first :: reads) :
    reads = [] := by
  rw [pending] at single
  exact List.eq_nil_of_length_eq_zero (by simpa using single)

theorem served_one_more {c : Connection} {payload next : Option Nat} {first : PendingRead}
    {data : Bytes} (framed : play frameStep none c.served = some payload)
    (taken : frameStep payload (first, data) = some next) (reads : List PendingRead) :
    play frameStep none (received c first reads data).served = some next :=
  (play_concat _ _ _ _ _).mpr ⟨payload, framed, taken⟩

theorem header_awaited {payload : Option Nat} {reads : List PendingRead}
    (awaits : Awaits payload (.header :: reads)) : payload = none := by
  cases payload with
  | none => rfl
  | some size =>
    obtain ⟨header, shape, _⟩ := awaits
    cases shape

theorem payload_awaited {payload : Option Nat} {header : MessageHeader} {reads : List PendingRead}
    (awaits : Awaits payload (.payload header :: reads)) :
    payload = some header.payloadLength.toNat := by
  cases payload with
  | none => cases awaits _ List.mem_cons_self
  | some size =>
    obtain ⟨awaited, shape, length⟩ := awaits
    cases shape
    rw [length]

theorem next_header_awaited {c d : Connection} {types : List MessageType} {turns : Nat}
    (rest : Effect c d [.header] types turns) (idle : c.pendingReads = []) :
    Awaits none d.pendingReads := by
  rw [rest.pendingReads, idle]
  intro read member
  exact List.mem_singleton.mp member

theorem moves_inStep {c d : Connection} {event : Event} (moves : Moves c event d)
    (before : c.pendingReads.length ≤ 1) (after : d.pendingReads.length ≤ 1) (inStep : InStep c) :
    InStep d := by
  obtain ⟨payload, framed, awaits⟩ := inStep
  have started := moves_reads moves
  cases moves with
  | sent rest =>
    refine ⟨payload, by rw [rest.served, framed], ?_⟩
    rw [rest.pendingReads, List.append_nil]
    exact awaits
  | wrote rest =>
    have idle : c.pendingReads = [] := by
      apply List.eq_nil_of_length_eq_zero
      simp only [isWriteDone, ↓reduceIte] at started
      omega
    cases payload with
    | none => exact ⟨none, by rw [rest.served, framed], next_header_awaited rest idle⟩
    | some size =>
      obtain ⟨header, shape, _⟩ := awaits
      rw [idle] at shape
      cases shape
  | @announced data _ header _ first size length more rest =>
    obtain rfl := alone before first
    obtain rfl := header_awaited (first ▸ awaits)
    refine ⟨some (ofBytes (data.drop 16)), ?_, header, rest.pendingReads, length⟩
    rw [rest.served]
    exact served_one_more framed (by simp only [frameStep, if_pos size, announces, if_neg more]) []
  | bare first size zero rest =>
    obtain rfl := alone before first
    obtain rfl := header_awaited (first ▸ awaits)
    refine ⟨none, ?_, next_header_awaited rest rfl⟩
    rw [rest.served]
    exact served_one_more framed (by simp only [frameStep, if_pos size, announces, if_pos zero]) []
  | filled first size rest =>
    obtain rfl := alone before first
    obtain rfl := payload_awaited (first ▸ awaits)
    refine ⟨none, ?_, next_header_awaited rest rfl⟩
    rw [rest.served]
    exact served_one_more framed (by simp only [frameStep, if_pos size]) []

theorem single_iff_few (run : play Connection.step (opening.connection heap) events = some t) :
    t.pendingReads.length ≤ 1 ↔ completedWrites events ≤ spareReads opening := by
  rw [run_reads run]
  cases opening <;> simp only [openingReads, spareReads, List.length_nil, List.length_singleton] <;>
    omega

/-- As long as no write starts a second chain of reads, the handlers are in step. -/
theorem run_inStep (run : play Connection.step (opening.connection heap) events = some t)
    (few : completedWrites events ≤ spareReads opening) : InStep t := by
  induction events using List.reverseRecOn generalizing t with
  | nil =>
    cases run
    have begun := opening_effect opening heap
    refine ⟨none, by rw [begun.served]; rfl, ?_⟩
    rw [begun.pendingReads]
    cases opening <;> simp [Awaits, openingReads, blank, Connection.new]
  | append_singleton before move ih =>
    obtain ⟨c, reached, go⟩ := (play_concat _ _ _ _ _).mp run
    have fewer : completedWrites before ≤ spareReads opening := by
      rw [completedWrites_concat] at few
      omega
    exact moves_inStep (step_moves go) ((single_iff_few reached).mpr fewer)
      ((single_iff_few run).mpr few) (ih reached fewer)

theorem completedWrites_earlier {before : List (Surroundings × Event)} (early : before <+: events) :
    completedWrites before ≤ completedWrites events :=
  early.sublist.countP_le

theorem single_reader_iff_few_writes
    (run : play Connection.step (opening.connection heap) events = some t) :
    Throughout Connection.step SingleReader (opening.connection heap) events ↔
      completedWrites events ≤ spareReads opening := by
  constructor
  · intro always
    exact (single_iff_few run).mp (always events t (List.prefix_refl _) run).1
  · intro few before u early reached
    have fewer := (completedWrites_earlier early).trans few
    obtain ⟨payload, framed, _⟩ := run_inStep reached fewer
    exact ⟨(single_iff_few reached).mpr fewer, payload, framed⟩

/-- A bound connection whose WhoAmI goes out has its one reader. -/
theorem first_write_single_reader : Throughout Connection.step SingleReader
    ((Opening.bound offline).connection (constantHeap 0)) [(offline, .writeDone)] :=
  (single_reader_iff_few_writes rfl).mpr (by decide)

/-- An accepted connection answers a WhoAmIAck with two messages: the first of them to
    go out starts a second read of a header. -/
theorem answered_ack_competing_reads : ∃ t, play Connection.step
    (Opening.accepted.connection (constantHeap 0))
    [(offline, .readDone whoAmIAckFrame), (offline, .writeDone)] = some t ∧
    t.pendingReads = [.header, .header] ∧ ¬ SingleReader t := by
  refine ⟨_, Option.bind_eq_some_iff.mpr ⟨_, whoAmIAck_step offline rfl rfl, rfl⟩, rfl, ?_⟩
  intro single
  exact absurd single.1 (by decide)

end EnsicoinFraming
