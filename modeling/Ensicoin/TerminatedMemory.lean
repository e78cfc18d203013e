import Ensicoin.Library.DefinedRuns
import Ensicoin.ConnectionRuns
import Ensicoin.MessageWire
import Ensicoin.StringReads

/-!
Memory that ends the strings. If every array holds a zero behind the strings of a fixed size
and at its end, no decoder leaves the defined results on less than 4096 bytes, and so no run
of a Connection with frames below that limit does, also where reads are cut short.
-/
namespace EnsicoinTerminatedMemory
open EnsicoinRuntime EnsicoinNetworkBuffer EnsicoinNetworkable EnsicoinScript EnsicoinTransaction
open EnsicoinBlocks EnsicoinMessages EnsicoinConnection EnsicoinConnectionRuns EnsicoinMessageWire
open EnsicoinStringReads DefinedRuns StepRuns
variable {α : Type}

/-- The sizes of a message type, an address and a hash, and of the longest string. -/
def limits : List Nat := [12, 16, HASH_LENGTH, bufferSize - 1]

def Terminated (heap : Heap) : Prop := ∀ n, ∀ size ∈ limits, heap n size = 0

structure Ready (s : ReadState) : Prop where
  terminated : Terminated s.heap
  short : s.buffer.unread.length < bufferSize

theorem terminated_shift {heap : Heap} (terminated : Terminated heap) (k : Nat) :
    Terminated fun n => heap (n + k) :=
  fun n => terminated (n + k)

section Streams

theorem read_fewer (s : StringStream) (count : Nat) :
    (s.read count).1.length ≤ count ∧ (s.read count).1.length ≤ s.unread.length ∧
      (s.read count).2.unread.length ≤ s.unread.length := by
  unfold StringStream.read
  split
  · simp
  · split
    · rename_i enough
      simp [enough]
    · rename_i scarce
      simp only [List.length_nil, Nat.zero_le, and_true, Nat.le_refl]
      omega

theorem extract_fewer (s : StringStream) : s.extract.2.unread.length ≤ s.unread.length := by
  unfold StringStream.extract
  split
  · exact Nat.le_refl _
  · have skipped := (List.dropWhile_suffix (l := s.unread) isSpace).length_le
    split
    · exact Nat.zero_le _
    · rename_i rest found
      rw [found, List.length_cons] at skipped
      exact Nat.le_of_succ_le skipped

/-- A zero at a place of the array ends its string there, or before. -/
theorem cString_ends {array : Bytes} {n : Nat} (zero : array[n]? = some 0) :
    ∃ v, cString array = some v ∧ v.length ≤ n := by
  refine ⟨array.takeWhile (· != 0), by rw [cString, if_pos (List.mem_of_getElem? zero)], ?_⟩
  by_contra longer
  have inside : n < (array.takeWhile (· != 0)).length := Nat.lt_of_not_le longer
  have front := List.takeWhile_prefix (l := array) (· != 0)
  have bound : n < array.length := Nat.lt_of_lt_of_le inside front.length_le
  have same := List.IsPrefix.getElem front inside
  have kept := List.mem_takeWhile_imp (List.getElem_mem inside)
  have there : array[n] = 0 := (List.getElem_eq_iff _).mpr zero
  rw [same, there] at kept
  cases kept

end Streams

section Decoders

theorem read_ready (count : Nat) :
    Defined Ready (EnsicoinRuntime.read count) fun data => data.length ≤ count := by
  intro s ready
  obtain ⟨few, _, fewer⟩ := read_fewer s.buffer count
  exact ⟨_, _, rfl, few, ready.terminated, Nat.lt_of_le_of_lt fewer ready.short⟩

theorem extract_ready : Returns Ready extract := by
  intro s ready
  exact ⟨_, _, rfl, trivial, ready.terminated,
    Nat.lt_of_le_of_lt (extract_fewer s.buffer) ready.short⟩

theorem bigEndian_ready (width : Nat) : Returns Ready (readBigEndian width) := by
  refine defined_bind (read_ready width) ?_
  intro data _
  split <;> exact defined_pure _ trivial

theorem uint_ready {convert : Nat → α} (width : Nat) :
    Returns Ready (convert <$> readBigEndian width) :=
  defined_map (bigEndian_ready width) fun _ _ => trivial

theorem varUint_ready : Returns Ready readVarUint := by
  refine returns_bind extract_ready ?_
  intro start
  cases start with
  | none => exact defined_pure _ trivial
  | some binaryStart =>
    simp only
    split
    · exact defined_pure _ trivial
    · split
      · exact uint_ready 2
      · split
        · exact uint_ready 4
        · exact uint_ready 8

theorem fresh_behind {data : Bytes} (heap : Heap) {n : Nat} (behind : data.length ≤ n)
    (inside : n < bufferSize) : (overwrite data (fresh heap))[n]? = some (heap 0 n) := by
  rw [overwrite, List.getElem?_append_right behind, List.getElem?_drop, Nat.add_sub_cancel' behind,
    ← List.head?_drop, fresh_next heap inside]

/-- Bytes below the limit leave the zero at the end of the array, and the one behind them. -/
theorem string_ends {heap : Heap} (terminated : Terminated heap) {data : Bytes}
    (few : data.length < bufferSize) : ∃ v, cString (overwrite data (fresh heap)) = some v ∧
      (data.length ∈ limits → v.length ≤ data.length) := by
  have last := fresh_behind heap (Nat.le_sub_one_of_lt few) (by decide)
  rw [terminated 0 _ (by decide)] at last
  obtain ⟨v, found, _⟩ := cString_ends last
  refine ⟨v, found, ?_⟩
  intro listed
  have here := fresh_behind heap (Nat.le_refl data.length) few
  rw [terminated 0 _ listed] at here
  obtain ⟨v', found', short⟩ := cString_ends here
  rwa [Option.some.inj (found.symm.trans found')]

/-- The first chunk is cut short or the string is over, so one pass is all there is. -/
theorem readStr_ready (length : Nat) :
    Defined Ready (readStr length) fun v => length ∈ limits → v.length ≤ length := by
  intro s ready
  have few := fun count => read_fewer s.buffer count
  have less := fun count => Nat.lt_of_le_of_lt (few count).2.1 ready.short
  have pass : ∃ v buffer, LoopRun length 0 (fresh s.heap) [] s.buffer v buffer ∧
      (length ∈ limits → v.length ≤ length) ∧
        buffer.unread.length ≤ s.buffer.unread.length := by
    by_cases more : bufferSize < length - 0
    · obtain ⟨v, found, _⟩ := string_ends ready.terminated (less bufferSize)
      exact ⟨_, _, .cutChunk more found (Nat.ne_of_lt (less bufferSize)), fun _ => Nat.zero_le _,
        (few bufferSize).2.2⟩
    · by_cases full : (s.buffer.read (length - 0)).1.length = length - 0
      · obtain ⟨v, found, short⟩ := string_ends ready.terminated (less (length - 0))
        rw [full] at short
        exact ⟨_, _, .last more full found, short, (few _).2.2⟩
      · exact ⟨_, _, .cutLast more full, fun _ => Nat.zero_le _, (few _).2.2⟩
  obtain ⟨v, buffer, loop, short, fewer⟩ := pass
  refine ⟨v, ⟨buffer, fun n => s.heap (n + 1)⟩, ?_, short, ?_⟩
  · exact (readStr_run length s).mpr ⟨_, _, rfl, readLoop_iff.mpr loop, rfl⟩
  · exact ⟨terminated_shift ready.terminated 1, Nat.lt_of_le_of_lt fewer ready.short⟩

theorem ofString_ready {size : Nat} {val : Bytes} (fits : val.length ≤ size) :
    Returns Ready (FixedStr.ofString size val) := by
  intro s ready
  obtain ⟨f, run⟩ := FixedStr.ofString_fits fits s
  exact ⟨f, _, run, trivial, terminated_shift ready.terminated 1, ready.short⟩

theorem fixedStr_ready {size : Nat} (listed : size ∈ limits) :
    Returns Ready (FixedStr.ofBuffer size) :=
  defined_bind (readStr_ready size) fun _ short => ofString_ready (short listed)

theorem elements_ready {element : Decoder α} (each : Returns Ready element) (size : Nat) :
    Returns Ready (readElements element size) := by
  induction size with
  | zero => exact defined_pure _ trivial
  | succ size ih =>
    exact returns_bind each fun _ => returns_bind ih fun _ => defined_pure _ trivial

theorem array_ready {element : Decoder α} (each : Returns Ready element) :
    Returns Ready (VarArray.ofBuffer element) :=
  returns_bind varUint_ready fun size => elements_ready each size.toNat

theorem varStr_ready : Returns Ready VarStr.ofBuffer :=
  returns_bind varUint_ready fun size => returns_any (readStr_ready size.toNat)

theorem address_ready : Returns Ready Address.ofBuffer :=
  returns_bind (uint_ready 8) fun _ => returns_bind (fixedStr_ready (by decide)) fun ip =>
    returns_bind (ofString_ready ip.size_eq.le) fun _ => returns_bind (uint_ready 2) fun _ =>
      defined_pure _ trivial

theorem invVect_ready : Returns Ready InvVect.ofBuffer :=
  returns_bind (uint_ready 4) fun _ => returns_bind (returns_any (readStr_ready _)) fun _ =>
    defined_pure _ trivial

theorem header_ready : Returns Ready MessageHeader.ofBuffer :=
  returns_bind (uint_ready 4) fun _ => returns_bind (fixedStr_ready (by decide)) fun _ =>
    returns_bind (uint_ready 8) fun _ => defined_pure _ trivial

theorem script_ready : Returns Ready Script.ofBuffer :=
  returns_bind varStr_ready fun _ => defined_pure _ trivial

theorem identifier_ready : Returns Ready TransactionIdentifier.ofBuffer :=
  returns_bind (fixedStr_ready (by decide)) fun _ => returns_bind varUint_ready fun _ =>
    defined_pure _ trivial

theorem input_ready : Returns Ready InputTransaction.ofBuffer :=
  returns_bind identifier_ready fun _ => returns_bind script_ready fun _ => defined_pure _ trivial

theorem output_ready : Returns Ready OutputTransaction.ofBuffer :=
  returns_bind (uint_ready 8) fun _ => returns_bind script_ready fun _ => defined_pure _ trivial

theorem transaction_ready : Returns Ready Transaction.ofBuffer :=
  returns_bind (uint_ready 4) fun _ => returns_bind (array_ready varStr_ready) fun _ =>
    returns_bind (array_ready input_ready) fun _ => returns_bind (array_ready output_ready) fun _ =>
      defined_pure _ trivial

theorem target_ready : Returns Ready BlockTarget.ofBuffer :=
  returns_bind (uint_ready 4) fun _ => defined_pure _ trivial

theorem blockHeader_ready : Returns Ready BlockHeader.ofBuffer :=
  returns_bind (uint_ready 4) fun _ => returns_bind (array_ready varStr_ready) fun _ =>
    returns_bind (fixedStr_ready (by decide)) fun _ =>
      returns_bind (fixedStr_ready (by decide)) fun _ => returns_bind (uint_ready 8) fun _ =>
        returns_bind (uint_ready 4) fun _ => returns_bind target_ready fun _ =>
          returns_bind (uint_ready 8) fun _ => defined_pure _ trivial

theorem block_ready : Returns Ready Block.ofBuffer :=
  returns_bind blockHeader_ready fun _ => returns_bind (array_ready transaction_ready) fun _ =>
    defined_pure _ trivial

theorem whoAmI_ready : Returns Ready WhoAmI.ofBuffer :=
  returns_bind (uint_ready 4) fun _ => returns_bind address_ready fun _ =>
    returns_bind (array_ready varStr_ready) fun _ => defined_pure _ trivial

theorem listing_ready (type : MessageType) (contents : List InvVect → Contents) :
    Returns Ready (VarArray.ofBuffer InvVect.ofBuffer >>= fun data =>
      (pure ⟨type, contents data⟩ : Decoder Message)) :=
  returns_bind (array_ready invVect_ready) fun _ => defined_pure _ trivial

theorem inv_ready : Returns Ready Inv.ofBuffer := listing_ready .inv .inv

/-- The constructors of all message classes from a buffer. -/
theorem constructors_ready {contents : Contents} {dec : Decoder Message}
    (fromBuffer : Contents.fromBuffer contents = some dec) : Returns Ready dec := by
  cases contents with
  | whoAmI => cases fromBuffer; exact whoAmI_ready
  | inv => cases fromBuffer; exact inv_ready
  | getData => cases fromBuffer; exact listing_ready .getdata .getData
  | notFound => cases fromBuffer; exact listing_ready .notfound .notFound
  | addr =>
    cases fromBuffer
    exact returns_bind (array_ready address_ready) fun _ => defined_pure _ trivial
  | blockMessage =>
    cases fromBuffer
    exact returns_bind block_ready fun _ => defined_pure _ trivial
  | transactionMessage =>
    cases fromBuffer
    exact returns_bind transaction_ready fun _ => defined_pure _ trivial
  | getBlocks =>
    cases fromBuffer
    exact returns_bind (array_ready (fixedStr_ready (by decide))) fun _ =>
      returns_bind (fixedStr_ready (by decide)) fun _ => defined_pure _ trivial
  | whoAmIAck | getAddr | getMempool => cases fromBuffer

theorem fromBuffer_ready {contents : Contents} {dec : Decoder Message}
    (fromBuffer : Contents.fromBuffer contents = some dec) {s : ReadState} (ready : Ready s) :
    (∀ fault, dec.run s ≠ .error fault) ∧ ∀ m t, dec.run s = .ok (m, t) → Ready t := by
  obtain ⟨m, t, run, _, after⟩ := constructors_ready fromBuffer s ready
  rw [run]
  constructor
  · intro fault stopped
    cases stopped
  · intro m' t' same
    cases same
    exact after

/-- An Addr of which only the number of addresses arrived. -/
theorem cut_addr_ready :
    (∀ fault, Addr.ofBuffer.run ⟨⟨[0x21], false⟩, constantHeap 0⟩ ≠ .error fault) ∧
    ∀ m t, Addr.ofBuffer.run ⟨⟨[0x21], false⟩, constantHeap 0⟩ = .ok (m, t) → Ready t := by
  have fromBuffer : Contents.fromBuffer (.addr []) = some Addr.ofBuffer := rfl
  exact fromBuffer_ready fromBuffer ⟨fun _ _ _ => rfl, by decide⟩

end Decoders

section Handlers
variable {c d : Connection} {payload : Bytes}

theorem readMessage_defined (terminated : Terminated c.heap) {ofBuffer : Decoder Message}
    (ready : Returns Ready ofBuffer) (short : payload.length < bufferSize) :
    ∃ m e, c.readMessage ofBuffer payload = .ok (m, e) ∧ Terminated e.heap := by
  obtain ⟨m, st, run, _, after⟩ := ready ⟨⟨payload, false⟩, c.heap⟩ ⟨terminated, short⟩
  have reading : ofBuffer.run ⟨⟨payload, false⟩, c.heap⟩ = .ok (m, st) := run
  refine ⟨m, { c with heap := st.heap }, ?_, after.terminated⟩
  simp only [Connection.readMessage, reading]
  rfl

theorem handler_defined (env : Surroundings) (terminated : Terminated c.heap) (type : MessageType)
    (short : payload.length < bufferSize) :
    ∃ d, messageHandler env type c payload = .ok d ∧ Terminated d.heap := by
  cases type with
  | whoami =>
    obtain ⟨m, e, reading, after⟩ := readMessage_defined terminated whoAmI_ready short
    refine ⟨e.updateStatus env (Message.getVersion m).toInt32
      (peerTypeOf (Message.getServices m)), ?_, ?_⟩
    · simp only [messageHandler, onWhoAmI, reading]
      rfl
    · rwa [updateStatus_heap]
  | inv =>
    obtain ⟨m, e, reading, after⟩ := readMessage_defined terminated inv_ready short
    have answered : ∃ answer, onInv env c payload = .ok (e.sendMessage answer) := by
      simp only [onInv, reading]
      exact ⟨_, rfl⟩
    obtain ⟨answer, run⟩ := answered
    refine ⟨e.sendMessage answer, run, ?_⟩
    rwa [sendMessage_heap]
  | whoamiack =>
    refine ⟨_, rfl, ?_⟩
    rwa [onWhoAmIAck, updateStatus_heap]
  | _ => exact ⟨c, rfl, terminated⟩

theorem handleMessage_defined (env : Surroundings) (terminated : Terminated c.heap)
    (header : MessageHeader) (short : payload.length < bufferSize) :
    ∃ d, c.handleMessage env header payload = .ok d ∧ Terminated d.heap := by
  have kept : Terminated (noted c (getTypeFromString header.type.value)).heap := terminated
  obtain ⟨e, handling, after⟩ :=
    handler_defined env kept (getTypeFromString header.type.value) short
  refine ⟨e.idle, ?_, ?_⟩
  · change (messageHandler env _ (noted c _) payload >>= _) = _
    rw [handling]
    rfl
  · rwa [idle_heap]

end Handlers

def Limited : Event → Prop
  | .readDone data => data.length < bufferSize
  | _ => True

/-- A step in which a read may complete with any bytes, as it does when the peer is gone: the
    handlers are bound without the error. -/
def completed (c : Connection) : Surroundings × Event → Option Connection
  | (env, .readDone data) => match c.pendingReads with
    | [] => none
    | first :: reads => ((received c first reads data).handleRead env data first).toOption
  | move => c.step move

/-- A call of the Connection is waiting for this. -/
def Awaited (c : Connection) : Event → Prop
  | .sendMessage _ => True
  | .writeDone => c.pendingWrites ≠ []
  | .readDone _ => c.pendingReads ≠ []

section Runs
variable {c d : Connection} {env : Surroundings} {event : Event}

/-- The steps with whole reads are among these. -/
theorem step_completed (go : c.step (env, event) = some d) : completed c (env, event) = some d := by
  cases event with
  | sendMessage m => exact go
  | writeDone => exact go
  | readDone data =>
    simp only [Connection.step] at go
    simp only [completed]
    cases pending : c.pendingReads with
    | nil =>
      rw [pending] at go
      cases go
    | cons first reads =>
      rw [pending] at go
      simp only at go
      split at go
      · exact go
      · cases go

theorem completed_awaited (go : completed c (env, event) = some d) : Awaited c event := by
  cases event with
  | sendMessage m => trivial
  | writeDone =>
    intro none
    simp only [completed, Connection.step, none] at go
    cases go
  | readDone data =>
    intro none
    simp only [completed, none] at go
    cases go

theorem handleHeader_defined (env : Surroundings) (terminated : Terminated c.heap) {data : Bytes}
    (short : data.length < bufferSize) :
    ∃ d, c.handleHeader env data = .ok d ∧ Terminated d.heap := by
  obtain ⟨header, st, run, _, after⟩ := header_ready ⟨⟨data, false⟩, c.heap⟩ ⟨terminated, short⟩
  have reading : MessageHeader.ofBuffer.run ⟨⟨data, false⟩, c.heap⟩ = .ok (header, st) := run
  simp only [Connection.handleHeader, reading, bind, Except.bind]
  split
  · exact ⟨_, rfl, after.terminated⟩
  · have kept : Terminated { c with heap := st.heap }.heap := after.terminated
    exact handleMessage_defined env kept header (by decide)

theorem awaited_defined (env : Surroundings) (terminated : Terminated c.heap)
    (small : Limited event) (awaited : Awaited c event) :
    ∃ d, completed c (env, event) = some d ∧ Terminated d.heap := by
  cases event with
  | sendMessage m =>
    refine ⟨c.sendMessage m, rfl, ?_⟩
    rwa [sendMessage_heap]
  | writeDone =>
    obtain ⟨type, writes, pending⟩ := List.exists_cons_of_ne_nil awaited
    refine ⟨Connection.idle { c with pendingWrites := writes }, ?_, ?_⟩
    · simp only [completed, Connection.step, pending]
      rfl
    · rwa [idle_heap]
  | readDone data =>
    obtain ⟨first, reads, pending⟩ := List.exists_cons_of_ne_nil awaited
    have kept : Terminated (received c first reads data).heap := terminated
    have handled : ∃ d, (received c first reads data).handleRead env data first = .ok d ∧
        Terminated d.heap := by
      cases first with
      | header => exact handleHeader_defined env kept small
      | payload header => exact handleMessage_defined env kept header small
    obtain ⟨d, run, after⟩ := handled
    refine ⟨d, ?_, after⟩
    simp only [completed, pending]
    exact congrArg Except.toOption run

theorem completed_terminated (terminated : Terminated c.heap) (small : Limited event)
    (go : completed c (env, event) = some d) : Terminated d.heap := by
  obtain ⟨e, again, after⟩ := awaited_defined env terminated small (completed_awaited go)
  rwa [Option.some.inj (go.symm.trans again)]

theorem opening_heap (opening : Opening) (heap : Heap) : (opening.connection heap).heap = heap := by
  cases opening with
  | bound env => exact sendMessage_heap _ _
  | accepted => exact idle_heap _

end Runs

theorem limited_runs_defined {opening : Opening} {heap : Heap}
    {moves : List (Surroundings × Event)} {t : Connection} (terminated : Terminated heap)
    (limited : ∀ move ∈ moves, Limited move.2)
    (run : play completed (opening.connection heap) moves = some t) (env : Surroundings)
    {event : Event} (small : Limited event) (awaited : Awaited t event) :
    ∃ u, completed t (env, event) = some u := by
  have kept : (∀ move ∈ moves, Limited move.2) → Terminated t.heap := by
    refine play_history (fun before c => (∀ move ∈ before, Limited move.2) → Terminated c.heap)
      ?_ ?_ moves t run
    · rw [opening_heap]
      exact fun _ => terminated
    · intro before c move d earlier go all
      obtain ⟨old, new⟩ := List.forall_mem_append.mp all
      exact completed_terminated (earlier old) (new move (List.mem_singleton.mpr rfl)) go
  obtain ⟨u, go, _⟩ := awaited_defined env (kept limited) small awaited
  exact ⟨u, go⟩

/-- After a WhoAmIAck, a header that is cut after a byte is handled. -/
theorem cut_header_defined : ∃ t, play completed (Opening.accepted.connection (constantHeap 0))
    [(offline, .readDone whoAmIAckFrame)] = some t ∧
    ∃ u, completed t (offline, .readDone [255]) = some u := by
  have run : play completed (Opening.accepted.connection (constantHeap 0))
      [(offline, .readDone whoAmIAckFrame)] = some _ :=
    Option.bind_eq_some_iff.mpr ⟨_, step_completed (whoAmIAck_step offline rfl rfl), rfl⟩
  have limited : ∀ move ∈ [(offline, Event.readDone whoAmIAckFrame)], Limited move.2 := by
    intro move member
    rw [List.mem_singleton.mp member]
    change whoAmIAckFrame.length < bufferSize
    decide
  have small : Limited (.readDone [255]) := by
    change ([255] : Bytes).length < bufferSize
    decide
  refine ⟨_, run, limited_runs_defined (fun _ _ _ => rfl) limited run offline small ?_⟩
  intro none
  cases none

end EnsicoinTerminatedMemory
