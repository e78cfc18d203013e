import Ensicoin.HonestAgreement
import Ensicoin.ReadQueues
import Ensicoin.VersionNegotiation

/-!
Two nodes and the bytes between them. A read takes the next bytes of what the other node has
written, so a message comes in one or two pieces, and a second read that waits for a header
takes the payload of the first one. Until then the nodes do what they do when messages are
delivered whole, and the handshake is over before that can happen.
-/
namespace EnsicoinStreamedNodes
open EnsicoinRuntime EnsicoinNetworkable EnsicoinMessages EnsicoinConnection
open EnsicoinConnectionRuns EnsicoinWrittenMessages EnsicoinReadQueues EnsicoinVersionNegotiation
open EnsicoinHonestHandshake EnsicoinHonestProgress EnsicoinHonestAgreement StepRuns

def stream (messages : List Message) : Bytes := messages.flatMap Message.byteRepr

/-- The bytes that the reads of a Connection were given. -/
def taken (c : Connection) : Bytes := c.served.flatMap Prod.snd

/-- What the socket has for a node. -/
def unread (s : Nodes) (p : Party) : Bytes :=
  (stream (s p.peer).written).drop (taken (s p)).length

/-- To receive is for the first pending read to complete. -/
def streamAct (s : Nodes) (p : Party) (env : Surroundings) : Action → Option Connection
  | .sendMessage m => (s p).step (env, .sendMessage m.1)
  | .writeDone => (s p).step (env, .writeDone)
  | .receive =>
    match (s p).pendingReads with
    | [] => none
    | first :: _ => (s p).step (env, .readDone ((unread s p).take first.size))

def streamStep (s : Nodes) (move : Party × Surroundings × Action) : Option Nodes :=
  (streamAct s move.1 move.2.1 move.2.2).map (Function.update s move.1)

/-- Where the reads stand that have taken so many bytes, behind k whole messages: in front of
    a header, or in front of a payload whose header has come. -/
inductive Placed (written : List Message) : Nat → List PendingRead → Bytes → Prop where
  | between {k : Nat} {reads : List PendingRead} (few : k ≤ written.length)
    (headers : ∀ read ∈ reads, read = .header) : Placed written k reads (stream (written.take k))
  | inside {k : Nat} {reads : List PendingRead} {m : Message} (next : written[k]? = some m)
    (fits : m.contents.payload.length < 2 ^ 64) (some : m.contents.payload ≠ [])
    (headers : ∀ read ∈ reads, read = .header) :
    Placed written k (.payload (headerOf m) :: reads)
      (stream (written.take k) ++ (headerOf m).byteRepr)

/-- The nodes over bytes look like the nodes that are given whole messages. -/
structure Shadows (s u : Nodes) : Prop where
  alike : ∀ p, s p = fed (u p) (s p).pendingReads (s p).served
  placed : ∀ p, Placed (s p.peer).written (s p).handled.length (s p).pendingReads (taken (s p))

/-- A header that announces a payload is for the only read there is. -/
def Clear (s : Nodes) (p : Party) : Prop := ∀ m reads, (inFlight s p).head? = some m →
  (s p).pendingReads = .header :: reads → m.contents.payload.length < 2 ^ 64 ∧
    (m.contents.payload = [] ∨ reads = [])

/-- The first two messages may come in any order, and later ones when it is clear. -/
def Orderly (s : Nodes) (move : Party × Surroundings × Action) : Prop :=
  match move.2.2 with
  | .receive => (s move.1).handled.length < 2 ∨ Clear s move.1
  | _ => True

/-- What the applications and the writes do, in their order. -/
def shown (move : Party × Surroundings × Action) : List (Party × Surroundings × Action) :=
  match move.2.2 with
  | .receive => []
  | _ => [move]

section Streams
variable {written more : List Message} {k : Nat} {reads : List PendingRead} {bytes : Bytes}
  {m : Message}

theorem stream_append (front back : List Message) :
    stream (front ++ back) = stream front ++ stream back := List.flatMap_append

theorem stream_next (next : written[k]? = some m) :
    stream (written.take (k + 1)) =
      stream (written.take k) ++ ((headerOf m).byteRepr ++ m.contents.payload) := by
  rw [List.take_add_one, next, stream_append]
  exact congrArg (stream (written.take k) ++ ·) (List.append_nil _)

theorem stream_rest (next : written[k]? = some m) : stream written = stream (written.take k) ++
    ((headerOf m).byteRepr ++ (m.contents.payload ++ stream (written.drop (k + 1)))) := by
  obtain ⟨inside, rfl⟩ := List.getElem?_eq_some_iff.mp next
  have cut := List.take_append_drop k written
  rw [List.drop_eq_getElem_cons inside] at cut
  nth_rewrite 1 [← cut]
  rw [stream_append, ← List.append_assoc (headerOf _).byteRepr]
  rfl

theorem headerOf_size (m : Message) : (headerOf m).byteRepr.length = PendingRead.header.size := by
  simp [MessageHeader.byteRepr, PendingRead.size, MessageHeader.size, (headerOf m).type.size_eq]

theorem headerOf_payload (fits : m.contents.payload.length < 2 ^ 64) :
    (PendingRead.payload (headerOf m)).size = m.contents.payload.length :=
  (UInt64.toNat_ofNat' ..).trans (Nat.mod_eq_of_lt fits)

theorem placed_grows (grown : written <+: more) (placed : Placed written k reads bytes) :
    Placed more k reads bytes := by
  obtain ⟨rest, rfl⟩ := grown
  cases placed with
  | between few headers =>
    have same : (written ++ rest).take k = written.take k := List.take_append_of_le_length few
    rw [← same]
    exact .between (by rw [List.length_append]; omega) headers
  | inside next fits some headers =>
    have inside : k < written.length := (List.getElem?_eq_some_iff.mp next).1
    have same : (written ++ rest).take k = written.take k :=
      List.take_append_of_le_length inside.le
    rw [← same]
    exact .inside (by rw [List.getElem?_append_left inside]; exact next) fits some headers

theorem placed_queued (placed : Placed written k reads bytes) :
    Placed written k (reads ++ [.header]) bytes := by
  have behind : ∀ {reads : List PendingRead}, (∀ read ∈ reads, read = .header) →
      ∀ read ∈ reads ++ [.header], read = .header := by
    intro reads headers
    exact List.forall_mem_append.mpr ⟨headers, by simp⟩
  cases placed with
  | between few headers => exact .between few (behind headers)
  | inside next fits some headers => exact .inside next fits some (behind headers)

end Streams

/-- A Connection with so many reads from the start, and this queue of them now. -/
structure Stands (reading : Nat) (written : List Message) (c : Connection)
    (reads : List PendingRead) (served : List (PendingRead × Bytes)) : Prop where
  placed : Placed written c.handled.length reads (served.flatMap Prod.snd)
  chain : reads.length + c.pendingWrites.length = reading + c.written.length
  busy : c.handled ≠ [] → reads ≠ []

structure Linked (env : Surroundings) (s u : Nodes) : Prop where
  alike : ∀ p, s p = fed (u p) (s p).pendingReads (s p).served
  stands : ∀ p, Stands (openingReads (p.opening env)).length (u p.peer).written (u p)
    (s p).pendingReads (s p).served
  paired : Paired env u
  fresh : ∀ p, Fresh (u p)
  zeros : ∀ p, (u p).heap = constantHeap 0

section Steps
variable {env around : Surroundings} {s t u : Nodes} {p : Party} {d e : Connection}

/-- What does not look at the reads is the same on both sides. -/
theorem field_same {β : Type} (field : Connection → β)
    (blind : ∀ c reads served, field (fed c reads served) = field c) (linked : Linked env s u)
    (p : Party) : field (s p) = field (u p) :=
  (congrArg field (linked.alike p)).trans (blind _ _ _)

theorem written_same (linked : Linked env s u) (p : Party) : (s p).written = (u p).written :=
  field_same Connection.written (fun _ _ _ => rfl) linked p

theorem handled_same (linked : Linked env s u) (p : Party) : (s p).handled = (u p).handled :=
  field_same Connection.handled (fun _ _ _ => rfl) linked p

theorem inFlight_same (linked : Linked env s u) (p : Party) : inFlight s p = inFlight u p := by
  rw [inFlight, inFlight, written_same linked, handled_same linked]

theorem linked_shadows (linked : Linked env s u) : Shadows s u := by
  refine ⟨linked.alike, ?_⟩
  intro p
  rw [written_same linked, handled_same linked]
  exact (linked.stands p).placed

theorem whoAmI_length (address : Address) :
    (WhoAmI.new address).contents.payload.length = 36 := by
  have services : (VarArray.byteRepr VarStr.byteRepr [ascii "node"]).length = 6 := by decide
  simp only [WhoAmI.new, Message.new, Contents.payload, Address.byteRepr, List.length_append,
    Uint32.byteRepr_length, Uint64.byteRepr_length, Uint16.byteRepr_length, services,
    address.address.size_eq]

/-- What is written before the first message is handled: a WhoAmI, or nothing. -/
theorem first_reads (linked : Linked env s u) (none : (s p).handled.length = 0) :
    (s p).pendingReads.length ≤ 1 := by
  have status := linked.paired.status p
  rw [← handled_same linked, none] at status
  obtain ⟨hands, rest, written, hand, _, early⟩ := (linked.paired.fitted p).written
  have length := congrArg List.length hand
  rw [status, List.length_map] at length
  have chain := (linked.stands p).chain
  have waiting : (u p).currentStatus ≠ .Ack := by
    rw [status]
    cases p <;> exact nofun
  rw [written, early waiting, List.append_nil, length] at chain
  cases p <;> simp [Party.opening, openingStatus, openingReads, script] at chain <;> omega

theorem early_clear (linked : Linked env s u) (early : (s p).handled.length < 2) : Clear s p := by
  intro m reads next pending
  have written := (linked.paired.fitted p.peer).written
  have announced := (linked.fresh p.peer).announced
  rw [inFlight, List.head?_drop, written_same linked] at next
  by_cases first : (s p).handled.length = 0
  · rw [first] at next
    obtain ⟨address, rfl⟩ := scripted_first written announced next
    have single := first_reads linked first
    rw [pending, List.length_cons] at single
    refine ⟨by rw [whoAmI_length]; decide, Or.inr (List.eq_nil_of_length_eq_zero (by omega))⟩
  · have second : (s p).handled.length = 1 := by omega
    rw [second] at next
    obtain rfl := scripted_second written announced next
    exact ⟨by decide, Or.inl rfl⟩

theorem queued_chain {n k : Nat} (queued : Queued d e)
    (chain : n + d.pendingWrites.length = k + d.written.length) :
    n + e.pendingWrites.length = k + e.written.length := by
  obtain ⟨messages, written, pending⟩ := queued
  rw [written, pending, List.length_append, List.length_append, List.length_map]
  omega

theorem stands_grows {reading : Nat} {written more : List Message} {reads : List PendingRead}
    {served : List (PendingRead × Bytes)} (grown : written <+: more)
    (stands : Stands reading written d reads served) : Stands reading more d reads served :=
  ⟨placed_grows grown stands.placed, stands.chain, stands.busy⟩

/-- One node moves, and its shadow with it. -/
theorem linked_moved (linked : Linked env s u) (paired : Paired env (Function.update u p e))
    (fresh : Fresh e) (zeros : e.heap = constantHeap 0) (grown : (u p).written <+: e.written)
    {reads : List PendingRead} {served : List (PendingRead × Bytes)}
    (stands : Stands (openingReads (p.opening env)).length (u p.peer).written e reads served) :
    Linked env (Function.update s p (fed e reads served)) (Function.update u p e) := by
  have apart : ∀ q : Party, q.peer ≠ q := by
    intro q
    cases q <;> decide
  refine ⟨?_, ?_, paired, ?_, ?_⟩
  · intro q
    by_cases same : q = p
    · subst same
      simp [fed]
    · simpa [Function.update_of_ne same] using linked.alike q
  · intro q
    by_cases same : q = p
    · subst same
      rw [Function.update_self, Function.update_self, Function.update_of_ne (apart q)]
      exact stands
    · by_cases peer : q.peer = p
      · subst peer
        rw [Function.update_self, Function.update_of_ne same, Function.update_of_ne same]
        exact stands_grows grown (linked.stands q)
      · simpa [Function.update_of_ne same, Function.update_of_ne peer] using linked.stands q
  · intro q
    by_cases same : q = p
    · subst same
      simpa using fresh
    · simpa [Function.update_of_ne same] using linked.fresh q
  · intro q
    by_cases same : q = p
    · subst same
      simpa using zeros
    · simpa [Function.update_of_ne same] using linked.zeros q

end Steps

section Reads
variable {around : Surroundings} {c d : Connection} {written : List Message} {k : Nat}
  {reads : List PendingRead} {served : List (PendingRead × Bytes)} {bytes data : Bytes}

theorem header_ahead {m : Message} (placed : Placed written k (.header :: reads) bytes)
    (found : written[k]? = some m) :
    ((stream written).drop bytes.length).take PendingRead.header.size = (headerOf m).byteRepr := by
  cases placed with
  | between few headers =>
    rw [stream_rest found, List.drop_left, ← headerOf_size m, List.take_left]

theorem payload_ahead {m : Message} {header : MessageHeader}
    (placed : Placed written k (.payload header :: reads) bytes) (found : written[k]? = some m) :
    header = headerOf m ∧ m.contents.payload.length < 2 ^ 64 ∧ m.contents.payload ≠ [] ∧
      ((stream written).drop bytes.length).take (PendingRead.payload header).size =
        m.contents.payload := by
  cases placed with
  | between few headers => cases (List.forall_mem_cons.mp headers).1
  | inside next fits some headers =>
    obtain rfl := Option.some.inj (next.symm.trans found)
    refine ⟨rfl, fits, some, ?_⟩
    rw [stream_rest found, ← List.append_assoc, List.drop_left, headerOf_payload fits,
      List.take_left]

theorem header_next (placed : Placed written k (.header :: reads) bytes)
    (next : data = ((stream written).drop bytes.length).take PendingRead.header.size)
    (size : data.length = MessageHeader.size) : ∃ m, written[k]? = some m ∧
      data = (headerOf m).byteRepr ∧ bytes = stream (written.take k) ∧
        ∀ read ∈ reads, read = .header := by
  have ahead := fun m => header_ahead (m := m) placed
  cases placed with
  | between few headers =>
    have more : k < written.length := by
      by_contra none
      rw [next, List.take_of_length_le (Nat.le_of_not_lt none), List.drop_length] at size
      cases size
    have found : written[k]? = some written[k] := List.getElem?_eq_getElem more
    exact ⟨_, found, next.trans (ahead _ found), rfl, (List.forall_mem_cons.mp headers).2⟩

theorem payload_next {header : MessageHeader}
    (placed : Placed written k (.payload header :: reads) bytes)
    (next : data = ((stream written).drop bytes.length).take (PendingRead.payload header).size) :
    ∃ m, written[k]? = some m ∧ header = headerOf m ∧ data = m.contents.payload ∧
      bytes = stream (written.take k) ++ (headerOf m).byteRepr ∧
        ∀ read ∈ reads, read = .header := by
  have ahead := fun m => payload_ahead (m := m) placed
  cases placed with
  | between few headers => cases (List.forall_mem_cons.mp headers).1
  | @inside _ m found fits _ headers =>
    exact ⟨m, found, rfl, next.trans (ahead m found).2.2.2, rfl, headers⟩

theorem served_more (first : PendingRead) : (served ++ [(first, data)]).flatMap Prod.snd =
    served.flatMap Prod.snd ++ data := by
  simp

theorem message_placed {m : Message} {e : Connection}
    (found : written[c.handled.length]? = some m) (headers : ∀ read ∈ reads, read = .header)
    (run : c.handleMessage around (headerOf m) m.contents.payload = .ok e) :
    Placed written e.handled.length (reads ++ [.header])
      (stream (written.take c.handled.length) ++ ((headerOf m).byteRepr ++ m.contents.payload)) := by
  have counted : e.handled.length = c.handled.length + 1 := by
    rw [(handleMessage_effect run).handled, List.length_append, List.length_singleton]
  rw [counted, ← stream_next found]
  exact placed_queued (.between (List.getElem?_eq_some_iff.mp found).1 headers)

/-- A read hands over a header and waits for the payload, or it hands over a message. -/
theorem read_taken (zeros : c.heap = constantHeap 0)
    (placed : Placed written c.handled.length reads (served.flatMap Prod.snd))
    (next : ∀ first rest, reads = first :: rest →
      data = ((stream written).drop (served.flatMap Prod.snd).length).take first.size)
    (clear : ∀ m rest, written[c.handled.length]? = some m → reads = .header :: rest →
      m.contents.payload.length < 2 ^ 64 ∧ (m.contents.payload = [] ∨ rest = []))
    (go : (fed c reads served).step (around, .readDone data) = some d) :
    ∃ reads' served', reads'.length = reads.length ∧
      ((d = fed c reads' served' ∧
        Placed written c.handled.length reads' (served'.flatMap Prod.snd)) ∨
      ∃ m e, written[c.handled.length]? = some m ∧
        c.handleMessage around (headerOf m) m.contents.payload = .ok e ∧ d = fed e reads' served' ∧
          Placed written e.handled.length reads' (served'.flatMap Prod.snd)) := by
  cases step_taken go with
  | @announced _ rest header st pending size reading announces =>
    obtain rfl : reads = .header :: rest := pending
    obtain ⟨m, found, rfl, taken, headers⟩ := header_next placed (next _ _ rfl) size
    rw [show (fed c _ served).heap = constantHeap 0 from zeros] at reading
    cases (messageHeader_zeros m.type _).symm.trans reading
    obtain ⟨fits, payload⟩ := clear m rest found rfl
    have some : m.contents.payload ≠ [] := by
      intro empty
      rw [empty] at announces
      cases announces
    obtain rfl := payload.resolve_left some
    refine ⟨[.payload (headerOf m)], served ++ [(.header, (headerOf m).byteRepr)], rfl,
      Or.inl ⟨?_, ?_⟩⟩
    · rw [← zeros]
      rfl
    · rw [served_more, taken]
      exact .inside found fits some headers
  | @bare _ rest header st _ pending size reading none run =>
    obtain rfl : reads = .header :: rest := pending
    obtain ⟨m, found, rfl, taken, headers⟩ := header_next placed (next _ _ rfl) size
    rw [show (fed c _ served).heap = constantHeap 0 from zeros] at reading
    cases (messageHeader_zeros m.type _).symm.trans reading
    obtain ⟨fits, payload⟩ := clear m rest found rfl
    have zero : ¬ 0 < (headerOf m).payloadLength.toNat := none
    rw [show (headerOf m).payloadLength.toNat = _ from headerOf_payload fits] at zero
    have empty := List.eq_nil_of_length_eq_zero (Nat.eq_zero_of_not_pos zero)
    have same : { received (fed c (.header :: rest) served) .header rest (headerOf m).byteRepr with
        heap := constantHeap 0 } = fed c rest (served ++ [(.header, (headerOf m).byteRepr)]) := by
      rw [← zeros]
      rfl
    rw [same] at run
    obtain ⟨e, handled, rfl⟩ := handled_fed run
    rw [← empty] at handled
    refine ⟨_, _, by simp, Or.inr ⟨m, e, found, handled, rfl, ?_⟩⟩
    rw [served_more, taken]
    have ahead := message_placed found headers handled
    rwa [empty, List.append_nil] at ahead
  | @filled _ rest header _ pending size run =>
    obtain rfl : reads = .payload header :: rest := pending
    obtain ⟨m, found, rfl, rfl, taken, headers⟩ := payload_next placed (next _ _ rfl)
    have same : received (fed c (.payload (headerOf m) :: rest) served) (.payload (headerOf m))
        rest m.contents.payload =
          fed c rest (served ++ [(.payload (headerOf m), m.contents.payload)]) := rfl
    rw [same] at run
    obtain ⟨e, handled, rfl⟩ := handled_fed run
    refine ⟨_, _, by simp, Or.inr ⟨m, e, found, handled, rfl, ?_⟩⟩
    rw [served_more, taken, List.append_assoc]
    exact message_placed found headers handled

end Reads

section Runs
variable {env around : Surroundings} {s t u : Nodes} {p : Party} {d e : Connection}

theorem linked_fed (linked : Linked env s u) (p : Party) : ∃ reads served,
    s p = fed (u p) reads served ∧
      Stands (openingReads (p.opening env)).length (u p.peer).written (u p) reads served :=
  ⟨_, _, linked.alike p, linked.stands p⟩

theorem linked_acted (linked : Linked env s u) {action : Action}
    (acted : act u p around action = some e) (zeros : e.heap = constantHeap 0)
    (grown : (u p).written <+: e.written)
    {reads : List PendingRead} {served : List (PendingRead × Bytes)}
    (stands : Stands (openingReads (p.opening env)).length (u p.peer).written e reads served) :
    play step u [(p, around, action)] = some (Function.update u p e) ∧
      Linked env (Function.update s p (fed e reads served)) (Function.update u p e) := by
  have go : step u (p, around, action) = some (Function.update u p e) := by
    simp only [step, acted, Option.map_some]
  refine ⟨Option.bind_eq_some_iff.mpr ⟨_, go, rfl⟩, ?_⟩
  exact linked_moved linked (step_paired linked.paired go)
    (act_fresh linked.paired (linked.fresh p) acted) zeros grown stands

/-- Whole messages can be given so that the same is shown and the nodes stay linked. -/
def Follows (env : Surroundings) (u : Nodes) (move : Party × Surroundings × Action) (t : Nodes) :
    Prop := ∃ moves v, play step u moves = some v ∧ moves.flatMap shown = shown move ∧ Linked env t v

theorem send_simulated (linked : Linked env s u) (p : Party) (around : Surroundings)
    (m : AppMessage) : Follows env u (p, around, .sendMessage m)
      (Function.update s p ((s p).sendMessage m.1)) := by
  have stands := linked.stands p
  have shadow : act u p around (.sendMessage m) = some ((u p).sendMessage m.1) := rfl
  have queued := sendMessage_queued (u p) m.1
  have same := (sendMessage_effect (u p) m.1).handled.trans (List.append_nil _)
  obtain ⟨run, kept⟩ := linked_acted linked shadow ((sendMessage_heap _ _).trans (linked.zeros p))
    (queued_grows queued) ⟨same ▸ stands.placed, queued_chain queued stands.chain,
      same ▸ stands.busy⟩
  rw [linked.alike p, sendMessage_fed]
  exact ⟨_, _, run, rfl, kept⟩

theorem write_simulated (linked : Linked env s u)
    (acted : streamAct s p around .writeDone = some d) :
    Follows env u (p, around, .writeDone) (Function.update s p d) := by
  obtain ⟨reads, served, here, stands⟩ := linked_fed linked p
  have moved : (s p).step (around, .writeDone) = some d := acted
  rw [here] at moved
  simp only [Connection.step] at moved
  split at moved
  · cases moved
  · rename_i type writes pending
    have waits : (u p).pendingWrites = type :: writes := pending
    let popped : Connection := { u p with pendingWrites := writes }
    have shadow : act u p around .writeDone = some popped.idle := by
      simp only [act, Connection.step, waits]
      rfl
    have queued := idle_queued popped
    have same := (idle_effect popped).handled.trans (List.append_nil _)
    have chain := stands.chain
    have longer : (reads ++ [PendingRead.header]).length + popped.pendingWrites.length =
        (openingReads (p.opening env)).length + popped.written.length := by
      rw [waits, List.length_cons] at chain
      rw [List.length_append, List.length_singleton]
      change reads.length + 1 + writes.length = _ + (u p).written.length
      omega
    have grown : popped.written <+: popped.idle.written := queued_grows queued
    obtain ⟨run, kept⟩ := linked_acted linked shadow ((idle_heap popped).trans (linked.zeros p))
      grown ⟨same ▸ placed_queued stands.placed, queued_chain queued longer, fun _ => by simp⟩
    cases moved
    have fed_idle : Connection.handleWrite { fed (u p) reads served with
        pendingWrites := writes } = fed popped.idle (reads ++ [.header]) served :=
      idle_fed popped reads served
    rw [fed_idle]
    exact ⟨_, _, run, rfl, kept⟩

theorem receive_simulated (linked : Linked env s u) (clear : Clear s p)
    (acted : streamAct s p around .receive = some d) :
    Follows env u (p, around, .receive) (Function.update s p d) := by
  obtain ⟨reads, served, here, stands⟩ := linked_fed linked p
  have zeros := linked.zeros p
  simp only [streamAct] at acted
  split at acted
  · cases acted
  · rename_i first rest pending
    rw [here] at acted pending
    have next : ∀ first' rest', reads = first' :: rest' →
        (unread s p).take first.size = ((stream (u p.peer).written).drop
          (served.flatMap Prod.snd).length).take first'.size := by
      intro first' rest' split
      obtain ⟨rfl, _⟩ := List.cons.inj (pending.symm.trans split)
      rw [unread, here, written_same linked]
      rfl
    have waits : ∀ m rest, (u p.peer).written[(u p).handled.length]? = some m →
        reads = .header :: rest →
          m.contents.payload.length < 2 ^ 64 ∧ (m.contents.payload = [] ∨ rest = []) := by
      intro m rest found split
      refine clear m rest ?_ ?_
      · rw [inFlight_same linked, inFlight, List.head?_drop]
        exact found
      · rw [here]
        exact split
    obtain ⟨reads', served', length, taken⟩ := read_taken zeros stands.placed next waits acted
    have chain := stands.chain
    rw [← length] at chain
    have waiting : reads' ≠ [] := by
      intro none
      rw [none, show reads = first :: rest from pending] at length
      cases length
    rcases taken with ⟨rfl, placed⟩ | ⟨m, e, found, handled, rfl, placed⟩
    · have paired : Paired env (Function.update u p (u p)) := by
        rw [Function.update_eq_self]
        exact linked.paired
      have kept := linked_moved linked paired (linked.fresh p) zeros (List.prefix_refl _)
        ⟨placed, chain, fun _ => waiting⟩
      rw [Function.update_eq_self] at kept
      exact ⟨[], u, rfl, rfl, kept⟩
    · obtain ⟨inside, rfl⟩ := List.getElem?_eq_some_iff.mp found
      have flight : inFlight u p = _ := List.drop_eq_getElem_cons inside
      have shadow : act u p around .receive = some e := by
        simp only [act, flight, handled]
        rfl
      have queued := handleMessage_queued handled
      obtain ⟨run, kept⟩ := linked_acted linked shadow (handleMessage_zeros zeros handled)
        (queued_grows queued) ⟨placed, queued_chain queued chain, fun _ => waiting⟩
      exact ⟨_, _, run, rfl, kept⟩

theorem stream_simulated {move : Party × Surroundings × Action} (linked : Linked env s u)
    (orderly : Orderly s move) (go : streamStep s move = some t) : Follows env u move t := by
  obtain ⟨p, around, action⟩ := move
  obtain ⟨d, acted, rfl⟩ := Option.map_eq_some_iff.mp go
  cases action with
  | sendMessage m =>
    cases acted
    exact send_simulated linked p around m
  | writeDone => exact write_simulated linked acted
  | receive => exact receive_simulated linked (Or.elim orderly (early_clear linked) id) acted

theorem connected_linked (env : Surroundings) (early : Party → List AppMessage) :
    Linked env (connected env (fun _ => constantHeap 0) early)
      (connected env (fun _ => constantHeap 0) early) := by
  have none := fun p => opened_handled (p.opening env) (constantHeap 0)
    ((early p).map Subtype.val)
  have opened : ∀ p, (connected env (fun _ => constantHeap 0) early p).heap = constantHeap 0 ∧
      (connected env (fun _ => constantHeap 0) early p).pendingReads =
        openingReads (p.opening env) ∧
      (connected env (fun _ => constantHeap 0) early p).served = [] ∧
      Queued (Connection.new (constantHeap 0))
        (connected env (fun _ => constantHeap 0) early p) := by
    intro p
    have quiet := sendAll_effect ((early p).map Subtype.val) (Connection.new (constantHeap 0))
    have heap := sendAll_heap ((early p).map Subtype.val) (Connection.new (constantHeap 0))
    have queued := sendAll_queued ((early p).map Subtype.val) (Connection.new (constantHeap 0))
    cases p with
    | accepter =>
      refine ⟨(idle_heap _).trans heap, ?_, ?_, queued_trans queued (idle_queued _)⟩
      · exact (idle_effect _).pendingReads.trans (congrArg (· ++ _) quiet.pendingReads)
      · exact (idle_effect _).served.trans quiet.served
    | opener =>
      refine ⟨(sendMessage_heap _ _).trans heap, ?_, ?_, queued_trans queued ?_⟩
      · exact (sendMessage_effect _ _).pendingReads.trans
          ((List.append_nil _).trans quiet.pendingReads)
      · exact (sendMessage_effect _ _).served.trans quiet.served
      · exact sendMessage_queued { (early .opener).map Subtype.val |>.foldl Connection.sendMessage
          (Connection.new (constantHeap 0)) with currentStatus := .Initiated } _
  refine ⟨fun _ => rfl, ?_, connected_paired env _ early, connected_fresh env early,
    fun p => (opened p).1⟩
  intro p
  obtain ⟨_, reads, served, queued⟩ := opened p
  have handled : (connected env (fun _ => constantHeap 0) early p).handled = [] := none p
  refine ⟨?_, ?_, fun some => absurd handled some⟩
  · rw [handled, reads, served]
    refine .between (Nat.zero_le _) ?_
    cases p <;> simp [Party.opening, openingReads]
  · rw [reads]
    exact queued_chain queued rfl

theorem streams_linked {early : Party → List AppMessage}
    {moves : List (Party × Surroundings × Action)}
    (run : play streamStep (connected env (fun _ => constantHeap 0) early) moves = some t)
    (orderly : EachStep streamStep Orderly (connected env (fun _ => constantHeap 0) early) moves) :
    ∃ deliveries u, play step (connected env (fun _ => constantHeap 0) early) deliveries = some u ∧
      deliveries.flatMap shown = moves.flatMap shown ∧ Linked env t u :=
  play_refines (Linked env) Orderly shown shown
    (fun _ _ _ _ linked orderly go => stream_simulated linked orderly go) run orderly
    (connected_linked env early)

theorem linked_agreed (linked : Linked env s u) (met : Expected env u) : Safe s ∧ Agreed s := by
  have safe := paired_safe linked.paired
  have agreed := expected_agreed met
  have flight := inFlight_same linked
  have status := field_same Connection.currentStatus (fun _ _ _ => rfl) linked
  have filed := field_same Connection.registrations (fun _ _ _ => rfl) linked
  have version := field_same Connection.versionUsed (fun _ _ _ => rfl) linked
  have label := field_same Connection.peerType (fun _ _ _ => rfl) linked
  have handled := handled_same linked
  refine ⟨⟨?_, ?_, ?_⟩, ⟨?_, ?_, ?_⟩⟩
  · simpa only [flight, status] using safe.receives
  · simpa only [filed] using safe.registers
  · simpa only [flight, status] using safe.completes
  · simpa only [version] using agreed.version
  · simpa only [label, handled] using agreed.label
  · simpa only [filed, status] using agreed.filed

end Runs

/-- The WhoAmI of the opener, in two pieces. -/
def twoReads : List (Party × Surroundings × Action) :=
  [(.accepter, offline, .receive), (.accepter, offline, .receive)]

theorem streamed_read {s : Nodes} {p : Party} {around : Surroundings} {first : PendingRead}
    {rest : List PendingRead} {data : Bytes} {d : Connection}
    (pending : (s p).pendingReads = first :: rest)
    (next : (unread s p).take first.size = data)
    (go : (s p).step (around, .readDone data) = some d) :
    streamStep s (p, around, .receive) = some (Function.update s p d) := by
  simp only [streamStep, streamAct, pending, next, go, Option.map_some]

theorem twoReads_streamed : ∃ t, play streamStep (connected offline (fun _ => constantHeap 0)
    fun _ => []) twoReads = some t ∧ EachStep streamStep Orderly (connected offline
      (fun _ => constantHeap 0) fun _ => []) twoReads ∧ (t .accepter).handled = [.whoami] ∧
    t .opener = connected offline (fun _ => constantHeap 0) (fun _ => []) .opener := by
  let start := connected offline (fun _ => constantHeap 0) fun _ => []
  let hello := greeting 0
  have pieces : stream (start .opener).written =
      (headerOf hello).byteRepr ++ (hello.contents.payload ++ []) := by
    change stream [hello] = _
    rw [@stream_rest [hello] 0 hello rfl, List.take_zero]
    rfl
  have more : 0 < (headerOf hello).payloadLength := by
    rw [headerOf, greeting_length]
    exact (by decide : (0 : UInt64) < EnsicoinNetworkable.sizeT 36)
  have header : (unread start .accepter).take PendingRead.header.size =
      (headerOf hello).byteRepr := by
    change (stream (start .opener).written).take _ = _
    rw [pieces, ← headerOf_size hello, List.take_left]
  have first := streamed_read rfl header (header_step offline rfl rfl more)
  let waiting : Connection := { received (start .accepter) .header [] (headerOf hello).byteRepr with
    heap := constantHeap 0 }.asyncRead (.payload (headerOf hello))
  have payload : (unread (Function.update start .accepter waiting) .accepter).take
      (PendingRead.payload (headerOf hello)).size = hello.contents.payload := by
    have read : taken waiting = (headerOf hello).byteRepr := by
      simp only [taken, waiting, Connection.asyncRead, received]
      exact List.append_nil _
    have rest : unread (Function.update start .accepter waiting) .accepter =
        (stream (start .opener).written).drop (headerOf hello).byteRepr.length := by
      rw [← read]
      rfl
    rw [rest, pieces, List.drop_left, headerOf_payload (by rw [greeting_length]; decide),
      List.take_left]
  have second := streamed_read rfl payload (greeting_step offline rfl rfl)
  refine ⟨_, Option.bind_eq_some_iff.mpr ⟨_, first, Option.bind_eq_some_iff.mpr
    ⟨_, second, rfl⟩⟩, ?_, rfl, rfl⟩
  refine (eachStep_cons first _).mpr ⟨Or.inl (by decide), (eachStep_cons second _).mpr
    ⟨Or.inl ?_, ?_⟩⟩
  · change 0 < 2
    decide
  · intro before e u early
    simp at early

/-- What the nodes over bytes do, they do with whole messages as well. -/
theorem streams_refine_messages {env : Surroundings} {early : Party → List AppMessage}
    {moves : List (Party × Surroundings × Action)} {t : Nodes}
    (run : play streamStep (connected env (fun _ => constantHeap 0) early) moves = some t)
    (orderly : EachStep streamStep Orderly (connected env (fun _ => constantHeap 0) early) moves) :
    ∃ deliveries u, play step (connected env (fun _ => constantHeap 0) early) deliveries = some u ∧
      deliveries.flatMap shown = moves.flatMap shown ∧ Shadows t u := by
  obtain ⟨deliveries, u, shadow, same, linked⟩ := streams_linked run orderly
  exact ⟨deliveries, u, shadow, same, linked_shadows linked⟩

theorem two_reads_refined : ∃ t, play streamStep (connected offline (fun _ => constantHeap 0)
    fun _ => []) twoReads = some t ∧ (t .accepter).handled = [.whoami] ∧
    ∃ deliveries u, play step (connected offline (fun _ => constantHeap 0) fun _ => [])
      deliveries = some u ∧ deliveries.flatMap shown = twoReads.flatMap shown ∧ Shadows t u := by
  obtain ⟨t, run, orderly, one, _⟩ := twoReads_streamed
  exact ⟨t, run, one, streams_refine_messages run orderly⟩

theorem streamed_handshake_agrees {env : Surroundings} {early : Party → List AppMessage}
    {moves : List (Party × Surroundings × Action)} {t : Nodes}
    (run : play streamStep (connected env (fun _ => constantHeap 0) early) moves = some t)
    (orderly : EachStep streamStep Orderly (connected env (fun _ => constantHeap 0) early) moves) :
    Safe t ∧ Agreed t := by
  obtain ⟨deliveries, u, shadow, _, linked⟩ := streams_linked run orderly
  exact linked_agreed linked (run_expected shadow)

theorem two_reads_agreed : ∃ t, play streamStep (connected offline (fun _ => constantHeap 0)
    fun _ => []) twoReads = some t ∧ (t .accepter).handled = [.whoami] ∧ Safe t ∧ Agreed t := by
  obtain ⟨t, run, orderly, one, _⟩ := twoReads_streamed
  exact ⟨t, run, one, streamed_handshake_agrees run orderly⟩

end EnsicoinStreamedNodes
