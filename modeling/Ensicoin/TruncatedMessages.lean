import Ensicoin.WholeReads
import Ensicoin.StringReads
import Ensicoin.Node
import Ensicoin.WrittenMessages

/-!
The effect of cut payloads. What a decoder yields past the end is handled like any other
message: a WhoAmI of zeros turns the status, and an Inv without entries is answered. In Ack
nothing is left to turn but the label, which a service can set that nobody sent: past the
end a service has length zero, and is read out of unwritten memory.
-/
namespace EnsicoinTruncatedMessages
open EnsicoinRuntime EnsicoinNetworkBuffer EnsicoinNetworkable EnsicoinMessages EnsicoinConnection
open EnsicoinVarUintCodes EnsicoinConnectionStanding EnsicoinNode EnsicoinWholeReads
open EnsicoinStringReads EnsicoinWrittenMessages

/-- The status, the version, the label, the tables of the node and what was sent stay. -/
structure Unmoved (c d : Connection) : Prop where
  standing : standing d = standing c
  written : d.written = c.written
  tables : ∀ (node : Node) conn remote, (node.moved conn ⟨remote, c⟩ d).tables = node.tables

/-- A message of the type whose payload is a proper prefix has no effect, in any memory. -/
def Harmless (env : Surroundings) (c : Connection) (type : MessageType) (payload : Bytes) : Prop :=
  ∀ cut, cut <+: payload → cut ≠ payload → ∀ heap d,
    messageHandler env type { c with heap := heap } cut = .ok d → Unmoved c d

/-- The number of services that are read from a WhoAmI, behind a version and an address. -/
def servicesAnnounced (payload : Bytes) : UInt64 := announced (payload.drop 30)

theorem unmoved_of {c d : Connection} (same : standing d = standing c)
    (written : d.written = c.written) : Unmoved c d := by
  refine ⟨same, written, ?_⟩
  intro node conn remote
  have registrations : d.registrations = c.registrations := congrArg Standing.registrations same
  simp [Node.moved, registrations]

section Services

theorem takes_front : Takes (readUint32 >>= fun _ => Address.ofBuffer) (bytesOf 30) := by
  have both := takes_bind (takes_map (takes_bigEndian 4) UInt32.ofNat) fun _ => takes_address
  rwa [bytesOf_mul] at both

theorem services_announced {payload : Bytes} {heap : Heap} {m : Message} {st : ReadState}
    (run : WhoAmI.ofBuffer.run ⟨⟨payload, false⟩, heap⟩ = .ok (m, st)) :
    (Message.getServices m).length = (servicesAnnounced payload).toNat := by
  obtain ⟨version, s, runVersion, run⟩ := run_bind_ok.mp run
  obtain ⟨address, mid, runAddress, run⟩ := run_bind_ok.mp run
  obtain ⟨services, t, runServices, run⟩ := run_bind_ok.mp run
  obtain ⟨rfl, _⟩ := run_pure_ok.mp run
  obtain ⟨count, after, runCount, runElements⟩ := run_bind_ok.mp runServices
  have runFront : (readUint32 >>= fun _ => Address.ofBuffer).run ⟨⟨payload, false⟩, heap⟩ =
      .ok (address, mid) := run_bind_ok.mpr ⟨version, s, runVersion, runAddress⟩
  rw [Message.getServices, readElements_length runElements, servicesAnnounced]
  congr 1
  obtain ⟨buffer, later⟩ := mid
  by_cases enough : 30 ≤ payload.length
  · rw [← List.take_append_drop 30 payload] at runFront
    obtain rfl : buffer = _ :=
      takes_front.whole _ (List.length_take_of_le enough) _ heap address _ runFront
    exact announced_read runCount
  · have dead : buffer.fail = true := by
      by_contra live
      obtain ⟨_, e, whole, split⟩ := takes_front.taken _ _ _ runFront (by simpa using live)
      have size : e.length = 30 := whole
      have length := congrArg List.length split
      rw [List.length_append] at length
      simp only at length
      omega
    have failed : after.buffer.fail = true := by
      by_contra live
      have alive := (readVarUint_alive runCount (by simpa using live)).1
      rw [dead] at alive
      cases alive
    rw [readVarUint_failed runCount failed, List.drop_of_length_le (by omega)]
    rfl

/-- A longer payload announces what a cut one does, if that announces any. -/
theorem cut_announces {cut payload : Bytes} (pre : cut <+: payload)
    (some : servicesAnnounced cut ≠ 0) : servicesAnnounced payload = servicesAnnounced cut := by
  obtain ⟨more, rfl⟩ := pre
  rw [servicesAnnounced, List.drop_append]
  exact announced_more some

theorem cut_before_last {cut payload : Bytes} (pre : cut <+: payload) (proper : cut ≠ payload) :
    cut <+: payload.dropLast := by
  have shorter : cut.length < payload.length := by
    apply Nat.lt_of_le_of_ne pre.length_le
    intro same
    exact proper (pre.eq_of_length same)
  refine List.prefix_of_prefix_length_le pre (List.dropLast_prefix payload) ?_
  rw [List.length_dropLast]
  omega

/-- A payload that announces services can be cut behind their count. -/
theorem cut_behind_count {payload : Bytes} (announces : servicesAnnounced payload.dropLast ≠ 0) :
    ∃ front code count, front.length = 30 ∧ code ∈ codes count ∧ count ≠ 0 ∧
      front ++ code <+: payload ∧ front ++ code ≠ payload := by
  obtain ⟨code, counts, more, behind⟩ := announced_code announces
  have length := congrArg List.length behind
  have one := code_some counts
  simp only [List.length_append, List.length_drop, List.length_dropLast] at length
  have whole : (payload.dropLast.take 30).length = 30 := by
    rw [List.length_take, List.length_dropLast]
    omega
  refine ⟨payload.dropLast.take 30, code, _, whole, counts, announces, ?_, ?_⟩
  · refine List.IsPrefix.trans ⟨more, ?_⟩ (List.dropLast_prefix payload)
    rw [List.append_assoc, behind, List.take_append_drop]
  · intro same
    have shorter := congrArg List.length same
    rw [List.length_append, whole] at shorter
    omega

end Services

section Names

/-- Every array holds the name of a service, and zeros behind it. -/
def nameHeap : Heap := fun _ i => (ascii "node").getD i 0

theorem fresh_name : fresh nameHeap = ascii "node" ++ (fresh nameHeap).drop 4 := by
  have front : (fresh nameHeap).take 4 = ascii "node" := by
    apply List.ext_getElem
    · rw [List.length_take, fresh_length]
      rfl
    · intro i inside _
      simp only [fresh, List.getElem_take, List.getElem_ofFn, nameHeap]
      exact (List.getElem_eq_getD 0).symm
  rw [← front, List.take_append_drop]

theorem address_found {data : Bytes} (whole : data.length = 16) : ∃ chunk,
    cString (overwrite data (fresh nameHeap)) = some chunk ∧ chunk.length ≤ 16 := by
  by_cases zero : 0 ∈ data
  · exact ⟨_, cString_terminated zero, (List.takeWhile_prefix _).length_le.trans whole.le⟩
  · refine ⟨data, ?_, whole.le⟩
    rw [overwrite, cString_whole_iff zero, whole, fresh_next nameHeap (by decide)]
    rfl

theorem ip_read {data : Bytes} (whole : data.length = 16) (rest : Bytes) : ∃ ip : IP,
    (FixedStr.ofBuffer 16).run ⟨⟨data ++ rest, false⟩, nameHeap⟩ =
      .ok (ip, ⟨⟨rest, false⟩, nameHeap⟩) := by
  obtain ⟨chunk, found, fits⟩ := address_found whole
  obtain ⟨ip, written⟩ := FixedStr.ofString_fits fits ⟨⟨rest, false⟩, nameHeap⟩
  exact ⟨ip, run_bind_ok.mpr ⟨chunk, ⟨⟨rest, false⟩, nameHeap⟩,
    readStr_found whole (by decide) found rest, written⟩⟩

theorem front_read {data : Bytes} (whole : data.length = 30) (rest : Bytes) :
    ∃ version address mid, readUint32.run ⟨⟨data ++ rest, false⟩, nameHeap⟩ = .ok (version, mid) ∧
      Address.ofBuffer.run mid = .ok (address, ⟨⟨rest, false⟩, nameHeap⟩) := by
  have pieces : data = data.take 4 ++ ((data.drop 4).take 8 ++ ((data.drop 12).take 16 ++
      data.drop 28)) := by
    rw [← List.drop_drop (i := 16) (j := 12), List.take_append_drop,
      ← List.drop_drop (i := 8) (j := 4), List.take_append_drop, List.take_append_drop]
  rw [pieces]
  simp only [List.append_assoc]
  have inside : ((data.drop 12).take 16).length = 16 := by simp [whole]
  obtain ⟨ip, readIp⟩ := ip_read inside (data.drop 28 ++ rest)
  obtain ⟨address, copied⟩ := FixedStr.ofString_fits ip.size_eq.le
    ⟨⟨data.drop 28 ++ rest, false⟩, nameHeap⟩
  refine ⟨_, _, _, readUint_bytes UInt32.ofNat (by simp [whole]) nameHeap,
    run_bind_ok.mpr ⟨_, _, readUint_bytes UInt64.ofNat (by simp [whole]) nameHeap,
    run_bind_ok.mpr ⟨_, _, readIp, run_bind_ok.mpr ⟨_, _, copied, run_bind_ok.mpr ⟨_, _,
    readUint_bytes UInt16.ofNat (by simp [whole]) nameHeap, rfl⟩⟩⟩⟩⟩

/-- Past the end a service has no length, and its name is whatever the array holds. -/
theorem nameless_string (fail : Bool) : VarStr.ofBuffer.run ⟨⟨[], fail⟩, nameHeap⟩ =
    .ok (ascii "node", ⟨⟨[], true⟩, nameHeap⟩) := by
  have none : readVarUint.run ⟨⟨[], fail⟩, nameHeap⟩ = .ok (0, ⟨⟨[], true⟩, nameHeap⟩) := by
    cases fail <;> rfl
  have found : cString (overwrite [] (fresh nameHeap)) = some (ascii "node") := by
    rw [overwrite, List.nil_append, List.length_nil, List.drop_zero, fresh_name,
      cString_whole_iff (by decide), fresh_next nameHeap (by decide)]
    rfl
  have nothing : StringStream.read ⟨[], true⟩ (0 - 0) = ([], ⟨[], true⟩) := rfl
  refine run_bind_ok.mpr ⟨0, _, none, (readStr_run _ _).mpr ⟨fresh nameHeap, _, rfl, ?_, rfl⟩⟩
  rw [readLoop, if_neg (by decide)]
  simp only [UInt64.toNat_zero, nothing, found]
  rfl

theorem nameless_strings (size : Nat) (fail : Bool) : ∃ st,
    (readElements VarStr.ofBuffer size).run ⟨⟨[], fail⟩, nameHeap⟩ =
      .ok (List.replicate size (ascii "node"), st) := by
  induction size generalizing fail with
  | zero => exact ⟨_, rfl⟩
  | succ size ih =>
    obtain ⟨st, rest⟩ := ih true
    exact ⟨st, run_bind_ok.mpr ⟨_, _, nameless_string fail, run_bind_ok.mpr ⟨_, _, rest, rfl⟩⟩⟩

/-- Behind a count, all the services that are missing bear the name. -/
theorem whoAmI_names {front code : Bytes} {count : UInt64} (whole : front.length = 30)
    (counts : code ∈ codes count) : ∃ version address st,
    WhoAmI.ofBuffer.run ⟨⟨front ++ code, false⟩, nameHeap⟩ = .ok (⟨.whoami,
      .whoAmI version address (List.replicate count.toNat (ascii "node"))⟩, st) := by
  obtain ⟨version, address, mid, first, second⟩ := front_read whole code
  have count := code_read counts [] nameHeap
  rw [List.append_nil] at count
  obtain ⟨st, named⟩ := nameless_strings _ false
  exact ⟨version, address, st, run_bind_ok.mpr ⟨_, _, first, run_bind_ok.mpr ⟨_, _, second,
    run_bind_ok.mpr ⟨_, _, run_bind_ok.mpr ⟨_, _, count, named⟩, rfl⟩⟩⟩⟩

end Names

section Handling
variable (env : Surroundings) {c : Connection} {payload : Bytes}

theorem onWhoAmI_ok {m : Message} {st : ReadState} {heap : Heap}
    (read : WhoAmI.ofBuffer.run ⟨⟨payload, false⟩, heap⟩ = .ok (m, st)) :
    messageHandler env .whoami { c with heap := heap } payload =
      .ok ({ c with heap := st.heap }.updateStatus env (Message.getVersion m).toInt32
        (peerTypeOf (Message.getServices m))) := by
  simp only [messageHandler, onWhoAmI, Connection.readMessage, read, bind, Except.bind, pure,
    Except.pure]

theorem whoAmI_empty (heap : Heap) : ∃ address st, WhoAmI.ofBuffer.run ⟨⟨[], false⟩, heap⟩ =
    .ok (⟨.whoami, .whoAmI 0 address []⟩, st) := by
  have none : ([] : Bytes).length ≤ 16 := Nat.zero_le 16
  obtain ⟨ip, readIp⟩ := FixedStr.ofString_fits none ⟨⟨[], true⟩, fun n => heap (n + 1)⟩
  obtain ⟨address, copied⟩ := FixedStr.ofString_fits ip.size_eq.le
    ⟨⟨[], true⟩, fun n => heap (n + 2)⟩
  have nothing := readStr_empty (by decide : 0 < 16) (by decide) true heap
  exact ⟨⟨0, address, 0⟩, _, run_bind_ok.mpr ⟨0, ⟨⟨[], true⟩, heap⟩, rfl, run_bind_ok.mpr ⟨_, _,
    run_bind_ok.mpr ⟨0, ⟨⟨[], true⟩, heap⟩, rfl, run_bind_ok.mpr ⟨_, _,
      run_bind_ok.mpr ⟨_, _, nothing, readIp⟩, run_bind_ok.mpr ⟨_, _, copied,
      run_bind_ok.mpr ⟨0, _, rfl, rfl⟩⟩⟩⟩, run_bind_ok.mpr ⟨[], _, rfl, rfl⟩⟩⟩⟩

theorem inv_empty (heap : Heap) : Inv.ofBuffer.run ⟨⟨[], false⟩, heap⟩ =
    .ok (⟨.inv, .inv []⟩, ⟨⟨[], true⟩, heap⟩) := rfl

theorem onInv_ok {m : Message} {st : ReadState} {heap : Heap}
    (read : Inv.ofBuffer.run ⟨⟨payload, false⟩, heap⟩ = .ok (m, st)) :
    ∃ unknown, messageHandler env .inv { c with heap := heap } payload =
      .ok ({ c with heap := st.heap }.sendMessage (Message.new (.getData unknown))) := by
  simp only [messageHandler, onInv, Connection.readMessage, read, bind, Except.bind, pure,
    Except.pure]
  exact ⟨_, rfl⟩

theorem inv_harmless_iff (some : payload ≠ []) :
    Harmless env c .inv payload ↔ c.currentStatus ≠ .Ack := by
  constructor
  · intro harmless ack
    obtain ⟨unknown, handled⟩ := onInv_ok env (c := c) (inv_empty c.heap)
    have still := (harmless [] (List.nil_prefix) some.symm c.heap _ handled).written
    rw [sendMessage_ack ack] at still
    simp [Connection.asyncWrite] at still
  · intro early cut _ _ heap d run
    obtain ⟨e, m, still, other, rfl⟩ := onInv_answers run
    have waits := sendMessage_waits (still.status.trans_ne early) other
    cases messageHandler_turns run with
    | kept _ same => exact unmoved_of same (by rw [waits]; exact still.written)

theorem turn_status_iff (s : Standing) (connectionVersion : Int32) (peerType : PeerType) :
    (s.turn connectionVersion peerType).status = s.status ↔ s.status = .Ack := by
  unfold Standing.turn
  cases now : s.status with
  | _ => simp [now, Standing.register]

/-- In Ack a WhoAmI is not answered, and only sets a label that is not set yet. -/
theorem ack_turn {connectionVersion : Int32} {peerType : PeerType} (ack : c.currentStatus = .Ack) :
    standing (c.updateStatus env connectionVersion peerType) = (standing c).label peerType ∧
      (c.updateStatus env connectionVersion peerType).written = c.written := by
  constructor
  · rw [updateStatus_standing, Standing.turn]
    simp only [label_status, show (standing c).status = .Ack from ack]
  · obtain ⟨messages, written, types⟩ :=
      (updateStatus_turned env c connectionVersion peerType).written
    have none : messages.map Message.getType = [] := by
      rw [types, ack]
      rfl
    rw [written, List.map_eq_nil_iff.mp none, List.append_nil]

theorem peer_label (s : Standing) : s.label .peer = s := by
  unfold Standing.label
  split
  · rename_i blank
    rw [← blank]
  · rfl

/-- Cut behind the count, a WhoAmI has services that are read out of memory. -/
theorem announced_harms (ack : c.currentStatus = .Ack) (blank : c.peerType = .peer)
    (announces : servicesAnnounced payload.dropLast ≠ 0) : ¬ Harmless env c .whoami payload := by
  intro harmless
  obtain ⟨front, code, count, whole, counts, positive, cut, proper⟩ := cut_behind_count announces
  obtain ⟨version, address, st, read⟩ := whoAmI_names whole counts
  have same := (harmless _ cut proper nameHeap _ (onWhoAmI_ok env read)).standing
  have unset : (standing c).peerType = .peer := blank
  have named : peerTypeOf (List.replicate count.toNat (ascii "node")) = .nodepeer := by
    have some : count.toNat ≠ 0 := fun none => positive (UInt64.toNat_inj.mp none)
    simp [peerTypeOf, some]
  rw [(ack_turn env (c := { c with heap := st.heap }) ack).1] at same
  have label := congrArg Standing.peerType same
  simp only [Message.getServices, named] at label
  change ((standing c).label .nodepeer).peerType = (standing c).peerType at label
  rw [Standing.label, if_pos unset, unset] at label
  cases label

theorem quiet_harmless (ack : c.currentStatus = .Ack)
    (quiet : c.peerType ≠ .peer ∨ servicesAnnounced payload.dropLast = 0) :
    Harmless env c .whoami payload := by
  intro cut pre proper heap d run
  obtain ⟨⟨m, e⟩, reading, done⟩ := bind_ok run
  obtain ⟨same, _, st, read⟩ := readMessage_ok reading
  cases done
  have still := readMessage_still reading
  obtain ⟨label, written⟩ := ack_turn env (still.status.trans ack)
  refine unmoved_of ?_ (written.trans still.written)
  rw [label, same]
  change (standing c).label _ = standing c
  rcases quiet with set | none
  · exact if_neg set
  · have no : servicesAnnounced cut = 0 := by
      by_contra announces
      have more := cut_announces (cut_before_last pre proper) announces
      exact announces (more.symm.trans none)
    have empty : Message.getServices m = [] := by
      apply List.eq_nil_of_length_eq_zero
      rw [services_announced read, no]
      rfl
    rw [empty]
    exact peer_label (standing c)

theorem whoAmI_harmless_iff (some : payload ≠ []) : Harmless env c .whoami payload ↔
    c.currentStatus = .Ack ∧ (c.peerType ≠ .peer ∨ servicesAnnounced payload.dropLast = 0) := by
  constructor
  · intro harmless
    have ack : c.currentStatus = .Ack := by
      obtain ⟨address, st, read⟩ := whoAmI_empty c.heap
      have same := (harmless [] List.nil_prefix some.symm c.heap _ (onWhoAmI_ok env read)).standing
      rw [updateStatus_standing] at same
      exact (turn_status_iff (standing c) _ _).mp (congrArg Standing.status same)
    refine ⟨ack, ?_⟩
    by_contra both
    obtain ⟨blank, announces⟩ := not_or.mp both
    exact announced_harms env ack (not_not.mp blank) announces harmless
  · intro quiet
    exact quiet_harmless env quiet.1 quiet.2

end Handling

/-- Of an Inv nothing is sent before the handshake is done; but the answer is kept for later. -/
theorem harmless_iff (env : Surroundings) (c : Connection) {payload : Bytes}
    (some : payload ≠ []) :
    (Harmless env c .whoami payload ↔ c.currentStatus = .Ack ∧
      (c.peerType ≠ .peer ∨ servicesAnnounced payload.dropLast = 0)) ∧
    (Harmless env c .inv payload ↔ c.currentStatus ≠ .Ack) ∧
    ∀ heap, ∃ d, messageHandler env .inv { c with heap := heap } [] = .ok d ∧
      (d.written ≠ c.written ∨ d.bufferedMessages ≠ c.bufferedMessages) := by
  refine ⟨whoAmI_harmless_iff env some, inv_harmless_iff env some, ?_⟩
  intro heap
  obtain ⟨unknown, handled⟩ := onInv_ok env (c := c) (inv_empty heap)
  refine ⟨_, handled, ?_⟩
  unfold Connection.sendMessage
  split
  · exact Or.inl (by simp [Connection.asyncWrite])
  · exact Or.inr (by simp)

/-- A Connection whose handshake is done, with a peer that offered nothing. -/
def acknowledged : Connection :=
  { Connection.new (constantHeap 0) with currentStatus := .Ack }

theorem serviceless_harmless : Harmless offline acknowledged .whoami
    (Contents.whoAmI 0 ⟨0, IP_bytes, 0⟩ []).payload :=
  (harmless_iff offline acknowledged (by decide)).1.mpr ⟨rfl, Or.inr (by decide)⟩

/-- Cut anywhere, a WhoAmI starts a handshake, and after it an Inv is answered. -/
theorem cut_messages_taken :
    ¬ Harmless offline (Opening.accepted.connection (constantHeap 0)) .whoami
      (Contents.whoAmI 0 ⟨0, IP_bytes, 0⟩ [ascii "node"]).payload ∧
    ¬ Harmless offline acknowledged .inv
      (Contents.inv [⟨.txRes, List.replicate 32 7⟩]).payload := by
  constructor
  · rw [whoAmI_harmless_iff offline (by decide)]
    exact fun quiet => absurd quiet.1 (by decide)
  · rw [inv_harmless_iff offline (by decide)]
    exact fun early => early rfl

end EnsicoinTruncatedMessages
