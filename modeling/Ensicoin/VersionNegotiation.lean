import Ensicoin.ConnectionStanding
import Ensicoin.HonestHandshake

/-!
The version a handshake ends with. updateStatus takes the minimum with what it is given,
as an int, whenever it leaves Idle, WaitingAck or Waiting; onWhoAmIAck gives it 0, and a
Connection that was bound is in Initiated when the WhoAmI comes.
-/
namespace EnsicoinVersionNegotiation
open EnsicoinRuntime EnsicoinNetworkBuffer EnsicoinNetworkable EnsicoinMessages
open EnsicoinConnection EnsicoinConnectionRuns EnsicoinConnectionStanding EnsicoinHonestHandshake
open StepRuns

/-- A Connection of a node with this VERSION, but for the version in what it writes. -/
def startedWith (version : Int32) (opening : Opening) (heap : Heap) : Connection :=
  { opening.connection heap with versionUsed := version }

/-- A WhoAmI is handled whose payload starts with this version. -/
def Announces (start : Connection) (events : List (Surroundings × Event)) (v : UInt32) : Prop :=
  ∃ before env rest after c d header, events =
      before ++ (env, .readDone (Uint32.byteRepr v ++ rest)) :: after ∧
    play Connection.step start before = some c ∧
    c.pendingReads.head? = some (.payload header) ∧
    c.step (env, .readDone (Uint32.byteRepr v ++ rest)) = some d ∧
    d.handled = c.handled ++ [.whoami]

/-- The smaller of two versions, compared as an int is with a uint32_t. -/
def Negotiated (c : Connection) (version : Int32) (v : UInt32) : Prop :=
  c.versionUsed.toUInt32.toNat = min version.toUInt32.toNat v.toNat

/-- Accepted: one version is 0 and both are below 2 ^ 31, or neither is. Bound: one is 0 and
    VERSION is below 2 ^ 31, or it is not, and no larger than v. -/
def Agreeable (version : Int32) (v : UInt32) : Opening → Prop
  | .accepted => (version.toUInt32.toNat < 2 ^ 31 ∧ v.toNat < 2 ^ 31 ∧ (version = 0 ∨ v = 0)) ∨
    (2 ^ 31 ≤ version.toUInt32.toNat ∧ 2 ^ 31 ≤ v.toNat)
  | .bound _ => (version.toUInt32.toNat < 2 ^ 31 ∧ (version = 0 ∨ v = 0)) ∨
    (2 ^ 31 ≤ version.toUInt32.toNat ∧ version.toUInt32.toNat ≤ v.toNat)

section Runs
variable {c d t : Connection} {events : List (Surroundings × Event)}

/-- The handshake messages a Connection has handled, in their order. -/
def spoken (c : Connection) : List MessageType := c.handled.filter handshakeType

theorem run_spoken (run : play Connection.step c events = some t) : spoken c <+: spoken t :=
  (EnsicoinHandshake.handled_grows run).filter handshakeType

theorem turns_spoken {heap : Heap} {payload : Bytes} {type : MessageType}
    (handled : d.handled = c.handled ++ [type]) (turns : Turns c heap payload type d) :
    (spoken d = spoken c ∧ standing d = standing c) ∨ spoken d = spoken c ++ [type] := by
  unfold spoken
  rw [handled, List.filter_append]
  cases turns with
  | kept other same => exact Or.inl ⟨by simp [other], same⟩
  | whoAmI => exact Or.inr (by simp [handshakeType])
  | whoAmIAck => exact Or.inr (by simp [handshakeType])

theorem step_spoken {move : Surroundings × Event} (go : c.step move = some d) :
    (spoken d = spoken c ∧ standing d = standing c) ∨
      ∃ heap payload type, spoken d = spoken c ++ [type] ∧ Turns c heap payload type d := by
  obtain ⟨env, event⟩ := move
  cases step_stands go with
  | quiet handled same => exact Or.inl ⟨by rw [spoken, handled, spoken], same⟩
  | bare _ handled turns =>
    exact (turns_spoken handled turns).imp_right fun one => ⟨_, _, _, one, turns⟩
  | filled _ handled turns =>
    exact (turns_spoken handled turns).imp_right fun one => ⟨_, _, _, one, turns⟩

/-- Without a handshake message the standing stays. -/
theorem quiet_run (run : play Connection.step c events = some t)
    (quiet : spoken t = spoken c) : standing t = standing c := by
  induction events generalizing c with
  | nil =>
    cases run
    rfl
  | cons move events ih =>
    obtain ⟨d, go, rest⟩ := Option.bind_eq_some_iff.mp run
    rcases step_spoken go with ⟨still, same⟩ | ⟨_, _, type, one, _⟩
    · rw [← same]
      exact ih rest (quiet.trans still.symm)
    · have longer := (run_spoken rest).length_le
      rw [one, quiet, List.length_append, List.length_singleton] at longer
      omega

theorem ack_run (run : play Connection.step c events = some t)
    (one : spoken t = spoken c ++ [.whoamiack]) : standing t = (standing c).turn 0 .peer := by
  induction events generalizing c with
  | nil =>
    cases run
    simp at one
  | cons move events ih =>
    obtain ⟨d, go, rest⟩ := Option.bind_eq_some_iff.mp run
    rcases step_spoken go with ⟨still, same⟩ | ⟨_, _, type, more, turns⟩
    · rw [← same]
      apply ih rest
      rw [one, still]
    · -- this step is the one with the WhoAmIAck, and the rest are quiet
      have front := run_spoken rest
      rw [more, one] at front
      have whole := front.eq_of_length (by simp)
      obtain rfl : type = .whoamiack := by simpa using whole
      rw [quiet_run rest (by rw [one, more])]
      cases turns with
      | kept other => cases other
      | whoAmIAck turned => exact turned

end Runs

section Opened
variable {version : Int32} {opening : Opening} {heap : Heap} {c d t : Connection} {v : UInt32}
  {events : List (Surroundings × Event)}

theorem startedWith_standing : standing (startedWith version opening heap) =
    ⟨openingStatus opening, version, .peer, []⟩ := by
  have opened := opening_standing opening heap
  unfold standing at opened ⊢
  simp only [Standing.mk.injEq] at opened ⊢
  exact ⟨opened.1, rfl, opened.2.2⟩

theorem startedWith_spoken : spoken (startedWith version opening heap) = [] := by
  have begun := (opening_effect opening heap).handled
  change (opening.connection heap).handled.filter handshakeType = []
  rw [begun]
  rfl

/-- The first four bytes of a WhoAmI are its version. -/
theorem whoAmI_version {rest : Bytes} {m : Message} {st : ReadState}
    (reading : WhoAmI.ofBuffer.run ⟨⟨Uint32.byteRepr v ++ rest, false⟩, heap⟩ = .ok (m, st)) :
    Message.getVersion m = v := by
  obtain ⟨u, _, first, reading⟩ := run_bind_ok.mp reading
  rw [Uint32.byteRepr_read] at first
  cases first
  obtain ⟨_, _, _, reading⟩ := run_bind_ok.mp reading
  obtain ⟨_, _, _, reading⟩ := run_bind_ok.mp reading
  cases reading
  rfl

theorem announced_standing {env : Surroundings} {rest : Bytes} {header : MessageHeader}
    (waiting : c.pendingReads.head? = some (.payload header))
    (go : c.step (env, .readDone (Uint32.byteRepr v ++ rest)) = some d)
    (handled : d.handled = c.handled ++ [.whoami]) :
    ∃ peerType, standing d = (standing c).turn v.toInt32 peerType := by
  cases step_stands go with
  | quiet none =>
    rw [none] at handled
    simp at handled
  | bare first =>
    rw [first] at waiting
    cases waiting
  | filled _ one turns =>
    obtain rfl : _ = MessageType.whoami := by simpa [one] using handled
    cases turns with
    | kept other => cases other
    | @whoAmI _ m _ reading turned =>
      rw [whoAmI_version reading] at turned
      exact ⟨_, turned⟩

/-- Both turns of a handshake, from the standing of the constructor. -/
theorem handshake_standing
    (run : play Connection.step (startedWith version opening heap) events = some t)
    (two : spoken t = [.whoami, .whoamiack])
    (announces : Announces (startedWith version opening heap) events v) :
    ∃ peerType, standing t =
      (Standing.turn ⟨openingStatus opening, version, .peer, []⟩ v.toInt32 peerType).turn 0 .peer :=
    by
  obtain ⟨before, env, rest, after, c, d, header, rfl, reached, waiting, go, handled⟩ := announces
  obtain ⟨c', reached', run⟩ := play_split run
  obtain rfl : c = c' := Option.some.inj (reached.symm.trans reached')
  obtain ⟨d', go', run⟩ := Option.bind_eq_some_iff.mp run
  obtain rfl : d = d' := Option.some.inj (go.symm.trans go')
  have one : spoken d = spoken c ++ [.whoami] := by
    simp [spoken, handled, handshakeType]
  -- a second handshake message would be a WhoAmIAck, so nothing was said before
  have none : spoken c = [] := by
    obtain ⟨more, whole⟩ := run_spoken run
    rw [one, two] at whole
    cases shape : spoken c with
    | nil => rfl
    | cons first others => cases others <;> simp [shape] at whole
  have same := quiet_run reached (none.trans startedWith_spoken.symm)
  obtain ⟨peerType, turned⟩ := announced_standing waiting go handled
  refine ⟨peerType, ?_⟩
  rw [ack_run run (by rw [two, one, none]; rfl), turned, same, startedWith_standing]

end Opened

section Minimum
variable {version : Int32} {v : UInt32} {peerType : PeerType}

/-- An int of 32 bits, from the same bits without a sign. -/
theorem int_value (a : Int32) : a.toInt =
    if a.toUInt32.toNat < 2 ^ 31 then (a.toUInt32.toNat : Int) else a.toUInt32.toNat - 2 ^ 32 := by
  have cond := BitVec.toInt_eq_toNat_cond a.toBitVec
  change a.toInt = _ at cond
  have nat : a.toUInt32.toNat = a.toBitVec.toNat := rfl
  rw [cond, nat]
  split <;> split <;> omega

theorem zero_iff_toNat (a : Int32) : a = 0 ↔ a.toUInt32.toNat = 0 := by
  have bound := a.toUInt32.toNat_lt
  rw [← Int32.toInt_inj, int_value a, Int32.toInt_zero]
  split <;> omega

theorem lower_versionUsed (s : Standing) (connectionVersion : Int32) :
    (s.lower connectionVersion).versionUsed.toInt =
      min s.versionUsed.toInt connectionVersion.toInt := by
  unfold Standing.lower
  split
  · rename_i less
    rw [Int32.lt_iff_toInt_lt] at less
    change connectionVersion.toInt = _
    omega
  · rename_i less
    rw [Int32.lt_iff_toInt_lt] at less
    omega

theorem turn_status (s : Standing) (connectionVersion : Int32) (peerType : PeerType) :
    (s.turn connectionVersion peerType).status = nextStatus s.status := by
  unfold Standing.turn
  cases now : s.status with
  | _ => simp [now, nextStatus, Standing.register]

/-- Only the turn out of Initiated, and that of an Ack, leave the version alone. -/
theorem turn_versionUsed (s : Standing) (connectionVersion : Int32) (peerType : PeerType) :
    (s.turn connectionVersion peerType).versionUsed.toInt =
      if s.status = .Initiated ∨ s.status = .Ack then s.versionUsed.toInt
      else min s.versionUsed.toInt connectionVersion.toInt := by
  unfold Standing.turn
  cases now : s.status with
  | _ => simp [now, lower_versionUsed, Standing.register]

/-- An accepted Connection ends with the minimum of three versions. -/
theorem accepted_version :
    ((Standing.turn ⟨.Idle, version, .peer, []⟩ v.toInt32 peerType).turn 0
      .peer).versionUsed.toInt = min (min version.toInt v.toInt32.toInt) 0 := by
  simp [turn_versionUsed, turn_status, nextStatus]

/-- What a peer announces to a Connection that was bound is not used. -/
theorem bound_version :
    ((Standing.turn ⟨.Initiated, version, .peer, []⟩ v.toInt32 peerType).turn 0
      .peer).versionUsed.toInt = min version.toInt 0 := by
  simp [turn_versionUsed, turn_status, nextStatus]

end Minimum

section Greeting

/-- The WhoAmI of a node with any version. -/
def greeting (v : UInt32) : Message := Message.new (.whoAmI v ⟨0, IP_bytes, 0⟩ [ascii "node"])

def greeted (v : UInt32) : List (Surroundings × Event) :=
  [(offline, .readDone (headerOf (greeting v)).byteRepr),
    (offline, .readDone (greeting v).contents.payload), (offline, .readDone whoAmIAckFrame)]

theorem greeting_payload (v : UInt32) : (greeting v).contents.payload = Uint32.byteRepr v ++
    (Address.byteRepr ⟨0, IP_bytes, 0⟩ ++ VarArray.byteRepr VarStr.byteRepr [ascii "node"]) :=
  List.append_assoc _ _ _

theorem greeting_length (v : UInt32) : (greeting v).contents.payload.length = 36 := by
  rw [greeting_payload, List.length_append, Uint32.byteRepr_length]
  rfl

theorem header_step (env : Surroundings) {c : Connection} {m : Message}
    (pending : c.pendingReads = [.header]) (zeros : c.heap = constantHeap 0)
    (more : 0 < (headerOf m).payloadLength) : c.step (env, .readDone (headerOf m).byteRepr) =
      some ({ received c .header [] (headerOf m).byteRepr with
        heap := constantHeap 0 }.asyncRead (.payload (headerOf m))) := by
  have size : (headerOf m).byteRepr.length = PendingRead.header.size := by
    simp [MessageHeader.byteRepr, PendingRead.size, MessageHeader.size, (headerOf m).type.size_eq]
  have read := messageHeader_zeros m.type (sizeT m.contents.payload.length)
  change MessageHeader.ofBuffer.run ⟨⟨(headerOf m).byteRepr, false⟩, _⟩ =
    .ok (headerOf m, _) at read
  simp only [Connection.step, pending, size, ↓reduceIte, Connection.handleRead,
    Connection.handleHeader, zeros, read, bind, Except.bind, more]
  rfl

theorem greeting_step (env : Surroundings) {c : Connection} {v : UInt32}
    (pending : c.pendingReads = [.payload (headerOf (greeting v))])
    (zeros : c.heap = constantHeap 0) : c.step (env, .readDone (greeting v).contents.payload) =
      some (Connection.idle ({ noted (received c (.payload (headerOf (greeting v))) []
        (greeting v).contents.payload) .whoami with heap := constantHeap 0 }.updateStatus env
          v.toInt32 .nodepeer)) := by
  have size : (greeting v).contents.payload.length =
      (headerOf (greeting v)).payloadLength.toNat := by
    rw [headerOf, greeting_length]
    rfl
  have handled := whoAmI_handled env v ⟨0, IP_bytes, 0⟩ (c := received c
    (.payload (headerOf (greeting v))) [] (greeting v).contents.payload) zeros
  simp only [Connection.step, pending, PendingRead.size, size, ↓reduceIte, Connection.handleRead]
  exact congrArg Except.toOption handled

/-- The handshake of an accepted Connection over zeros whose peer announces v. -/
theorem greeted_run (version : Int32) (v : UInt32) : ∃ t,
    play Connection.step (startedWith version .accepted (constantHeap 0)) (greeted v) = some t ∧
      t.handled.filter handshakeType = [.whoami, .whoamiack] ∧
      Announces (startedWith version .accepted (constantHeap 0)) (greeted v) v ∧
      t.versionUsed.toInt = min (min version.toInt v.toInt32.toInt) 0 := by
  have more : 0 < (headerOf (greeting v)).payloadLength := by
    rw [headerOf, greeting_length]
    exact (by decide : (0 : UInt64) < sizeT 36)
  obtain ⟨c, first, pending, zeros, none⟩ : ∃ c, (startedWith version .accepted
      (constantHeap 0)).step (offline, .readDone (headerOf (greeting v)).byteRepr) = some c ∧
        c.pendingReads = [.payload (headerOf (greeting v))] ∧ c.heap = constantHeap 0 ∧
          c.handled = [] :=
    ⟨_, header_step offline rfl rfl more, rfl, rfl, rfl⟩
  obtain ⟨d, second, pending', zeros', one⟩ : ∃ d, c.step (offline, .readDone
      (greeting v).contents.payload) = some d ∧ d.pendingReads = [.header] ∧
        d.heap = constantHeap 0 ∧ d.handled = c.handled ++ [.whoami] := by
    refine ⟨_, greeting_step offline pending zeros, ?_, ?_, ?_⟩
    · rw [(idle_effect _).pendingReads, (updateStatus_effect _ _ _ _).pendingReads]
      rfl
    · rw [idle_heap, updateStatus_heap]
    · rw [(idle_effect _).handled, (updateStatus_effect _ _ _ _).handled]
      simp [noted, received]
  have third := whoAmIAck_step offline pending' zeros'
  obtain ⟨t, run, two⟩ : ∃ t, play Connection.step (startedWith version .accepted
      (constantHeap 0)) (greeted v) = some t ∧
        t.handled.filter handshakeType = [.whoami, .whoamiack] := by
    refine ⟨_, Option.bind_eq_some_iff.mpr ⟨_, first, Option.bind_eq_some_iff.mpr ⟨_, second,
      Option.bind_eq_some_iff.mpr ⟨_, third, rfl⟩⟩⟩, ?_⟩
    rw [(idle_effect _).handled, onWhoAmIAck, (updateStatus_effect _ _ _ _).handled, one, none]
    rfl
  have announces : Announces (startedWith version .accepted (constantHeap 0)) (greeted v) v := by
    rw [greeting_payload] at second
    refine ⟨[(offline, .readDone (headerOf (greeting v)).byteRepr)], offline, _,
      [(offline, .readDone whoAmIAckFrame)], c, d, headerOf (greeting v), ?_, ?_, ?_, second, one⟩
    · rw [greeted, greeting_payload]
      rfl
    · exact Option.bind_eq_some_iff.mpr ⟨_, first, rfl⟩
    · rw [pending]
      rfl
  refine ⟨t, run, two, announces, ?_⟩
  obtain ⟨peerType, ends⟩ := handshake_standing run two announces
  change (standing t).versionUsed.toInt = _
  rw [ends, openingStatus, accepted_version]

end Greeting

theorem negotiated_iff {version : Int32} {opening : Opening} {heap : Heap} {v : UInt32}
    {events : List (Surroundings × Event)} {t : Connection}
    (run : play Connection.step (startedWith version opening heap) events = some t)
    (two : t.handled.filter handshakeType = [.whoami, .whoamiack])
    (announces : Announces (startedWith version opening heap) events v) :
    Negotiated t version v ↔ Agreeable version v opening := by
  obtain ⟨peerType, ends⟩ := handshake_standing run two announces
  have used := int_value t.versionUsed
  have own := int_value version
  have announced := int_value v.toInt32
  have fits := t.versionUsed.toUInt32.toNat_lt
  have ownFits := version.toUInt32.toNat_lt
  have announcedFits := v.toNat_lt
  have nothing : v = 0 ↔ v.toNat = 0 := UInt32.toNat_inj.symm
  rw [show v.toInt32.toUInt32 = v from rfl] at announced
  change (standing t).versionUsed.toInt = _ at used
  rw [ends] at used
  rw [Negotiated]
  cases opening with
  | accepted =>
    rw [openingStatus, accepted_version] at used
    rw [Agreeable, zero_iff_toNat, nothing]
    split at used <;> split at own <;> split at announced <;> omega
  | bound env =>
    rw [openingStatus, bound_version] at used
    rw [Agreeable, zero_iff_toNat, nothing]
    split at used <;> split at own <;> split at announced <;> omega

/-- VERSION is 0, and so is every minimum with it. -/
theorem zero_negotiated : ∃ t, play Connection.step (startedWith (Int32.ofNat VERSION) .accepted
    (constantHeap 0)) (greeted 1) = some t ∧ Negotiated t (Int32.ofNat VERSION) 1 := by
  obtain ⟨t, run, two, announces, _⟩ := greeted_run (Int32.ofNat VERSION) 1
  exact ⟨t, run, (negotiated_iff run two announces).mpr (Or.inl (by decide))⟩

/-- VERSION is the smaller one, but 0x80000000 is negative as an int. -/
theorem large_version_used : ∃ t, play Connection.step (startedWith (Int32.ofNat VERSION) .accepted
    (constantHeap 0)) (greeted 0x80000000) = some t ∧
      t.handled.filter handshakeType = [.whoami, .whoamiack] ∧
      Announces (startedWith (Int32.ofNat VERSION) .accepted (constantHeap 0)) (greeted 0x80000000)
        0x80000000 ∧
      t.versionUsed = Int32.minValue ∧ ¬ Negotiated t (Int32.ofNat VERSION) 0x80000000 := by
  obtain ⟨t, run, two, announces, least⟩ := greeted_run (Int32.ofNat VERSION) 0x80000000
  have used : t.versionUsed = Int32.minValue := by
    rw [← Int32.toInt_inj, least]
    decide
  refine ⟨t, run, two, announces, used, ?_⟩
  rw [Negotiated, used]
  decide

end EnsicoinVersionNegotiation
