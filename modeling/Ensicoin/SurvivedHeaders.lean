import Ensicoin.HeaderDispatch

/-!
Which headers a Connection survives, whatever its memory holds. A type of twelve chars goes on
in the array behind it, and is too long for its field unless the next char happens to be a
zero. Nothing else of a header can leave the defined results, also if no payload follows.
-/
namespace EnsicoinSurvivedHeaders
open EnsicoinRuntime EnsicoinNetworkBuffer EnsicoinNetworkable EnsicoinMessages
open EnsicoinConnection EnsicoinConnectionRuns EnsicoinStringReads EnsicoinHeaderDispatch
open EnsicoinTruncatedMessages

/-- A message without a payload is always handled. -/
theorem handleMessage_bare (env : Surroundings) (c : Connection) (header : MessageHeader) :
    ∃ d, c.handleMessage env header [] = .ok d := by
  have handled : ∀ type (c : Connection), ∃ d, messageHandler env type c [] = .ok d := by
    intro type c
    cases type with
    | whoami =>
      obtain ⟨address, st, read⟩ := whoAmI_empty c.heap
      exact ⟨_, onWhoAmI_ok env (c := c) read⟩
    | inv =>
      obtain ⟨unknown, run⟩ := onInv_ok env (c := c) (inv_empty c.heap)
      exact ⟨_, run⟩
    | _ => exact ⟨_, rfl⟩
  obtain ⟨e, handling⟩ := handled (getTypeFromString header.type.value)
    (noted c (getTypeFromString header.type.value))
  refine ⟨e.idle, ?_⟩
  change (messageHandler env _ (noted c _) [] >>= _) = _
  rw [handling]
  rfl

/-- A field is read when a zero ends its string inside it, or right behind it. -/
theorem fixedStr_read_iff {field : Bytes} {size : Nat} (whole : field.length = size)
    (single : size < bufferSize) (rest : Bytes) (heap : Heap) :
    (∃ f t, (FixedStr.ofBuffer size).run ⟨⟨field ++ rest, false⟩, heap⟩ = .ok (f, t)) ↔
      0 ∈ field ∨ heap 0 size = 0 := by
  constructor
  · intro reads
    obtain ⟨f, t, run⟩ := reads
    rw [or_iff_not_imp_left]
    intro free
    subst whole
    obtain ⟨str, mid, runStr, runField⟩ := run_bind_ok.mp run
    have loop := (readStr_loop _ _ heap).mp ⟨mid.heap, runStr⟩
    obtain ⟨found, _⟩ := (readLoop_single _ single.le).mp loop
    have front := cString_front found
    rw [show field.takeWhile (· != 0) = field by simpa using zero_free_taken free []] at front
    have short : str.length ≤ field.length := by
      obtain ⟨array, _, _, run⟩ := run_bind_ok.mp runField
      split at run
      · rename_i fits
        rw [overwrite, List.length_append] at fits
        omega
      · cases run
    rw [← front.eq_of_length_le short] at found
    have ended := (cString_whole_iff free).mp found
    exact Option.some.inj ((fresh_next heap single).symm.trans ended)
  · intro ends
    by_cases zero : 0 ∈ field
    · obtain ⟨f, run⟩ := FixedStr.ofBuffer_terminated whole single.le zero rest heap
      exact ⟨f, _, run⟩
    · have behind := ends.resolve_left zero
      have found : cString (overwrite field (fresh heap)) = some field := by
        rw [overwrite, cString_whole_iff zero, whole, fresh_next heap single, behind]
      obtain ⟨f, written⟩ := FixedStr.ofString_fits whole.le
        ⟨⟨rest, false⟩, fun n => heap (n + 1)⟩
      exact ⟨f, _, run_bind_ok.mpr ⟨_, _, readStr_found whole single.le found rest, written⟩⟩

theorem header_read_iff {data : Bytes} (whole : data.length = MessageHeader.size) (heap : Heap) :
    (∃ header st, MessageHeader.ofBuffer.run ⟨⟨data, false⟩, heap⟩ = .ok (header, st)) ↔
      0 ∈ typeField data ∨ heap 0 12 = 0 := by
  have size : data.length = 24 := whole
  have magicSize : (data.take 4).length = 4 := by simp [size]
  have fieldSize : (typeField data).length = 12 := by simp [typeField, size]
  have magic : readUint32.run ⟨⟨data.take 4 ++ (typeField data ++ (data.drop 16 ++ [])), false⟩,
      heap⟩ = _ := readUint_bytes UInt32.ofNat magicSize heap
  rw [← fixedStr_read_iff fieldSize (by decide) (data.drop 16 ++ []) heap]
  nth_rewrite 1 [header_pieces data]
  constructor
  · intro reads
    obtain ⟨header, st, run⟩ := reads
    obtain ⟨_, s₁, runMagic, run⟩ := run_bind_ok.mp run
    obtain ⟨type, s₂, runType, _⟩ := run_bind_ok.mp run
    cases magic.symm.trans runMagic
    exact ⟨type, s₂, runType⟩
  · intro reads
    obtain ⟨type, s₂, runType⟩ := reads
    have rest := FixedStr.ofBuffer_bytes fieldSize (by decide) runType
    obtain ⟨buffer, heap'⟩ := s₂
    obtain rfl : buffer = _ := rest
    have lengthSize : (data.drop 16).length = 8 := by simp [size]
    exact ⟨_, _, run_bind_ok.mpr ⟨_, _, magic, run_bind_ok.mpr ⟨type, _, runType,
      run_bind_ok.mpr ⟨_, _, readUint_bytes UInt64.ofNat lengthSize heap', rfl⟩⟩⟩⟩

theorem header_survived_iff (env : Surroundings) {c : Connection} {reads : List PendingRead}
    (first : c.pendingReads = .header :: reads) {data : Bytes}
    (size : data.length = MessageHeader.size) :
    (∃ d, c.step (env, .readDone data) = some d) ↔ 0 ∈ typeField data ∨ c.heap 0 12 = 0 := by
  constructor
  · intro survives
    obtain ⟨d, go⟩ := survives
    cases step_taken go with
    | announced pending _ reading more =>
      exact (header_read_iff size c.heap).mp ⟨_, _, reading⟩
    | bare pending _ reading none run =>
      exact (header_read_iff size c.heap).mp ⟨_, _, reading⟩
    | filled pending _ run => cases first.symm.trans pending
  · intro ends
    obtain ⟨header, st, run⟩ := (header_read_iff size c.heap).mpr ends
    have handled : ∃ d, (received c .header reads data).handleHeader env data = .ok d := by
      have reading : MessageHeader.ofBuffer.run
          ⟨⟨data, false⟩, (received c .header reads data).heap⟩ = .ok (header, st) := run
      simp only [Connection.handleHeader, reading, bind, Except.bind]
      split
      · exact ⟨_, rfl⟩
      · exact handleMessage_bare env _ header
    obtain ⟨d, done⟩ := handled
    refine ⟨d, ?_⟩
    have same : data.length = PendingRead.header.size := size
    simp only [Connection.step, first, same, ↓reduceIte]
    exact congrArg Except.toOption done

/-- One header ends the node when an unwritten char is not zero. -/
theorem full_type_not_survived : ¬ ∃ d, (Opening.accepted.connection (constantHeap 1)).step
    (offline, .readDone (List.replicate 24 255)) = some d := by
  have reads : (Opening.accepted.connection (constantHeap 1)).pendingReads = [.header] := rfl
  have size : (List.replicate 24 (255 : UInt8)).length = EnsicoinNetworkable.MessageHeader.size :=
    List.length_replicate
  rw [header_survived_iff offline reads size]
  intro survives
  rcases survives with inside | behind
  · revert inside
    decide
  · cases behind

end EnsicoinSurvivedHeaders
