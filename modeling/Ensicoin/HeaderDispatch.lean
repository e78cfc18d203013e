import Ensicoin.TruncatedMessages

/-!
Which handler a header leads to. The type is looked for inside the twelve bytes of the
decoded field, which go on with unwritten memory behind the first zero, and the magic number
is not compared with anything. A name that is padded with two bytes or more can be followed
by another one in memory, and only three names are looked for before all that fit.
-/
namespace EnsicoinHeaderDispatch
open BigEndianWords EnsicoinRuntime EnsicoinNetworkBuffer EnsicoinNetworkable EnsicoinMessages
open EnsicoinConnection EnsicoinConnectionRuns EnsicoinStringReads EnsicoinTruncatedMessages

def typeField (data : Bytes) : Bytes := (data.drop 4).take 12

/-- The magic number is there, and the field is the name of the type and zeros. -/
def Announces (data : Bytes) (type : MessageType) : Prop :=
  ofBytes (data.take 4) = MAGIC ∧ typeField data = (paddedType type).value

/-- Whatever memory the header is decoded in, a payload is handled as the type announced. -/
def DispatchesExactly (data : Bytes) : Prop := ∀ heap header st,
  MessageHeader.ofBuffer.run ⟨⟨data, false⟩, heap⟩ = .ok (header, st) →
  ∀ env (c : Connection) payload d, c.handleMessage env header payload = .ok d →
  ∀ type, type ≠ .unknown → (d.handled = c.handled ++ [type] ↔ Announces data type)

/-- Eleven bytes are given, and with the last one, or any if it is zero, they have no name. -/
def Nameless (field : Bytes) : Prop := 0 ∉ field.take 11 ∧
  ∀ last, field.drop 11 = [last] ∨ field.drop 11 = [0] →
    getTypeFromString (field.take 11 ++ [last]) = .unknown

/-- The types whose names are not preceded by a name that fits into their padding. -/
def sturdy : List MessageType := [.whoamiack, .getaddr, .getmempool]

section Decoded
variable {field : Bytes} {size : Nat}

theorem cString_front {data tail chunk : Bytes} (found : cString (data ++ tail) = some chunk) :
    data.takeWhile (· != 0) <+: chunk := by
  unfold cString at found
  split at found
  · cases found
    rw [List.takeWhile_append]
    split
    · rename_i whole
      rw [(List.takeWhile_prefix _).eq_of_length whole]
      exact List.prefix_append _ _
    · exact List.prefix_rfl
  · cases found

theorem fixed_front {rest : Bytes} {heap : Heap} {s : FixedStr size} {t : ReadState}
    (whole : field.length = size) (single : size ≤ bufferSize)
    (run : (FixedStr.ofBuffer size).run ⟨⟨field ++ rest, false⟩, heap⟩ = .ok (s, t)) :
    field.takeWhile (· != 0) <+: s.value := by
  subst whole
  obtain ⟨str, mid, runStr, run⟩ := run_bind_ok.mp run
  obtain ⟨array, _, _, loop, _⟩ := (readStr_run _ _).mp runStr
  obtain ⟨found, _⟩ := (readLoop_single _ single).mp loop
  obtain ⟨_, _, _, run⟩ := run_bind_ok.mp run
  split at run
  · obtain ⟨rfl, _⟩ := run_pure_ok.mp run
    exact (cString_front found).trans (List.prefix_append _ _)
  · cases run

/-- Behind the first zero the field can hold anything. -/
theorem fixed_any {value : Bytes} (rest : Bytes) (whole : field.length = size)
    (single : size < bufferSize) (length : value.length = size)
    (pre : field.takeWhile (· != 0) <+: value) :
    ∃ heap later, (FixedStr.ofBuffer size).run ⟨⟨field ++ rest, false⟩, heap⟩ =
      .ok (⟨value, length⟩, ⟨⟨rest, false⟩, later⟩) := by
  subst whole
  have memory : ∃ heap : Heap, heap 0 field.length = 0 ∧ ∀ i, heap 1 i = value.getD i 0 :=
    ⟨fun n i => if n = 0 then 0 else value.getD i 0, rfl, fun _ => rfl⟩
  obtain ⟨heap, zero, array⟩ := memory
  have found : cString (overwrite field (fresh heap)) = some (field.takeWhile (· != 0)) := by
    by_cases ends : 0 ∈ field
    · exact cString_terminated ends
    · have all : field.takeWhile (· != 0) = field := by simpa using zero_free_taken ends []
      rw [all, overwrite, cString_whole_iff ends, fresh_next heap single, zero]
  have unwritten : List.ofFn (fun i : Fin field.length => heap 1 i) = value := by
    apply List.ext_getElem (by rw [List.length_ofFn, length])
    intro i _ inside
    simp only [List.getElem_ofFn, array]
    exact (List.getElem_eq_getD 0).symm
  have kept : overwrite (field.takeWhile (· != 0)) value = value := by
    obtain ⟨rest, rfl⟩ := pre
    rw [overwrite, List.drop_left]
  have written : (FixedStr.ofString field.length (field.takeWhile (· != 0))).run
      ⟨⟨rest, false⟩, fun n => heap (n + 1)⟩ =
        .ok (⟨value, length⟩, ⟨⟨rest, false⟩, fun n => heap (n + 2)⟩) := by
    refine run_bind_ok.mpr ⟨value, ⟨⟨rest, false⟩, fun n => heap (n + 2)⟩, ?_, ?_⟩
    · exact congrArg (fun array => Except.ok (array, _)) unwritten
    · simp only [kept, length, ↓reduceDIte]
      rfl
  exact ⟨heap, _, run_bind_ok.mpr ⟨_, _, readStr_found rfl single.le found rest, written⟩⟩

theorem header_pieces (data : Bytes) :
    data = data.take 4 ++ (typeField data ++ (data.drop 16 ++ [])) := by
  rw [typeField, ← List.drop_drop (i := 12) (j := 4), List.append_nil, List.take_append_drop,
    List.take_append_drop]

theorem decoded_iff {data value : Bytes} (whole : data.length = MessageHeader.size) :
    (∃ heap header st, MessageHeader.ofBuffer.run ⟨⟨data, false⟩, heap⟩ = .ok (header, st) ∧
      header.type.value = value) ↔
    value.length = 12 ∧ (typeField data).takeWhile (· != 0) <+: value := by
  have size : data.length = 24 := whole
  have magicSize : (data.take 4).length = 4 := by simp [size]
  have fieldSize : (typeField data).length = 12 := by simp [typeField, size]
  have lengthSize : (data.drop 16).length = 8 := by simp [size]
  constructor
  · intro decoded
    obtain ⟨heap, header, st, run, rfl⟩ := decoded
    rw [header_pieces data] at run
    obtain ⟨magic, s₁, runMagic, run⟩ := run_bind_ok.mp run
    obtain ⟨type, s₂, runType, run⟩ := run_bind_ok.mp run
    obtain ⟨payloadLength, s₃, _, run⟩ := run_bind_ok.mp run
    obtain ⟨rfl, _⟩ := run_pure_ok.mp run
    rw [readUint32, readUint_bytes UInt32.ofNat magicSize] at runMagic
    cases runMagic
    exact ⟨type.size_eq, fixed_front fieldSize (by decide) runType⟩
  · intro fits
    obtain ⟨length, pre⟩ := fits
    obtain ⟨heap, later, read⟩ := fixed_any (data.drop 16 ++ []) fieldSize (by decide)
      length pre
    have run : ∃ magic payloadLength st, MessageHeader.ofBuffer.run ⟨⟨data, false⟩, heap⟩ =
        .ok (⟨magic, ⟨value, length⟩, payloadLength⟩, st) := by
      rw [header_pieces data]
      exact ⟨_, _, _, run_bind_ok.mpr ⟨_, _, readUint_bytes UInt32.ofNat magicSize heap,
        run_bind_ok.mpr ⟨_, _, read, run_bind_ok.mpr ⟨_, _,
          readUint_bytes UInt64.ofNat lengthSize later, rfl⟩⟩⟩⟩
    obtain ⟨magic, payloadLength, st, run⟩ := run
    exact ⟨heap, _, st, run, rfl⟩

end Decoded

theorem empty_handled (env : Surroundings) (c : Connection) (type : MessageType) :
    ∃ d, messageHandler env type c [] = .ok d := by
  cases type with
  | whoami =>
    obtain ⟨address, st, read⟩ := whoAmI_empty c.heap
    exact ⟨_, onWhoAmI_ok env read⟩
  | inv =>
    obtain ⟨unknown, handled⟩ := onInv_ok env (c := c) (inv_empty c.heap)
    exact ⟨_, handled⟩
  | whoamiack => exact ⟨_, rfl⟩
  | _ => exact ⟨c, rfl⟩

/-- What is dispatched depends on the twelve bytes that are decoded, whatever they are. -/
theorem dispatches_iff {data : Bytes} (whole : data.length = MessageHeader.size) :
    DispatchesExactly data ↔ ∀ value : Bytes, value.length = 12 →
      (typeField data).takeWhile (· != 0) <+: value → ∀ type, type ≠ .unknown →
        (getTypeFromString value = type ↔ Announces data type) := by
  constructor
  · intro exact value length pre type known
    obtain ⟨heap, header, st, run, rfl⟩ := (decoded_iff whole).mpr ⟨length, pre⟩
    obtain ⟨e, handled⟩ := empty_handled offline
      (noted (Connection.new heap) (getTypeFromString header.type.value))
      (getTypeFromString header.type.value)
    have run' : (Connection.new heap).handleMessage offline header [] = .ok e.idle := by
      unfold Connection.handleMessage
      exact congrArg (· >>= _) handled
    rw [← exact heap header st run offline _ [] _ run' type known,
      (handleMessage_effect run').handled]
    simp
  · intro values heap header st run env c payload d handled type known
    obtain ⟨length, pre⟩ := (decoded_iff whole).mp ⟨heap, header, st, run, rfl⟩
    rw [← values _ length pre type known, (handleMessage_effect handled).handled]
    simp

section Names

theorem occursIn_iff {name typeStr : Bytes} : occursIn name typeStr = true ↔ name <:+: typeStr := by
  simp only [occursIn, List.any_eq_true, List.mem_tails, List.isPrefixOf_iff_prefix,
    List.infix_iff_prefix_suffix, and_comm]

theorem tx_known {typeStr : Bytes} (found : ascii "tx" <:+: typeStr) :
    getTypeFromString typeStr ≠ .unknown := by
  unfold getTypeFromString
  rw [if_pos (occursIn_iff.mpr found)]
  split_ifs <;> decide

/-- Two bytes that nobody wrote can be the name of a transaction. -/
theorem short_named {name : Bytes} (short : name.length ≤ 10) : ∃ value : Bytes,
    value.length = 12 ∧ name <+: value ∧ getTypeFromString value ≠ .unknown := by
  have two : (ascii "tx").length = 2 := rfl
  refine ⟨name ++ ascii "tx" ++ List.replicate (10 - name.length) 0, ?_, ?_, tx_known ?_⟩
  · simp only [List.length_append, List.length_replicate, two]
    omega
  · rw [List.append_assoc]
    exact List.prefix_append _ _
  · exact ⟨name, _, rfl⟩

theorem padded_name (type : MessageType) :
    (paddedType type).value.takeWhile (· != 0) = getTypeAsString type := by
  cases type <;> decide

theorem padded_ends (type : MessageType) : 0 ∈ (paddedType type).value.take 11 := by
  cases type <;> decide

/-- Names that are looked for earlier start with other letters, and the padding is too short
    for them. -/
theorem sturdy_found {type : MessageType} {value : Bytes} (strong : type ∈ sturdy)
    (length : value.length = 12) (named : getTypeAsString type <+: value) :
    getTypeFromString value = type := by
  obtain ⟨padding, rfl⟩ := named
  simp only [sturdy, List.mem_cons, List.not_mem_nil, or_false] at strong
  rcases strong with rfl | rfl | rfl
  · unfold getTypeFromString
    exact if_pos (occursIn_iff.mpr (List.prefix_append _ _).isInfix)
  · have five : padding.length = 5 := by simpa [getTypeAsString, ascii] using length
    match padding, five with
    | [a, b, c, d, e], _ => simp [getTypeAsString, getTypeFromString, occursIn, ascii]
  · have two : padding.length = 2 := by simpa [getTypeAsString, ascii] using length
    match padding, two with
    | [a, b], _ => simp [getTypeAsString, getTypeFromString, occursIn, ascii]

/-- A name that is looked for earlier and fits into the padding. -/
def intruder : MessageType → Bytes
  | .whoami => ascii "ack"
  | .addr => ascii "whoami"
  | .inv => ascii "whoami"
  | _ => ascii "inv"

theorem shadowed {type : MessageType} (weak : type ∉ sturdy) (known : type ≠ .unknown) :
    ∃ value : Bytes, value.length = 12 ∧ getTypeAsString type <+: value ∧
      getTypeFromString value ≠ type := by
  refine ⟨(getTypeAsString type ++ intruder type ++ List.replicate 12 0).take 12, ?_, ?_, ?_⟩
  all_goals
    revert weak known
    cases type <;> decide

end Names

theorem announced_unique {data : Bytes} {type other : MessageType} (announces : Announces data type)
    (also : Announces data other) : type = other := by
  have same := congrArg getTypeFromString (announces.2.symm.trans also.2)
  rwa [padded_found, padded_found] at same

section Field
variable {field : Bytes}

/-- Eleven bytes without a zero are decoded as they are, and the last one unless it is zero. -/
theorem eleven_decoded_iff {value : Bytes} (size : field.length = 12) (free : 0 ∉ field.take 11) :
    value.length = 12 ∧ field.takeWhile (· != 0) <+: value ↔
      ∃ last, (field.drop 11 = [last] ∨ field.drop 11 = [0]) ∧ value = field.take 11 ++ [last] := by
  have front : (field.take 11).length = 11 := by simp [size]
  obtain ⟨b, single⟩ := List.length_eq_one_iff.mp (show (field.drop 11).length = 1 by simp [size])
  have taken := zero_free_taken free (field.drop 11)
  rw [List.take_append_drop] at taken
  rw [taken, single]
  by_cases zero : b = 0
  · subst zero
    rw [List.takeWhile_cons_of_neg (by simp), List.append_nil]
    constructor
    · intro both
      obtain ⟨length, rest, rfl⟩ := both
      rw [List.length_append, front] at length
      obtain ⟨last, rfl⟩ := List.length_eq_one_iff.mp (show rest.length = 1 by omega)
      exact ⟨last, Or.inr rfl, rfl⟩
    · intro some
      obtain ⟨last, _, rfl⟩ := some
      exact ⟨by simp [front], List.prefix_append _ _⟩
  · have only : ∀ last, ([b] = [last] ∨ [b] = [0]) ↔ last = b := by
      intro last
      simp [zero, eq_comm]
    rw [List.takeWhile_cons_of_pos (by simpa using zero), List.takeWhile_nil]
    simp only [only, exists_eq_left]
    constructor
    · intro both
      obtain ⟨length, whole⟩ := both
      exact (whole.eq_of_length (by simp [front, length])).symm
    · rintro rfl
      exact ⟨by simp [front], List.prefix_rfl⟩

/-- Where eleven bytes are decoded as they are, there is no announced type. -/
theorem eleven_announce_none {data : Bytes} (free : 0 ∉ (typeField data).take 11)
    (type : MessageType) : ¬ Announces data type := by
  intro announces
  have ends := padded_ends type
  rw [← announces.2] at ends
  exact free ends

theorem long_free (long : 11 ≤ (field.takeWhile (· != 0)).length) : 0 ∉ field.take 11 := by
  intro member
  have inside : field.take 11 <+: field.takeWhile (· != 0) :=
    List.prefix_of_prefix_length_le (List.take_prefix 11 field) (List.takeWhile_prefix _)
      ((List.length_take_le 11 field).trans long)
  exact front_zero_free field (inside.subset member)

end Field

theorem dispatches_exactly_iff {data : Bytes} (whole : data.length = MessageHeader.size) :
    DispatchesExactly data ↔
      (∃ type ∈ sturdy, Announces data type) ∨ Nameless (typeField data) := by
  have size : (typeField data).length = 12 := by
    have length : data.length = 24 := whole
    simp [typeField, length]
  rw [dispatches_iff whole]
  constructor
  · intro values
    by_cases long : 11 ≤ ((typeField data).takeWhile (· != 0)).length
    · right
      have free := long_free long
      refine ⟨free, fun last ends => ?_⟩
      obtain ⟨length, pre⟩ := (eleven_decoded_iff size free).mpr ⟨last, ends, rfl⟩
      by_contra known
      exact eleven_announce_none free _ ((values _ length pre _ known).mp rfl)
    · left
      obtain ⟨value, length, pre, named⟩ := short_named
        (Nat.le_of_lt_succ (Nat.lt_of_not_le long))
      have announces := (values value length pre _ named).mp rfl
      refine ⟨_, ?_, announces⟩
      by_contra weak
      obtain ⟨other, length, pre, differs⟩ := shadowed weak named
      rw [announces.2, padded_name] at values
      exact differs ((values other length pre _ named).mpr announces)
  · intro clear value length pre type known
    rcases clear with ⟨announcedType, strong, announces⟩ | nameless
    · rw [announces.2, padded_name] at pre
      rw [sturdy_found strong length pre]
      constructor
      · rintro rfl
        exact announces
      · exact announced_unique announces
    · obtain ⟨last, ends, rfl⟩ := (eleven_decoded_iff size nameless.1).mp ⟨length, pre⟩
      rw [nameless.2 last ends]
      exact iff_of_false known.symm (eleven_announce_none nameless.1 type)

theorem getaddr_dispatched : DispatchesExactly
    (MessageHeader.byteRepr ⟨UInt32.ofNat MAGIC, paddedType .getaddr, 0⟩) :=
  (dispatches_exactly_iff (by decide)).mpr (Or.inl ⟨.getaddr, by decide, by decide, by decide⟩)

/-- The magic number is zero, and the acknowledgement can be read behind a WhoAmI. -/
theorem other_headers_dispatched :
    ¬ DispatchesExactly (MessageHeader.byteRepr ⟨0, paddedType .getaddr, 0⟩) ∧
    ¬ DispatchesExactly
      (MessageHeader.byteRepr ⟨UInt32.ofNat MAGIC, paddedType .whoami, 0⟩) := by
  constructor
  · intro exact
    have announces := ((dispatches_iff (by decide)).mp exact (paddedType .getaddr).value (by decide)
      (by decide) .getaddr (by decide)).mp (padded_found .getaddr)
    exact absurd announces.1 (by decide)
  · intro exact
    have announces := ((dispatches_iff (by decide)).mp exact (paddedType .whoamiack).value
      (by decide) (by decide) .whoamiack (by decide)).mp (padded_found .whoamiack)
    exact absurd announces.2 (by decide)

end EnsicoinHeaderDispatch
