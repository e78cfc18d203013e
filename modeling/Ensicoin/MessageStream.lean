import Ensicoin.MessageWire

/-!
A stream of messages cut back into their payloads. Each cut reads a header of
MessageHeader::size bytes and then as many bytes as it announces, so two streams
are cut alike when their lengths are read as they were written.
-/
namespace EnsicoinMessageStream
open EnsicoinRuntime EnsicoinNetworkable EnsicoinMessages EnsicoinMessageWire

/-- The payloads of a stream that is nothing but whole frames, and none for any
    other. Each header is decoded from a buffer of its own. -/
def cutFrames (heap : Heap) (stream : Bytes) : Option (List Bytes) :=
  if stream = [] then some []
  else if _whole : MessageHeader.size ≤ stream.length then
    match MessageHeader.ofBuffer.run ⟨⟨stream.take MessageHeader.size, false⟩, heap⟩ with
    | .error _ => none
    | .ok (header, st) =>
      let rest := stream.drop MessageHeader.size
      let payloadLength := header.payloadLength.toNat
      if payloadLength ≤ rest.length then
        (cutFrames st.heap (rest.drop payloadLength)).map (rest.take payloadLength :: ·)
      else none
  else none
termination_by stream.length
decreasing_by
  have header : 0 < MessageHeader.size := by decide
  simp only [List.length_drop]
  omega

/-- The longest type takes 10 of the 12 chars. -/
theorem paddedType_padded (type : MessageType) : 0 ∈ (paddedType type).value := by
  cases type <;> decide

/-- Whatever the payload looks like and whatever follows, one frame is cut off. -/
theorem cutFrames_message (m : Message) (fits : m.contents.payload.length < 2 ^ 64)
    (rest : Bytes) (heap : Heap) : ∃ later, cutFrames heap (m.byteRepr ++ rest) =
      (cutFrames later rest).map (m.contents.payload :: ·) := by
  let header : MessageHeader :=
    ⟨UInt32.ofNat MAGIC, paddedType m.type, sizeT m.contents.payload.length⟩
  have size : header.byteRepr.length = MessageHeader.size := header_length header
  have shape : m.byteRepr ++ rest = header.byteRepr ++ (m.contents.payload ++ rest) :=
    List.append_assoc _ _ _
  have announced : header.payloadLength.toNat = m.contents.payload.length :=
    (UInt64.toNat_ofNat' ..).trans (Nat.mod_eq_of_lt fits)
  have front : (m.byteRepr ++ rest).take MessageHeader.size = header.byteRepr := by
    rw [shape, ← size, List.take_left]
  have back : (m.byteRepr ++ rest).drop MessageHeader.size = m.contents.payload ++ rest := by
    rw [shape, ← size, List.drop_left]
  have long : MessageHeader.size ≤ (m.byteRepr ++ rest).length := by
    rw [shape, List.length_append]
    omega
  have nonempty : m.byteRepr ++ rest ≠ [] := by
    intro empty
    rw [empty] at long
    exact absurd long (by decide)
  obtain ⟨type, st, read⟩ := header.byteRepr_read (paddedType_padded m.type) heap
  refine ⟨st.heap, ?_⟩
  rw [cutFrames, if_neg nonempty, dif_pos long, front, back, read]
  simp only [announced, List.length_append, Nat.le_add_right, ↓reduceIte, List.take_left,
    List.drop_left]

theorem cutFrames_messages (messages : List Message)
    (fit : ∀ m ∈ messages, m.contents.payload.length < 2 ^ 64) (heap : Heap) :
    cutFrames heap (messages.flatMap Message.byteRepr) =
      some (messages.map fun m => m.contents.payload) := by
  induction messages generalizing heap with
  | nil => rw [List.flatMap_nil, cutFrames, if_pos rfl]; rfl
  | cons m messages ih =>
    obtain ⟨later, cut⟩ := cutFrames_message m (fit m (by simp)) (messages.flatMap Message.byteRepr)
      heap
    rw [List.flatMap_cons, cut, ih (fun n member => fit n (by simp [member])) later]
    rfl

theorem two_messages_cut : cutFrames (constantHeap 1)
    ([Message.new .whoAmIAck, Message.new (.getData [])].flatMap Message.byteRepr) =
      some [[], [0]] :=
  cutFrames_messages [Message.new .whoAmIAck, Message.new (.getData [])] (by decide)
    (constantHeap 1)

end EnsicoinMessageStream
