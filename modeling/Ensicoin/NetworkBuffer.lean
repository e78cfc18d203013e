import Ensicoin.Runtime

/-!
NetworkBuffer: the integers and strings read off a received byte string. A read
that runs out of bytes logs an error, leaves the stream failed and yields 0 or
the empty string; the log is not modelled. readStr fills an array of 4096 chars
and appends it as a C string, so its result stops at the first zero of the array
and not after the bytes that were read.
-/
namespace EnsicoinNetworkBuffer
open BigEndianWords EnsicoinRuntime

def readBigEndian (width : Nat) : Decoder Nat := do
  let binaryRepr ← read width
  if binaryRepr.length ≠ width then return 0
  return ofBytes binaryRepr

def readUint16 : Decoder UInt16 := UInt16.ofNat <$> readBigEndian 2
def readUint32 : Decoder UInt32 := UInt32.ofNat <$> readBigEndian 4
def readUint64 : Decoder UInt64 := UInt64.ofNat <$> readBigEndian 8

def readVarUint : Decoder UInt64 := do
  match ← extract with
  | none => return 0
  | some binaryStart =>
    if binaryStart < 0xfd then return binaryStart.toUInt64
    else if binaryStart = 0xfd then UInt64.ofNat <$> readBigEndian 2
    else if binaryStart = 0xfe then UInt64.ofNat <$> readBigEndian 4
    else UInt64.ofNat <$> readBigEndian 8

def bufferSize : Nat := 4096

theorem full_read_consumes {s : StringStream} {count : Nat} (positive : 0 < count)
    (full : (s.read count).1.length = count) :
    (s.read count).2.unread.length < s.unread.length := by
  unfold StringStream.read at full ⊢
  split at full
  · simp at full; omega
  · rename_i good
    split at full
    · rename_i enough
      simp only [good, enough, Bool.false_eq_true, ↓reduceIte, List.length_drop]
      omega
    · rename_i scarce
      exact absurd (Nat.le_of_eq full.symm) scarce

/-- The loop of readStr and the read after it. readLength is an unsigned int,
    length a size_t; the chunk is appended before gcount is looked at in the
    loop, and after it at the end. -/
def readLoop (length readLength : Nat) (stringBuffer readString : Bytes)
    (buffer : StringStream) : Except Fault (Bytes × StringStream) :=
  if bufferSize < length - readLength then
    match cString (overwrite (buffer.read bufferSize).1 stringBuffer) with
    | none => .error .pastArray
    | some chunk =>
      if _full : (buffer.read bufferSize).1.length = bufferSize then
        readLoop length ((readLength + bufferSize) % 2 ^ 32)
          (overwrite (buffer.read bufferSize).1 stringBuffer) (readString ++ chunk)
          (buffer.read bufferSize).2
      else .ok ([], (buffer.read bufferSize).2)
  else if (buffer.read (length - readLength)).1.length = length - readLength then
    match cString (overwrite (buffer.read (length - readLength)).1 stringBuffer) with
    | none => .error .pastArray
    | some chunk => .ok (readString ++ chunk, (buffer.read (length - readLength)).2)
  else .ok ([], (buffer.read (length - readLength)).2)
termination_by buffer.unread.length
decreasing_by exact full_read_consumes (by decide) _full

def readStr (length : Nat) : Decoder Bytes := do
  let stringBuffer ← newArray bufferSize
  fun s => match readLoop length 0 stringBuffer [] s.buffer with
    | .error fault => .error fault
    | .ok (readString, buffer) => .ok (readString, { s with buffer := buffer })

/-- The calls of the loop that return, by how each pass ends: with a full chunk, at the end of
    the bytes, or after the loop with all bytes that are left to read or with fewer. -/
inductive LoopRun (length : Nat) :
    Nat → Bytes → Bytes → StringStream → Bytes → StringStream → Prop where
  | chunk {readLength : Nat} {array acc part v : Bytes} {buffer after : StringStream}
      (more : bufferSize < length - readLength)
      (found : cString (overwrite (buffer.read bufferSize).1 array) = some part)
      (full : (buffer.read bufferSize).1.length = bufferSize)
      (later : LoopRun length ((readLength + bufferSize) % 2 ^ 32)
        (overwrite (buffer.read bufferSize).1 array) (acc ++ part) (buffer.read bufferSize).2
        v after) :
      LoopRun length readLength array acc buffer v after
  | cutChunk {readLength : Nat} {array acc part : Bytes} {buffer : StringStream}
      (more : bufferSize < length - readLength)
      (found : cString (overwrite (buffer.read bufferSize).1 array) = some part)
      (short : (buffer.read bufferSize).1.length ≠ bufferSize) :
      LoopRun length readLength array acc buffer [] (buffer.read bufferSize).2
  | last {readLength : Nat} {array acc part : Bytes} {buffer : StringStream}
      (ends : ¬ bufferSize < length - readLength)
      (full : (buffer.read (length - readLength)).1.length = length - readLength)
      (found : cString (overwrite (buffer.read (length - readLength)).1 array) = some part) :
      LoopRun length readLength array acc buffer (acc ++ part)
        (buffer.read (length - readLength)).2
  | cutLast {readLength : Nat} {array acc : Bytes} {buffer : StringStream}
      (ends : ¬ bufferSize < length - readLength)
      (short : (buffer.read (length - readLength)).1.length ≠ length - readLength) :
      LoopRun length readLength array acc buffer [] (buffer.read (length - readLength)).2

theorem readLoop_iff {length readLength : Nat} {array acc v : Bytes}
    {buffer after : StringStream} :
    readLoop length readLength array acc buffer = .ok (v, after) ↔
      LoopRun length readLength array acc buffer v after := by
  constructor
  · intro run
    induction readLength, array, acc, buffer using readLoop.induct length with
    | case1 readLength array acc buffer more endless =>
      rw [readLoop, if_pos more, endless] at run
      cases run
    | case2 readLength array acc buffer more part found full ih =>
      rw [readLoop, if_pos more, found] at run
      simp only [full, ↓reduceDIte] at run
      exact .chunk more found full (ih run)
    | case3 readLength array acc buffer more part found short =>
      rw [readLoop, if_pos more, found] at run
      simp only [short, ↓reduceDIte] at run
      cases run
      exact .cutChunk more found short
    | case4 readLength array acc buffer ends full endless =>
      rw [readLoop, if_neg ends, if_pos full, endless] at run
      cases run
    | case5 readLength array acc buffer ends full part found =>
      rw [readLoop, if_neg ends, if_pos full, found] at run
      cases run
      exact .last ends full found
    | case6 readLength array acc buffer ends short =>
      rw [readLoop, if_neg ends, if_neg short] at run
      cases run
      exact .cutLast ends short
  · intro run
    induction run with
    | chunk more found full _ ih =>
      rw [readLoop, if_pos more, found]
      simp only [full, ↓reduceDIte]
      exact ih
    | cutChunk more found short =>
      rw [readLoop, if_pos more, found]
      simp only [short, ↓reduceDIte]
    | last ends full found => rw [readLoop, if_neg ends, if_pos full, found]
    | cutLast ends short => rw [readLoop, if_neg ends, if_neg short]

/-- One pass over bytes that are there gives the C string in the array they were read into. -/
theorem readLoop_single (rest : Bytes) {data array v : Bytes} {after : StringStream}
    (single : data.length ≤ bufferSize) :
    readLoop data.length 0 array [] ⟨data ++ rest, false⟩ = .ok (v, after) ↔
      cString (overwrite data array) = some v ∧ ⟨rest, false⟩ = after := by
  rw [readLoop, if_neg (by omega), Nat.sub_zero, stream_read_append, if_pos rfl]
  cases cString (overwrite data array) with
  | none => simp
  | some chunk => simp

theorem read_run (count : Nat) (s : ReadState) : (read count).run s =
    .ok ((s.buffer.read count).1, { s with buffer := (s.buffer.read count).2 }) := rfl

theorem extract_run (s : ReadState) : extract.run s =
    .ok (s.buffer.extract.1, { s with buffer := s.buffer.extract.2 }) := rfl

theorem readBigEndian_run (width : Nat) (s : ReadState) : (readBigEndian width).run s =
    .ok (if (s.buffer.read width).1.length ≠ width then 0 else ofBytes (s.buffer.read width).1,
      { s with buffer := (s.buffer.read width).2 }) := by
  rw [readBigEndian, StateT.run_bind, read_run]
  simp only [bind, Except.bind]
  split <;> rfl

theorem readBigEndian_alive {width value : Nat} {s t : ReadState}
    (run : (readBigEndian width).run s = .ok (value, t)) (alive : t.buffer.fail = false) :
    s.buffer.fail = false ∧ t.heap = s.heap ∧ ∃ data, data.length = width ∧
      s.buffer.unread = data ++ t.buffer.unread ∧ value = ofBytes data := by
  rw [readBigEndian_run] at run
  simp only [Except.ok.injEq, Prod.mk.injEq] at run
  obtain ⟨result, rfl⟩ := run
  obtain ⟨good, full, split⟩ := stream_read_full _ _ alive
  refine ⟨good, rfl, _, full, split, ?_⟩
  rw [← result, if_neg (by simpa using full)]

theorem readBigEndian_bytes {data rest : Bytes} {width : Nat} (whole : data.length = width)
    (heap : Heap) : (readBigEndian width).run ⟨⟨data ++ rest, false⟩, heap⟩ =
      .ok (ofBytes data, ⟨⟨rest, false⟩, heap⟩) := by
  subst whole
  rw [readBigEndian_run]
  simp [stream_read_append]

/-- A read of fixed width, by the conversion it makes of the value. -/
theorem readUint_bytes {α : Type} (convert : Nat → α) {data rest : Bytes} {width : Nat}
    (whole : data.length = width) (heap : Heap) :
    (convert <$> readBigEndian width).run ⟨⟨data ++ rest, false⟩, heap⟩ =
      .ok (convert (ofBytes data), ⟨⟨rest, false⟩, heap⟩) :=
  run_map_ok.mpr ⟨_, readBigEndian_bytes whole heap, rfl⟩

theorem readStr_run (length : Nat) (s : ReadState) {v : Bytes} {t : ReadState} :
    (readStr length).run s = .ok (v, t) ↔ ∃ stringBuffer mid,
      (newArray bufferSize).run s = .ok (stringBuffer, mid) ∧
      readLoop length 0 stringBuffer [] s.buffer = .ok (v, t.buffer) ∧ t.heap = mid.heap := by
  have frame : ∀ {array : Bytes} {mid : ReadState},
      (newArray bufferSize).run s = .ok (array, mid) → mid.buffer = s.buffer := by
    intro array mid run
    simp only [newArray, StateT.run, Except.ok.injEq, Prod.mk.injEq] at run
    rw [← run.2]
  rw [readStr, run_bind_ok]
  constructor
  · rintro ⟨array, mid, fresh, run⟩
    simp only [StateT.run] at run
    split at run
    · simp at run
    · rename_i loop
      simp only [Except.ok.injEq, Prod.mk.injEq] at run
      obtain ⟨rfl, rfl⟩ := run
      exact ⟨array, mid, fresh, by rw [← frame fresh, loop], rfl⟩
  · rintro ⟨array, mid, fresh, loop, same⟩
    refine ⟨array, mid, fresh, ?_⟩
    simp only [StateT.run, frame fresh, loop]
    obtain ⟨buffer, heap⟩ := t
    simp at same
    simp [same]

theorem readStr_bytes {data rest v : Bytes} {heap : Heap} {t : ReadState} {size : Nat}
    (whole : data.length = size) (single : size ≤ bufferSize)
    (run : (readStr size).run ⟨⟨data ++ rest, false⟩, heap⟩ = .ok (v, t)) :
    t.buffer = ⟨rest, false⟩ := by
  subst whole
  obtain ⟨array, mid, _, loop, _⟩ := (readStr_run _ _).mp run
  exact ((readLoop_single _ single).mp loop).2.symm

/-- A zero among the bytes ends the string before the contents of the array count. -/
theorem readStr_terminated {data rest : Bytes} {size : Nat} (whole : data.length = size)
    (single : size ≤ bufferSize) (zero : 0 ∈ data) (heap : Heap) :
    (readStr size).run ⟨⟨data ++ rest, false⟩, heap⟩ =
      .ok (data.takeWhile (· != 0), ⟨⟨rest, false⟩, fun n => heap (n + 1)⟩) := by
  subst whole
  refine (readStr_run _ _).mpr ⟨_, _, rfl, ?_, rfl⟩
  exact (readLoop_single rest single).mpr ⟨cString_terminated zero, rfl⟩

end EnsicoinNetworkBuffer
