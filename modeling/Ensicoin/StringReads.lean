import Ensicoin.ConstantMemory

/-!
readStr as one read. What it returns ends at a zero of its array, so a string comes back
whole only if the array is longer than it and holds a zero right behind it; a read that
runs out of bytes gives the empty string if each append on the way meets a zero.
-/
namespace EnsicoinStringReads
open EnsicoinRuntime EnsicoinNetworkBuffer EnsicoinConstantMemory

def ReadsExactly (bytes : Bytes) (length : UInt64) (heap : Heap) : Prop :=
  if length.toNat ≤ bytes.length then ∃ later, (readStr length.toNat).run ⟨⟨bytes, false⟩, heap⟩ =
    .ok (bytes.take length.toNat, ⟨⟨bytes.drop length.toNat, false⟩, later⟩)
  else ∃ t, (readStr length.toNat).run ⟨⟨bytes, false⟩, heap⟩ = .ok ([], t)

/-- The array of readStr before anything is read into it. -/
def fresh (heap : Heap) : Bytes := List.ofFn fun i : Fin bufferSize => heap 0 i

def Ends (bytes : Bytes) (length : Nat) (heap : Heap) : Prop :=
  length < bufferSize ∧ 0 ∉ bytes.take length ∧ heap 0 length = 0

/-- Each whole chunk holds a zero, and where the bytes run out inside the loop the last
    4096 of the array and the bytes do. -/
def Survives (length readLength : Nat) (array rest : Bytes) : Prop :=
  (∀ k, (k + 1) * bufferSize ≤ rest.length → 0 ∈ (rest.drop (k * bufferSize)).take bufferSize) ∧
  (bufferSize < length - (readLength + rest.length / bufferSize * bufferSize) % 2 ^ 32 →
    0 ∈ (array ++ rest).drop rest.length)

theorem fresh_length (heap : Heap) : (fresh heap).length = bufferSize := List.length_ofFn

theorem fresh_next (heap : Heap) {length : Nat} (inside : length < bufferSize) :
    ((fresh heap).drop length).head? = some (heap 0 length) := by
  rw [List.head?_drop, fresh, List.getElem?_ofFn]
  simp [inside]

theorem readStr_loop (length : Nat) (bytes : Bytes) (heap : Heap) {v : Bytes}
    {after : StringStream} :
    (∃ later, (readStr length).run ⟨⟨bytes, false⟩, heap⟩ = .ok (v, ⟨after, later⟩)) ↔
      readLoop length 0 (fresh heap) [] ⟨bytes, false⟩ = .ok (v, after) := by
  constructor
  · intro run
    obtain ⟨later, run⟩ := run
    obtain ⟨array, mid, got, loop, _⟩ := (readStr_run _ _).mp run
    simp only [newArray, StateT.run, Except.ok.injEq, Prod.mk.injEq] at got
    rw [fresh, got.1]
    exact loop
  · intro loop
    exact ⟨_, (readStr_run _ _).mpr ⟨fresh heap, _, rfl, loop, rfl⟩⟩

theorem zero_free_taken {front : Bytes} (free : 0 ∉ front) (back : Bytes) :
    (front ++ back).takeWhile (· != 0) = front ++ back.takeWhile (· != 0) := by
  apply List.takeWhile_append_of_pos
  intro b member
  simpa using fun zero : b = 0 => free (zero ▸ member)

theorem cString_whole_iff {data tail : Bytes} (free : 0 ∉ data) :
    cString (data ++ tail) = some data ↔ tail.head? = some 0 := by
  have inside : 0 ∈ data ++ tail ↔ 0 ∈ tail := by simp [free]
  simp only [cString, zero_free_taken free tail, inside]
  cases tail with
  | nil => simp
  | cons b tail =>
    simp only [List.head?_cons, Option.some.injEq]
    by_cases zero : b = 0
    · simp [zero]
    · simp only [zero, iff_false]
      split
      · simp [zero]
      · exact fun none => by cases none

theorem full_read {bytes : Bytes} {count : Nat} (enough : count ≤ bytes.length) :
    StringStream.read ⟨bytes, false⟩ count = (bytes.take count, ⟨bytes.drop count, false⟩) := by
  simp [StringStream.read, enough]

theorem short_read {bytes : Bytes} {count : Nat} (scarce : bytes.length < count) :
    StringStream.read ⟨bytes, false⟩ count = (bytes, ⟨[], true⟩) := by
  simp [StringStream.read, Nat.not_le_of_lt scarce]

theorem readStr_found {data chunk : Bytes} {size : Nat} {heap : Heap} (whole : data.length = size)
    (single : size ≤ bufferSize) (found : cString (overwrite data (fresh heap)) = some chunk)
    (rest : Bytes) : (readStr size).run ⟨⟨data ++ rest, false⟩, heap⟩ =
      .ok (chunk, ⟨⟨rest, false⟩, fun n => heap (n + 1)⟩) := by
  subst whole
  have loop := (readLoop_single rest single).mpr ⟨found, rfl⟩
  exact (readStr_run _ _).mpr ⟨fresh heap, _, rfl, loop, rfl⟩

theorem whole_iff {bytes : Bytes} {length : Nat} {heap : Heap} (enough : length ≤ bytes.length) :
    readLoop length 0 (fresh heap) [] ⟨bytes, false⟩ =
      .ok (bytes.take length, ⟨bytes.drop length, false⟩) ↔ Ends bytes length heap := by
  have limit : bufferSize = 4096 := rfl
  have pass (small : length ≤ bufferSize) : readLoop length 0 (fresh heap) [] ⟨bytes, false⟩ =
      .ok (bytes.take length, ⟨bytes.drop length, false⟩) ↔
        cString (overwrite (bytes.take length) (fresh heap)) = some (bytes.take length) := by
    have taken := List.length_take_of_le enough
    have single : (bytes.take length).length ≤ bufferSize := taken.trans_le small
    have both : readLoop (bytes.take length).length 0 (fresh heap) []
        ⟨bytes.take length ++ bytes.drop length, false⟩ =
          .ok (bytes.take length, ⟨bytes.drop length, false⟩) ↔ _ := readLoop_single _ single
    rw [taken, List.take_append_drop] at both
    rw [both, and_iff_left rfl]
  constructor
  · intro loop
    obtain ⟨_, _, _, _, _, _, _, free⟩ := readLoop_alive length 0 _ _ _ (fresh_length heap) loop rfl
    replace free := free List.not_mem_nil
    by_cases more : bufferSize < length - 0
    · -- the first chunk was appended, so there was a zero in it
      have first : bufferSize ≤ bytes.length := by omega
      rw [readLoop, if_pos more, full_read first] at loop
      simp only at loop
      split at loop
      · cases loop
      · rename_i found
        have zero := cString_has_zero found
        rw [overwrite, List.length_take_of_le first, ← fresh_length heap, List.drop_length,
          List.append_nil, fresh_length] at zero
        have inside : 0 ∈ bytes.take length :=
          List.take_subset_take_left bytes (by omega : bufferSize ≤ length) zero
        exact absurd inside free
    · have small : length ≤ bufferSize := by omega
      have found := (pass small).mp loop
      have short := cString_shorter found
      rw [overwrite_length _ _ (by rw [List.length_take_of_le enough, fresh_length]; exact small),
        fresh_length, List.length_take_of_le enough] at short
      rw [overwrite, cString_whole_iff free, List.length_take_of_le enough,
        fresh_next heap short] at found
      exact ⟨short, free, Option.some.inj found⟩
  · intro ends
    obtain ⟨short, free, zero⟩ := ends
    rw [pass short.le, overwrite, cString_whole_iff free, List.length_take_of_le enough,
      fresh_next heap short, zero]

/-- A whole chunk replaces the array, and the loop goes on with the rest. -/
theorem survives_chunk {length readLength : Nat} {array rest : Bytes}
    (size : array.length = bufferSize) (enough : bufferSize ≤ rest.length) :
    Survives length readLength array rest ↔ 0 ∈ rest.take bufferSize ∧
      Survives length ((readLength + bufferSize) % 2 ^ 32) (rest.take bufferSize)
        (rest.drop bufferSize) := by
  have passes : (readLength + rest.length / bufferSize * bufferSize) % 2 ^ 32 =
      ((readLength + bufferSize) % 2 ^ 32 +
        (rest.drop bufferSize).length / bufferSize * bufferSize) % 2 ^ 32 := by
    simp only [List.length_drop, bufferSize] at enough ⊢
    omega
  have last : (array ++ rest).drop rest.length = rest.drop (rest.drop bufferSize).length := by
    rw [List.drop_append, List.drop_of_length_le (by omega), List.nil_append, List.length_drop,
      size]
  have next : ∀ k, (rest.drop bufferSize).drop (k * bufferSize) =
      rest.drop ((k + 1) * bufferSize) := by
    intro k
    rw [List.drop_drop, Nat.succ_mul, Nat.add_comm]
  have reach : ∀ k, (k + 1) * bufferSize ≤ (rest.drop bufferSize).length ↔
      (k + 1 + 1) * bufferSize ≤ rest.length := by
    intro k
    simp only [List.length_drop, bufferSize] at enough ⊢
    omega
  rw [Survives, Survives, List.take_append_drop, passes, last]
  simp only [next, reach]
  constructor
  · intro both
    obtain ⟨chunks, out⟩ := both
    exact ⟨by simpa using chunks 0 (by omega), fun k => chunks (k + 1), out⟩
  · intro both
    obtain ⟨first, chunks, out⟩ := both
    refine ⟨?_, out⟩
    intro k inside
    cases k with
    | zero => simpa using first
    | succ k => exact chunks k inside

theorem survives_rest {length readLength : Nat} {array rest : Bytes}
    (size : array.length = bufferSize) (small : readLength < 2 ^ 32)
    (scarce : rest.length < bufferSize) :
    Survives length readLength array rest ↔
      (bufferSize < length - readLength → 0 ∈ overwrite rest array) := by
  have passes : (readLength + rest.length / bufferSize * bufferSize) % 2 ^ 32 = readLength := by
    rw [Nat.div_eq_of_lt scarce, Nat.zero_mul, Nat.add_zero, Nat.mod_eq_of_lt small]
  have last : 0 ∈ (array ++ rest).drop rest.length ↔ 0 ∈ overwrite rest array := by
    rw [List.drop_append_of_le_length (by omega), overwrite, List.mem_append, List.mem_append,
      or_comm]
  rw [Survives, passes, last]
  constructor
  · intro both
    exact both.2
  · intro out
    refine ⟨?_, out⟩
    intro k inside
    simp only [bufferSize] at inside scarce
    omega

theorem empty_iff (length readLength : Nat) (array acc rest : Bytes)
    (size : array.length = bufferSize) (small : readLength < 2 ^ 32)
    (scarce : readLength + rest.length < length) :
    (∃ after, readLoop length readLength array acc ⟨rest, false⟩ = .ok ([], after)) ↔
      Survives length readLength array rest := by
  induction left : rest.length using Nat.strongRecOn generalizing readLength array acc rest with
  | ind _ ih =>
    subst left
    by_cases enough : bufferSize ≤ rest.length
    · have more : bufferSize < length - readLength := by omega
      rw [survives_chunk size enough, readLoop, if_pos more, full_read enough]
      have whole : overwrite (rest.take bufferSize) array = rest.take bufferSize := by
        rw [overwrite, List.length_take_of_le enough, ← size, List.drop_length, List.append_nil]
      simp only [whole, List.length_take_of_le enough, ↓reduceDIte]
      by_cases zero : 0 ∈ rest.take bufferSize
      · have shorter : (rest.drop bufferSize).length < rest.length := by
          simp only [List.length_drop, bufferSize] at enough ⊢
          omega
        have wrapped := Nat.mod_le (readLength + bufferSize) (2 ^ 32)
        simp only [cString, zero, ↓reduceIte, true_and]
        exact ih _ shorter _ _ _ _ (List.length_take_of_le enough) (Nat.mod_lt _ (by decide))
          (by rw [List.length_drop]; omega) rfl
      · simp [cString, zero]
    · have few : rest.length < bufferSize := Nat.lt_of_not_le enough
      rw [survives_rest size small few]
      by_cases more : bufferSize < length - readLength
      · rw [readLoop, if_pos more, short_read few]
        simp only [more, true_implies, few.ne, ↓reduceDIte]
        by_cases zero : 0 ∈ overwrite rest array
        · simp [cString, zero]
        · simp [cString, zero]
      · have out : rest.length < length - readLength := by omega
        rw [readLoop, if_neg more, short_read out]
        simp [more, out.ne]

theorem reads_exactly_iff (bytes : Bytes) (length : UInt64) (heap : Heap) :
    ReadsExactly bytes length heap ↔
      if length.toNat ≤ bytes.length then Ends bytes length.toNat heap
      else Survives length.toNat 0 (fresh heap) bytes := by
  unfold ReadsExactly
  split
  · rename_i enough
    rw [readStr_loop, whole_iff enough]
  · rename_i scarce
    rw [← empty_iff length.toNat 0 (fresh heap) [] bytes (fresh_length heap) (by decide) (by omega)]
    constructor
    · intro empty
      obtain ⟨⟨after, later⟩, run⟩ := empty
      exact ⟨after, (readStr_loop _ _ _).mp ⟨later, run⟩⟩
    · intro empty
      obtain ⟨after, loop⟩ := empty
      obtain ⟨later, run⟩ := (readStr_loop _ _ _).mpr loop
      exact ⟨_, run⟩

theorem not_read_whole {bytes : Bytes} {length : UInt64}
    (enough : length.toNat ≤ bytes.length)
    (lost : bufferSize ≤ length.toNat ∨ 0 ∈ bytes.take length.toNat) (heap : Heap) :
    ¬ ReadsExactly bytes length heap := by
  rw [ReadsExactly, if_pos enough, readStr_loop, whole_iff enough]
  intro ends
  rcases lost with long | zero
  · exact Nat.not_lt_of_le long ends.1
  · exact ends.2.1 zero

/-- No memory gives back a zero byte, or one byte more than the array holds. -/
theorem zero_byte_ends_string : (∀ heap, ¬ ReadsExactly [0x61, 0x00, 0x62] 3 heap) ∧
    ∀ heap, ¬ ReadsExactly (List.replicate 4097 0x61) 4097 heap := by
  constructor
  · exact not_read_whole (by decide) (Or.inr (by decide))
  · exact not_read_whole (Nat.le_of_eq List.length_replicate.symm) (Or.inl (by decide))

end EnsicoinStringReads
