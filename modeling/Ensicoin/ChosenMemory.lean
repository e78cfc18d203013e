import Ensicoin.StringReads
import Ensicoin.WholeReads

/-!
Runs of a decoder in a memory that is chosen for it. What the arrays of readStr and of a
FixedStr hold behind the bytes comes into the value, or does not: a string with a zero among
its bytes is the same in every memory, and one without goes on as the array does.
-/
namespace EnsicoinChosenMemory
open EnsicoinRuntime EnsicoinNetworkBuffer EnsicoinNetworkable EnsicoinStringReads
open EnsicoinWholeReads
variable {α β : Type}

/-- In front of any other bytes and any other memory, dec takes e for a in some memory. -/
def ReadAs (dec : Decoder α) (e : Bytes) (a : α) : Prop :=
  ∀ rest tail, ∃ heap, dec.run ⟨⟨e ++ rest, false⟩, heap⟩ = .ok (a, ⟨⟨rest, false⟩, tail⟩)

theorem readAs_pure (a : α) : ReadAs (pure a) [] a := fun _ tail => ⟨tail, rfl⟩

theorem readAs_bind {dec : Decoder α} {next : α → Decoder β} {e e' : Bytes} {a : α} {b : β}
    (first : ReadAs dec e a) (second : ReadAs (next a) e' b) :
    ReadAs (dec >>= next) (e ++ e') b := by
  intro rest tail
  obtain ⟨mid, runSecond⟩ := second rest tail
  obtain ⟨heap, runFirst⟩ := first (e' ++ rest) mid
  rw [List.append_assoc]
  exact ⟨heap, run_bind_ok.mpr ⟨_, _, runFirst, runSecond⟩⟩

theorem readAs_code {v : UInt64} {e : Bytes} (code : e ∈ codes v) : ReadAs readVarUint e v :=
  fun rest tail => ⟨tail, code_read code rest tail⟩

section Strings

/-- Memory whose next array holds these bytes. -/
def withArray (array : Bytes) (tail : Heap) : Heap
  | 0, i => array.getD i 0
  | n + 1, i => tail n i

theorem newArray_with {array : Bytes} {size : Nat} (filled : array.length = size)
    (buffer : StringStream) (tail : Heap) :
    (newArray size).run ⟨buffer, withArray array tail⟩ = .ok (array, ⟨buffer, tail⟩) := by
  subst filled
  have cells : List.ofFn (fun i : Fin array.length => array.getD i 0) = array := by
    simp [List.ofFn_getElem]
  have rest : (fun n => withArray array tail (n + 1)) = tail := rfl
  simp only [newArray, StateT.run, withArray, cells, rest]

theorem readAs_string {size : Nat} {e array v : Bytes} (filled : array.length = bufferSize)
    (runs : ∀ rest, readLoop size 0 array [] ⟨e ++ rest, false⟩ = .ok (v, ⟨rest, false⟩)) :
    ReadAs (readStr size) e v := fun rest tail =>
  ⟨withArray array tail, (readStr_run _ _).mpr
    ⟨array, _, newArray_with filled _ tail, runs rest, rfl⟩⟩

/-- Bytes that readStr can return from are read in memory of zeros. -/
theorem legible_read {e : Bytes} (bound : e.length ≤ 2 ^ 32) (legible : Legible e) :
    ∃ v, ∀ rest, readLoop e.length 0 (List.replicate bufferSize 0) [] ⟨e ++ rest, false⟩ =
      .ok (v, ⟨rest, false⟩) :=
  readLoop_ends bound (Nat.zero_add _) List.length_replicate legible

/-- A zero among the bytes takes the place of any in the array. -/
theorem any_array {e array other : Bytes} (zero : 0 ∈ e) (filled : array.length = bufferSize)
    (filled' : other.length = bufferSize) (rest : Bytes) :
    readLoop e.length 0 array [] ⟨e ++ rest, false⟩ =
      readLoop e.length 0 other [] ⟨e ++ rest, false⟩ := by
  by_cases long : bufferSize < e.length
  · generalize run : readLoop e.length 0 other [] ⟨e ++ rest, false⟩ = result
    rw [readLoop, if_pos (by omega), first_chunk long, chunk_fills long filled'] at run
    rw [readLoop, if_pos (by omega), first_chunk long, chunk_fills long filled]
    exact run
  · have one : ∀ a : Bytes, readLoop e.length 0 a [] ⟨e ++ rest, false⟩ =
        .ok (e.takeWhile (· != 0), ⟨rest, false⟩) := fun a =>
      (readLoop_single rest (by omega)).mpr ⟨cString_terminated zero, rfl⟩
    rw [one, one]

/-- Without a zero in them, bytes that fill the array are no C string. -/
theorem legible_zero_free {e : Bytes} (legible : Legible e) (free : 0 ∉ e) :
    e.length < bufferSize := by
  rcases Nat.lt_or_ge bufferSize e.length with long | short
  · obtain ⟨zero, _⟩ := (endsInside_long long).mp legible
    exact absurd (List.mem_of_mem_take zero) free
  · have zero := (endsInside_short short).mp legible
    rcases List.mem_append.mp zero with front | back
    · exact absurd front free
    · have room := List.length_pos_of_mem back
      rw [List.length_drop, List.length_replicate] at room
      omega

/-- Memory of cs with a zero in the last char of the array. -/
theorem zero_free_read {e : Bytes} {c : UInt8} (short : e.length < bufferSize) (free : 0 ∉ e)
    (nonzero : c ≠ 0) :
    ReadAs (readStr e.length) e (e ++ List.replicate (bufferSize - 1 - e.length) c) := by
  have filled : (List.replicate (bufferSize - 1) c ++ [0]).length = bufferSize := by
    rw [List.length_append, List.length_replicate]
    rfl
  refine readAs_string filled fun rest => ?_
  have replaced : overwrite e (List.replicate (bufferSize - 1) c ++ [0]) =
      e ++ List.replicate (bufferSize - 1 - e.length) c ++ [0] := by
    have inside : e.length ≤ (List.replicate (bufferSize - 1) c).length := by
      rw [List.length_replicate]
      omega
    rw [overwrite, List.drop_append_of_le_length inside, List.drop_replicate, List.append_assoc]
  refine (readLoop_single rest short.le).mpr ⟨?_, rfl⟩
  rw [replaced]
  refine (cString_whole_iff ?_).mpr rfl
  simp [free, nonzero.symm]

/-- Bytes up to the last char come back as they are, or readStr leaves its array. -/
theorem full_read_back {e rest v : Bytes} {heap : Heap} {t : ReadState}
    (length : e.length = bufferSize - 1) (free : 0 ∉ e)
    (run : (readStr e.length).run ⟨⟨e ++ rest, false⟩, heap⟩ = .ok (v, t)) :
    v = e ∧ t.buffer = ⟨rest, false⟩ := by
  obtain ⟨array, _, fresh, loop, _⟩ := (readStr_run _ _).mp run
  obtain ⟨found, left⟩ := (readLoop_single rest (by omega)).mp loop
  obtain ⟨last, one⟩ : ∃ last, array.drop e.length = [last] := by
    apply List.length_eq_one_iff.mp
    rw [List.length_drop, newArray_length fresh, length]
    rfl
  -- the zero that readStr met can only be the char behind the bytes
  rw [overwrite, one] at found
  have zero := cString_has_zero found
  simp only [List.mem_append, free, false_or, List.mem_singleton] at zero
  rw [(cString_whole_iff free).mpr (by rw [← zero]; rfl)] at found
  cases found
  exact ⟨rfl, left.symm⟩

end Strings

section Arrays

theorem zero_free_whole {e : Bytes} (free : 0 ∉ e) : e.takeWhile (· != 0) = e := by
  have taken := zero_free_taken free []
  rwa [List.append_nil, List.takeWhile_nil, List.append_nil] at taken

/-- Memory of zeros and then of cs: the value goes on with cs from the first zero on. -/
theorem fixedStr_filled {e : Bytes} {size : Nat} (length : e.length = size)
    (short : size < bufferSize) (c : UInt8) : ∃ f : FixedStr size,
      ReadAs (FixedStr.ofBuffer size) e f ∧ f.value = e.takeWhile (· != 0) ++
        List.replicate (size - (e.takeWhile (· != 0)).length) c := by
  have zeroed : (List.replicate bufferSize (0 : UInt8)).length = bufferSize := List.length_replicate
  have filled : (List.replicate size c).length = size := List.length_replicate
  have found : cString (overwrite e (List.replicate bufferSize 0)) =
      some (e.takeWhile (· != 0)) := by
    by_cases zero : 0 ∈ e
    · exact cString_terminated zero
    · rw [zero_free_whole zero, overwrite, List.drop_replicate]
      refine (cString_whole_iff zero).mpr ?_
      rw [List.head?_replicate, if_neg (by omega)]
  have read : ReadAs (readStr size) e (e.takeWhile (· != 0)) := by
    rw [← length]
    exact readAs_string zeroed fun rest => (readLoop_single rest (by omega)).mpr ⟨found, rfl⟩
  have less := (List.takeWhile_prefix (l := e) (· != (0 : UInt8))).length_le
  have fits : (overwrite (e.takeWhile (· != 0)) (List.replicate size c)).length = size := by
    rw [overwrite_length _ _ (by rw [filled]; omega), filled]
  refine ⟨⟨_, fits⟩, ?_, by simp only [overwrite, List.drop_replicate]⟩
  have written : ReadAs (FixedStr.ofString size (e.takeWhile (· != 0))) [] ⟨_, fits⟩ :=
    fun rest tail => ⟨withArray (List.replicate size c) tail,
      run_bind_ok.mpr ⟨_, _, newArray_with filled _ tail, by rw [dif_pos fits]; rfl⟩⟩
  have both := readAs_bind read written
  rwa [List.append_nil] at both

/-- Bytes without a zero come back as they are, or the string is too long for the array. -/
theorem fixedStr_whole {e rest : Bytes} {heap : Heap} {size : Nat} {f : FixedStr size}
    {t : ReadState} (length : e.length = size) (short : size ≤ bufferSize) (free : 0 ∉ e)
    (run : (FixedStr.ofBuffer size).run ⟨⟨e ++ rest, false⟩, heap⟩ = .ok (f, t)) :
    f.value = e := by
  obtain ⟨str, mid, runStr, run⟩ := run_bind_ok.mp run
  obtain ⟨array, _, _, loop, _⟩ := (readStr_run _ _).mp runStr
  rw [← length] at loop
  obtain ⟨found, _⟩ := (readLoop_single rest (by omega)).mp loop
  have longer : ∃ tail, str = e ++ tail := by
    unfold cString at found
    split at found
    · cases found
      exact ⟨_, zero_free_taken free _⟩
    · cases found
  obtain ⟨tail, rfl⟩ := longer
  obtain ⟨filled, _, _, run⟩ := run_bind_ok.mp run
  split at run
  · rename_i fits
    obtain ⟨rfl, _⟩ := run_pure_ok.mp run
    simp only [overwrite, List.append_assoc] at fits ⊢
    rw [List.length_append, length] at fits
    rw [List.eq_nil_of_length_eq_zero (Nat.add_eq_left.mp fits), List.append_nil]
  · cases run

end Arrays

end EnsicoinChosenMemory
