import Ensicoin.VarUintCodes

/-!
Decoders run over memory in which every unwritten byte is the same nonzero c.
`Yields c dec post` is a triple: from such memory, every run of dec that returns
leaves such memory and relates the states around it and its result by post. A C
string in such memory ends inside the bytes that were read, or is undefined.
-/
namespace EnsicoinConstantMemory
open EnsicoinRuntime EnsicoinNetworkBuffer EnsicoinNetworkable EnsicoinVarUintCodes
variable {α β : Type} {c : UInt8}

def Yields (c : UInt8) (dec : Decoder α) (post : ReadState → α → ReadState → Prop) : Prop :=
  ∀ s a t, s.heap = constantHeap c → dec.run s = .ok (a, t) → t.heap = constantHeap c ∧ post s a t

theorem yields_pure (a : α) : Yields c (pure a) fun s b t => b = a ∧ t = s := by
  intro s b t steady run
  obtain ⟨rfl, rfl⟩ := run_pure_ok.mp run
  exact ⟨steady, rfl, rfl⟩

theorem yields_bind {x : Decoder α} {f : α → Decoder β}
    {P : ReadState → α → ReadState → Prop} {Q : α → ReadState → β → ReadState → Prop}
    (first : Yields c x P) (second : ∀ a, Yields c (f a) (Q a)) :
    Yields c (x >>= f) fun s b t => ∃ a m, P s a m ∧ Q a m b t := by
  intro s b t steady run
  obtain ⟨a, m, runFirst, runSecond⟩ := run_bind_ok.mp run
  obtain ⟨between, hp⟩ := first s a m steady runFirst
  obtain ⟨after, hq⟩ := second a m b t between runSecond
  exact ⟨after, a, m, hp, hq⟩

theorem yields_map {x : Decoder α} {f : α → β} {P : ReadState → α → ReadState → Prop}
    (given : Yields c x P) : Yields c (f <$> x) fun s b t => ∃ a, P s a t ∧ f a = b := by
  intro s b t steady run
  obtain ⟨a, runX, value⟩ := run_map_ok.mp run
  obtain ⟨after, hp⟩ := given s a t steady runX
  exact ⟨after, a, hp, value⟩

theorem yields_weaken {x : Decoder α} {P Q : ReadState → α → ReadState → Prop}
    (given : Yields c x P) (weaker : ∀ s a t, P s a t → Q s a t) : Yields c x Q :=
  fun s a t steady run => (given s a t steady run).imp_right (weaker s a t)

theorem yields_elements {element : Decoder α} {P : ReadState → α → ReadState → Prop}
    {Q : List α → ReadState → ReadState → Prop} (given : Yields c element P)
    (none : ∀ s, Q [] s s) (more : ∀ s a m as t, P s a m → Q as m t → Q (a :: as) s t)
    (size : Nat) :
    Yields c (readElements element size) fun s as t => as.length = size ∧ Q as s t := by
  induction size with
  | zero =>
    refine yields_weaken (yields_pure []) ?_
    rintro s as t ⟨rfl, rfl⟩
    exact ⟨rfl, none t⟩
  | succ size ih =>
    refine yields_weaken (yields_bind given fun a =>
      yields_bind ih fun as => yields_pure (a :: as)) ?_
    rintro s all t ⟨a, m, first, as, m', ⟨length, rest⟩, rfl, rfl⟩
    exact ⟨by simp [length], more s a m as t first rest⟩

theorem bigEndian_yields (width : Nat) : Yields c (readBigEndian width) fun s value t =>
    t.buffer.fail = false → s.buffer.fail = false ∧ ∃ data, data.length = width ∧
      s.buffer.unread = data ++ t.buffer.unread ∧ value = BigEndianWords.ofBytes data := by
  intro s value t steady run
  refine ⟨by rw [readBigEndian_heap run, steady], fun alive => ?_⟩
  obtain ⟨good, _, rest⟩ := readBigEndian_alive run alive
  exact ⟨good, rest⟩

theorem varUint_yields : Yields c readVarUint fun s v t =>
    t.buffer.fail = false → s.buffer.fail = false ∧ ∃ spaces code,
      s.buffer.unread = spaces ++ code ++ t.buffer.unread ∧ (∀ b ∈ spaces, isSpace b = true) ∧
      RawVarUint code v ∧ ∀ b ∈ code.head?, isSpace b = false := by
  intro s v t steady run
  exact ⟨by rw [readVarUint_heap run, steady], readVarUint_alive run⟩

/-- One pass per 4096 bytes: each pass finds a zero in its bytes, but the last
    one may find it among bytes of the pass before, which it has not reached. -/
theorem readLoop_alive (length readLength : Nat) (array acc : Bytes) (buffer : StringStream)
    {v : Bytes} {after : StringStream} (size : array.length = bufferSize)
    (run : readLoop length readLength array acc buffer = .ok (v, after))
    (alive : after.fail = false) : buffer.fail = false ∧ ∃ data passes,
      buffer.unread = data ++ after.unread ∧ passes ≤ zeros data ∧
      (0 ∈ array ∨ 0 < zeros data) ∧ v.length ≤ acc.length + 4095 * (passes + 1) ∧
      (0 ∉ acc → 0 ∉ v) := by
  rw [readLoop_iff] at run
  induction run with
  | @chunk readLength array acc part v buffer after more found full later ih =>
    obtain ⟨between, data, passes, unread, fewer, _, short, free⟩ :=
      ih ((overwrite_length _ array (by rw [full, size])).trans size) alive
    obtain ⟨good, _, split⟩ := stream_read_full _ _ between
    have whole : overwrite (buffer.read bufferSize).1 array = (buffer.read bufferSize).1 :=
      overwrite_all (by rw [full, size])
    rw [whole] at found
    have one : 0 < zeros (buffer.read bufferSize).1 :=
      List.count_pos_iff.mpr (cString_has_zero found)
    have less : part.length < 4096 := Nat.lt_of_lt_of_eq (cString_shorter found) full
    refine ⟨good, (buffer.read bufferSize).1 ++ data, passes + 1, ?_, ?_, ?_, ?_, ?_⟩
    · rw [split, unread, List.append_assoc]
    · simp only [zeros, List.count_append] at one fewer ⊢; omega
    · right; simp only [zeros, List.count_append] at one ⊢; omega
    · rw [List.length_append] at short
      calc v.length ≤ acc.length + part.length + 4095 * (passes + 1) := short
        _ ≤ acc.length + 4095 * (passes + 1 + 1) := by omega
    · intro clean
      exact free (by simp [clean, cString_zero_free found])
  | cutChunk more found short => exact absurd (stream_read_full _ _ alive).2.1 short
  | last ends full found =>
    obtain ⟨good, _, split⟩ := stream_read_full _ _ alive
    have less := cString_shorter found
    rw [overwrite_length _ _ (by omega), size] at less
    have limit : bufferSize = 4096 := rfl
    refine ⟨good, _, 0, split, Nat.zero_le _, ?_, ?_, ?_⟩
    · rcases List.mem_append.mp (cString_has_zero found) with front | back
      · exact Or.inr (List.count_pos_iff.mpr front)
      · exact Or.inl (List.mem_of_mem_drop back)
    · simp only [List.length_append]; omega
    · intro clean
      simp [clean, cString_zero_free found]
  | cutLast ends short => exact absurd (stream_read_full _ _ alive).2.1 short

theorem newArray_yields (size : Nat) : Yields c (newArray size) fun s array t =>
    array = List.replicate size c ∧ t = s := by
  intro s array t steady run
  rw [newArray_constant size c s steady] at run
  simp only [Except.ok.injEq, Prod.mk.injEq] at run
  obtain ⟨rfl, rfl⟩ := run
  exact ⟨steady, rfl, rfl⟩

/-- What a string of any length gives: no zeros, and none of the zeros read. -/
theorem readStr_yields (nonzero : c ≠ 0) (length : Nat) : Yields c (readStr length) fun s v t =>
    t.buffer.fail = false → s.buffer.fail = false ∧ ∃ data passes,
      s.buffer.unread = data ++ t.buffer.unread ∧ passes ≤ zeros data ∧ 0 < zeros data ∧
      v.length ≤ 4095 * (passes + 1) ∧ 0 ∉ v := by
  intro s v t steady run
  obtain ⟨array, mid, fresh, loop, same⟩ := (readStr_run length s).mp run
  obtain ⟨steadyMid, filled, _⟩ := newArray_yields bufferSize s array mid steady fresh
  refine ⟨by rw [same, steadyMid], fun alive => ?_⟩
  obtain ⟨good, data, passes, unread, fewer, zero, short, free⟩ :=
    readLoop_alive length 0 array [] s.buffer (by rw [filled, List.length_replicate]) loop alive
  refine ⟨good, data, passes, unread, fewer, ?_, by simpa using short, free (by simp)⟩
  rcases zero with inArray | inData
  · rw [filled] at inArray
    exact absurd (List.eq_of_mem_replicate inArray).symm nonzero
  · exact inData

/-- A string of at most one pass comes out shorter than it was read, or empty. -/
theorem readStr_shorter (nonzero : c ≠ 0) (length : Nat) (positive : 0 < length)
    (single : length ≤ bufferSize) :
    Yields c (readStr length) fun _ v _ => v.length < length ∧ 0 ∉ v := by
  intro s v t steady run
  obtain ⟨array, mid, fresh, loop, same⟩ := (readStr_run length s).mp run
  obtain ⟨steadyMid, filled, _⟩ := newArray_yields bufferSize s array mid steady fresh
  refine ⟨by rw [same, steadyMid], ?_⟩
  rw [readLoop, if_neg (by omega)] at loop
  split at loop
  · rename_i full
    split at loop
    · cases loop
    · rename_i chunk found
      simp only [List.nil_append, Except.ok.injEq, Prod.mk.injEq] at loop
      obtain ⟨rfl, _⟩ := loop
      have free : 0 ∉ array.drop (s.buffer.read (length - 0)).1.length := by
        intro member
        rw [filled] at member
        exact nonzero (List.eq_of_mem_replicate (List.mem_of_mem_drop member)).symm
      have less := cString_shorter (cString_append free found)
      exact ⟨by omega, cString_zero_free found⟩
  · simp only [Except.ok.injEq, Prod.mk.injEq] at loop
    obtain ⟨rfl, _⟩ := loop
    exact ⟨positive, by simp⟩

theorem fixedStr_ofString_yields (size : Nat) (val : Bytes) :
    Yields c (FixedStr.ofString size val) fun s f t => t = s ∧ val.length ≤ size ∧
      f.value = val ++ List.replicate (size - val.length) c := by
  intro s f t steady run
  obtain ⟨array, mid, fresh, run⟩ := run_bind_ok.mp run
  obtain ⟨steadyMid, filled, same⟩ := newArray_yields size s array mid steady fresh
  split at run
  · rename_i fits
    obtain ⟨rfl, rfl⟩ := run_pure_ok.mp run
    refine ⟨steadyMid, same, ?_, ?_⟩
    · rw [← fits, overwrite, List.length_append]; omega
    · simp only [filled, overwrite, List.drop_replicate]
  · cases run

/-- A FixedStr ends in memory it was not given. -/
theorem fixedStr_ofBuffer_yields (nonzero : c ≠ 0) (size : Nat) (positive : 0 < size)
    (single : size ≤ bufferSize) : Yields c (FixedStr.ofBuffer size) fun s f t =>
    f.value.getLast? = some c ∧ 0 ∉ f.value ∧ (t.buffer.fail = false →
      s.buffer.fail = false ∧
        ∃ data, s.buffer.unread = data ++ t.buffer.unread ∧ 0 < zeros data) := by
  intro s f t steady run
  obtain ⟨str, mid, runStr, runFixed⟩ := run_bind_ok.mp run
  obtain ⟨steadyMid, taken⟩ := readStr_yields nonzero size s str mid steady runStr
  obtain ⟨_, less, free⟩ := readStr_shorter nonzero size positive single s str mid steady runStr
  obtain ⟨after, rfl, _, value⟩ := fixedStr_ofString_yields size str mid f t steadyMid runFixed
  refine ⟨after, ?_, ?_, ?_⟩
  · have rest : List.replicate (size - str.length) c ≠ [] := by
      simp only [ne_eq, List.replicate_eq_nil_iff]; omega
    rw [value, List.getLast?_append_of_ne_nil _ rest, List.getLast?_replicate, if_neg (by omega)]
  · rw [value]
    simp only [List.mem_append, List.mem_replicate, not_or, not_and]
    exact ⟨free, fun _ zero => nonzero zero.symm⟩
  · intro alive
    obtain ⟨good, data, _, unread, _, zero, _⟩ := taken alive
    exact ⟨good, data, unread, zero⟩

end EnsicoinConstantMemory
