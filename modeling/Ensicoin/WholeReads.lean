import Mathlib.Computability.Language
import Ensicoin.Messages
import Ensicoin.ReceivedBytes

/-!
What a decoder takes off a stream that does not run out, as a language of byte strings.
A read that runs out leaves the stream failed, and none revives it, so a decoder that ends
on a live stream has taken one string of its language; and where one stands, it takes
just that.
-/
namespace EnsicoinWholeReads
open EnsicoinRuntime EnsicoinNetworkBuffer EnsicoinNetworkable EnsicoinScript EnsicoinTransaction
open EnsicoinVarUintCodes EnsicoinReceivedBytes
variable {α β : Type}

abbrev Form := Language UInt8

structure Takes (dec : Decoder α) (form : Form) : Prop where
  taken : ∀ s a t, dec.run s = .ok (a, t) → t.buffer.fail = false → s.buffer.fail = false ∧
    ∃ e ∈ form, s.buffer.unread = e ++ t.buffer.unread
  whole : ∀ e ∈ form, ∀ rest heap a t, dec.run ⟨⟨e ++ rest, false⟩, heap⟩ = .ok (a, t) →
    t.buffer = ⟨rest, false⟩

/-- All strings of this length. -/
def bytesOf (size : Nat) : Form := {e | e.length = size}

/-- The bytes readVar_uint takes for a value: white space, and a code that does not start
    with any. -/
def codes (v : UInt64) : Form := {e | ∃ spaces code, e = spaces ++ code ∧
  (∀ b ∈ spaces, isSpace b = true) ∧ RawVarUint code v ∧ ∀ b ∈ code.head?, isSpace b = false}

def counted (form : UInt64 → Form) : Form := {e | ∃ v, e ∈ codes v * form v}

def arrayForm (form : Form) : Form := counted fun count => form ^ count.toNat

/-- The array has a zero after each chunk of these bytes that readStr takes into it. -/
def EndsInside (array e : Bytes) : Prop :=
  if bufferSize < e.length then
    0 ∈ e.take bufferSize ∧ EndsInside (e.take bufferSize) (e.drop bufferSize)
  else 0 ∈ overwrite e array
termination_by e.length
decreasing_by
  simp only [bufferSize, List.length_drop] at *
  omega

/-- Where the bytes leave room in the first array, memory can have a zero. -/
def Legible (e : Bytes) : Prop := EndsInside (List.replicate bufferSize 0) e

/-- From 2 ^ 32 on, the counter of readStr wraps around and it reads until nothing is left. -/
def stringBytes (size : Nat) : Form := {e | e.length = size ∧ size ≤ 2 ^ 32 ∧ Legible e}

def strForm : Form := counted fun size => stringBytes size.toNat

section Rules

theorem takes_pure (a : α) : Takes (pure a) 1 where
  taken := by
    intro s b t run alive
    obtain ⟨_, rfl⟩ := run_pure_ok.mp run
    exact ⟨alive, [], rfl, rfl⟩
  whole := by
    intro e none rest heap b t run
    obtain ⟨_, rfl⟩ := run_pure_ok.mp run
    rw [(Language.mem_one e).mp none, List.nil_append]

theorem takes_bind {dec : Decoder α} {next : α → Decoder β} {form form' : Form}
    (first : Takes dec form) (rest : ∀ a, Takes (next a) form') :
    Takes (dec >>= next) (form * form') where
  taken := by
    intro s b t run alive
    obtain ⟨a, mid, runFirst, runRest⟩ := run_bind_ok.mp run
    obtain ⟨between, e', back, split'⟩ := (rest a).taken mid b t runRest alive
    obtain ⟨good, e, front, split⟩ := first.taken s a mid runFirst between
    refine ⟨good, e ++ e', Language.append_mem_mul front back, ?_⟩
    rw [split, split', List.append_assoc]
  whole := by
    intro e both after heap b t run
    obtain ⟨front, inFront, back, inBack, rfl⟩ := Language.mem_mul.mp both
    obtain ⟨a, ⟨buffer, later⟩, runFirst, runRest⟩ := run_bind_ok.mp run
    rw [List.append_assoc] at runFirst
    obtain rfl : buffer = _ := first.whole front inFront _ heap a _ runFirst
    exact (rest a).whole back inBack after later b t runRest

theorem takes_map {dec : Decoder α} {form : Form} (takes : Takes dec form) (f : α → β) :
    Takes (f <$> dec) form where
  taken := by
    intro s b t run
    obtain ⟨a, runDec, _⟩ := run_map_ok.mp run
    exact takes.taken s a t runDec
  whole := by
    intro e inForm rest heap b t run
    obtain ⟨a, runDec, _⟩ := run_map_ok.mp run
    exact takes.whole e inForm rest heap a t runDec

/-- The value put together at the end takes nothing. -/
theorem takes_last {dec : Decoder α} {form : Form} (takes : Takes dec form) (f : α → β) :
    Takes (dec >>= fun a => pure (f a)) form := by
  have both := takes_bind takes fun a => takes_pure (f a)
  rwa [mul_one] at both

theorem takes_bigEndian (width : Nat) : Takes (readBigEndian width) (bytesOf width) where
  taken := by
    intro s v t run alive
    obtain ⟨good, _, data, length, split, _⟩ := readBigEndian_alive run alive
    exact ⟨good, data, length, split⟩
  whole := by
    intro e length rest heap v t run
    rw [readBigEndian_bytes length] at run
    cases run
    rfl

theorem bytesOf_mul (m n : Nat) : bytesOf m * bytesOf n = bytesOf (m + n) := by
  apply Language.ext
  intro e
  rw [Language.mem_mul]
  constructor
  · intro split
    obtain ⟨a, left, b, right, rfl⟩ := split
    exact (List.length_append ..).trans (congrArg₂ _ left right)
  · intro whole
    have length : e.length = m + n := whole
    refine ⟨e.take m, ?_, e.drop m, ?_, List.take_append_drop m e⟩
    · exact List.length_take_of_le (by omega)
    · exact (List.length_drop ..).trans (by omega)

end Rules

section Counts

theorem blanks_skipped {spaces : Bytes} (blank : ∀ b ∈ spaces, isSpace b = true) (rest : Bytes)
    (heap : Heap) : readVarUint.run ⟨⟨spaces ++ rest, false⟩, heap⟩ =
      readVarUint.run ⟨⟨rest, false⟩, heap⟩ := by
  induction spaces with
  | nil => rfl
  | cons b spaces ih =>
    rw [List.cons_append, blank_skipped (blank b List.mem_cons_self)]
    exact ih fun b member => blank b (List.mem_cons_of_mem _ member)

theorem code_read {v : UInt64} {e : Bytes} (code : e ∈ codes v) (rest : Bytes) (heap : Heap) :
    readVarUint.run ⟨⟨e ++ rest, false⟩, heap⟩ = .ok (v, ⟨⟨rest, false⟩, heap⟩) := by
  obtain ⟨spaces, code, rfl, blank, raw, dark⟩ := code
  rw [List.append_assoc, blanks_skipped blank]
  exact raw_code_read raw dark rest heap

theorem code_some {v : UInt64} {e : Bytes} (code : e ∈ codes v) : 0 < e.length := by
  obtain ⟨spaces, code, rfl, _, raw, _⟩ := code
  have one : 0 < code.length := by cases raw <;> simp
  rw [List.length_append]
  omega

theorem takes_counted {next : UInt64 → Decoder β} {form : UInt64 → Form}
    (rest : ∀ v, Takes (next v) (form v)) : Takes (readVarUint >>= next) (counted form) where
  taken := by
    intro s b t run alive
    obtain ⟨v, mid, runCount, runRest⟩ := run_bind_ok.mp run
    obtain ⟨between, e', back, split'⟩ := (rest v).taken mid b t runRest alive
    obtain ⟨good, spaces, code, split, blank, raw, dark⟩ := readVarUint_alive runCount between
    refine ⟨good, spaces ++ code ++ e', ⟨v, ?_⟩, ?_⟩
    · exact Language.append_mem_mul ⟨spaces, code, rfl, blank, raw, dark⟩ back
    · rw [split, split', List.append_assoc _ e']
  whole := by
    intro e inForm after heap b t run
    obtain ⟨v, both⟩ := inForm
    obtain ⟨front, inFront, back, inBack, rfl⟩ := Language.mem_mul.mp both
    obtain ⟨w, mid, runCount, runRest⟩ := run_bind_ok.mp run
    rw [List.append_assoc, code_read inFront] at runCount
    cases runCount
    exact (rest v).whole back inBack after heap b t runRest

theorem takes_elements {element : Decoder α} {form : Form} (each : Takes element form)
    (size : Nat) : Takes (readElements element size) (form ^ size) := by
  induction size with
  | zero => exact takes_pure []
  | succ size ih =>
    rw [pow_succ']
    exact takes_bind each fun first => takes_last ih fun rest => first :: rest

theorem takes_array {element : Decoder α} {form : Form} (each : Takes element form) :
    Takes (VarArray.ofBuffer element) (arrayForm form) :=
  takes_counted fun count => takes_elements each count.toNat

end Counts

section Strings

theorem endsInside_long {array e : Bytes} (long : bufferSize < e.length) :
    EndsInside array e ↔
      0 ∈ e.take bufferSize ∧ EndsInside (e.take bufferSize) (e.drop bufferSize) := by
  rw [EndsInside, if_pos long]

theorem endsInside_short {array e : Bytes} (short : e.length ≤ bufferSize) :
    EndsInside array e ↔ 0 ∈ overwrite e array := by
  rw [EndsInside, if_neg (by omega)]

theorem first_chunk {e : Bytes} (long : bufferSize < e.length) (rest : Bytes) :
    StringStream.read ⟨e ++ rest, false⟩ bufferSize =
      (e.take bufferSize, ⟨e.drop bufferSize ++ rest, false⟩) := by
  have read := stream_read_append (e.take bufferSize) (e.drop bufferSize ++ rest)
  rwa [List.length_take_of_le long.le, ← List.append_assoc, List.take_append_drop] at read

theorem chunk_fills {e array : Bytes} (long : bufferSize < e.length)
    (filled : array.length = bufferSize) :
    overwrite (e.take bufferSize) array = e.take bufferSize :=
  overwrite_all (by rw [filled, List.length_take_of_le long.le])

theorem legible_of_endsInside {array e : Bytes} (filled : array.length = bufferSize)
    (ends : EndsInside array e) : Legible e := by
  rcases Nat.lt_or_ge bufferSize e.length with long | short
  · exact (endsInside_long long).mpr ((endsInside_long long).mp ends)
  · refine (endsInside_short short).mpr ?_
    rcases List.mem_append.mp ((endsInside_short short).mp ends) with front | back
    · exact List.mem_append_left _ front
    · -- a zero behind the bytes needs room there
      have room := List.length_pos_of_mem back
      rw [List.length_drop] at room
      rw [overwrite, List.drop_replicate]
      exact List.mem_append_right _ (List.mem_replicate.mpr ⟨by omega, rfl⟩)

/-- The loop returns from such bytes, in front of any others. -/
theorem readLoop_ends {length readLength : Nat} {array acc e : Bytes} (bound : length ≤ 2 ^ 32)
    (whole : readLength + e.length = length) (filled : array.length = bufferSize)
    (ends : EndsInside array e) : ∃ v, ∀ rest,
      readLoop length readLength array acc ⟨e ++ rest, false⟩ = .ok (v, ⟨rest, false⟩) := by
  induction array, e using EndsInside.induct generalizing readLength acc with
  | case1 array e long ih =>
    obtain ⟨zero, later⟩ := (endsInside_long long).mp ends
    have chunk : (e.take bufferSize).length = bufferSize := List.length_take_of_le long.le
    have next : (readLength + bufferSize) % 2 ^ 32 = readLength + bufferSize :=
      Nat.mod_eq_of_lt (by omega)
    have rest : readLength + bufferSize + (e.drop bufferSize).length = length := by
      rw [List.length_drop]
      omega
    obtain ⟨v, runs⟩ := @ih _ (acc ++ (e.take bufferSize).takeWhile (· != 0)) rest chunk later
    refine ⟨v, fun rest => ?_⟩
    rw [readLoop, if_pos (by omega), first_chunk long, chunk_fills long filled, cString,
      if_pos zero]
    simp only [chunk, ↓reduceDIte, next]
    exact runs rest
  | case2 array e short =>
    have zero := (endsInside_short (Nat.le_of_not_lt short)).mp ends
    refine ⟨acc ++ (overwrite e array).takeWhile (· != 0), fun rest => ?_⟩
    rw [readLoop, if_neg (by omega), show length - readLength = e.length by omega,
      stream_read_append, if_pos rfl, cString, if_pos zero]

/-- readLength stays a multiple of the chunk, so the loop does not end beyond 2 ^ 32. -/
theorem readLoop_taken {length readLength : Nat} {array acc : Bytes} {buffer after : StringStream}
    {v : Bytes} (aligned : readLength % bufferSize = 0) (small : readLength < 2 ^ 32)
    (inside : readLength ≤ length) (filled : array.length = bufferSize)
    (run : readLoop length readLength array acc buffer = .ok (v, after))
    (alive : after.fail = false) : buffer.fail = false ∧ length ≤ 2 ^ 32 ∧
      ∃ e, readLength + e.length = length ∧ buffer.unread = e ++ after.unread ∧
        EndsInside array e := by
  rw [readLoop_iff] at run
  induction run with
  | @chunk readLength array acc part v buffer after more found full later ih =>
    have still : (readLength + bufferSize) % 2 ^ 32 % bufferSize = 0 := by
      simp only [bufferSize] at aligned ⊢
      omega
    have step : readLength + bufferSize ≤ length := by omega
    have replaced : overwrite (buffer.read bufferSize).1 array = (buffer.read bufferSize).1 :=
      overwrite_all (by rw [full, filled])
    rw [replaced] at found ih
    obtain ⟨between, bound, e, whole, split, ends⟩ :=
      ih still (Nat.mod_lt _ (by decide)) ((Nat.mod_le _ _).trans step) full alive
    obtain ⟨good, _, split'⟩ := stream_read_full _ _ between
    rw [Nat.mod_eq_of_lt (by omega)] at whole
    refine ⟨good, bound, (buffer.read bufferSize).1 ++ e, ?_, ?_, ?_⟩
    · rw [List.length_append, full, ← Nat.add_assoc, whole]
    · rw [split', split, List.append_assoc]
    · refine (endsInside_long (by rw [List.length_append]; omega)).mpr ?_
      rw [List.take_left' full, List.drop_left' full]
      exact ⟨cString_has_zero found, ends⟩
  | cutChunk more found short => exact absurd (stream_read_full _ _ alive).2.1 short
  | last ends full found =>
    obtain ⟨good, _, split⟩ := stream_read_full _ _ alive
    simp only [bufferSize] at aligned ends
    refine ⟨good, by omega, _, by omega, split, ?_⟩
    exact (endsInside_short (by rw [full]; simp only [bufferSize]; omega)).mpr
      (cString_has_zero found)
  | cutLast ends short => exact absurd (stream_read_full _ _ alive).2.1 short

theorem readLoop_whole {length readLength : Nat} {array acc e rest v : Bytes}
    {buffer after : StringStream} (bound : length ≤ 2 ^ 32)
    (whole : readLength + e.length = length) (stands : buffer = ⟨e ++ rest, false⟩)
    (run : readLoop length readLength array acc buffer = .ok (v, after)) :
    after = ⟨rest, false⟩ := by
  rw [readLoop_iff] at run
  induction run generalizing e with
  | chunk more found full later ih =>
    have read := first_chunk (show bufferSize < e.length by omega) rest
    rw [← stands] at read
    refine ih ?_ (congrArg Prod.snd read)
    rw [Nat.mod_eq_of_lt (by omega), List.length_drop]
    omega
  | cutChunk more found short =>
    rw [stands, first_chunk (by omega)] at short
    exact absurd (List.length_take_of_le (by omega)) short
  | @last readLength array acc part buffer ends full found =>
    rw [stands, show length - readLength = e.length by omega, stream_read_append]
  | @cutLast readLength array acc buffer ends short =>
    rw [stands, show length - readLength = e.length by omega, stream_read_append] at short
    exact absurd rfl short

theorem takes_readStr (size : Nat) : Takes (readStr size) (stringBytes size) where
  taken := by
    intro s v t run alive
    obtain ⟨array, mid, fresh, loop, _⟩ := (readStr_run _ _).mp run
    have filled := newArray_length fresh
    obtain ⟨good, bound, e, whole, split, ends⟩ :=
      readLoop_taken (Nat.zero_mod _) (by decide) (Nat.zero_le _) filled loop alive
    rw [Nat.zero_add] at whole
    exact ⟨good, e, ⟨whole, bound, legible_of_endsInside filled ends⟩, split⟩
  whole := by
    intro e inForm rest heap v t run
    obtain ⟨array, mid, _, loop, _⟩ := (readStr_run _ _).mp run
    exact readLoop_whole inForm.2.1 ((Nat.zero_add _).trans inForm.1) rfl loop

theorem readStr_empty {size : Nat} (positive : 0 < size) (single : size ≤ bufferSize) (fail : Bool)
    (heap : Heap) : (readStr size).run ⟨⟨[], fail⟩, heap⟩ =
      .ok ([], ⟨⟨[], true⟩, fun n => heap (n + 1)⟩) := by
  have short : StringStream.read ⟨[], fail⟩ size = ([], ⟨[], true⟩) := by
    have none : ¬ size ≤ 0 := by omega
    cases fail <;> simp [StringStream.read, none]
  refine (readStr_run _ _).mpr ⟨_, _, rfl, ?_, rfl⟩
  rw [readLoop, if_neg (by omega), Nat.sub_zero, short, if_neg (by simpa using positive.ne)]

/-- The array is longer than the bytes, and zeros in it end the string. -/
theorem legible_short {e : Bytes} (short : e.length < bufferSize) : Legible e := by
  refine (endsInside_short short.le).mpr ?_
  rw [overwrite, List.drop_replicate]
  exact List.mem_append_right _ (List.mem_replicate.mpr ⟨by omega, rfl⟩)

theorem stringBytes_short {size : Nat} (short : size < bufferSize) :
    stringBytes size = bytesOf size := by
  apply Language.ext
  intro e
  constructor
  · exact fun both => both.1
  · intro length
    have whole : e.length = size := length
    subst whole
    exact ⟨rfl, by simp only [bufferSize] at short; omega, legible_short short⟩

theorem takes_varStr : Takes VarStr.ofBuffer strForm :=
  takes_counted fun size => takes_readStr size.toNat

theorem takes_ofString (size : Nat) (val : Bytes) : Takes (FixedStr.ofString size val) 1 := by
  have kept : ∀ {s t : ReadState} {f : FixedStr size},
      (FixedStr.ofString size val).run s = .ok (f, t) → t.buffer = s.buffer := by
    intro s t f run
    obtain ⟨array, mid, fresh, run⟩ := run_bind_ok.mp run
    simp only [newArray, StateT.run, Except.ok.injEq, Prod.mk.injEq] at fresh
    split at run
    · obtain ⟨_, rfl⟩ := run_pure_ok.mp run
      rw [← fresh.2]
    · cases run
  refine ⟨?_, ?_⟩
  · intro s f t run alive
    rw [kept run] at alive ⊢
    exact ⟨alive, [], rfl, rfl⟩
  · intro e none rest heap f t run
    rw [kept run, (Language.mem_one e).mp none, List.nil_append]

theorem takes_fixedStr {size : Nat} (short : size < bufferSize) :
    Takes (FixedStr.ofBuffer size) (bytesOf size) := by
  have both := takes_bind (takes_readStr size) fun str => takes_ofString size str
  rwa [mul_one, stringBytes_short short] at both

end Strings

section Classes

theorem takes_address : Takes Address.ofBuffer (bytesOf 26) := by
  have fields := takes_bind (takes_map (takes_bigEndian 8) UInt64.ofNat) fun timestamp =>
    takes_bind (takes_fixedStr (by decide : 16 < bufferSize)) fun ip =>
    takes_bind (takes_ofString 16 ip.value) fun address =>
    takes_last (takes_map (takes_bigEndian 2) UInt16.ofNat) fun port =>
      (⟨timestamp, address, port⟩ : Address)
  rwa [one_mul, bytesOf_mul, bytesOf_mul] at fields

theorem takes_hash : Takes (FixedStr.ofBuffer HASH_LENGTH) (bytesOf HASH_LENGTH) :=
  takes_fixedStr (by decide)

theorem takes_script : Takes Script.ofBuffer strForm :=
  takes_last takes_varStr fun scriptStr => Script.new (scriptStr.map parseInstruction) []

/-- A hash, an index as a Var_uint and a script. -/
def inputForm : Form := bytesOf HASH_LENGTH * counted (fun _ => 1) * strForm

def outputForm : Form := bytesOf 8 * strForm

def transactionForm : Form :=
  bytesOf 4 * (arrayForm strForm * (arrayForm inputForm * arrayForm outputForm))

theorem takes_input : Takes InputTransaction.ofBuffer inputForm := by
  have identifier : Takes TransactionIdentifier.ofBuffer
      (bytesOf HASH_LENGTH * counted fun _ => 1) :=
    takes_bind takes_hash fun transactionHash => takes_counted fun index =>
      takes_pure (⟨transactionHash, index.toUInt32⟩ : TransactionIdentifier)
  exact takes_bind identifier fun previousOutput => takes_last takes_script fun script =>
    (⟨previousOutput, script⟩ : InputTransaction)

theorem takes_output : Takes OutputTransaction.ofBuffer outputForm :=
  takes_bind (takes_map (takes_bigEndian 8) UInt64.ofNat) fun value =>
    takes_last takes_script fun script => (⟨value, script⟩ : OutputTransaction)

theorem takes_transaction : Takes Transaction.ofBuffer transactionForm :=
  takes_bind (takes_map (takes_bigEndian 4) UInt32.ofNat) fun version =>
    takes_bind (takes_array takes_varStr) fun transactionFlags =>
    takes_bind (takes_array takes_input) fun inputs =>
    takes_last (takes_array takes_output) fun outputs =>
      (⟨version.toInt32, transactionFlags, inputs, outputs⟩ : Transaction)

end Classes

section Announced

/-- The value of the Var_uint that bytes start with, and 0 where there is none. -/
def announced (bytes : Bytes) : UInt64 :=
  match readVarUint.run ⟨⟨bytes, false⟩, constantHeap 0⟩ with
  | .ok (v, _) => v
  | .error _ => 0

theorem announced_read {bytes : Bytes} {heap : Heap} {v : UInt64} {t : ReadState}
    (run : readVarUint.run ⟨⟨bytes, false⟩, heap⟩ = .ok (v, t)) : v = announced bytes := by
  obtain ⟨w, after, all⟩ := readVarUint_free ⟨bytes, false⟩
  rw [all heap] at run
  cases run
  simp only [announced, all]

theorem readBigEndian_failed {width value : Nat} {s t : ReadState} (good : s.buffer.fail = false)
    (run : (readBigEndian width).run s = .ok (value, t)) (failed : t.buffer.fail = true) :
    value = 0 := by
  rw [readBigEndian_run] at run
  simp only [Except.ok.injEq, Prod.mk.injEq] at run
  obtain ⟨result, rfl⟩ := run
  rw [← result, if_pos]
  intro full
  simp only [StringStream.read, good, Bool.false_eq_true, ↓reduceIte] at full failed
  split at failed
  · cases failed
  · rename_i scarce
    rw [if_neg scarce] at full
    exact scarce full.ge

/-- A read that runs out yields 0. -/
theorem readVarUint_failed {s t : ReadState} {v : UInt64}
    (run : readVarUint.run s = .ok (v, t)) (failed : t.buffer.fail = true) : v = 0 := by
  obtain ⟨start, mid, extracted, run⟩ := run_bind_ok.mp run
  rw [extract_run] at extracted
  simp only [Except.ok.injEq, Prod.mk.injEq] at extracted
  obtain ⟨first, after⟩ := extracted
  cases start with
  | none => exact (run_pure_ok.mp run).1.symm
  | some start =>
    have good : mid.buffer.fail = false :=
      (extract_some (show s.buffer.extract = (some start, mid.buffer) by rw [← first, ← after])).2.1
    have wide : ∀ width, (UInt64.ofNat <$> readBigEndian width).run mid = .ok (v, t) → v = 0 := by
      intro width tail
      obtain ⟨value, read, rfl⟩ := run_map_ok.mp tail
      rw [readBigEndian_failed good read failed]
      rfl
    simp only at run
    split at run
    · obtain ⟨_, rfl⟩ := run_pure_ok.mp run
      rw [good] at failed
      cases failed
    · split at run
      · exact wide 2 run
      · split at run
        · exact wide 4 run
        · exact wide 8 run

theorem announced_code {bytes : Bytes} (some : announced bytes ≠ 0) :
    ∃ e ∈ codes (announced bytes), e <+: bytes := by
  obtain ⟨v, t, all⟩ := readVarUint_free ⟨bytes, false⟩
  have value := announced_read (all (constantHeap 0))
  have alive : t.fail = false := by
    cases dead : t.fail with
    | false => rfl
    | true => exact absurd (value.symm.trans (readVarUint_failed (all (constantHeap 0)) dead)) some
  obtain ⟨_, spaces, code, split, blank, raw, dark⟩ :=
    readVarUint_alive (all (constantHeap 0)) alive
  rw [value] at raw
  exact ⟨spaces ++ code, ⟨spaces, code, rfl, blank, raw, dark⟩, t.unread, split.symm⟩

theorem code_announced {v : UInt64} {e : Bytes} (code : e ∈ codes v) (rest : Bytes) :
    announced (e ++ rest) = v :=
  (announced_read (code_read code rest (constantHeap 0))).symm

theorem announced_more {bytes more : Bytes} (some : announced bytes ≠ 0) :
    announced (bytes ++ more) = announced bytes := by
  obtain ⟨e, code, rest, split⟩ := announced_code some
  have whole := code_announced code (rest ++ more)
  rwa [← List.append_assoc, split] at whole

end Announced

end EnsicoinWholeReads
