import Ensicoin.ChosenMemory
import Ensicoin.TransactionWire

/-!
Which byte strings identify the transaction that is read from them. In some memory every
transaction loses bytes between a read and the next write, unless its counts and indexes
stand in the codes that Var_uint writes, its hashes have no zero, and its strings fill the
array of readStr up to the last char, where only a zero lets readStr return.
-/
namespace EnsicoinIdentifiedBytes
open BigEndianWords PrefixCodes EnsicoinRuntime EnsicoinNetworkBuffer EnsicoinNetworkable
open EnsicoinVarUintCodes EnsicoinConstantMemory EnsicoinScript EnsicoinScriptRuns
open EnsicoinTransaction EnsicoinTransactionWire EnsicoinWholeReads EnsicoinChosenMemory
variable {α β : Type}

/-- By out, a value is written as these bytes. A string of form is a lossy copy of itself in
    some memory, exact only if it is in written; and those are exact in every memory. -/
structure Rewrites (dec : Decoder α) (out : α → Bytes → Prop) (form written : Form) : Prop where
  loses : ∀ e ∈ form, ∃ a w, ReadAs dec e a ∧ out a w ∧ Drops 0 w e (e ∈ written)
  kept : ∀ e ∈ written, ∀ rest heap a t, dec.run ⟨⟨e ++ rest, false⟩, heap⟩ = .ok (a, t) →
    t.buffer = ⟨rest, false⟩ ∧ out a e

section Rules
variable {form form' written written' : Form}

theorem rewrites_pure {out : α → Bytes → Prop} (a : α) (empty : out a []) :
    Rewrites (pure a) out 1 1 where
  loses := by
    intro e none
    obtain rfl := (Language.mem_one e).mp none
    exact ⟨a, [], readAs_pure a, empty, drops_weaken (drops_same []) fun _ => rfl⟩
  kept := by
    intro e none rest heap b t run
    obtain rfl := (Language.mem_one e).mp none
    obtain ⟨rfl, rfl⟩ := run_pure_ok.mp run
    exact ⟨rfl, empty⟩

/-- What is written for the first value stands in front of what is written for the others. -/
theorem rewrites_bind {dec : Decoder α} {next : α → Decoder β} {out : α → Bytes → Prop}
    {all : β → Bytes → Prop} (first : Rewrites dec out form written)
    (second : ∀ a u, out a u → Rewrites (next a) (fun b w => all b (u ++ w)) form' written') :
    Rewrites (dec >>= next) all (form * form') (written * written') where
  loses := by
    intro e both
    obtain ⟨front, inFront, back, inBack, rfl⟩ := Language.mem_mul.mp both
    obtain ⟨a, u, read, outFront, drops⟩ := first.loses front inFront
    obtain ⟨b, w, read', outBack, drops'⟩ := (second a u outFront).loses back inBack
    refine ⟨b, u ++ w, readAs_bind read read', outBack, ?_⟩
    exact drops_weaken (drops_append drops drops') fun exact =>
      Language.append_mem_mul exact.1 exact.2
  kept := by
    intro e both rest heap b t run
    obtain ⟨front, inFront, back, inBack, rfl⟩ := Language.mem_mul.mp both
    obtain ⟨a, ⟨buffer, later⟩, runFirst, runRest⟩ := run_bind_ok.mp run
    rw [List.append_assoc] at runFirst
    obtain ⟨left, outFront⟩ := first.kept front inFront _ heap a _ runFirst
    obtain rfl : buffer = _ := left
    exact (second a front outFront).kept back inBack rest later b t runRest

/-- The value put together at the end takes nothing. -/
theorem rewrites_last {dec : Decoder α} {out : α → Bytes → Prop} {all : β → Bytes → Prop}
    (given : Rewrites dec out form written) (f : α → β)
    (last : ∀ a w, out a w → all (f a) w) :
    Rewrites (dec >>= fun a => pure (f a)) all form written := by
  have both : Rewrites (dec >>= fun a => pure (f a)) all (form * 1) (written * 1) :=
    rewrites_bind given fun a u outA => rewrites_pure (f a) (by
      rw [List.append_nil]
      exact last a u outA)
  rwa [mul_one, mul_one] at both

theorem rewrites_weaken {dec : Decoder α} {out out' : α → Bytes → Prop}
    (given : Rewrites dec out form written) (weaker : ∀ a w, out a w → out' a w) :
    Rewrites dec out' form written where
  loses := by
    intro e inForm
    obtain ⟨a, w, read, outE, drops⟩ := given.loses e inForm
    exact ⟨a, w, read, weaker a w outE, drops⟩
  kept := fun e inWritten rest heap a t run =>
    (given.kept e inWritten rest heap a t run).imp_right (weaker a e)

/-- The bytes that are written for a value are all the bytes there are of this width. -/
theorem bigEndian_rewrites {width : Nat} (convert : Nat → α) (repr : α → Bytes)
    (same : ∀ n < 256 ^ width, repr (convert n) = toBytes width n) :
    Rewrites (convert <$> readBigEndian width) (fun a w => repr a = w) (bytesOf width)
      (bytesOf width) := by
  have back : ∀ data : Bytes, data.length = width → repr (convert (ofBytes data)) = data := by
    intro data length
    have bound := ofBytes_lt data
    rw [length] at bound
    rw [same _ bound, ← length, toBytes_ofBytes]
  constructor
  · intro e length
    refine ⟨convert (ofBytes e), e, fun rest tail => ⟨tail, ?_⟩, back e length,
      drops_weaken (drops_same e) fun _ => length⟩
    exact readUint_bytes convert length tail
  · intro e length rest heap a t run
    rw [readUint_bytes convert length] at run
    cases run
    exact ⟨rfl, back e length⟩

end Rules

section Counts

/-- The code that Var_uint writes, where white space is not skipped in front of it. -/
def writtenCodes (v : UInt64) : Form := {e | e ∈ codes v ∧ e = VarUint.byteRepr v}

def writtenCounted (written : UInt64 → Form) : Form := {e | ∃ v, e ∈ writtenCodes v * written v}

def writtenArray (written : Form) : Form := writtenCounted fun count => written ^ count.toNat

/-- An index that an unsigned int holds. -/
def writtenIndex : Form := {e | ∃ v : UInt64, v.toNat < 2 ^ 32 ∧ e ∈ writtenCodes v}

theorem code_drops {v : UInt64} {e : Bytes} (code : e ∈ codes v) :
    Drops 0 (VarUint.byteRepr v) e (e ∈ writtenCodes v) := by
  have read := code_read code [] (constantHeap 1)
  obtain ⟨_, raw, split, drops⟩ := (varUint_loses _ v _ rfl read).2 rfl
  simp only [List.append_nil] at split
  subst split
  exact drops_weaken (drops_known drops) fun exact => ⟨code, exact.1.symm⟩

theorem rewrites_counted {next : UInt64 → Decoder β} {all : β → Bytes → Prop}
    {form written : UInt64 → Form} (rest : ∀ v, Rewrites (next v)
      (fun b w => all b (VarUint.byteRepr v ++ w)) (form v) (written v)) :
    Rewrites (readVarUint >>= next) all (counted form) (writtenCounted written) where
  loses := by
    intro e inForm
    obtain ⟨v, both⟩ := inForm
    obtain ⟨code, inCodes, back, inBack, rfl⟩ := Language.mem_mul.mp both
    obtain ⟨b, w, read, outBack, drops⟩ := (rest v).loses back inBack
    refine ⟨b, VarUint.byteRepr v ++ w, readAs_bind (readAs_code inCodes) read, outBack, ?_⟩
    exact drops_weaken (drops_append (code_drops inCodes) drops) fun exact =>
      ⟨v, Language.append_mem_mul exact.1 exact.2⟩
  kept := by
    intro e inForm after heap b t run
    obtain ⟨v, both⟩ := inForm
    obtain ⟨code, inCodes, back, inBack, rfl⟩ := Language.mem_mul.mp both
    obtain ⟨w, mid, runCount, runRest⟩ := run_bind_ok.mp run
    rw [List.append_assoc, code_read inCodes.1] at runCount
    cases runCount
    rw [inCodes.2]
    exact (rest v).kept back inBack after heap b t runRest

theorem elements_rewrites {element : Decoder α} {repr : α → Bytes} {form written : Form}
    (each : Rewrites element (fun a w => repr a = w) form written) (size : Nat) :
    Rewrites (readElements element size) (fun as w => as.length = size ∧ as.flatMap repr = w)
      (form ^ size) (written ^ size) := by
  induction size with
  | zero => exact rewrites_pure [] ⟨rfl, rfl⟩
  | succ size ih =>
    rw [pow_succ', pow_succ']
    refine rewrites_bind each fun first u shape => rewrites_last ih _ ?_
    rintro rest w ⟨length, rfl⟩
    exact ⟨by rw [List.length_cons, length], by rw [List.flatMap_cons, shape]⟩

theorem array_rewrites {element : Decoder α} {repr : α → Bytes} {form written : Form}
    (each : Rewrites element (fun a w => repr a = w) form written) :
    Rewrites (VarArray.ofBuffer element) (fun as w => VarArray.byteRepr repr as = w)
      (arrayForm form) (writtenArray written) := by
  refine rewrites_counted fun count => rewrites_weaken (elements_rewrites each count.toNat) ?_
  rintro as w ⟨length, rfl⟩
  rw [VarArray.byteRepr, sizeT, length, UInt64.ofNat_toNat]

/-- A written code that starts with no white space is told from any other code by its bytes. -/
theorem written_alike {u v : UInt64} {b : UInt8} {tail e x y : Bytes} (code : e ∈ codes v)
    (written : VarUint.byteRepr u = b :: tail) (dark : isSpace b = false)
    (agree : VarUint.byteRepr u ++ x = e ++ y) : v = u ∧ e = VarUint.byteRepr u := by
  obtain ⟨spaces, code, rfl, blank, raw, _⟩ := code
  cases spaces with
  | nil =>
    obtain ⟨same, _⟩ := raw_codes_decipher _ code ⟨_, written_code_raw u⟩ ⟨_, raw⟩ x y agree
    obtain rfl : _ = code := same
    exact ⟨raw_value_unique raw (written_code_raw u), rfl⟩
  | cons w spaces =>
    simp only [written, List.cons_append, List.cons.injEq] at agree
    have white := blank w List.mem_cons_self
    rw [← agree.1, dark] at white
    cases white

theorem cut_index_drops {v : UInt64} {e : Bytes} (code : e ∈ codes v)
    (large : 2 ^ 32 ≤ v.toNat) : Drops 0 (VarUint.byteRepr v.toUInt32.toUInt64) e False := by
  have read := code
  obtain ⟨spaces, bare, whole, _, raw, _⟩ := read
  have fewest : zeros bare ≤ zeros e := by
    rw [whole, zeros, zeros, List.count_append]
    omega
  rcases cut_code_zeros raw large with fewer | ⟨fewer, rest, four⟩
  · exact drops_fewer (fewer.trans_le fewest)
  · refine ⟨fewer.trans fewest, fun _ x y agree => ?_⟩
    -- the codes are the same, and so are the values
    obtain ⟨value, _⟩ := written_alike code four rfl agree
    have bound := v.toUInt32.toNat_lt
    have cut := congrArg UInt64.toNat value
    rw [UInt32.toNat_toUInt64] at cut
    omega

theorem index_rewrites {all : β → Bytes → Prop} (f : UInt32 → β)
    (last : ∀ index, all (f index) (VarUint.byteRepr index.toUInt64)) :
    Rewrites (readVarUint >>= fun index => pure (f index.toUInt32)) all (counted fun _ => 1)
      writtenIndex where
  loses := by
    intro e inForm
    obtain ⟨v, inCodes⟩ := inForm
    rw [mul_one] at inCodes
    have read : ReadAs (readVarUint >>= fun index => pure (f index.toUInt32)) (e ++ [])
        (f v.toUInt32) := readAs_bind (readAs_code inCodes) (readAs_pure _)
    rw [List.append_nil] at read
    refine ⟨f v.toUInt32, _, read, last v.toUInt32, ?_⟩
    by_cases small : v.toNat < 2 ^ 32
    · rw [truncated_whole small]
      exact drops_weaken (code_drops inCodes) fun written => ⟨v, small, written⟩
    · exact drops_weaken (cut_index_drops inCodes (by omega)) False.elim
  kept := by
    intro e inWritten rest heap b t run
    obtain ⟨v, small, inCodes, rfl⟩ := inWritten
    obtain ⟨w, mid, runIndex, run⟩ := run_bind_ok.mp run
    rw [code_read inCodes] at runIndex
    cases runIndex
    obtain ⟨rfl, rfl⟩ := run_pure_ok.mp run
    have written := last v.toUInt32
    rw [truncated_whole small] at written
    exact ⟨rfl, written⟩

end Counts

section Strings

/-- All the chars of the array but the last, and none of them zero. -/
def writtenStr : Form := {e | ∃ data : Bytes, data.length = bufferSize - 1 ∧ 0 ∉ data ∧
  e = VarStr.byteRepr data}

theorem zeros_string_drops {size : UInt64} {code data : Bytes} (inCodes : code ∈ codes size)
    (bound : data.length ≤ 2 ^ 32) (legible : Legible data) (length : data.length = size.toNat)
    (zero : 0 ∈ data) :
    ∃ v, ReadAs VarStr.ofBuffer (code ++ data) v ∧
      Drops 0 (VarStr.byteRepr v) (code ++ data) False := by
  have ones : (List.replicate bufferSize (1 : UInt8)).length = bufferSize := List.length_replicate
  obtain ⟨v, others⟩ := legible_read bound legible
  have runs := fun rest => (any_array zero ones List.length_replicate rest).trans (others rest)
  have fresh := newArray_constant bufferSize 1 ⟨⟨data ++ [], false⟩, constantHeap 1⟩ rfl
  have loop := runs []
  rw [length] at runs loop
  have read : VarStr.ofBuffer.run ⟨⟨code ++ (data ++ []), false⟩, constantHeap 1⟩ =
      .ok (v, ⟨⟨[], false⟩, constantHeap 1⟩) :=
    run_bind_ok.mpr ⟨_, _, code_read inCodes _ _, (readStr_run _ _).mpr ⟨_, _, fresh, loop, rfl⟩⟩
  obtain ⟨_, raw, split, drops⟩ := (varStr_loses _ v _ rfl read).2 rfl
  simp only [List.append_nil] at split
  subst split
  exact ⟨v, readAs_bind (readAs_code inCodes) (readAs_string ones runs), drops⟩

theorem full_code : VarUint.byteRepr (sizeT (bufferSize - 1)) = [0xfd, 0x0f, 0xff] := by
  rw [VarUint.byteRepr_eq]
  rfl

theorem full_code_codes : [0xfd, 0x0f, 0xff] ∈ codes (sizeT (bufferSize - 1)) := by
  refine ⟨[], _, rfl, fun _ none => absurd none List.not_mem_nil, ?_, ?_⟩
  · rw [← full_code]
    exact written_code_raw _
  · intro b first
    cases first
    rfl

/-- A string without a zero comes back filled up to the last char, so its length is that one. -/
theorem free_string_drops {size : UInt64} {code data : Bytes} (inCodes : code ∈ codes size)
    (short : data.length < bufferSize) (length : data.length = size.toNat) (free : 0 ∉ data) :
    Drops 0 (VarStr.byteRepr (data ++ List.replicate (bufferSize - 1 - data.length) 1))
      (code ++ data) (code ++ data ∈ writtenStr) := by
  have filled : (data ++ List.replicate (bufferSize - 1 - data.length) (1 : UInt8)).length =
      bufferSize - 1 := by
    rw [List.length_append, List.length_replicate]
    omega
  have clean : zeros (VarStr.byteRepr
      (data ++ List.replicate (bufferSize - 1 - data.length) 1)) = 0 := by
    rw [VarStr.byteRepr, filled, full_code]
    exact List.count_eq_zero.mpr (by simp [free])
  refine ⟨clean.trans_le (Nat.zero_le _), fun _ x y agree => ?_⟩
  rw [VarStr.byteRepr, filled, List.append_assoc, List.append_assoc code] at agree
  obtain ⟨value, same⟩ := written_alike inCodes full_code rfl agree
  have whole : data.length = bufferSize - 1 := by
    rw [length, value]
    rfl
  have nothing : data ++ List.replicate (bufferSize - 1 - data.length) 1 = data := by
    rw [whole, Nat.sub_self, List.replicate_zero, List.append_nil]
  rw [nothing, VarStr.byteRepr, whole, ← same]
  exact ⟨rfl, data, whole, free, by rw [VarStr.byteRepr, whole, ← same]⟩

theorem varStr_rewrites :
    Rewrites VarStr.ofBuffer (fun v w => VarStr.byteRepr v = w) strForm writtenStr where
  loses := by
    intro e inForm
    obtain ⟨size, both⟩ := inForm
    obtain ⟨code, inCodes, data, inBytes, rfl⟩ := Language.mem_mul.mp both
    obtain ⟨length, bound, legible⟩ := inBytes
    rw [← length] at bound
    by_cases zero : 0 ∈ data
    · obtain ⟨v, read, drops⟩ := zeros_string_drops inCodes bound legible length zero
      exact ⟨v, _, read, rfl, drops_weaken drops False.elim⟩
    · have short := legible_zero_free legible zero
      have read := zero_free_read short zero (show (1 : UInt8) ≠ 0 by decide)
      rw [length] at read
      refine ⟨_, _, readAs_bind (readAs_code inCodes) read, rfl, ?_⟩
      rw [← length]
      exact free_string_drops inCodes short length zero
  kept := by
    intro e inWritten rest heap v t run
    obtain ⟨data, length, free, rfl⟩ := inWritten
    obtain ⟨size, mid, runSize, runStr⟩ := run_bind_ok.mp run
    rw [VarStr.byteRepr, length, full_code, List.append_assoc, code_read full_code_codes] at runSize
    cases runSize
    rw [show (sizeT (bufferSize - 1)).toNat = data.length from length.symm] at runStr
    obtain ⟨rfl, left⟩ := full_read_back length free runStr
    exact ⟨left, rfl⟩

end Strings

section Classes

def writtenHash : Form := {e | e.length = HASH_LENGTH ∧ 0 ∉ e}

def writtenInput : Form := writtenHash * writtenIndex * writtenStr

def writtenOutput : Form := bytesOf 8 * writtenStr

/-- The transactions that byteRepr gives back from what is read of them. -/
def writtenTransaction : Form :=
  bytesOf 4 * (writtenArray writtenStr * (writtenArray writtenInput * writtenArray writtenOutput))

theorem uint32_rewrites : Rewrites readUint32 (fun v w => Uint32.byteRepr v = w) (bytesOf 4)
    (bytesOf 4) :=
  bigEndian_rewrites UInt32.ofNat Uint32.byteRepr fun n bound => by
    have fits : n < 2 ^ 32 := bound
    rw [Uint32.byteRepr_eq, UInt32.toNat_ofNat', Nat.mod_eq_of_lt fits]

theorem uint64_rewrites : Rewrites readUint64 (fun v w => Uint64.byteRepr v = w) (bytesOf 8)
    (bytesOf 8) :=
  bigEndian_rewrites UInt64.ofNat Uint64.byteRepr fun n bound => by
    have fits : n < 2 ^ 64 := bound
    rw [Uint64.byteRepr_eq, UInt64.toNat_ofNat', Nat.mod_eq_of_lt fits]

theorem hash_rewrites : Rewrites (FixedStr.ofBuffer HASH_LENGTH) (fun f w => f.value = w)
    (bytesOf HASH_LENGTH) writtenHash where
  loses := by
    intro e length
    obtain ⟨f, read, value⟩ := fixedStr_filled length (by decide) 1
    refine ⟨f, _, read, rfl, ?_⟩
    have clean : zeros f.value = 0 := by
      rw [value]
      refine List.count_eq_zero.mpr fun zero => ?_
      rcases List.mem_append.mp zero with front | back
      · exact front_zero_free e front
      · cases List.eq_of_mem_replicate back
    refine ⟨clean.trans_le (Nat.zero_le _), fun kept _ _ _ => ?_⟩
    have free : 0 ∉ e := List.count_eq_zero.mp (kept.symm.trans clean)
    have size : e.length = HASH_LENGTH := length
    rw [value, zero_free_whole free, size, Nat.sub_self, List.replicate_zero, List.append_nil]
    exact ⟨rfl, length, free⟩
  kept := by
    intro e inWritten rest heap f t run
    obtain ⟨length, free⟩ := inWritten
    exact ⟨FixedStr.ofBuffer_bytes length (by decide) run,
      fixedStr_whole length (by decide) free run⟩

theorem script_rewrites :
    Rewrites Script.ofBuffer (fun script w => script.byteRepr = w) strForm writtenStr := by
  refine rewrites_last varStr_rewrites parsed ?_
  intro str w same
  rw [parsed_byteRepr, same]

theorem identifier_rewrites : Rewrites TransactionIdentifier.ofBuffer
    (fun id w => id.byteRepr = w) (bytesOf HASH_LENGTH * counted fun _ => 1)
    (writtenHash * writtenIndex) := by
  refine rewrites_bind hash_rewrites fun transactionHash u hash => index_rewrites _ ?_
  intro index
  rw [TransactionIdentifier.byteRepr, hash]

theorem input_rewrites : Rewrites InputTransaction.ofBuffer (fun input w => input.byteRepr = w)
    inputForm writtenInput := by
  refine rewrites_bind identifier_rewrites fun previousOutput u id =>
    rewrites_last script_rewrites _ ?_
  intro script w same
  rw [InputTransaction.byteRepr, id, same]

theorem output_rewrites : Rewrites OutputTransaction.ofBuffer
    (fun output w => output.byteRepr = w) outputForm writtenOutput := by
  refine rewrites_bind uint64_rewrites fun value u first => rewrites_last script_rewrites _ ?_
  intro script w same
  rw [OutputTransaction.byteRepr, first, same]

theorem transaction_rewrites : Rewrites Transaction.ofBuffer (fun tx w => tx.byteRepr = w)
    transactionForm writtenTransaction := by
  refine rewrites_bind uint32_rewrites fun version u first =>
    rewrites_bind (array_rewrites varStr_rewrites) fun transactionFlags u' flags =>
    rewrites_bind (array_rewrites input_rewrites) fun inputs u'' spent =>
    rewrites_last (array_rewrites output_rewrites) _ ?_
  intro outputs w paid
  have back : version.toInt32.toUInt32 = version := UInt32.toUInt32_toInt32 version
  simp only [Transaction.byteRepr, back, first, flags, spent, paid, List.append_assoc]

end Classes

section Identified

/-- Whatever memory holds, a transaction that is read from b with no read failing is written
    as the bytes that were consumed, and so hashed as they are. -/
def IdentifiedByBytes (crypto : Crypto) (b : Bytes) : Prop :=
  ∀ heap tx st, Transaction.ofBuffer.run ⟨⟨b, false⟩, heap⟩ = .ok (tx, st) →
    st.buffer.fail = false → ∃ consumed, b = consumed ++ st.buffer.unread ∧
      consumed = tx.byteRepr ∧ tx.hash crypto = crypto.sha256 (crypto.sha256 consumed).value

def StartsWith (form : Form) (b : Bytes) : Prop := ∃ e ∈ form, e <+: b

theorem written_read {b : Bytes} (starts : StartsWith writtenTransaction b) {heap : Heap}
    {tx : Transaction} {st : ReadState}
    (run : Transaction.ofBuffer.run ⟨⟨b, false⟩, heap⟩ = .ok (tx, st)) :
    b = tx.byteRepr ++ st.buffer.unread := by
  obtain ⟨e, inWritten, rest, rfl⟩ := starts
  obtain ⟨left, written⟩ := transaction_rewrites.kept e inWritten rest heap tx st run
  rw [left, written]

theorem identified_starts_written {crypto : Crypto} {b : Bytes}
    (identified : IdentifiedByBytes crypto b) (starts : StartsWith transactionForm b) :
    StartsWith writtenTransaction b := by
  obtain ⟨e, inForm, rest, rfl⟩ := starts
  obtain ⟨tx, w, read, rfl, drops⟩ := transaction_rewrites.loses e inForm
  obtain ⟨heap, lossy⟩ := read rest (constantHeap 0)
  obtain ⟨consumed, whole, rfl, _⟩ := identified heap tx _ lossy rfl
  have same : tx.byteRepr = e := (List.append_cancel_right whole).symm
  exact ⟨e, drops_exact drops same, List.prefix_append e rest⟩

theorem identified_iff_starts_written (crypto : Crypto) (b : Bytes) :
    (IdentifiedByBytes crypto b ↔
      (StartsWith transactionForm b → StartsWith writtenTransaction b)) ∧
    ∀ b' heap heap' tx st st', StartsWith writtenTransaction b →
      StartsWith writtenTransaction b' →
      Transaction.ofBuffer.run ⟨⟨b, false⟩, heap⟩ = .ok (tx, st) →
      Transaction.ofBuffer.run ⟨⟨b', false⟩, heap'⟩ = .ok (tx, st') →
      ∃ consumed, b = consumed ++ st.buffer.unread ∧ b' = consumed ++ st'.buffer.unread := by
  refine ⟨⟨identified_starts_written, fun written heap tx st run alive => ?_⟩, ?_⟩
  · obtain ⟨_, e, inForm, split⟩ := takes_transaction.taken _ tx st run alive
    have starts : StartsWith transactionForm b := ⟨e, inForm, _, split.symm⟩
    exact ⟨tx.byteRepr, written_read (written starts) run, rfl, rfl⟩
  · intro b' heap heap' tx st st' starts starts' run run'
    exact ⟨tx.byteRepr, written_read starts run, written_read starts' run'⟩

/-- White space in front of the first count is read and never written. -/
theorem skipped_space_not_identified :
    ¬ IdentifiedByBytes refusingCrypto [0, 0, 0, 0, 0x20, 0, 0, 0] := by
  intro identified
  have read : Transaction.ofBuffer.run ⟨⟨[0, 0, 0, 0, 0x20, 0, 0, 0], false⟩, constantHeap 0⟩ =
      .ok (⟨0, [], [], []⟩, ⟨⟨[], false⟩, constantHeap 0⟩) := rfl
  obtain ⟨consumed, unread, rfl, _⟩ := identified (constantHeap 0) _ _ read rfl
  revert unread
  decide

end Identified

end EnsicoinIdentifiedBytes
