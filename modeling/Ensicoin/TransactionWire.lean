import Ensicoin.ConstantMemory
import Ensicoin.ScriptRuns
import Ensicoin.Transaction

/-!
What a transaction read off a buffer writes again. Over memory of ones no decoder
gains a zero byte, and one that read a string either lost a zero or writes another
Var_uint in front; so only a transaction without strings is written as it was
read, and such a one is read back in every memory.
-/
namespace EnsicoinTransactionWire
open BigEndianWords PrefixCodes EnsicoinRuntime EnsicoinNetworkBuffer EnsicoinNetworkable
open EnsicoinVarUintCodes EnsicoinConstantMemory EnsicoinScript EnsicoinScriptRuns
open EnsicoinTransaction

/-- A decoder that went from s to t read a value that is written as out. -/
def Loses (s t : ReadState) (out : Bytes) (exact : Prop) : Prop :=
  t.buffer.fail = false → s.buffer.fail = false ∧
    ∃ raw, s.buffer.unread = raw ++ t.buffer.unread ∧ Drops 0 out raw exact

theorem loses_nothing (s : ReadState) : Loses s s [] True :=
  fun alive => ⟨alive, [], rfl, drops_same []⟩

theorem loses_append {s m t : ReadState} {out out' : Bytes} {p q : Prop}
    (first : Loses s m out p) (second : Loses m t out' q) : Loses s t (out ++ out') (p ∧ q) := by
  intro alive
  obtain ⟨between, raw', rest, drops'⟩ := second alive
  obtain ⟨good, raw, unread, drops⟩ := first between
  exact ⟨good, raw ++ raw', by rw [unread, rest, List.append_assoc], drops_append drops drops'⟩

theorem loses_weaken {s t : ReadState} {out : Bytes} {p q : Prop} (loses : Loses s t out p)
    (weaker : p → q) : Loses s t out q := by
  intro alive
  obtain ⟨good, raw, unread, drops⟩ := loses alive
  exact ⟨good, raw, unread, drops_weaken drops weaker⟩

theorem bigEndian_loses (width : Nat) : Yields 1 (readBigEndian width) fun s value t =>
    Loses s t (toBytes width value) True ∧ (t.buffer.fail = false → value < 256 ^ width) := by
  refine yields_weaken (bigEndian_yields width) ?_
  intro s value t taken
  refine ⟨fun alive => ?_, fun alive => ?_⟩
  · obtain ⟨good, data, length, unread, rfl⟩ := taken alive
    have same : toBytes width (ofBytes data) = data := by rw [← length, toBytes_ofBytes]
    exact ⟨good, data, unread, by rw [same]; exact drops_same data⟩
  · obtain ⟨_, data, length, _, rfl⟩ := taken alive
    rw [← length]
    exact ofBytes_lt data

theorem uint32_loses : Yields 1 readUint32 fun s v t => Loses s t (Uint32.byteRepr v) True := by
  refine yields_weaken (yields_map (bigEndian_loses 4)) ?_
  rintro s v t ⟨value, ⟨loses, bound⟩, rfl⟩ alive
  have fits : value < 2 ^ 32 := bound alive
  rw [Uint32.byteRepr_eq, UInt32.toNat_ofNat', Nat.mod_eq_of_lt fits]
  exact loses alive

theorem uint64_loses : Yields 1 readUint64 fun s v t => Loses s t (Uint64.byteRepr v) True := by
  refine yields_weaken (yields_map (bigEndian_loses 8)) ?_
  rintro s v t ⟨value, ⟨loses, bound⟩, rfl⟩ alive
  have fits : value < 2 ^ 64 := bound alive
  rw [Uint64.byteRepr_eq, UInt64.toNat_ofNat', Nat.mod_eq_of_lt fits]
  exact loses alive

theorem varUint_loses : Yields 1 readVarUint fun s v t => Loses s t (VarUint.byteRepr v) True := by
  refine yields_weaken varUint_yields ?_
  intro s v t taken alive
  obtain ⟨good, spaces, code, unread, blank, raw, dark⟩ := taken alive
  refine ⟨good, spaces ++ code, unread, ?_⟩
  rcases raw_code_zeros raw with same | fewer
  · rw [same]
    refine ⟨by simp, fun _ x y agree => ?_⟩
    cases spaces with
    | nil => simp
    | cons w spaces =>
      -- the code starts with a byte that is not white space
      cases code with
      | nil => exact absurd same (VarUint.byteRepr_ne_nil v)
      | cons b code =>
        simp only [List.cons_append, List.cons.injEq] at agree
        have white := blank w (by simp)
        have black := dark b (by simp)
        rw [agree.1, white] at black
        cases black
  · exact drops_fewer (by simp only [zeros] at fewer; rw [List.count_append]; omega)

theorem varStr_loses :
    Yields 1 VarStr.ofBuffer fun s v t => Loses s t (VarStr.byteRepr v) False := by
  refine yields_weaken (yields_bind varUint_yields fun size =>
    readStr_yields (by decide) size.toNat) ?_
  rintro s v t ⟨size, m, takenSize, takenData⟩ alive
  obtain ⟨between, data, passes, rest, fewer, zero, short, free⟩ := takenData alive
  obtain ⟨good, spaces, code, unread, blank, raw, _⟩ := takenSize between
  refine ⟨good, spaces ++ code ++ data, by rw [unread, rest]; simp, ?_⟩
  have clean : zeros v = 0 := List.count_eq_zero.mpr free
  have bound : zeros (VarUint.byteRepr (sizeT v.length)) ≤ zeros data := by
    have wrap : (sizeT v.length).toNat ≤ v.length := by
      rw [sizeT, UInt64.toNat_ofNat']; exact Nat.mod_le _ _
    rcases written_code_zeros (sizeT v.length) with one | ⟨long, nine⟩
    · omega
    · omega
  have written : zeros (VarStr.byteRepr v) = zeros (VarUint.byteRepr (sizeT v.length)) := by
    rw [VarStr.byteRepr, zeros, List.count_append]
    exact Nat.add_eq_left.mpr clean
  have taken : zeros (spaces ++ code ++ data) = zeros spaces + zeros code + zeros data := by
    rw [zeros, List.count_append, List.count_append]
  refine ⟨by change zeros _ ≤ zeros _; omega, fun kept x y agree => ?_⟩
  change zeros _ = zeros _ at kept
  exfalso
  obtain ⟨start, others, shape, black⟩ := written_code_start (sizeT v.length) (by omega)
  cases spaces with
  | nil =>
    have deciphered := raw_codes_decipher (VarUint.byteRepr (sizeT v.length)) code
      ⟨_, written_code_raw _⟩ ⟨_, raw⟩ (v ++ x) (data ++ y) (by
        simpa [VarStr.byteRepr, List.append_assoc] using agree)
    have same := congrArg zeros deciphered.1
    omega
  | cons w spaces =>
    simp only [VarStr.byteRepr, shape, List.cons_append, List.cons.injEq] at agree
    rw [agree.1, blank w (by simp)] at black
    cases black

theorem hash_loses : Yields 1 (FixedStr.ofBuffer HASH_LENGTH) fun s f t =>
    Loses s t f.value False := by
  refine yields_weaken (fixedStr_ofBuffer_yields (by decide) HASH_LENGTH (by decide) (by decide)) ?_
  rintro s f t ⟨_, free, taken⟩ alive
  obtain ⟨good, data, unread, zero⟩ := taken alive
  refine ⟨good, data, unread, drops_fewer ?_⟩
  have clean : zeros f.value = 0 := List.count_eq_zero.mpr free
  exact clean.trans_lt zero

theorem varArray_loses {α : Type} {element : Decoder α} {repr : α → Bytes} {plain : α → Prop}
    (each : Yields 1 element fun s a t => Loses s t (repr a) (plain a)) :
    Yields 1 (VarArray.ofBuffer element) fun s as t =>
      Loses s t (VarArray.byteRepr repr as) (∀ a ∈ as, plain a) := by
  have elements := yields_elements (Q := fun as s t =>
      Loses s t (as.flatMap repr) (∀ a ∈ as, plain a)) each
    (fun s => loses_weaken (loses_nothing s) (by simp))
    (fun s a m as t first rest => by
      rw [List.flatMap_cons]
      exact loses_weaken (loses_append first rest) (by simp))
  refine yields_weaken (yields_bind varUint_loses fun size => elements size.toNat) ?_
  rintro s as t ⟨size, m, first, length, rest⟩
  have count : sizeT as.length = size := by rw [sizeT, length, UInt64.ofNat_toNat]
  rw [VarArray.byteRepr, count]
  exact loses_weaken (loses_append first rest) And.right

theorem toByte_parseInstruction (chr : UInt8) : (parseInstruction chr).toByte = chr := by
  unfold parseInstruction
  repeat' split
  all_goals simp_all [Instruction.toByte, Opcode.toByte]

theorem parsed_byteRepr (bytes : Bytes) : (parsed bytes).byteRepr = VarStr.byteRepr bytes := by
  have each : Instruction.toByte ∘ parseInstruction = id := funext toByte_parseInstruction
  simp [Script.byteRepr, parsed, Script.new, each]

theorem script_loses : Yields 1 Script.ofBuffer fun s script t =>
    Loses s t script.byteRepr False := by
  refine yields_weaken (yields_bind varStr_loses fun str => yields_pure (parsed str)) ?_
  rintro s script t ⟨str, m, loses, rfl, rfl⟩
  rw [parsed_byteRepr]
  exact loses

theorem transactionIdentifier_loses : Yields 1 TransactionIdentifier.ofBuffer fun s id t =>
    Loses s t id.byteRepr False := by
  refine yields_weaken (yields_bind hash_loses fun hash => yields_bind varUint_yields fun index =>
    yields_pure (⟨hash, index.toUInt32⟩ : TransactionIdentifier)) ?_
  rintro s id t ⟨hash, m, losesHash, index, m', takenIndex, rfl, rfl⟩ alive
  obtain ⟨between, spaces, code, rest, _, raw, _⟩ := takenIndex alive
  obtain ⟨good, data, unread, drops⟩ := losesHash between
  refine ⟨good, data ++ (spaces ++ code), by rw [unread, rest]; simp, ?_⟩
  apply drops_append_never drops
  rw [List.count_append]
  exact (truncated_code_zeros raw).trans (Nat.le_add_left _ _)

theorem inputTransaction_loses : Yields 1 InputTransaction.ofBuffer fun s input t =>
    Loses s t input.byteRepr False := by
  refine yields_weaken (yields_bind transactionIdentifier_loses fun id =>
    yields_bind script_loses fun script => yields_pure (⟨id, script⟩ : InputTransaction)) ?_
  rintro s input t ⟨id, _, losesId, script, _, losesScript, rfl, rfl⟩
  exact loses_weaken (loses_append losesId losesScript) And.left

theorem outputTransaction_loses : Yields 1 OutputTransaction.ofBuffer fun s output t =>
    Loses s t output.byteRepr False := by
  refine yields_weaken (yields_bind uint64_loses fun value =>
    yields_bind script_loses fun script => yields_pure (⟨value, script⟩ : OutputTransaction)) ?_
  rintro s output t ⟨value, _, losesValue, script, _, losesScript, rfl, rfl⟩
  exact loses_weaken (loses_append losesValue losesScript) And.right

/-- Neither flags nor inputs nor outputs: nothing that holds a string. -/
def Bare (tx : Transaction) : Prop :=
  tx.transactionFlags = [] ∧ tx.inputs = [] ∧ tx.outputs = []

theorem transaction_loses : Yields 1 Transaction.ofBuffer fun s tx t =>
    Loses s t tx.byteRepr (Bare tx) := by
  refine yields_weaken (yields_bind uint32_loses fun version =>
    yields_bind (varArray_loses varStr_loses) fun flags =>
    yields_bind (varArray_loses inputTransaction_loses) fun inputs =>
    yields_bind (varArray_loses outputTransaction_loses) fun outputs =>
    yields_pure (⟨version.toInt32, flags, inputs, outputs⟩ : Transaction)) ?_
  rintro s tx t ⟨version, _, losesVersion, flags, _, losesFlags, inputs, _, losesInputs,
    outputs, _, losesOutputs, rfl, rfl⟩
  have all := loses_append (loses_append (loses_append losesVersion losesFlags) losesInputs)
    losesOutputs
  have back : version.toInt32.toUInt32 = version := by simp
  rw [Transaction.byteRepr, back]
  refine loses_weaken all ?_
  rintro ⟨⟨⟨_, noFlags⟩, noInputs⟩, noOutputs⟩
  exact ⟨List.eq_nil_iff_forall_not_mem.mpr noFlags, List.eq_nil_iff_forall_not_mem.mpr noInputs,
    List.eq_nil_iff_forall_not_mem.mpr noOutputs⟩

theorem empty_array_read {α : Type} (element : Decoder α) (rest : Bytes) (heap : Heap) :
    (VarArray.ofBuffer element).run ⟨⟨0 :: rest, false⟩, heap⟩ =
      .ok ([], ⟨⟨rest, false⟩, heap⟩) := rfl

/-- Four bytes and three empty arrays are read without any memory. -/
theorem bare_transaction_read (version rest : Bytes) (length : version.length = 4) (heap : Heap) :
    Transaction.ofBuffer.run ⟨⟨version ++ 0 :: 0 :: 0 :: rest, false⟩, heap⟩ =
      .ok (⟨(UInt32.ofNat (ofBytes version)).toInt32, [], [], []⟩, ⟨⟨rest, false⟩, heap⟩) := by
  have first : readUint32.run ⟨⟨version ++ 0 :: 0 :: 0 :: rest, false⟩, heap⟩ =
      .ok (UInt32.ofNat (ofBytes version), ⟨⟨0 :: 0 :: 0 :: rest, false⟩, heap⟩) :=
    readUint_bytes UInt32.ofNat length heap
  exact run_bind_ok.mpr ⟨_, _, first, run_bind_ok.mpr ⟨_, _, empty_array_read _ _ _,
    run_bind_ok.mpr ⟨_, _, empty_array_read _ _ _,
      run_bind_ok.mpr ⟨_, _, empty_array_read _ _ _, rfl⟩⟩⟩⟩

theorem bare_byteRepr {tx : Transaction} (bare : Bare tx) :
    tx.byteRepr = Uint32.byteRepr tx.version.toUInt32 ++ [0, 0, 0] := by
  obtain ⟨noFlags, noInputs, noOutputs⟩ := bare
  have empty : ∀ {α : Type} (repr : α → Bytes), VarArray.byteRepr repr [] = [0] := by
    intro α repr; rfl
  rw [Transaction.byteRepr, noFlags, noInputs, noOutputs, empty, empty, empty]
  simp

theorem bare_read_back {tx : Transaction} (bare : Bare tx) (rest : Bytes) (heap : Heap) :
    Transaction.ofBuffer.run ⟨⟨tx.byteRepr ++ rest, false⟩, heap⟩ =
      .ok (tx, ⟨⟨rest, false⟩, heap⟩) := by
  have read := bare_transaction_read (Uint32.byteRepr tx.version.toUInt32) rest (by simp) heap
  have value :
      UInt32.ofNat (ofBytes (Uint32.byteRepr tx.version.toUInt32)) = tx.version.toUInt32 := by
    rw [Uint32.byteRepr_eq, ofBytes_toBytes 4 _ (UInt32.toNat_lt _), UInt32.ofNat_toNat]
  obtain ⟨noFlags, noInputs, noOutputs⟩ := bare
  have same : (⟨tx.version.toUInt32.toInt32, [], [], []⟩ : Transaction) = tx := by
    cases tx; simp_all
  rw [value, same] at read
  rw [bare_byteRepr ⟨noFlags, noInputs, noOutputs⟩, List.append_assoc]
  exact read

/-- A transaction that is written as it was read, in memory of ones, is bare. -/
theorem exact_read_bare {b : Bytes} {tx : Transaction} {st : ReadState}
    (run : Transaction.ofBuffer.run ⟨⟨b, false⟩, constantHeap 1⟩ = .ok (tx, st))
    (alive : st.buffer.fail = false) (same : b = tx.byteRepr ++ st.buffer.unread) : Bare tx := by
  obtain ⟨_, raw, unread, drops⟩ := (transaction_loses _ tx st rfl run).2 alive
  simp only at unread
  exact drops_exact drops (List.append_cancel_right (same.symm.trans unread))

/-- Whatever memory holds, tx is read back from its bytes and rest is left. -/
def ReadsBack (tx : Transaction) (rest : Bytes) : Prop :=
  ∀ heap, ∃ st, Transaction.ofBuffer.run ⟨⟨tx.byteRepr ++ rest, false⟩, heap⟩ = .ok (tx, st) ∧
    st.buffer = ⟨rest, false⟩

theorem reads_back_iff_bare (tx : Transaction) (rest : Bytes) : ReadsBack tx rest ↔ Bare tx := by
  constructor
  · intro back
    obtain ⟨st, run, left⟩ := back (constantHeap 1)
    exact exact_read_bare run (by rw [left]) (by rw [left])
  · intro bare heap
    exact ⟨_, bare_read_back bare rest heap, rfl⟩

/-- A string is read without its zeros, whatever memory holds. -/
theorem readLoop_zero_free (length readLength : Nat) (array acc : Bytes) (buffer : StringStream)
    {v : Bytes} {after : StringStream} (clean : 0 ∉ acc)
    (run : readLoop length readLength array acc buffer = .ok (v, after)) : 0 ∉ v := by
  rw [readLoop_iff] at run
  induction run with
  | chunk more found full later ih => exact ih (by simp [clean, cString_zero_free found])
  | cutChunk more found short => exact List.not_mem_nil
  | last ends full found => simp [clean, cString_zero_free found]
  | cutLast ends short => exact List.not_mem_nil

theorem varStr_zero_free {s t : ReadState} {v : Bytes}
    (run : VarStr.ofBuffer.run s = .ok (v, t)) : 0 ∉ v := by
  obtain ⟨size, m, _, runStr⟩ := run_bind_ok.mp run
  obtain ⟨array, mid, _, loop, _⟩ := (readStr_run size.toNat m).mp runStr
  exact readLoop_zero_free _ _ _ _ _ (by simp) loop

theorem flags_zero_free {s t : ReadState} {tx : Transaction}
    (run : Transaction.ofBuffer.run s = .ok (tx, t)) : ∀ flag ∈ tx.transactionFlags, 0 ∉ flag := by
  obtain ⟨version, s1, _, run⟩ := run_bind_ok.mp run
  obtain ⟨flags, s2, runFlags, run⟩ := run_bind_ok.mp run
  obtain ⟨inputs, s3, _, run⟩ := run_bind_ok.mp run
  obtain ⟨outputs, s4, _, run⟩ := run_bind_ok.mp run
  obtain ⟨rfl, _⟩ := run_pure_ok.mp run
  obtain ⟨size, m, _, runFlags⟩ := run_bind_ok.mp runFlags
  exact readElements_all (p := fun flag => 0 ∉ flag) (fun s v t => varStr_zero_free) runFlags

/-- One flag that is one zero byte comes back from no memory at all. -/
theorem zero_flag_never_read_back : ¬ ∃ heap st, Transaction.ofBuffer.run
    ⟨⟨Transaction.byteRepr ⟨0, [[0]], [], []⟩ ++ [], false⟩, heap⟩ =
      .ok (⟨0, [[0]], [], []⟩, st) := by
  rintro ⟨heap, st, run⟩
  have free := flags_zero_free run [0] (by simp)
  exact free (by simp)

end EnsicoinTransactionWire
