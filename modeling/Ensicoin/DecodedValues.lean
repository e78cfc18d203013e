import Ensicoin.ConnectionRuns
import Ensicoin.MessageWire
import Ensicoin.ReceivedBytes

/-!
What a decoded value depends on. A hash, an address or the type of a header is read
into an array that its string does not fill, so the value ends in memory; inventories and
transactions without inputs hold no such array, and are settled by a scan of their bytes.
-/
namespace EnsicoinDecodedValues
open EnsicoinRuntime EnsicoinNetworkBuffer EnsicoinNetworkable EnsicoinConstantMemory
open EnsicoinScript EnsicoinTransaction EnsicoinBlocks EnsicoinMessages EnsicoinMessageWire
open EnsicoinReceivedBytes EnsicoinConnectionRuns
variable {α : Type} {c : UInt8}

/-- One value, whatever memory holds, and no access outside the arrays. -/
def Determined (dec : Decoder α) (payload : Bytes) : Prop :=
  ∃ value, ∀ heap, ∃ st, dec.run ⟨⟨payload, false⟩, heap⟩ = .ok (value, st)

inductive Kind where
  | transaction
  | block
  | inv
  | whoAmI
  | messageHeader
  deriving DecidableEq, Repr

def Kind.Determined (payload : Bytes) : Kind → Prop
  | .transaction => EnsicoinDecodedValues.Determined Transaction.ofBuffer payload
  | .block => EnsicoinDecodedValues.Determined Block.ofBuffer payload
  | .inv => EnsicoinDecodedValues.Determined Inv.ofBuffer payload
  | .whoAmI => EnsicoinDecodedValues.Determined WhoAmI.ofBuffer payload
  | .messageHeader => EnsicoinDecodedValues.Determined MessageHeader.ofBuffer payload

def scanEntry : Scan Unit := do
  let _ ← onStream readUint32
  scanStr HASH_LENGTH

def scanOutput : Scan Unit := do
  let _ ← onStream readUint64
  scanVarStr

/-- Version, flags, no inputs, outputs. -/
def scanTransaction : Scan Unit := do
  let _ ← onStream readUint32
  scanArray scanVarStr
  let inputs ← onStream readVarUint
  if inputs = 0 then scanArray scanOutput else failure

/-- The bytes that no memory comes into. -/
def Kind.Terminated (payload : Bytes) : Kind → Prop
  | .transaction => (scanTransaction.run ⟨payload, false⟩).isSome
  | .inv => ((scanArray scanEntry).run ⟨payload, false⟩).isSome
  | _ => False

theorem settled_determined {dec : Decoder α} {scan : Scan Unit}
    (settles : Settles dec scan fun _ => ()) (payload : Bytes) :
    Determined dec payload ↔ (scan.run ⟨payload, false⟩).isSome := by
  constructor
  · intro determined
    obtain ⟨value, all⟩ := determined
    obtain ⟨st, run⟩ := all (constantHeap 1)
    rw [(settles.complete _ value st run).1]
    rfl
  · intro passes
    obtain ⟨⟨_, t⟩, run⟩ := Option.isSome_iff_exists.mp passes
    obtain ⟨value, _, all⟩ := settles.sound _ () t run
    exact ⟨value, fun heap => by
      obtain ⟨later, decoded⟩ := all heap
      exact ⟨_, decoded⟩⟩

/-- A value of which a part ends in memory is not settled by bytes. -/
theorem never_determined {dec : Decoder α} (field : α → Bytes)
    (ends : ∀ c ≠ 0, Yields c dec fun _ a _ => (field a).getLast? = some c) (payload : Bytes) :
    ¬ Determined dec payload := by
  intro determined
  obtain ⟨value, all⟩ := determined
  obtain ⟨st, one⟩ := all (constantHeap 1)
  obtain ⟨st', two⟩ := all (constantHeap 2)
  have first : (field value).getLast? = some 1 := (ends 1 (by decide) _ value st rfl one).2
  have second : (field value).getLast? = some 2 := (ends 2 (by decide) _ value st' rfl two).2
  rw [first] at second
  cases second

theorem messageHeader_yields (nonzero : c ≠ 0) : Yields c MessageHeader.ofBuffer fun _ h _ =>
    h.type.value.getLast? = some c := by
  refine yields_weaken (yields_bind (yields_map (bigEndian_yields 4)) fun magic =>
    yields_bind (fixedStr_ofBuffer_yields nonzero 12 (by decide) (by decide)) fun type =>
    yields_bind (yields_map (bigEndian_yields 8)) fun payloadLength =>
    yields_pure (⟨magic, type, payloadLength⟩ : MessageHeader)) ?_
  intro s h t fields
  obtain ⟨magic, _, _, type, _, ⟨last, _⟩, payloadLength, _, _, rfl, _⟩ := fields
  exact last

/-- The last byte of the address of a WhoAmI. -/
def addressOf (m : Message) : Bytes :=
  match m.contents with
  | .whoAmI _ address _ => address.address.value
  | _ => []

theorem whoAmI_yields (nonzero : c ≠ 0) : Yields c WhoAmI.ofBuffer fun _ m _ =>
    (addressOf m).getLast? = some c := by
  refine yields_weaken (yields_bind (yields_map (bigEndian_yields 4)) fun version =>
    yields_bind (address_yields nonzero) fun address =>
    yields_bind (varArray_yields (varStr_yields nonzero)) fun services =>
    yields_pure (⟨.whoami, .whoAmI version address services⟩ : Message)) ?_
  intro s m t fields
  obtain ⟨version, _, _, address, _, last, services, _, _, rfl, _⟩ := fields
  exact last

theorem target_yields : Yields c BlockTarget.ofBuffer fun _ _ _ => True :=
  yields_weaken (yields_bind (yields_map (bigEndian_yields 4)) fun _ => yields_pure _)
    fun _ _ _ _ => trivial

theorem blockHeader_yields (nonzero : c ≠ 0) : Yields c BlockHeader.ofBuffer fun _ h _ =>
    h.hashPrevBlock.value.getLast? = some c := by
  refine yields_weaken (yields_bind (yields_map (bigEndian_yields 4)) fun version =>
    yields_bind (varArray_yields (varStr_yields nonzero)) fun blockFlags =>
    yields_bind (hash_yields nonzero) fun hashPrevBlock =>
    yields_bind (hash_yields nonzero) fun merkleRoot =>
    yields_bind (yields_map (bigEndian_yields 8)) fun timestamp =>
    yields_bind (yields_map (bigEndian_yields 4)) fun height =>
    yields_bind target_yields fun target =>
    yields_bind (yields_map (bigEndian_yields 8)) fun nonce =>
    yields_pure (⟨version.toInt32, blockFlags, hashPrevBlock, merkleRoot, timestamp.toInt64, height,
      target, nonce⟩ : BlockHeader)) ?_
  intro s h t fields
  obtain ⟨_, _, _, _, _, _, hashPrevBlock, _, last, _, _, _, _, _, _, _, _, _, _, _, _, _, _, _,
    rfl, _⟩ := fields
  exact last

theorem script_yields (nonzero : c ≠ 0) : Yields c Script.ofBuffer fun _ _ _ => True :=
  yields_weaken (yields_bind (varStr_yields nonzero) fun _ => yields_pure _)
    fun _ _ _ _ => trivial

def spentHash (input : InputTransaction) : Bytes := input.previousOutput.transactionHash.value

theorem input_yields (nonzero : c ≠ 0) : Yields c InputTransaction.ofBuffer fun _ input _ =>
    (spentHash input).getLast? = some c := by
  have identifier : Yields c TransactionIdentifier.ofBuffer fun _ id _ =>
      id.transactionHash.value.getLast? = some c := by
    refine yields_weaken (yields_bind (hash_yields nonzero) fun transactionHash =>
      yields_bind varUint_yields fun index =>
      yields_pure (⟨transactionHash, index.toUInt32⟩ : TransactionIdentifier)) ?_
    intro s id t fields
    obtain ⟨transactionHash, _, last, index, _, _, rfl, _⟩ := fields
    exact last
  refine yields_weaken (yields_bind identifier fun id => yields_bind (script_yields nonzero)
    fun script => yields_pure (⟨id, script⟩ : InputTransaction)) ?_
  intro s input t fields
  obtain ⟨id, _, last, script, _, _, rfl, _⟩ := fields
  exact last

theorem output_yields (nonzero : c ≠ 0) : Yields c OutputTransaction.ofBuffer fun _ _ _ => True :=
  yields_weaken (yields_bind (yields_map (bigEndian_yields 8)) fun _ =>
    yields_bind (script_yields nonzero) fun _ => yields_pure _) fun _ _ _ _ => trivial

theorem transaction_yields (nonzero : c ≠ 0) : Yields c Transaction.ofBuffer fun _ tx _ =>
    ∀ input ∈ tx.inputs, (spentHash input).getLast? = some c := by
  refine yields_weaken (yields_bind (yields_map (bigEndian_yields 4)) fun version =>
    yields_bind (varArray_yields (varStr_yields nonzero)) fun flags =>
    yields_bind (varArray_yields (input_yields nonzero)) fun inputs =>
    yields_bind (varArray_yields (output_yields nonzero)) fun outputs =>
    yields_pure (⟨version.toInt32, flags, inputs, outputs⟩ : Transaction)) ?_
  intro s tx t fields
  obtain ⟨version, _, _, flags, _, _, inputs, _, ⟨_, last⟩, outputs, _, _, rfl, _⟩ := fields
  exact last

theorem block_yields (nonzero : c ≠ 0) : Yields c Block.ofBuffer fun _ b _ =>
    b.header.hashPrevBlock.value.getLast? = some c := by
  refine yields_weaken (yields_bind (blockHeader_yields nonzero) fun header =>
    yields_bind (varArray_yields (transaction_yields nonzero)) fun transactions =>
    yields_pure (⟨header, transactions⟩ : Block)) ?_
  intro s b t fields
  obtain ⟨header, _, last, transactions, _, _, rfl, _⟩ := fields
  exact last

theorem entry_settles : Settles InvVect.ofBuffer scanEntry fun _ => () :=
  settles_bind uint32_settles fun _ =>
    settles_last (readStr_settles HASH_LENGTH) _

theorem inv_settles : Settles Inv.ofBuffer (scanArray scanEntry) fun _ => () :=
  settles_last (array_settles entry_settles) _

theorem output_settles : Settles OutputTransaction.ofBuffer scanOutput fun _ => () :=
  settles_bind uint64_settles fun _ =>
    settles_last (settles_last varStr_settles _) _

/-- A transaction that bytes settle has no inputs: each would end in memory. -/
theorem determined_no_inputs {payload : Bytes} {tx : Transaction}
    (all : ∀ heap, ∃ st, Transaction.ofBuffer.run ⟨⟨payload, false⟩, heap⟩ = .ok (tx, st)) :
    tx.inputs = [] := by
  obtain ⟨st, one⟩ := all (constantHeap 1)
  obtain ⟨st', two⟩ := all (constantHeap 2)
  have first := (transaction_yields (by decide) _ tx st rfl one).2
  have second := (transaction_yields (by decide) _ tx st' rfl two).2
  apply List.eq_nil_iff_forall_not_mem.mpr
  intro input member
  have last := first input member
  rw [second input member] at last
  cases last

theorem scanned_transaction_determined {payload : Bytes} {t : StringStream}
    (run : scanTransaction.run ⟨payload, false⟩ = some ((), t)) :
    Determined Transaction.ofBuffer payload := by
  obtain ⟨_, s₁, runVersion, run⟩ := scan_bind.mp run
  obtain ⟨_, s₂, runFlags, run⟩ := scan_bind.mp run
  obtain ⟨count, s₃, runCount, run⟩ := scan_bind.mp run
  split at run
  · rename_i none
    obtain ⟨version, _, versions⟩ := uint32_settles.sound _ _ _ runVersion
    obtain ⟨flags, _, allFlags⟩ := (array_settles varStr_settles).sound _ _ _ runFlags
    obtain ⟨size, same, counts⟩ := varUint_settles.sound _ _ _ runCount
    obtain ⟨outputs, _, allOutputs⟩ := (array_settles output_settles).sound _ _ _ run
    refine ⟨⟨version.toInt32, flags, [], outputs⟩, fun heap => ?_⟩
    obtain ⟨heap₁, readVersion⟩ := versions heap
    obtain ⟨heap₂, readFlags⟩ := allFlags heap₁
    obtain ⟨heap₃, readCount⟩ := counts heap₂
    obtain ⟨heap₄, readOutputs⟩ := allOutputs heap₃
    have zero : size = 0 := same.trans none
    have readInputs : (VarArray.ofBuffer InputTransaction.ofBuffer).run ⟨s₂, heap₂⟩ =
        .ok ([], ⟨s₃, heap₃⟩) := run_bind_ok.mpr ⟨size, _, readCount, by rw [zero]; rfl⟩
    exact ⟨_, run_bind_ok.mpr ⟨_, _, readVersion, run_bind_ok.mpr ⟨_, _, readFlags,
      run_bind_ok.mpr ⟨_, _, readInputs, run_bind_ok.mpr ⟨_, _, readOutputs, rfl⟩⟩⟩⟩⟩
  · cases run

theorem determined_transaction_scanned {payload : Bytes}
    (determined : Determined Transaction.ofBuffer payload) :
    (scanTransaction.run ⟨payload, false⟩).isSome := by
  obtain ⟨tx, all⟩ := determined
  have none := determined_no_inputs all
  obtain ⟨st, run⟩ := all (constantHeap 1)
  obtain ⟨version, ⟨s₁, heap₁⟩, runVersion, run⟩ := run_bind_ok.mp run
  obtain ⟨flags, ⟨s₂, heap₂⟩, runFlags, run⟩ := run_bind_ok.mp run
  obtain ⟨inputs, s₃, runInputs, run⟩ := run_bind_ok.mp run
  obtain ⟨outputs, s₄, runOutputs, run⟩ := run_bind_ok.mp run
  obtain ⟨rfl, _⟩ := run_pure_ok.mp run
  obtain rfl : inputs = [] := none
  obtain ⟨size, ⟨s, heap⟩, runCount, runInputs⟩ := run_bind_ok.mp runInputs
  have length := readElements_length runInputs
  have zero : size = 0 := UInt64.toNat_inj.mp length.symm
  subst zero
  obtain ⟨_, rfl⟩ := run_pure_ok.mp runInputs
  obtain ⟨scanVersion, steady₁⟩ := uint32_settles.complete _ _ _ runVersion
  simp only at steady₁
  subst steady₁
  obtain ⟨scanFlags, steady₂⟩ := (array_settles varStr_settles).complete _ _ _ runFlags
  simp only at steady₂
  subst steady₂
  obtain ⟨scanCount, steady₃⟩ := varUint_settles.complete _ _ _ runCount
  simp only at steady₃
  subst steady₃
  obtain ⟨scanOutputs, _⟩ := (array_settles output_settles).complete _ _ _ runOutputs
  have whole : scanTransaction.run ⟨payload, false⟩ = some ((), s₄.buffer) :=
    scan_bind.mpr ⟨_, _, scanVersion, scan_bind.mpr ⟨_, _, scanFlags,
      scan_bind.mpr ⟨_, _, scanCount, scanOutputs⟩⟩⟩
  rw [whole]
  rfl

theorem decoded_iff_terminated (kind : Kind) (payload : Bytes) :
    kind.Determined payload ↔ kind.Terminated payload := by
  cases kind with
  | transaction =>
    constructor
    · exact determined_transaction_scanned
    · intro passes
      obtain ⟨⟨_, t⟩, run⟩ := Option.isSome_iff_exists.mp passes
      exact scanned_transaction_determined run
  | inv => exact settled_determined inv_settles payload
  | block =>
    exact iff_of_false (never_determined (fun b => b.header.hashPrevBlock.value)
      (fun _ => block_yields) payload) id
  | whoAmI => exact iff_of_false (never_determined addressOf (fun _ => whoAmI_yields) payload) id
  | messageHeader =>
    exact iff_of_false (never_determined (fun h => h.type.value) (fun _ => messageHeader_yields)
      payload) id

/-- The type of the header of a WhoAmIAck ends in memory behind its name. -/
theorem whoAmIAck_header_undetermined : ¬ Kind.Determined whoAmIAckFrame .messageHeader :=
  never_determined (fun h => h.type.value) (fun _ => messageHeader_yields) whoAmIAckFrame

end EnsicoinDecodedValues
