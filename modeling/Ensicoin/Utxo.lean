import Ensicoin.Transaction
import Ensicoin.VarUintCodes
import Ensicoin.Library.MapHistory

/-!
UTXOdata records and the UTXOManager over LevelDB, which is an exact map of byte
strings. A record is written field by field and read back by other code: its
value goes through an int, and its signingHash is written as it is but read as a
Hash.
-/
namespace EnsicoinUtxo
open EnsicoinRuntime EnsicoinNetworkBuffer EnsicoinNetworkable EnsicoinScript EnsicoinTransaction
open EnsicoinVarUintCodes PrefixCodes

structure UTXOdata where
  value : UInt64
  coinbase : Bool
  height : Int32
  signingHash : Bytes
  fromMempool : Bool
  script : Script
  deriving DecidableEq, Repr

def UTXOdata.new (val : Int32) (isCoinbase : Bool) (ht : Int32) (shash : Bytes)
    (isFromMempool : Bool) (sc : Script) : UTXOdata :=
  ⟨val.toInt64.toUInt64, isCoinbase, ht, shash, isFromMempool, sc⟩

def UTXOdata.byteRepr (data : UTXOdata) : Bytes :=
  Uint64.byteRepr data.value ++ Uint16.byteRepr data.coinbase.toUInt16 ++
    Uint32.byteRepr data.height.toUInt32 ++ data.signingHash ++
    Uint16.byteRepr data.fromMempool.toUInt16 ++ data.script.byteRepr

def UTXOdata.ofBuffer : Decoder UTXOdata := do
  let value ← readUint64
  let coinbase ← readUint16
  let height ← readUint32
  let signingHash ← FixedStr.ofBuffer HASH_LENGTH
  let fromMempool ← readUint16
  let script ← Script.ofBuffer
  return ⟨value, coinbase != 0, height.toInt32, signingHash.value, fromMempool != 0, script⟩

structure UTXOManager where
  db : Bytes → Option Bytes

def UTXOManager.empty : UTXOManager := ⟨fun _ => none⟩

/-- A missing entry is logged, and the empty string is read in its place. -/
def UTXOManager.getData (utxos : UTXOManager) (id : UTXO) : Memory UTXOdata := fun heap => do
  let strData := (utxos.db id.byteRepr).getD []
  let (data, st) ← UTXOdata.ofBuffer.run ⟨⟨strData, false⟩, heap⟩
  return (data, st.heap)

def UTXOManager.exists (utxos : UTXOManager) (id : UTXO) : Bool := (utxos.db id.byteRepr).isSome

def UTXOManager.add (utxos : UTXOManager) (id : UTXO) (data : UTXOdata) : UTXOManager :=
  ⟨Function.update utxos.db id.byteRepr (some data.byteRepr)⟩

def UTXOManager.spend (utxos : UTXOManager) (id : UTXO) : UTXOManager :=
  ⟨Function.update utxos.db id.byteRepr none⟩

def InInt (value : Int) : Prop := -2 ^ 31 ≤ value ∧ value < 2 ^ 31

instance (value : Int) : Decidable (InInt value) := inferInstanceAs (Decidable (_ ∧ _))

def addInts (a b : Int32) : Except Fault Int32 :=
  if InInt (a.toInt + b.toInt) then .ok (a + b) else .error .intOverflow

def subInts (a b : Int32) : Except Fault Int32 :=
  if InInt (a.toInt - b.toInt) then .ok (a - b) else .error .intOverflow

def UTXOManager.isSpendable (utxos : UTXOManager) (id : UTXO) (currentHeight : Int32) :
    Memory Bool := do
  let data ← utxos.getData id
  if !data.coinbase then return true
  else
    let age ← (subInts currentHeight data.height : Memory Int32)
    return 42 ≤ age

theorem hash_deciphers : Deciphers (fun _ : Hash => True) FixedStr.value :=
  fixed_width_deciphers HASH_LENGTH (fun hash _ => hash.size_eq) fun _ _ _ _ => FixedStr.ext_value

theorem identifier_deciphers : Deciphers (fun _ => True) TransactionIdentifier.byteRepr := by
  refine deciphers_subdomain (view_deciphers (pair_deciphers hash_deciphers written_codes_decipher)
    (fun id : TransactionIdentifier => (id.transactionHash, id.index.toUInt64)) ?_)
    fun _ _ => ⟨trivial, trivial⟩
  rintro ⟨hash, index⟩ ⟨hash', index'⟩ same
  obtain ⟨hashes, indices⟩ := Prod.mk.inj same
  have value : index = index' := by
    apply UInt32.toNat_inj.mp
    rw [← UInt32.toNat_toUInt64, ← UInt32.toNat_toUInt64]
    exact congrArg UInt64.toNat indices
  simp only at hashes
  rw [hashes, value]

theorem identifier_byteRepr_injective : Function.Injective TransactionIdentifier.byteRepr :=
  fun _ _ same => deciphers_injective identifier_deciphers trivial trivial same

/-- What add is called with for an output of tx. -/
structure OutputRecord where
  value : UInt64
  coinbase : Bool
  height : Int32
  tx : Transaction
  fromMempool : Bool
  script : Script

/-- The 64-bit value is passed as an int. -/
def OutputRecord.data (record : OutputRecord) : UTXOdata :=
  UTXOdata.new record.value.toUInt32.toInt32 record.coinbase record.height record.tx.signingHash
    record.fromMempool record.script

def OutputRecord.given (record : OutputRecord) : UTXOdata :=
  ⟨record.value, record.coinbase, record.height, record.tx.signingHash, record.fromMempool,
    record.script⟩

abbrev Call := MapHistory.Call UTXO OutputRecord

def UTXOManager.call (utxos : UTXOManager) : Call → UTXOManager
  | .put id record => utxos.add id record.data
  | .delete id => utxos.spend id

def UTXOManager.after (calls : List Call) : UTXOManager := calls.foldl UTXOManager.call .empty

/-- exists and getData answer by the last call on each id, whatever memory holds. -/
def RefinesMap (calls : List Call) : Prop :=
  ∀ id, ((UTXOManager.after calls).exists id = true ↔
      ∃ record, MapHistory.lastCall calls id = some (.put id record)) ∧
    ∀ record, MapHistory.lastCall calls id = some (.put id record) →
      ∀ heap, ∃ heap', ((UTXOManager.after calls).getData id).run heap = .ok (record.given, heap')

theorem after_db (calls : List Call) : (UTXOManager.after calls).db =
    MapHistory.replay TransactionIdentifier.byteRepr (fun record : OutputRecord =>
      record.data.byteRepr) calls := by
  induction calls using List.reverseRecOn with
  | nil => rfl
  | append_singleton calls call ih =>
    rw [UTXOManager.after, MapHistory.replay, List.foldl_append, List.foldl_append]
    rw [UTXOManager.after, MapHistory.replay] at ih
    cases call with
    | put id record =>
      simp only [List.foldl_cons, List.foldl_nil, UTXOManager.call, UTXOManager.add, ih]
      rfl
    | delete id =>
      simp only [List.foldl_cons, List.foldl_nil, UTXOManager.call, UTXOManager.spend, ih]
      rfl

theorem exists_iff_last_put (calls : List Call) (id : UTXO) :
    (UTXOManager.after calls).exists id = true ↔
      ∃ record, MapHistory.lastCall calls id = some (.put id record) := by
  rw [UTXOManager.exists, after_db, MapHistory.replay_last _ identifier_byteRepr_injective]
  cases last : MapHistory.lastCall calls id with
  | none => simp
  | some call =>
    have named := MapHistory.lastCall_key last
    cases call with
    | put key record =>
      cases named
      simp [MapHistory.Call.stored, MapHistory.Call.key]
    | delete key => simp [MapHistory.Call.stored]

/-- A signingHash that is read has 32 bytes, from any entry in any memory. -/
theorem read_signingHash_length {utxos : UTXOManager} {id : UTXO} {heap heap' : Heap}
    {data : UTXOdata} (read : (utxos.getData id).run heap = .ok (data, heap')) :
    data.signingHash.length = HASH_LENGTH := by
  obtain ⟨⟨data', st⟩, run, rest⟩ := bind_ok read
  cases rest
  obtain ⟨_, _, _, run⟩ := run_bind_ok.mp run
  obtain ⟨_, _, _, run⟩ := run_bind_ok.mp run
  obtain ⟨_, _, _, run⟩ := run_bind_ok.mp run
  obtain ⟨signingHash, _, _, run⟩ := run_bind_ok.mp run
  obtain ⟨_, _, _, run⟩ := run_bind_ok.mp run
  obtain ⟨_, _, _, run⟩ := run_bind_ok.mp run
  obtain ⟨rfl, _⟩ := run_pure_ok.mp run
  exact signingHash.size_eq

theorem refines_map_iff_no_last_add (calls : List Call) : RefinesMap calls ↔
    ∀ id record, MapHistory.lastCall calls id ≠ some (.put id record) := by
  constructor
  · intro refines id record last
    obtain ⟨heap', read⟩ := (refines id).2 record last (constantHeap 0)
    have length := read_signingHash_length read
    cases length
  · intro spent id
    exact ⟨exists_iff_last_put calls id, fun record last => absurd last (spent id record)⟩

/-- One add, and no memory in which getData gives the signingHash back. -/
theorem added_data_never_returned :
    let id : UTXO := ⟨⟨List.replicate 32 7, rfl⟩, 0⟩
    let record : OutputRecord := ⟨1, false, 1, ⟨0, [], [], []⟩, false, Script.empty⟩
    (UTXOManager.after [.put id record]).exists id = true ∧ ∀ heap data heap',
      ((UTXOManager.after [.put id record]).getData id).run heap = .ok (data, heap') →
        data.signingHash ≠ record.given.signingHash := by
  refine ⟨by decide, ?_⟩
  intro heap data heap' read same
  have length := read_signingHash_length read
  rw [same] at length
  cases length

end EnsicoinUtxo
