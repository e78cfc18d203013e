import Ensicoin.MessageWire
import Ensicoin.TransactionWire
import Ensicoin.Utxo

/-!
The encoding of a transaction can be cut off the front of any bytes. Each field is
a code of its own, and a record is the pair of the codes of its fields. What is
asked of a transaction is that its containers have sizes (size_t) and that its
scripts were parsed.
-/
namespace EnsicoinTransactionCodes
open BigEndianWords PrefixCodes EnsicoinRuntime EnsicoinNetworkable EnsicoinScript
open EnsicoinScriptRuns EnsicoinVarUintCodes EnsicoinTransaction EnsicoinTransactionWire
open EnsicoinMessageWire EnsicoinUtxo

/-- A container size that a size_t holds. -/
def Sized {α : Type} (xs : List α) : Prop := xs.length < 2 ^ 64

def Parsed (script : Script) : Prop := ∃ bytes, Sized bytes ∧ script = parsed bytes

structure Encodable (tx : Transaction) : Prop where
  flags : Sized tx.transactionFlags ∧ ∀ flag ∈ tx.transactionFlags, Sized flag
  inputs : Sized tx.inputs ∧ ∀ input ∈ tx.inputs, Parsed input.script
  outputs : Sized tx.outputs ∧ ∀ output ∈ tx.outputs, Parsed output.script

def Collision (crypto : Crypto) (a b : Bytes) : Prop := a ≠ b ∧ crypto.sha256 a = crypto.sha256 b

/-- The double hashes of a and b meet in one of their two rounds. -/
def DoubleCollision (crypto : Crypto) (a b : Bytes) : Prop :=
  Collision crypto a b ∨ Collision crypto (crypto.sha256 a).value (crypto.sha256 b).value

theorem double_hash_injective {crypto : Crypto} {a b : Bytes}
    (same : crypto.sha256 (crypto.sha256 a).value = crypto.sha256 (crypto.sha256 b).value) :
    a = b ∨ DoubleCollision crypto a b := by
  by_cases equal : a = b
  · exact Or.inl equal
  · right
    by_cases first : crypto.sha256 a = crypto.sha256 b
    · exact Or.inl ⟨equal, first⟩
    · right
      refine ⟨fun values => first (FixedStr.ext_value values), same⟩

theorem words_decipher {α : Type} {repr : α → Bytes} {toNat : α → Nat} (width : Nat)
    (bytes : ∀ v, repr v = toBytes width (toNat v)) (fits : ∀ v, toNat v < 256 ^ width)
    (injective : Function.Injective toNat) : Deciphers (fun _ => True) repr := by
  refine fixed_width_deciphers width (fun v _ => ?_) ?_
  · rw [bytes, toBytes_length]
  · intro v w _ _ same
    rw [bytes, bytes] at same
    exact injective (toBytes_injective width (fits v) (fits w) same)

theorem uint32_deciphers : Deciphers (fun _ => True) Uint32.byteRepr :=
  words_decipher 4 Uint32.byteRepr_eq (fun v => v.toNat_lt) fun _ _ => UInt32.toNat_inj.mp

theorem uint64_deciphers : Deciphers (fun _ => True) Uint64.byteRepr :=
  words_decipher 8 Uint64.byteRepr_eq (fun v => v.toNat_lt) fun _ _ => UInt64.toNat_inj.mp

theorem int32_deciphers :
    Deciphers (fun _ => True) fun v : Int32 => Uint32.byteRepr v.toUInt32 := by
  refine view_deciphers uint32_deciphers Int32.toUInt32 ?_
  intro v w same
  rw [← Int32.toInt32_toUInt32 v, same, Int32.toInt32_toUInt32]

theorem varArray_deciphers {α : Type} {p : α → Prop} {repr : α → Bytes}
    (each : Deciphers p repr) :
    Deciphers (fun xs : List α => Sized xs ∧ ∀ x ∈ xs, p x) (VarArray.byteRepr repr) :=
  counted_deciphers sizes_decipher each

theorem flags_decipher :
    Deciphers (fun flags : List Bytes => Sized flags ∧ ∀ flag ∈ flags, Sized flag)
      (VarArray.byteRepr VarStr.byteRepr) :=
  varArray_deciphers varStr_deciphers

theorem script_deciphers : Deciphers Parsed Script.byteRepr := by
  intro script script' first second s t same
  obtain ⟨bytes, fits, rfl⟩ := first
  obtain ⟨bytes', fits', rfl⟩ := second
  rw [parsed_byteRepr, parsed_byteRepr] at same
  obtain ⟨equal, rest⟩ := varStr_deciphers bytes bytes' fits fits' s t same
  exact ⟨by rw [equal], rest⟩

theorem input_deciphers :
    Deciphers (fun input : InputTransaction => Parsed input.script) InputTransaction.byteRepr := by
  refine deciphers_subdomain (view_deciphers (pair_deciphers identifier_deciphers script_deciphers)
    (fun input : InputTransaction => (input.previousOutput, input.script)) ?_)
    fun input parsed => ⟨trivial, parsed⟩
  intro input input' same
  obtain ⟨outputs, scripts⟩ := Prod.mk.inj same
  cases input
  cases input'
  simp_all

theorem output_deciphers :
    Deciphers (fun output : OutputTransaction => Parsed output.script)
      OutputTransaction.byteRepr := by
  refine deciphers_subdomain (view_deciphers (pair_deciphers uint64_deciphers script_deciphers)
    (fun output : OutputTransaction => (output.value, output.script)) ?_)
    fun output parsed => ⟨trivial, parsed⟩
  intro output output' same
  obtain ⟨values, scripts⟩ := Prod.mk.inj same
  cases output
  cases output'
  simp_all

theorem transaction_deciphers : Deciphers Encodable Transaction.byteRepr := by
  have fields := pair_deciphers (pair_deciphers (pair_deciphers int32_deciphers flags_decipher)
    (varArray_deciphers input_deciphers)) (varArray_deciphers output_deciphers)
  refine deciphers_subdomain (view_deciphers fields (fun tx : Transaction =>
    (((tx.version, tx.transactionFlags), tx.inputs), tx.outputs)) ?_) ?_
  · intro tx tx' same
    obtain ⟨front, outputs⟩ := Prod.mk.inj same
    obtain ⟨front, inputs⟩ := Prod.mk.inj front
    obtain ⟨version, flags⟩ := Prod.mk.inj front
    cases tx
    cases tx'
    simp_all
  · intro tx encodable
    exact ⟨⟨⟨trivial, encodable.flags⟩, encodable.inputs⟩, encodable.outputs⟩

/-- Two transactions of one hash are one, or their bytes are a collision. -/
theorem shared_hash_collides (crypto : Crypto) {tx tx' : Transaction} (encodable : Encodable tx)
    (encodable' : Encodable tx') (same : tx.hash crypto = tx'.hash crypto) :
    tx = tx' ∨ DoubleCollision crypto tx.byteRepr tx'.byteRepr := by
  rcases double_hash_injective same with equal | collision
  · exact Or.inl (deciphers_injective transaction_deciphers encodable encodable' equal)
  · exact Or.inr collision

theorem transactions_uniquely_decipherable (crypto : Crypto) :
    Deciphers Encodable Transaction.byteRepr ∧
    (∀ tx tx', Encodable tx → Encodable tx' → tx.hash crypto = tx'.hash crypto →
      tx = tx' ∨ DoubleCollision crypto tx.byteRepr tx'.byteRepr) ∧
    Deciphers (fun txs : List Transaction => Sized txs ∧ ∀ tx ∈ txs, Encodable tx)
      (VarArray.byteRepr Transaction.byteRepr) :=
  ⟨transaction_deciphers, fun _ _ => shared_hash_collides crypto,
    varArray_deciphers transaction_deciphers⟩

end EnsicoinTransactionCodes
