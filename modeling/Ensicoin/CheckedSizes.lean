import Mathlib.Algebra.BigOperators.Group.List.Basic
import Ensicoin.MempoolAdmission

/-!
What the size limit of check measures. It counts the characters of the document, and json
puts a fixed text where a script stands: the scripts are sent and hashed without a limit.
-/
namespace EnsicoinCheckedSizes
open EnsicoinRuntime EnsicoinNetworkable EnsicoinScript EnsicoinTransaction
open EnsicoinOrphanPromotion EnsicoinMempoolAdmission

def Bounded (lib : Libraries) (tx : Transaction) : Prop :=
  tx.check lib = true → tx.byteRepr.length ≤ MAX_BLOCK_SIZE

def countSize (n : Nat) : Nat :=
  let count := (sizeT n).toNat
  if count ≤ 252 then 1 else if count ≤ 0xffff then 3 else if count ≤ 0xffffffff then 5 else 9

def textSize (n : Nat) : Nat := countSize n + n

def scripts (tx : Transaction) : List Script :=
  tx.inputs.map InputTransaction.script ++ tx.outputs.map OutputTransaction.script

/-- The scripts with their lengths in front, of which the document shows nothing. -/
def hiddenSize (tx : Transaction) : Nat :=
  ((scripts tx).map fun script => textSize script.length).sum

def shownSize (tx : Transaction) : Nat :=
  4 + (countSize tx.transactionFlags.length +
    (tx.transactionFlags.map fun flag => textSize flag.length).sum) +
  (countSize tx.inputs.length +
    (tx.inputs.map fun input => 32 + countSize input.previousOutput.index.toNat).sum) +
  (countSize tx.outputs.length + 8 * tx.outputs.length)

/-- What check does look at. -/
def Refused (lib : Libraries) (tx : Transaction) : Prop :=
  tx.inputs = [] ∨ tx.outputs = [] ∨ MAX_BLOCK_SIZE < (tx.str lib).length ∨
    ∃ output ∈ tx.outputs, output.value = 0

theorem check_iff (lib : Libraries) (tx : Transaction) :
    tx.check lib = true ↔ ¬ Refused lib tx := by
  have valueless : ∀ value : UInt64, value ≤ 0 ↔ value = 0 := by
    intro value
    rw [UInt64.le_iff_toNat_le, ← UInt64.toNat_inj]
    exact Nat.le_zero
  have worthless : (tx.outputs.any fun output => output.value ≤ 0) = true ↔
      ∃ output ∈ tx.outputs, output.value = 0 := by
    simp [valueless]
  unfold Transaction.check Refused
  rw [← worthless]
  split
  · rename_i bare
    refine iff_of_false Bool.false_ne_true fun kept => kept ?_
    rcases Bool.or_eq_true_iff.mp bare with none | none
    · exact Or.inl (List.isEmpty_iff.mp none)
    · exact Or.inr (Or.inl (List.isEmpty_iff.mp none))
  · rename_i filled
    simp only [Bool.or_eq_true, List.isEmpty_iff, not_or] at filled
    split
    · rename_i long
      exact iff_of_false Bool.false_ne_true fun kept => kept (Or.inr (Or.inr (Or.inl long)))
    · rename_i fits
      simp only [filled, fits, false_or, Bool.not_eq_true', Bool.not_eq_true]

theorem count_length (n : Nat) : (VarUint.byteRepr (sizeT n)).length = countSize n :=
  VarUint.byteRepr_length (sizeT n)

theorem text_length (text : Bytes) : (VarStr.byteRepr text).length = textSize text.length := by
  rw [VarStr.byteRepr, List.length_append, count_length, textSize]

theorem script_length (s : Script) : s.byteRepr.length = textSize s.length := by
  rw [Script.byteRepr, text_length, List.length_map, Script.length]

theorem array_length {α : Type} (repr : α → Bytes) (data : List α) :
    (VarArray.byteRepr repr data).length =
      countSize data.length + (data.map fun a => (repr a).length).sum := by
  rw [VarArray.byteRepr, List.length_append, count_length, List.length_flatMap]

theorem index_length (index : UInt32) :
    (VarUint.byteRepr index.toUInt64).length = countSize index.toNat := by
  have same : index.toUInt64 = sizeT index.toNat := by
    apply UInt64.toNat_inj.mp
    have bound := index.toNat_lt
    rw [sizeT, UInt64.toNat_ofNat', UInt32.toNat_toUInt64]
    omega
  rw [same, count_length]

theorem input_length (input : InputTransaction) : input.byteRepr.length =
    32 + countSize input.previousOutput.index.toNat + textSize input.script.length := by
  rw [InputTransaction.byteRepr, TransactionIdentifier.byteRepr, List.length_append,
    List.length_append, index_length, script_length, FixedStr.size_eq, HASH_LENGTH]

theorem output_length (output : OutputTransaction) :
    output.byteRepr.length = 8 + textSize output.script.length := by
  rw [OutputTransaction.byteRepr, List.length_append, Uint64.byteRepr_length, script_length]

theorem byteRepr_length (tx : Transaction) :
    tx.byteRepr.length = shownSize tx + hiddenSize tx := by
  have scripts : hiddenSize tx =
      (tx.inputs.map fun input => textSize input.script.length).sum +
        (tx.outputs.map fun output => textSize output.script.length).sum := by
    simp [hiddenSize, scripts, Function.comp_def]
  have values : (tx.outputs.map fun _ => 8).sum = 8 * tx.outputs.length := by
    rw [List.map_const', List.sum_replicate_nat, Nat.mul_comm]
  rw [Transaction.byteRepr, List.length_append, List.length_append, List.length_append,
    Uint32.byteRepr_length, array_length, array_length, array_length, scripts, shownSize]
  simp only [text_length, input_length, output_length, List.sum_map_add, values]
  omega

theorem same_values {outputs others : List OutputTransaction}
    (same : others.map OutputTransaction.json = outputs.map OutputTransaction.json) :
    others.map OutputTransaction.value = outputs.map OutputTransaction.value := by
  induction outputs generalizing others with
  | nil => simp_all
  | cons output outputs ih =>
    obtain ⟨other, rest, rfl, first, later⟩ := List.map_eq_cons_iff.mp same
    simp only [OutputTransaction.json, Json.object.injEq, List.cons.injEq, Prod.mk.injEq,
      Json.number.injEq, true_and, and_true, Nat.cast_inj, UInt64.toNat_inj] at first
    rw [List.map_cons, List.map_cons, first, ih later]

/-- check is a function of the document. -/
theorem same_document_check (lib : Libraries) {tx other : Transaction}
    (same : other.json = tx.json) : other.check lib = tx.check lib := by
  have text : other.str lib = tx.str lib := congrArg lib.prettyWriter same
  simp only [Transaction.json, Json.object.injEq, List.cons.injEq, Prod.mk.injEq,
    Json.array.injEq, true_and, and_true] at same
  obtain ⟨_, _, inputs, outputs⟩ := same
  have inputless : other.inputs.isEmpty = tx.inputs.isEmpty := by
    rw [← List.isEmpty_map, inputs, List.isEmpty_map]
  have outputless : other.outputs.isEmpty = tx.outputs.isEmpty := by
    rw [← List.isEmpty_map, outputs, List.isEmpty_map]
  have worthless : (other.outputs.any fun output => output.value ≤ 0) =
      tx.outputs.any fun output => output.value ≤ 0 := by
    have any := congrArg (List.any · fun value => value ≤ 0) (same_values outputs)
    simpa only [List.any_map, Function.comp_def] using any
  rw [Transaction.check, Transaction.check, inputless, outputless, text, worthless]

def rescripted (script : Script) (tx : Transaction) : Transaction :=
  { tx with
    inputs := tx.inputs.map fun input => { input with script := script }
    outputs := tx.outputs.map fun output => { output with script := script } }

theorem rescripted_json (script : Script) (tx : Transaction) :
    (rescripted script tx).json = tx.json := by
  simp [rescripted, Transaction.json, Function.comp_def, InputTransaction.json,
    OutputTransaction.json]

/-- Every transaction that passes has one with the same document beyond any size. -/
theorem checked_unbounded (lib : Libraries) {tx : Transaction} (checked : tx.check lib = true)
    (size : Nat) : ∃ other : Transaction, other.json = tx.json ∧ other.check lib = true ∧
      size < other.byteRepr.length := by
  let script := Script.new (List.replicate size (parseInstruction 0x50)) []
  have same := rescripted_json script tx
  refine ⟨rescripted script tx, same, (same_document_check lib same).trans checked, ?_⟩
  have filled : tx.inputs ≠ [] := fun none => (check_iff lib tx).mp checked (Or.inl none)
  obtain ⟨input, inputs, split⟩ := List.exists_cons_of_ne_nil filled
  have long : size ≤ hiddenSize (rescripted script tx) := by
    have length : script.length = size := List.length_replicate
    simp only [hiddenSize, scripts, rescripted, split, List.map_cons, List.cons_append,
      List.sum_cons, length, textSize]
    omega
  have shown : 4 ≤ shownSize (rescripted script tx) := by
    unfold shownSize
    omega
  rw [byteRepr_length]
  omega

/-- The size decides, and the document never does unless check refuses it. -/
theorem bounded_iff (lib : Libraries) (tx : Transaction) :
    (Bounded lib tx ↔ Refused lib tx ∨ shownSize tx + hiddenSize tx ≤ MAX_BLOCK_SIZE) ∧
    ((∀ other : Transaction, other.json = tx.json → Bounded lib other) ↔ Refused lib tx) := by
  constructor
  · rw [Bounded, check_iff, byteRepr_length, or_iff_not_imp_left]
  · constructor
    · intro bounded
      by_contra kept
      obtain ⟨other, same, checked, long⟩ :=
        checked_unbounded lib ((check_iff lib tx).mpr kept) MAX_BLOCK_SIZE
      exact Nat.not_le_of_lt long (bounded other same checked)
    · intro refused other same checked
      rw [same_document_check lib same, check_iff] at checked
      exact absurd refused checked

def thousandTrue : Script := Script.new (List.replicate 1024 (parseInstruction 0x50)) []

/-- 2102 bytes behind a document of 558 characters. -/
theorem long_scripts_checked :
    (rescripted thousandTrue (spending 1 [genesisOutput])).check prefixLibraries = true ∧
      ¬ Bounded prefixLibraries (rescripted thousandTrue (spending 1 [genesisOutput])) := by
  have same := rescripted_json thousandTrue (spending 1 [genesisOutput])
  have checked := (same_document_check prefixLibraries same).trans (spending_checked 1)
  refine ⟨checked, ?_⟩
  intro bounded
  have size := bounded checked
  have length : thousandTrue.length = 1024 := List.length_replicate
  have text : textSize 1024 = 1027 := by decide
  have hidden : hiddenSize (rescripted thousandTrue (spending 1 [genesisOutput])) =
      textSize thousandTrue.length + textSize thousandTrue.length := by
    simp only [hiddenSize, scripts, rescripted, spending, List.map_cons, List.map_nil,
      List.cons_append, List.nil_append, List.sum_cons, List.sum_nil, Nat.add_zero]
  have shown : shownSize (rescripted thousandTrue (spending 1 [genesisOutput])) = 48 := by decide
  rw [byteRepr_length, hidden, length, text, shown, MAX_BLOCK_SIZE] at size
  omega

end EnsicoinCheckedSizes
