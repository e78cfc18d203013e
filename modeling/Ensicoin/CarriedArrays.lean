import Ensicoin.ChosenMemory
import Ensicoin.TransactionWire

/-!
Arrays and the bytes they come from. The count of a Var_Array bounds its loop, and a
decoder at the end of the bytes goes on with zeros and empty strings; where bytes are there,
readStr and FixedStr still go on in memory that nobody wrote. So an array is carried by its
bytes exactly when they hold all the elements that are announced, each in bytes that settle
it alone.
-/
namespace EnsicoinCarriedArrays
open EnsicoinRuntime EnsicoinNetworkBuffer EnsicoinNetworkable EnsicoinScript EnsicoinTransaction
open EnsicoinScriptRuns EnsicoinTransactionWire EnsicoinVarUintCodes EnsicoinWholeReads EnsicoinChosenMemory
variable {α β γ : Type}

/-- The instances of Var_Array; the services of a WhoAmI are an array like the flags. -/
inductive ArrayKind where
  | flags
  | inputs
  | outputs
  | transactions
  | inventory
  | addresses
  | hashes
  deriving DecidableEq, Repr

def ArrayKind.Element : ArrayKind → Type
  | .flags => Bytes
  | .inputs => InputTransaction
  | .outputs => OutputTransaction
  | .transactions => Transaction
  | .inventory => InvVect
  | .addresses => Address
  | .hashes => Hash

def ArrayKind.element : (kind : ArrayKind) → Decoder kind.Element
  | .flags => VarStr.ofBuffer
  | .inputs => InputTransaction.ofBuffer
  | .outputs => OutputTransaction.ofBuffer
  | .transactions => Transaction.ofBuffer
  | .inventory => InvVect.ofBuffer
  | .addresses => Address.ofBuffer
  | .hashes => FixedStr.ofBuffer HASH_LENGTH

/-- The bytes of one whole element. -/
def ArrayKind.form : ArrayKind → Form
  | .flags => strForm
  | .inputs => inputForm
  | .outputs => outputForm
  | .transactions => transactionForm
  | .inventory => bytesOf 36
  | .addresses => bytesOf 26
  | .hashes => bytesOf HASH_LENGTH

/-- Bytes that settle a string: they hold a zero, or leave room in the array for that alone. -/
def ownBytes (size : Nat) : Form :=
  {e | e.length = size ∧ size ≤ 2 ^ 32 ∧ (0 ∈ e ∨ size = bufferSize - 1)}

def ownStr : Form := counted fun size => ownBytes size.toNat

/-- Bytes that settle a FixedStr: they fill its array. -/
def freeBytes (size : Nat) : Form := {e | e.length = size ∧ 0 ∉ e}

def ownInput : Form := freeBytes HASH_LENGTH * counted (fun _ => 1) * ownStr

def ownOutput : Form := bytesOf 8 * ownStr

def ownTransaction : Form :=
  bytesOf 4 * (arrayForm ownStr * (arrayForm ownInput * arrayForm ownOutput))

/-- The bytes of one element that no memory comes into. -/
def ArrayKind.own : ArrayKind → Form
  | .flags => ownStr
  | .inputs => ownInput
  | .outputs => ownOutput
  | .transactions => ownTransaction
  | .inventory => bytesOf 4 * ownBytes HASH_LENGTH
  | .addresses => bytesOf 8 * (freeBytes 16 * bytesOf 2)
  | .hashes => freeBytes HASH_LENGTH

section Rules
variable {form form' own own' : Form}

end Rules

section Strings

end Strings

section Classes

end Classes

section Elements
variable {element : Decoder α} {form own : Form}

end Elements

end EnsicoinCarriedArrays
