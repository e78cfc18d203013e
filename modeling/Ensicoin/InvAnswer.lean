import Ensicoin.ConnectionRuns
import Ensicoin.Mempool
import Ensicoin.MessageWire

/-!
The answer to an Inv. The type number of an entry is written by the enum and read
the other way round, and its hash is read up to the first zero; so the wrong store is
asked about a part of the hash, and an entry that is asked for is written too short.
-/
namespace EnsicoinInvAnswer
open PrefixCodes EnsicoinRuntime EnsicoinNetworkBuffer EnsicoinNetworkable EnsicoinVarUintCodes
open EnsicoinConstantMemory EnsicoinMessages EnsicoinMessageWire EnsicoinUtxo
open EnsicoinLinkedTransaction EnsicoinMempool EnsicoinConnection EnsicoinConnectionRuns

/-- What a Node looks its resources up in. -/
structure Stores where
  mempool : Mempool
  blocksDB : Bytes → Option Bytes

def Stores.transactionExists (stores : Stores) (txHash : Bytes) : Bool :=
  stores.mempool.exists txHash || stores.mempool.orphanExists txHash

def Stores.blockExists (stores : Stores) (hash : Bytes) : Bool := (stores.blocksDB hash).isSome

def Stores.surroundings (stores : Stores) (env : Surroundings) : Surroundings :=
  { env with transactionExists := stores.transactionExists, blockExists := stores.blockExists }

/-- Whether the store of a type has the hash; there is none for other types. -/
def Stores.has (stores : Stores) (type : RessourceType) (hash : Bytes) : Bool :=
  match type with
  | .txRes => stores.transactionExists hash
  | .blockRes => stores.blockExists hash
  | .invalidRes => true

def Stores.missing (stores : Stores) (data : List InvVect) : List InvVect :=
  data.filter fun inv => !stores.has inv.type inv.hash

/-- In any memory, onInv sends a GetData that is on the wire the request for what is missing. -/
def AnswersExactly (env : Surroundings) (stores : Stores) (c : Connection)
    (data : List InvVect) : Prop :=
  ∀ heap, ∃ heap' m,
    onInv (stores.surroundings env) { c with heap := heap } (Contents.inv data).payload =
      .ok ({ c with heap := heap' }.sendMessage m) ∧
    m.getType = .getdata ∧ m.byteRepr = (Message.new (.getData (stores.missing data))).byteRepr

/-- The type that the number of a type is read as. -/
def swapped : RessourceType → RessourceType
  | .blockRes => .txRes
  | .txRes => .blockRes
  | .invalidRes => .invalidRes

/-- An entry as it is read back, when its hash holds a zero. -/
def cutEntry (inv : InvVect) : InvVect := ⟨swapped inv.type, inv.hash.takeWhile (· != 0)⟩

/-- A count in one byte that readVar_uint skips as white space. -/
def BlankCount (count : Nat) : Prop := count ≤ 252 ∧ isSpace (UInt8.ofNat count) = true

theorem unknown_missing (env : Surroundings) (stores : Stores) (read : List InvVect) :
    (read.filter fun res => match res.type with
      | .txRes => !(stores.surroundings env).transactionExists res.hash
      | .blockRes => !(stores.surroundings env).blockExists res.hash
      | .invalidRes => false) = stores.missing read := by
  rw [Stores.missing]
  congr 1
  funext res
  cases res.type <;> rfl

theorem onInv_sends {env : Surroundings} {stores : Stores} {c d : Connection} {payload : Bytes} :
    onInv (stores.surroundings env) c payload = .ok d ↔ ∃ read st,
      (VarArray.ofBuffer InvVect.ofBuffer).run ⟨⟨payload, false⟩, c.heap⟩ = .ok (read, st) ∧
      d = { c with heap := st.heap }.sendMessage
        (Message.new (.getData (stores.missing read))) := by
  constructor
  · intro run
    obtain ⟨⟨m, after⟩, reading, done⟩ := bind_ok run
    obtain ⟨⟨m', st⟩, decoded, same⟩ := bind_ok reading
    obtain ⟨read, mid, taken, last⟩ := run_bind_ok.mp decoded
    cases last
    cases same
    cases done
    refine ⟨read, st, taken, ?_⟩
    rw [← unknown_missing env]
    rfl
  · intro sent
    obtain ⟨read, st, taken, rfl⟩ := sent
    have decoded : Inv.ofBuffer.run ⟨⟨payload, false⟩, c.heap⟩ = .ok (⟨.inv, .inv read⟩, st) :=
      run_bind_ok.mpr ⟨_, _, taken, rfl⟩
    simp only [onInv, Connection.readMessage, decoded, bind, Except.bind, pure, Except.pure]
    rw [← unknown_missing env]
    rfl

/-- Two messages that wait for Ack leave the same connection behind only if they are one. -/
theorem sent_message_unique {c : Connection} {heap heap' : Heap} {m n : Message}
    (other : handshakeType m.getType = false) (other' : handshakeType n.getType = false)
    (same : { c with heap := heap }.sendMessage m = { c with heap := heap' }.sendMessage n) :
    m = n := by
  unfold Connection.sendMessage at same
  rw [other, other'] at same
  by_cases ack : c.currentStatus = .Ack
  · have written := congrArg Connection.written same
    simpa [ack, Connection.asyncWrite] using written
  · have buffered := congrArg Connection.bufferedMessages same
    simpa [ack] using buffered

/-- What onInv sends is settled by what it reads. -/
theorem answers_iff_reads (env : Surroundings) (stores : Stores) (c : Connection)
    (data : List InvVect) : AnswersExactly env stores c data ↔ ∀ heap, ∃ read st,
      (VarArray.ofBuffer InvVect.ofBuffer).run ⟨⟨(Contents.inv data).payload, false⟩, heap⟩ =
        .ok (read, st) ∧
      VarArray.byteRepr InvVect.byteRepr (stores.missing read) =
        VarArray.byteRepr InvVect.byteRepr (stores.missing data) := by
  constructor
  · intro answers heap
    obtain ⟨heap', m, run, type, wire⟩ := answers heap
    obtain ⟨read, st, taken, sent⟩ := onInv_sends.mp run
    refine ⟨read, st, taken, ?_⟩
    have only : m = Message.new (.getData (stores.missing read)) :=
      sent_message_unique (by rw [type]; rfl) rfl sent
    rw [only] at wire
    exact same_payload wire
  · intro reads heap
    obtain ⟨read, st, taken, same⟩ := reads heap
    refine ⟨st.heap, Message.new (.getData (stores.missing read)),
      onInv_sends.mpr ⟨read, st, taken, rfl⟩, rfl, ?_⟩
    simp only [Message.byteRepr, Message.new, Contents.payload, Contents.messageType, same]

section Entries
variable {inv : InvVect} {data : List InvVect}

theorem entry_shape (known : InvVect.Known inv) (rest : Bytes) : inv.byteRepr ++ rest =
    Uint32.byteRepr inv.type.toUint32 ++ (inv.hash ++ rest) := by
  rw [InvVect.byteRepr, if_neg known.1, List.append_assoc]

theorem entry_read (known : InvVect.Known inv) (zero : 0 ∈ inv.hash) (rest : Bytes) (heap : Heap) :
    InvVect.ofBuffer.run ⟨⟨inv.byteRepr ++ rest, false⟩, heap⟩ =
      .ok (cutEntry inv, ⟨⟨rest, false⟩, fun n => heap (n + 1)⟩) := by
  rw [entry_shape known]
  refine run_bind_ok.mpr ⟨_, _, Uint32.byteRepr_read _ _ _, run_bind_ok.mpr ⟨_, _,
    readStr_terminated known.2 (by decide) zero heap, ?_⟩⟩
  obtain ⟨type, hash⟩ := inv
  cases type with
  | blockRes => rfl
  | txRes => rfl
  | invalidRes => exact absurd rfl known.1

/-- Over ones, the hash of an entry that is read ends in itself. -/
theorem entry_read_zero (known : InvVect.Known inv) {rest : Bytes} {read : InvVect} {t : ReadState}
    (run : InvVect.ofBuffer.run ⟨⟨inv.byteRepr ++ rest, false⟩, constantHeap 1⟩ = .ok (read, t)) :
    0 ∈ inv.hash := by
  rw [entry_shape known] at run
  obtain ⟨typeInt, m, runType, run⟩ := run_bind_ok.mp run
  obtain ⟨hash, m', runHash, _⟩ := run_bind_ok.mp run
  rw [Uint32.byteRepr_read] at runType
  cases runType
  have left := readStr_bytes known.2 (by decide) runHash
  obtain ⟨_, taken⟩ := readStr_yields (by decide) HASH_LENGTH _ hash m' rfl runHash
  obtain ⟨_, bytes, _, unread, _, zero, _⟩ := taken (by rw [left])
  rw [left] at unread
  rw [List.append_cancel_right unread]
  exact List.count_pos_iff.mp zero

theorem entries_read (known : ∀ inv ∈ data, InvVect.Known inv) (zeros : ∀ inv ∈ data, 0 ∈ inv.hash)
    (heap : Heap) : ∃ t, (readElements InvVect.ofBuffer data.length).run
      ⟨⟨data.flatMap InvVect.byteRepr, false⟩, heap⟩ = .ok (data.map cutEntry, t) := by
  induction data generalizing heap with
  | nil => exact ⟨_, rfl⟩
  | cons inv data ih =>
    have first := entry_read (known inv (by simp)) (zeros inv (by simp))
      (data.flatMap InvVect.byteRepr) heap
    obtain ⟨t, rest⟩ := ih (fun a member => known a (by simp [member]))
      (fun a member => zeros a (by simp [member])) fun n => heap (n + 1)
    exact ⟨t, run_bind_ok.mpr ⟨_, _, first, run_bind_ok.mpr ⟨_, _, rest, rfl⟩⟩⟩

theorem entries_read_zeros (known : ∀ inv ∈ data, InvVect.Known inv) {read : List InvVect}
    {t : ReadState} (run : (readElements InvVect.ofBuffer data.length).run
      ⟨⟨data.flatMap InvVect.byteRepr, false⟩, constantHeap 1⟩ = .ok (read, t)) :
    ∀ inv ∈ data, 0 ∈ inv.hash := by
  induction data generalizing read t with
  | nil => simp
  | cons inv data ih =>
    obtain ⟨first, m, runFirst, run⟩ := run_bind_ok.mp run
    obtain ⟨rest, m', runRest, _⟩ := run_bind_ok.mp run
    rw [List.flatMap_cons] at runFirst
    have zero := entry_read_zero (known inv (by simp)) runFirst
    rw [entry_read (known inv (by simp)) zero] at runFirst
    cases runFirst
    have others := ih (fun a member => known a (by simp [member])) runRest
    intro a member
    rcases List.mem_cons.mp member with rfl | later
    · exact zero
    · exact others a later

end Entries

/-- A blank count is skipped, and the type of the first entry starts with a zero. -/
theorem blank_count_read {data : List InvVect} (known : ∀ inv ∈ data, InvVect.Known inv)
    (blank : BlankCount data.length) (heap : Heap) :
    (VarArray.ofBuffer InvVect.ofBuffer).run ⟨⟨(Contents.inv data).payload, false⟩, heap⟩ =
      .ok ([], ⟨⟨(data.flatMap InvVect.byteRepr).tail, false⟩, heap⟩) := by
  obtain ⟨small, space⟩ := blank
  have value : (sizeT data.length).toNat = data.length := by
    rw [sizeT, UInt64.toNat_ofNat']
    omega
  have count : VarUint.byteRepr (sizeT data.length) = [UInt8.ofNat data.length] := by
    rw [VarUint.byteRepr_eq, value, if_pos small]
  cases data with
  | nil => exact absurd space (by decide)
  | cons inv data =>
    obtain ⟨tail, start⟩ : ∃ tail, (inv :: data).flatMap InvVect.byteRepr = 0 :: tail := by
      have valid := (known inv (by simp)).1
      rw [List.flatMap_cons, entry_shape (known inv (by simp))]
      cases type : inv.type with
      | blockRes => exact ⟨_, rfl⟩
      | txRes => exact ⟨_, rfl⟩
      | invalidRes => exact absurd type valid
    have zero : readVarUint.run ⟨⟨0 :: tail, false⟩, heap⟩ = .ok (0, ⟨⟨tail, false⟩, heap⟩) :=
      raw_code_read (.short 0 (by decide)) (by simp [isSpace]) tail heap
    refine run_bind_ok.mpr ⟨0, ⟨⟨tail, false⟩, heap⟩, ?_, by rw [start]; rfl⟩
    rw [Contents.payload, VarArray.byteRepr, count, start]
    exact (blank_skipped space (0 :: tail) heap).trans zero

theorem dark_count_read {data : List InvVect} (fits : data.length < 2 ^ 64)
    (dark : ¬ BlankCount data.length) (heap : Heap) {read : List InvVect} {st : ReadState} :
    (VarArray.ofBuffer InvVect.ofBuffer).run ⟨⟨(Contents.inv data).payload, false⟩, heap⟩ =
        .ok (read, st) ↔ (readElements InvVect.ofBuffer data.length).run
      ⟨⟨data.flatMap InvVect.byteRepr, false⟩, heap⟩ = .ok (read, st) := by
  have value : (sizeT data.length).toNat = data.length :=
    (UInt64.toNat_ofNat' ..).trans (Nat.mod_eq_of_lt fits)
  have first : ∀ b ∈ (VarUint.byteRepr (sizeT data.length)).head?, isSpace b = false := by
    rw [VarUint.byteRepr_eq, value]
    split
    · rename_i small
      simp only [List.head?_cons, Option.mem_def, Option.some.injEq, forall_eq']
      by_contra space
      exact dark ⟨small, by simpa using space⟩
    · split
      · simp [isSpace]
      · split <;> simp [isSpace]
  have count := raw_code_read (written_code_raw (sizeT data.length)) first
    (data.flatMap InvVect.byteRepr) heap
  constructor
  · intro run
    obtain ⟨size, m, runSize, run⟩ := run_bind_ok.mp run
    rw [Contents.payload, VarArray.byteRepr, count] at runSize
    cases runSize
    rwa [value] at run
  · intro run
    rw [← value] at run
    exact run_bind_ok.mpr ⟨_, _, count, run⟩

theorem missing_nil_iff (stores : Stores) (data : List InvVect) :
    stores.missing data = [] ↔ ∀ inv ∈ data, stores.has inv.type inv.hash = true := by
  simp [Stores.missing]

theorem empty_list_unique {repr : InvVect → Bytes} {xs : List InvVect} (fits : xs.length < 2 ^ 64)
    (same : VarArray.byteRepr repr [] = VarArray.byteRepr repr xs) : xs = [] := by
  have counts := (sizes_decipher _ _ (by decide) fits _ _ same).1
  exact List.length_eq_zero_iff.mp counts.symm

section Answers
variable (env : Surroundings) (stores : Stores) (c : Connection) {data : List InvVect}

theorem missing_length_le (read : List InvVect) : (stores.missing read).length ≤ read.length :=
  List.length_filter_le _ _

theorem blank_answers_iff (known : ∀ inv ∈ data, InvVect.Known inv) (fits : data.length < 2 ^ 64)
    (blank : BlankCount data.length) :
    AnswersExactly env stores c data ↔ stores.missing data = [] := by
  rw [answers_iff_reads]
  constructor
  · intro reads
    obtain ⟨read, st, run, same⟩ := reads (constantHeap 1)
    rw [blank_count_read known blank] at run
    cases run
    exact empty_list_unique ((missing_length_le stores data).trans_lt fits) same
  · intro none heap
    exact ⟨[], _, blank_count_read known blank heap, by rw [none]; rfl⟩

theorem covered_iff : stores.missing (data.map cutEntry) = [] ↔ ∀ inv ∈ data,
    stores.has (swapped inv.type) (inv.hash.takeWhile (· != 0)) = true := by
  rw [missing_nil_iff, List.forall_mem_map]
  rfl

theorem cutEntry_length {inv : InvVect} (known : InvVect.Known inv) (zero : 0 ∈ inv.hash) :
    (cutEntry inv).byteRepr.length < 36 := by
  apply cut_entry_length
  have found : cString inv.hash = some (inv.hash.takeWhile (· != 0)) := by rw [cString, if_pos zero]
  rw [← known.2]
  exact cString_shorter found

theorem dark_answers_iff (known : ∀ inv ∈ data, InvVect.Known inv) (fits : data.length < 2 ^ 64)
    (dark : ¬ BlankCount data.length) :
    AnswersExactly env stores c data ↔ stores.missing data = [] ∧ ∀ inv ∈ data, 0 ∈ inv.hash ∧
      stores.has (swapped inv.type) (inv.hash.takeWhile (· != 0)) = true := by
  rw [answers_iff_reads]
  simp only [dark_count_read fits dark]
  have count : (stores.missing (data.map cutEntry)).length < 2 ^ 64 := by
    have fewer := missing_length_le stores (data.map cutEntry)
    rw [List.length_map] at fewer
    omega
  constructor
  · intro reads
    obtain ⟨read, st, run, same⟩ := reads (constantHeap 1)
    have zeros := entries_read_zeros known run
    obtain ⟨t, again⟩ := entries_read known zeros (constantHeap 1)
    rw [again] at run
    cases run
    have cut : ∀ inv ∈ stores.missing (data.map cutEntry), inv.byteRepr.length < 35 + 1 := by
      intro inv member
      obtain ⟨entry, inside, rfl⟩ := List.mem_map.mp (List.mem_of_mem_filter member)
      exact cutEntry_length (known entry inside) (zeros entry inside)
    have whole : ∀ inv ∈ stores.missing data, inv.byteRepr.length = 35 + 1 :=
      fun inv member => known_length (known inv (List.mem_of_mem_filter member))
    have none := short_entries_empty count cut whole same
    rw [none] at same
    have covered := (covered_iff stores).mp (empty_list_unique count same.symm)
    exact ⟨none, fun inv member => ⟨zeros inv member, covered inv member⟩⟩
  · intro both heap
    obtain ⟨t, read⟩ := entries_read known (fun inv member => (both.2 inv member).1) heap
    have covered := (covered_iff stores).mpr fun inv member => (both.2 inv member).2
    exact ⟨_, t, read, by rw [covered, both.1]⟩

end Answers

theorem answers_iff_nothing_missing (env : Surroundings) (stores : Stores) (c : Connection)
    (data : List InvVect) (known : ∀ inv ∈ data, InvVect.Known inv) (fits : data.length < 2 ^ 64) :
    AnswersExactly env stores c data ↔ (∀ inv ∈ data, stores.has inv.type inv.hash = true) ∧
      (BlankCount data.length ∨ ∀ inv ∈ data, 0 ∈ inv.hash ∧
        stores.has (swapped inv.type) (inv.hash.takeWhile (· != 0)) = true) := by
  rw [← missing_nil_iff]
  by_cases blank : BlankCount data.length
  · rw [blank_answers_iff env stores c known fits blank]
    simp [blank]
  · rw [dark_answers_iff env stores c known fits blank]
    simp [blank]

def sevenEntry : InvVect := ⟨.txRes, 7 :: List.replicate 31 0⟩

theorem sevenEntry_known : ∀ inv ∈ [sevenEntry], InvVect.Known inv := by
  intro inv member
  rw [List.mem_singleton.mp member]
  exact ⟨by decide, rfl⟩

/-- Every transaction is in mainPool, and every block in the database. -/
def fullStores : Stores :=
  ⟨{ Mempool.new UTXOManager.empty 0 with mainPool := fun _ => some ⟨⟨0, [], [], []⟩, [], []⟩ },
    fun _ => some []⟩

theorem known_entry_answered :
    AnswersExactly offline fullStores (Connection.new (constantHeap 0)) [sevenEntry] :=
  (answers_iff_nothing_missing offline fullStores _ [sevenEntry] sevenEntry_known
    (by decide)).mpr ⟨by decide, Or.inr (by decide)⟩

/-- A node that knows nothing asks for a block with a hash of one byte. -/
theorem unknown_transaction_not_requested : ¬ AnswersExactly offline
    ⟨Mempool.new UTXOManager.empty 0, fun _ => none⟩ (Connection.new (constantHeap 0))
    [sevenEntry] := by
  have dark : ¬ BlankCount 1 := fun blank => absurd blank.2 (by decide)
  rw [dark_answers_iff _ _ _ sevenEntry_known (by decide) dark]
  intro none
  exact absurd none.1 (by decide)

end EnsicoinInvAnswer
