import Ensicoin.ConstantMemory
import Ensicoin.Messages
import Ensicoin.ScriptRuns
import Mathlib.Algebra.Group.Action.Defs
import Mathlib.Algebra.Order.BigOperators.Group.List

/-!
Which messages survive their own wire format. A message is written as a header of
24 bytes and its payload, so it survives when the payload it reads back is written
alike. Over memory of a nonzero c an entry of an inventory comes back too short,
and an address or a hash comes back ending in c.
-/
namespace EnsicoinMessageWire
open BigEndianWords PrefixCodes EnsicoinRuntime EnsicoinNetworkBuffer EnsicoinNetworkable
open EnsicoinVarUintCodes EnsicoinConstantMemory EnsicoinTransaction EnsicoinBlocks EnsicoinMessages
variable {α : Type} {c : UInt8}

/-- The constructor of the same class from a buffer, for the classes with a payload. -/
def Contents.fromBuffer : Contents → Option (Decoder Message)
  | .whoAmI _ _ _ => some WhoAmI.ofBuffer
  | .addr _ => some Addr.ofBuffer
  | .getData _ => some GetData.ofBuffer
  | .inv _ => some Inv.ofBuffer
  | .notFound _ => some NotFound.ofBuffer
  | .blockMessage _ => some BlockMessage.ofBuffer
  | .transactionMessage _ => some TransactionMessage.ofBuffer
  | .getBlocks _ _ => some GetBlocks.ofBuffer
  | .whoAmIAck => none
  | .getAddr => none
  | .getMempool => none

def InvVect.Known (inv : InvVect) : Prop :=
  inv.type ≠ .invalidRes ∧ inv.hash.length = HASH_LENGTH

def Contents.Known : Contents → Prop
  | .getData data => ∀ inv ∈ data, InvVect.Known inv
  | .inv data => ∀ inv ∈ data, InvVect.Known inv
  | .notFound data => ∀ inv ∈ data, InvVect.Known inv
  | _ => True

/-- Whatever memory holds, the payload is read back as a message of the same type
    that is written the same. -/
def SurvivesWire (contents : Contents) (ofBuffer : Decoder Message) : Prop :=
  ∀ heap, ∃ m st, ofBuffer.run ⟨⟨contents.payload, false⟩, heap⟩ = .ok (m, st) ∧
    m.getType = (Message.new contents).getType ∧ m.byteRepr = (Message.new contents).byteRepr

def EmptyListing : Contents → Prop
  | .addr addresses => addresses = []
  | .getData data => data = []
  | .inv data => data = []
  | .notFound data => data = []
  | _ => False

theorem header_length (h : MessageHeader) : h.byteRepr.length = MessageHeader.size := by
  simp [MessageHeader.byteRepr, MessageHeader.size]

theorem same_payload {m n : Message} (same : m.byteRepr = n.byteRepr) :
    m.contents.payload = n.contents.payload :=
  (List.append_inj same (by rw [header_length, header_length])).2

theorem fresh_byte (last : Option UInt8) : ∃ c : UInt8, c ≠ 0 ∧ last ≠ some c := by
  by_cases one : last = some 1
  · exact ⟨2, by decide, by rw [one]; decide⟩
  · exact ⟨1, by decide, one⟩

theorem varArray_yields {element : Decoder α} {p : α → Prop}
    (each : Yields c element fun _ a _ => p a) :
    Yields c (VarArray.ofBuffer element) fun _ as _ => as.length < 2 ^ 64 ∧ ∀ a ∈ as, p a := by
  have elements := yields_elements (Q := fun as _ _ => ∀ a ∈ as, p a) each (fun s => by simp)
    (fun s a m as t first rest => by simpa using ⟨first, rest⟩)
  refine yields_weaken (yields_bind varUint_yields fun size => elements size.toNat) ?_
  rintro s as t ⟨size, m, _, length, all⟩
  exact ⟨by rw [length]; exact size.toNat_lt, all⟩

theorem varStr_yields (nonzero : c ≠ 0) : Yields c VarStr.ofBuffer fun _ _ _ => True :=
  yields_weaken (yields_bind varUint_yields fun size => readStr_yields nonzero size.toNat)
    fun _ _ _ _ => trivial

theorem cut_entry_length (type : RessourceType) {hash : Bytes} (cut : hash.length < HASH_LENGTH) :
    (InvVect.byteRepr ⟨type, hash⟩).length < 36 := by
  have limit : HASH_LENGTH = 32 := rfl
  cases type with
  | invalidRes => exact (by decide : (ascii "INVALID RESSOURCE").length < 36)
  | blockRes | txRes => simp [InvVect.byteRepr]; omega

theorem invVect_yields (nonzero : c ≠ 0) : Yields c InvVect.ofBuffer fun _ inv _ =>
    inv.byteRepr.length < 36 := by
  refine yields_weaken (yields_bind (yields_map (bigEndian_yields 4)) fun typeInt => yields_bind
    (readStr_shorter nonzero HASH_LENGTH (by decide) (by decide)) fun hash => yields_pure _) ?_
  rintro s inv t ⟨typeInt, m, _, hash, m', ⟨short, _⟩, rfl, rfl⟩
  exact cut_entry_length _ short

theorem known_length {inv : InvVect} (known : InvVect.Known inv) : inv.byteRepr.length = 36 := by
  obtain ⟨valid, length⟩ := known
  rw [InvVect.byteRepr, if_neg valid]
  simp [length, HASH_LENGTH]

/-- Entries that come back too short are not written like whole ones. -/
theorem short_entries_empty {repr : α → Bytes} {read written : List α} {size : Nat}
    (fits : read.length < 2 ^ 64) (short : ∀ a ∈ read, (repr a).length < size + 1)
    (whole : ∀ a ∈ written, (repr a).length = size + 1)
    (same : VarArray.byteRepr repr read = VarArray.byteRepr repr written) : written = [] := by
  obtain ⟨counts, items⟩ := written_codes_decipher _ _ trivial trivial _ _ same
  have fewer : read.length ≤ written.length := by
    have value := congrArg UInt64.toNat counts
    simp only [sizeT, UInt64.toNat_ofNat'] at value
    rw [Nat.mod_eq_of_lt fits] at value
    rw [value]
    exact Nat.mod_le _ _
  have lengths := congrArg List.length items
  rw [List.length_flatMap, List.length_flatMap] at lengths
  have upper := List.sum_le_card_nsmul (read.map fun a => (repr a).length) size (by
    intro n member
    obtain ⟨a, inside, rfl⟩ := List.mem_map.mp member
    exact Nat.lt_succ_iff.mp (short a inside))
  have lower := List.card_nsmul_le_sum (written.map fun a => (repr a).length) (size + 1) (by
    intro n member
    obtain ⟨a, inside, rfl⟩ := List.mem_map.mp member
    exact (whole a inside).ge)
  simp only [List.length_map, smul_eq_mul] at upper lower
  have scaled := Nat.mul_le_mul_right size fewer
  rw [Nat.mul_succ] at lower
  exact List.length_eq_zero_iff.mp (by omega)

theorem address_yields (nonzero : c ≠ 0) : Yields c Address.ofBuffer fun _ a _ =>
    a.address.value.getLast? = some c := by
  refine yields_weaken (yields_bind (yields_map (bigEndian_yields 8)) fun timestamp =>
    yields_bind (fixedStr_ofBuffer_yields nonzero 16 (by decide) (by decide)) fun ip =>
    yields_bind (fixedStr_ofString_yields 16 ip.value) fun address =>
    yields_bind (yields_map (bigEndian_yields 2)) fun port =>
    yields_pure (⟨timestamp, address, port⟩ : Address)) ?_
  rintro s a t ⟨timestamp, _, _, ip, _, ⟨last, _⟩, address, _, ⟨_, _, value⟩, port, _, _, rfl, rfl⟩
  rw [value, ip.size_eq]
  simpa using last

theorem same_address {a b : Address} {s t : Bytes} (same : a.byteRepr ++ s = b.byteRepr ++ t) :
    a.address.value = b.address.value := by
  simp only [Address.byteRepr, List.append_assoc] at same
  have rest := (List.append_inj same (by simp)).2
  exact (List.append_inj rest (by simp)).1

theorem hash_yields (nonzero : c ≠ 0) : Yields c (FixedStr.ofBuffer HASH_LENGTH) fun _ f _ =>
    f.value.getLast? = some c :=
  yields_weaken (fixedStr_ofBuffer_yields nonzero HASH_LENGTH (by decide) (by decide))
    fun _ _ _ => And.left

theorem sizes_decipher :
    Deciphers (fun n : Nat => n < 2 ^ 64) fun n => VarUint.byteRepr (sizeT n) := by
  intro m n fitsM fitsN s t same
  obtain ⟨counts, rest⟩ := written_codes_decipher _ _ trivial trivial _ _ same
  have value := congrArg UInt64.toNat counts
  simp only [sizeT, UInt64.toNat_ofNat', Nat.mod_eq_of_lt fitsM, Nat.mod_eq_of_lt fitsN] at value
  exact ⟨value, rest⟩

theorem varStr_deciphers : Deciphers (fun v : Bytes => v.length < 2 ^ 64) VarStr.byteRepr := by
  intro v w fitsV fitsW s t same
  simp only [VarStr.byteRepr, List.append_assoc] at same
  obtain ⟨lengths, rest⟩ := sizes_decipher _ _ fitsV fitsW _ _ same
  exact List.append_inj rest lengths

theorem strings_fit {data : List Bytes} {size : Nat}
    (fits : (VarArray.byteRepr VarStr.byteRepr data).length < size) :
    data.length < size ∧ ∀ v ∈ data, v.length < size := by
  rw [VarArray.byteRepr, List.length_append, List.length_flatMap] at fits
  have count := List.card_nsmul_le_sum (data.map fun v => (VarStr.byteRepr v).length) 1 (by
    intro n member
    obtain ⟨v, _, rfl⟩ := List.mem_map.mp member
    have := List.length_pos_of_ne_nil (VarUint.byteRepr_ne_nil (sizeT v.length))
    rw [VarStr.byteRepr, List.length_append]
    omega)
  simp only [List.length_map, smul_eq_mul, Nat.mul_one] at count
  refine ⟨by omega, fun v member => ?_⟩
  have one := List.single_le_sum (l := data.map fun v => (VarStr.byteRepr v).length) (by simp) _
    (List.mem_map.mpr ⟨v, member, rfl⟩)
  have part : v.length ≤ (VarStr.byteRepr v).length := by simp [VarStr.byteRepr]
  omega

theorem addr_read_back_empty {addresses : List Address} {m : Message} {st : ReadState}
    (nonzero : c ≠ 0) (other : ∀ a ∈ addresses.head?, a.address.value.getLast? ≠ some c)
    (run : Addr.ofBuffer.run ⟨⟨(Contents.addr addresses).payload, false⟩, constantHeap c⟩ =
      .ok (m, st)) (same : m.contents.payload = (Contents.addr addresses).payload) :
    addresses = [] := by
  obtain ⟨read, mid, runRead, run⟩ := run_bind_ok.mp run
  obtain ⟨rfl, _⟩ := run_pure_ok.mp run
  obtain ⟨_, _, ends⟩ := varArray_yields (address_yields nonzero) _ read mid rfl runRead
  obtain ⟨_, items⟩ := written_codes_decipher _ _ trivial trivial _ _ same
  cases addresses with
  | nil => rfl
  | cons a addresses =>
    cases read with
    | nil =>
      have lengths := congrArg List.length items
      simp [Address.byteRepr] at lengths
      omega
    | cons b read =>
      simp only [List.flatMap_cons] at items
      have last := ends b (by simp)
      rw [same_address items] at last
      exact absurd last (other a (by simp))

theorem inventory_read_back_empty {data read : List InvVect} {s t : ReadState} (nonzero : c ≠ 0)
    (known : ∀ inv ∈ data, InvVect.Known inv) (steady : s.heap = constantHeap c)
    (run : (VarArray.ofBuffer InvVect.ofBuffer).run s = .ok (read, t))
    (same : VarArray.byteRepr InvVect.byteRepr read = VarArray.byteRepr InvVect.byteRepr data) :
    data = [] := by
  obtain ⟨_, fits, short⟩ := varArray_yields (invVect_yields nonzero) s read t steady run
  exact short_entries_empty fits short (fun inv member => known_length (known inv member)) same

theorem whoAmI_never_read_back {version : UInt32} {address : Address} {services : List Bytes}
    {m : Message} {st : ReadState} (nonzero : c ≠ 0)
    (other : address.address.value.getLast? ≠ some c)
    (run : WhoAmI.ofBuffer.run ⟨⟨(Contents.whoAmI version address services).payload, false⟩,
      constantHeap c⟩ = .ok (m, st))
    (same : m.contents.payload = (Contents.whoAmI version address services).payload) : False := by
  obtain ⟨version', s1, runVersion, run⟩ := run_bind_ok.mp run
  obtain ⟨address', s2, runAddress, run⟩ := run_bind_ok.mp run
  obtain ⟨services', s3, _, run⟩ := run_bind_ok.mp run
  obtain ⟨rfl, _⟩ := run_pure_ok.mp run
  obtain ⟨steady, _⟩ := yields_map (bigEndian_yields 4) _ version' s1 rfl runVersion
  obtain ⟨_, last⟩ := address_yields nonzero s1 address' s2 steady runAddress
  simp only [Contents.payload, List.append_assoc] at same
  rw [same_address (List.append_inj same (by simp)).2] at last
  exact other last

theorem getBlocks_never_read_back {blockHashes : List Hash} {stopHash : Hash} {m : Message}
    {st : ReadState} (nonzero : c ≠ 0) (other : stopHash.value.getLast? ≠ some c)
    (run : GetBlocks.ofBuffer.run ⟨⟨(Contents.getBlocks blockHashes stopHash).payload, false⟩,
      constantHeap c⟩ = .ok (m, st))
    (same : m.contents.payload = (Contents.getBlocks blockHashes stopHash).payload) : False := by
  obtain ⟨hashes', s1, runHashes, run⟩ := run_bind_ok.mp run
  obtain ⟨stop', s2, runStop, run⟩ := run_bind_ok.mp run
  obtain ⟨rfl, _⟩ := run_pure_ok.mp run
  obtain ⟨steady, _⟩ := varArray_yields (hash_yields nonzero) _ hashes' s1 rfl runHashes
  obtain ⟨_, last⟩ := hash_yields nonzero s1 stop' s2 steady runStop
  rw [(List.append_inj' same (by simp)).2] at last
  exact other last

theorem block_never_read_back {blockRef : Block} {m : Message} {st : ReadState} (nonzero : c ≠ 0)
    (other : blockRef.header.hashPrevBlock.value.getLast? ≠ some c)
    (fits : (Contents.blockMessage blockRef).payload.length < 2 ^ 64)
    (run : BlockMessage.ofBuffer.run ⟨⟨(Contents.blockMessage blockRef).payload, false⟩,
      constantHeap c⟩ = .ok (m, st))
    (same : m.contents.payload = (Contents.blockMessage blockRef).payload) : False := by
  obtain ⟨block', s1, runBlock, run⟩ := run_bind_ok.mp run
  obtain ⟨rfl, _⟩ := run_pure_ok.mp run
  obtain ⟨header', s2, runHeader, runBlock⟩ := run_bind_ok.mp runBlock
  obtain ⟨txs', s3, _, runBlock⟩ := run_bind_ok.mp runBlock
  obtain ⟨rfl, _⟩ := run_pure_ok.mp runBlock
  obtain ⟨version', s4, runVersion, runHeader⟩ := run_bind_ok.mp runHeader
  obtain ⟨flags', s5, runFlags, runHeader⟩ := run_bind_ok.mp runHeader
  obtain ⟨prev', s6, runPrev, runHeader⟩ := run_bind_ok.mp runHeader
  obtain ⟨steady, _⟩ := yields_map (bigEndian_yields 4) _ version' s4 rfl runVersion
  obtain ⟨steady, _⟩ := varArray_yields (varStr_yields nonzero) s4 flags' s5 steady runFlags
  obtain ⟨_, last⟩ := hash_yields nonzero s5 prev' s6 steady runPrev
  have prevKept : header'.hashPrevBlock = prev' := by
    obtain ⟨_, _, _, runHeader⟩ := run_bind_ok.mp runHeader
    obtain ⟨_, _, _, runHeader⟩ := run_bind_ok.mp runHeader
    obtain ⟨_, _, _, runHeader⟩ := run_bind_ok.mp runHeader
    obtain ⟨_, _, _, runHeader⟩ := run_bind_ok.mp runHeader
    obtain ⟨_, _, _, runHeader⟩ := run_bind_ok.mp runHeader
    obtain ⟨rfl, _⟩ := run_pure_ok.mp runHeader
    rfl
  have fits' := fits
  rw [← same] at fits'
  simp only [Contents.payload, Block.byteRepr, BlockHeader.byteRepr, List.append_assoc,
    List.length_append] at same fits fits'
  have rest := (List.append_inj same (by simp)).2
  obtain ⟨_, tail⟩ := counted_deciphers sizes_decipher varStr_deciphers _ _
    (strings_fit (by omega)) (strings_fit (by omega)) _ _ rest
  rw [← prevKept, (List.append_inj tail (by simp)).1] at last
  exact other last

theorem survives_wire_iff_empty_listing (contents : Contents) (ofBuffer : Decoder Message)
    (sameClass : Contents.fromBuffer contents = some ofBuffer) (known : Contents.Known contents)
    (fits : contents.payload.length < 2 ^ 64) :
    SurvivesWire contents ofBuffer ↔ EmptyListing contents := by
  -- one run over memory of c, with its result written like the message
  have survived : SurvivesWire contents ofBuffer → ∀ c : UInt8, ∃ m st,
      ofBuffer.run ⟨⟨contents.payload, false⟩, constantHeap c⟩ = .ok (m, st) ∧
        m.type = contents.messageType ∧ m.contents.payload = contents.payload := by
    intro survives c
    obtain ⟨m, st, run, type, same⟩ := survives (constantHeap c)
    exact ⟨m, st, run, type, same_payload same⟩
  cases contents with
  | whoAmIAck | getAddr | getMempool => cases sameClass
  | whoAmI version address services =>
    cases sameClass
    refine ⟨fun survives => ?_, False.elim⟩
    obtain ⟨c, nonzero, other⟩ := fresh_byte address.address.value.getLast?
    obtain ⟨m, st, run, _, same⟩ := survived survives c
    exact whoAmI_never_read_back nonzero other run same
  | addr addresses =>
    cases sameClass
    constructor
    · intro survives
      obtain ⟨c, nonzero, other⟩ :=
        fresh_byte (addresses.head?.bind fun a => a.address.value.getLast?)
      obtain ⟨m, st, run, _, same⟩ := survived survives c
      refine addr_read_back_empty nonzero (fun a first => ?_) run same
      rw [first] at other
      exact other
    · rintro rfl heap
      exact ⟨_, _, rfl, rfl, rfl⟩
  | getData data | inv data | notFound data =>
    cases sameClass
    constructor
    · intro survives
      obtain ⟨m, st, run, _, same⟩ := survived survives 1
      obtain ⟨read, mid, runRead, run⟩ := run_bind_ok.mp run
      obtain ⟨rfl, _⟩ := run_pure_ok.mp run
      exact inventory_read_back_empty (c := 1) (by decide) known rfl runRead same
    · rintro rfl heap
      exact ⟨_, _, rfl, rfl, rfl⟩
  | blockMessage blockRef =>
    cases sameClass
    refine ⟨fun survives => ?_, False.elim⟩
    obtain ⟨c, nonzero, other⟩ := fresh_byte blockRef.header.hashPrevBlock.value.getLast?
    obtain ⟨m, st, run, _, same⟩ := survived survives c
    exact block_never_read_back nonzero other fits run same
  | transactionMessage transaction =>
    cases sameClass
    refine ⟨fun survives => ?_, False.elim⟩
    obtain ⟨m, st, run, type, _⟩ := survived survives 1
    obtain ⟨read, mid, _, run⟩ := run_bind_ok.mp run
    obtain ⟨rfl, _⟩ := run_pure_ok.mp run
    cases type
  | getBlocks blockHashes stopHash =>
    cases sameClass
    refine ⟨fun survives => ?_, False.elim⟩
    obtain ⟨c, nonzero, other⟩ := fresh_byte stopHash.value.getLast?
    obtain ⟨m, st, run, _, same⟩ := survived survives c
    exact getBlocks_never_read_back nonzero other run same

theorem empty_inv_survives_wire : SurvivesWire (.inv []) Inv.ofBuffer :=
  (survives_wire_iff_empty_listing (.inv []) Inv.ofBuffer rfl (by simp [Contents.Known])
    (by decide)).mpr rfl

/-- A transaction message comes back as a block message, in every memory. -/
theorem transaction_message_changes_type :
    Contents.fromBuffer (.transactionMessage ⟨0, [], [], []⟩) = some TransactionMessage.ofBuffer ∧
      ∀ heap, ¬ ∃ m st, TransactionMessage.ofBuffer.run
        ⟨⟨(Contents.transactionMessage ⟨0, [], [], []⟩).payload, false⟩, heap⟩ = .ok (m, st) ∧
          m.getType = (Message.new (.transactionMessage ⟨0, [], [], []⟩)).getType := by
  refine ⟨rfl, ?_⟩
  rintro heap ⟨m, st, run, type⟩
  obtain ⟨read, mid, _, run⟩ := run_bind_ok.mp run
  obtain ⟨rfl, _⟩ := run_pure_ok.mp run
  cases type

end EnsicoinMessageWire
