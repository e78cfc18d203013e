import Ensicoin.NetworkBuffer

/-!
The networkable classes: what each writes (byteRepr) and how its NetworkBuffer
constructor reads it back (ofBuffer). Integers go through a padded hexadecimal
text. A FixedStr keeps its length as an invariant; the constructor from a string
leaves the array bytes it does not reach as it found them.
-/
namespace EnsicoinNetworkable
open BigEndianWords EnsicoinRuntime EnsicoinNetworkBuffer

def HASH_LENGTH : Nat := 32

/-- Networkable::encode, on digits in place of their characters. -/
def encode (packedString : List Nat) : Bytes := packDigits packedString

def Uint16.byteRepr (value : UInt16) : Bytes := encode (padZeros 4 (hexDigits value.toNat))
def Uint32.byteRepr (value : UInt32) : Bytes := encode (padZeros 8 (hexDigits value.toNat))
def Uint64.byteRepr (value : UInt64) : Bytes := encode (padZeros 16 (hexDigits value.toNat))

/-- The prefixes are the digits of fd, fe and ff. -/
def VarUint.byteRepr (value : UInt64) : Bytes :=
  let rawStr := hexDigits value.toNat
  if value.toNat ≤ 252 then encode (padZeros 2 rawStr)
  else if value.toNat ≤ 0xffff then encode ([15, 13] ++ padZeros 4 rawStr)
  else if value.toNat ≤ 0xffffffff then encode ([15, 14] ++ padZeros 8 rawStr)
  else encode ([15, 15] ++ padZeros 16 rawStr)

/-- A C++ container size as a size_t. -/
def sizeT (n : Nat) : UInt64 := UInt64.ofNat n

structure FixedStr (size : Nat) where
  value : Bytes
  size_eq : value.length = size
  deriving DecidableEq, Repr

abbrev Hash := FixedStr HASH_LENGTH
abbrev IP := FixedStr 16

/-- The constructor from a string: value[i] = val[i] over an unwritten array. -/
def FixedStr.ofString (size : Nat) (val : Bytes) : Decoder (FixedStr size) := do
  let value ← newArray size
  if h : (overwrite val value).length = size then return ⟨overwrite val value, h⟩
  else raise .pastVector

def FixedStr.ofBuffer (size : Nat) : Decoder (FixedStr size) := do
  let str ← readStr size
  FixedStr.ofString size str

def VarStr.byteRepr (value : Bytes) : Bytes := VarUint.byteRepr (sizeT value.length) ++ value

def VarStr.ofBuffer : Decoder Bytes := do
  let size ← readVarUint
  readStr size.toNat

def VarArray.byteRepr {α : Type} (repr : α → Bytes) (data : List α) : Bytes :=
  VarUint.byteRepr (sizeT data.length) ++ data.flatMap repr

def readElements {α : Type} (element : Decoder α) : Nat → Decoder (List α)
  | 0 => return []
  | size + 1 => do
    let first ← element
    let rest ← readElements element size
    return first :: rest

def VarArray.ofBuffer {α : Type} (element : Decoder α) : Decoder (List α) := do
  let size ← readVarUint
  readElements element size.toNat

inductive RessourceType where
  | blockRes
  | txRes
  | invalidRes
  deriving DecidableEq, Repr

def RessourceType.toUint32 : RessourceType → UInt32
  | .blockRes => 0
  | .txRes => 1
  | .invalidRes => 2

structure InvVect where
  type : RessourceType
  hash : Bytes
  deriving DecidableEq, Repr

def InvVect.byteRepr (inv : InvVect) : Bytes :=
  if inv.type = .invalidRes then ascii "INVALID RESSOURCE"
  else Uint32.byteRepr inv.type.toUint32 ++ inv.hash

-- 0 is read as txRes and 1 as blockRes, the other way round from the enum
def InvVect.ofBuffer : Decoder InvVect := do
  let typeInt ← readUint32
  let type := if typeInt = 0 then RessourceType.txRes
    else if typeInt = 1 then RessourceType.blockRes
    else RessourceType.invalidRes
  let hash ← readStr HASH_LENGTH
  return ⟨type, hash⟩

structure Address where
  timestamp : UInt64
  address : IP
  port : UInt16
  deriving DecidableEq, Repr

def Address.byteRepr (a : Address) : Bytes :=
  Uint64.byteRepr a.timestamp ++ a.address.value ++ Uint16.byteRepr a.port

-- the address goes through a string into a second array
def Address.ofBuffer : Decoder Address := do
  let timestamp ← readUint64
  let ip ← FixedStr.ofBuffer 16
  let address ← FixedStr.ofString 16 ip.value
  let port ← readUint16
  return ⟨timestamp, address, port⟩

structure MessageHeader where
  magic : UInt32
  type : FixedStr 12
  payloadLength : UInt64
  deriving DecidableEq, Repr

def MessageHeader.size : Nat := 4 + 12 + 8

def MessageHeader.byteRepr (h : MessageHeader) : Bytes :=
  Uint32.byteRepr h.magic ++ h.type.value ++ Uint64.byteRepr h.payloadLength

def MessageHeader.ofBuffer : Decoder MessageHeader := do
  let magic ← readUint32
  let type ← FixedStr.ofBuffer 12
  let payloadLength ← readUint64
  return ⟨magic, type, payloadLength⟩

theorem Uint16.byteRepr_eq (v : UInt16) : Uint16.byteRepr v = toBytes 2 v.toNat :=
  packed_hex_bytes 2 v.toNat (by decide) v.toNat_lt

theorem Uint32.byteRepr_eq (v : UInt32) : Uint32.byteRepr v = toBytes 4 v.toNat :=
  packed_hex_bytes 4 v.toNat (by decide) v.toNat_lt

theorem Uint64.byteRepr_eq (v : UInt64) : Uint64.byteRepr v = toBytes 8 v.toNat :=
  packed_hex_bytes 8 v.toNat (by decide) v.toNat_lt

@[simp] theorem Uint16.byteRepr_length (v : UInt16) : (Uint16.byteRepr v).length = 2 := by
  rw [Uint16.byteRepr_eq, toBytes_length]

@[simp] theorem Uint32.byteRepr_length (v : UInt32) : (Uint32.byteRepr v).length = 4 := by
  rw [Uint32.byteRepr_eq, toBytes_length]

@[simp] theorem Uint64.byteRepr_length (v : UInt64) : (Uint64.byteRepr v).length = 8 := by
  rw [Uint64.byteRepr_eq, toBytes_length]

@[simp] theorem FixedStr.value_length {size : Nat} (s : FixedStr size) : s.value.length = size :=
  s.size_eq

theorem FixedStr.ext_value {size : Nat} {a b : FixedStr size} (same : a.value = b.value) :
    a = b := by
  cases a; cases b
  simp_all

theorem FixedStr.ofBuffer_bytes {data rest : Bytes} {heap : Heap} {t : ReadState} {size : Nat}
    {f : FixedStr size} (whole : data.length = size) (single : size ≤ bufferSize)
    (run : (FixedStr.ofBuffer size).run ⟨⟨data ++ rest, false⟩, heap⟩ = .ok (f, t)) :
    t.buffer = ⟨rest, false⟩ := by
  obtain ⟨str, mid, runStr, run⟩ := run_bind_ok.mp run
  obtain ⟨array, after, fresh, run⟩ := run_bind_ok.mp run
  have kept : t.buffer = mid.buffer := by
    simp only [newArray, StateT.run, Except.ok.injEq, Prod.mk.injEq] at fresh
    split at run
    · obtain ⟨_, rfl⟩ := run_pure_ok.mp run
      rw [← fresh.2]
    · cases run
  rw [kept, readStr_bytes whole single runStr]

theorem FixedStr.ofString_fits {size : Nat} {val : Bytes} (fits : val.length ≤ size)
    (s : ReadState) : ∃ f : FixedStr size, (FixedStr.ofString size val).run s =
      .ok (f, { s with heap := fun n => s.heap (n + 1) }) := by
  have whole : (overwrite val (List.ofFn fun i : Fin size => s.heap 0 i)).length = size := by
    rw [overwrite_length _ _ (by rwa [List.length_ofFn]), List.length_ofFn]
  refine ⟨⟨_, whole⟩, run_bind_ok.mpr ⟨_, _, rfl, ?_⟩⟩
  rw [dif_pos whole]
  rfl

/-- Bytes that hold a zero are read up to it, and the array behind it stays as it was. -/
theorem FixedStr.ofBuffer_terminated {data : Bytes} {size : Nat} (whole : data.length = size)
    (single : size ≤ bufferSize) (zero : 0 ∈ data) (rest : Bytes) (heap : Heap) :
    ∃ f : FixedStr size, (FixedStr.ofBuffer size).run ⟨⟨data ++ rest, false⟩, heap⟩ =
      .ok (f, ⟨⟨rest, false⟩, fun n => heap (n + 2)⟩) := by
  have short := (List.takeWhile_prefix (l := data) (· != (0 : UInt8))).length_le
  obtain ⟨f, written⟩ := FixedStr.ofString_fits (short.trans whole.le)
    ⟨⟨rest, false⟩, fun n => heap (n + 1)⟩
  exact ⟨f, run_bind_ok.mpr ⟨_, _, readStr_terminated whole single zero heap, written⟩⟩

theorem Uint16.byteRepr_read (v : UInt16) (rest : Bytes) (heap : Heap) :
    readUint16.run ⟨⟨Uint16.byteRepr v ++ rest, false⟩, heap⟩ = .ok (v, ⟨⟨rest, false⟩, heap⟩) := by
  rw [readUint16, readUint_bytes UInt16.ofNat (Uint16.byteRepr_length v), Uint16.byteRepr_eq,
    ofBytes_toBytes 2 _ v.toNat_lt, UInt16.ofNat_toNat]

theorem Uint32.byteRepr_read (v : UInt32) (rest : Bytes) (heap : Heap) :
    readUint32.run ⟨⟨Uint32.byteRepr v ++ rest, false⟩, heap⟩ = .ok (v, ⟨⟨rest, false⟩, heap⟩) := by
  rw [readUint32, readUint_bytes UInt32.ofNat (Uint32.byteRepr_length v), Uint32.byteRepr_eq,
    ofBytes_toBytes 4 _ v.toNat_lt, UInt32.ofNat_toNat]

theorem Uint64.byteRepr_read (v : UInt64) (rest : Bytes) (heap : Heap) :
    readUint64.run ⟨⟨Uint64.byteRepr v ++ rest, false⟩, heap⟩ = .ok (v, ⟨⟨rest, false⟩, heap⟩) := by
  rw [readUint64, readUint_bytes UInt64.ofNat (Uint64.byteRepr_length v), Uint64.byteRepr_eq,
    ofBytes_toBytes 8 _ v.toNat_lt, UInt64.ofNat_toNat]

/-- A header whose type is padded is read back in any memory, apart from its padding. -/
theorem MessageHeader.byteRepr_read (h : MessageHeader) (padded : 0 ∈ h.type.value)
    (heap : Heap) : ∃ type st, MessageHeader.ofBuffer.run ⟨⟨h.byteRepr, false⟩, heap⟩ =
      .ok (⟨h.magic, type, h.payloadLength⟩, st) := by
  have shape : h.byteRepr = Uint32.byteRepr h.magic ++ (h.type.value ++
      (Uint64.byteRepr h.payloadLength ++ [])) := by
    rw [MessageHeader.byteRepr, List.append_nil, List.append_assoc]
  obtain ⟨type, read⟩ := FixedStr.ofBuffer_terminated h.type.size_eq (by decide) padded
    (Uint64.byteRepr h.payloadLength ++ []) heap
  rw [shape]
  exact ⟨type, _, run_bind_ok.mpr ⟨_, _, Uint32.byteRepr_read h.magic _ heap,
    run_bind_ok.mpr ⟨_, _, read, run_bind_ok.mpr ⟨_, _, Uint64.byteRepr_read _ [] _, rfl⟩⟩⟩⟩

/-- The length a header announces stands in its last eight bytes, in any memory. -/
theorem MessageHeader.payloadLength_read {data : Bytes} {heap : Heap} {header : MessageHeader}
    {st : ReadState}
    (whole : data.length = MessageHeader.size)
    (run : MessageHeader.ofBuffer.run ⟨⟨data, false⟩, heap⟩ = .ok (header, st)) :
    header.payloadLength.toNat = ofBytes (data.drop 16) := by
  have size : data.length = 24 := whole
  have pieces : data = data.take 4 ++ ((data.drop 4).take 12 ++ (data.drop 16 ++ [])) := by
    rw [← List.drop_drop (i := 12) (j := 4), List.append_nil, List.take_append_drop,
      List.take_append_drop]
  have lengthSize : (data.drop 16).length = 8 := by simp [size]
  rw [pieces] at run
  obtain ⟨magic, s₁, runMagic, run⟩ := run_bind_ok.mp run
  obtain ⟨type, ⟨buffer, heap₂⟩, runType, run⟩ := run_bind_ok.mp run
  obtain ⟨payloadLength, s₃, runLength, run⟩ := run_bind_ok.mp run
  obtain ⟨rfl, _⟩ := run_pure_ok.mp run
  rw [readUint32, readUint_bytes UInt32.ofNat (by simp [size])] at runMagic
  cases runMagic
  obtain rfl : buffer = _ := FixedStr.ofBuffer_bytes (by simp [size]) (by decide) runType
  rw [readUint64, readUint_bytes UInt64.ofNat lengthSize] at runLength
  cases runLength
  have bound := ofBytes_lt (data.drop 16)
  rw [lengthSize] at bound
  exact (UInt64.toNat_ofNat' ..).trans (Nat.mod_eq_of_lt bound)

theorem readElements_all {α : Type} {element : Decoder α} {p : α → Prop}
    (each : ∀ s a t, element.run s = .ok (a, t) → p a) {size : Nat} {s t : ReadState} {as : List α}
    (run : (readElements element size).run s = .ok (as, t)) : ∀ a ∈ as, p a := by
  induction size generalizing s t as with
  | zero =>
    obtain ⟨rfl, _⟩ := run_pure_ok.mp run
    simp
  | succ size ih =>
    obtain ⟨first, m, runFirst, run⟩ := run_bind_ok.mp run
    obtain ⟨rest, m', runRest, run⟩ := run_bind_ok.mp run
    obtain ⟨rfl, _⟩ := run_pure_ok.mp run
    intro a member
    rcases List.mem_cons.mp member with rfl | later
    · exact each s a m runFirst
    · exact ih runRest a later

theorem readElements_length {α : Type} {element : Decoder α} {size : Nat} {s t : ReadState}
    {as : List α} (run : (readElements element size).run s = .ok (as, t)) : as.length = size := by
  induction size generalizing s t as with
  | zero =>
    obtain ⟨rfl, _⟩ := run_pure_ok.mp run
    rfl
  | succ size ih =>
    obtain ⟨first, m, _, run⟩ := run_bind_ok.mp run
    obtain ⟨rest, m', runRest, run⟩ := run_bind_ok.mp run
    obtain ⟨rfl, _⟩ := run_pure_ok.mp run
    rw [List.length_cons, ih runRest]

theorem VarUint.byteRepr_eq (v : UInt64) : VarUint.byteRepr v =
    if v.toNat ≤ 252 then [UInt8.ofNat v.toNat]
    else if v.toNat ≤ 0xffff then 0xfd :: toBytes 2 v.toNat
    else if v.toNat ≤ 0xffffffff then 0xfe :: toBytes 4 v.toNat
    else 0xff :: toBytes 8 v.toNat := by
  have bound := v.toNat_lt
  have prefixed : ∀ hi lo digits, encode ([hi, lo] ++ digits) =
      UInt8.ofNat (hi * 16 + lo) :: encode digits := fun _ _ _ => rfl
  unfold VarUint.byteRepr
  simp only [prefixed]
  split
  · rename_i small
    exact packed_hex_bytes 1 v.toNat (by decide) (by omega)
  · split
    · rename_i medium
      exact congrArg (_ :: ·) (packed_hex_bytes 2 v.toNat (by decide) (by omega))
    · split
      · rename_i large
        exact congrArg (_ :: ·) (packed_hex_bytes 4 v.toNat (by decide) (by omega))
      · exact congrArg (_ :: ·) (packed_hex_bytes 8 v.toNat (by decide) (by omega))

theorem VarUint.byteRepr_length (v : UInt64) : (VarUint.byteRepr v).length =
    if v.toNat ≤ 252 then 1 else if v.toNat ≤ 0xffff then 3
    else if v.toNat ≤ 0xffffffff then 5 else 9 := by
  rw [VarUint.byteRepr_eq]
  split
  · rfl
  · split
    · rw [List.length_cons, toBytes_length]
    · split
      · rw [List.length_cons, toBytes_length]
      · rw [List.length_cons, toBytes_length]

theorem VarUint.byteRepr_ne_nil (v : UInt64) : VarUint.byteRepr v ≠ [] := by
  rw [VarUint.byteRepr_eq]
  split
  · simp
  · split
    · simp
    · split <;> simp

end EnsicoinNetworkable
