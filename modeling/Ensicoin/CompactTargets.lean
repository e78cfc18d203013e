import Ensicoin.Library.HexTexts
import Ensicoin.BlockHash
import Ensicoin.OrphanPromotion

/-!
The compressed target of a block header. The exponent gives a shift amount in 32 bits, and
below 3 it wraps around: a target that should be smaller than its mantissa is then larger
than any hash. The hash is compared as the integer that is read from its hexadecimal text;
CryptoPP::HexEncoder and the constructor of CryptoPP::Integer are parameters.
-/
namespace EnsicoinCompactTargets
open BigEndianWords HexTexts EnsicoinRuntime EnsicoinNetworkBuffer EnsicoinNetworkable
open EnsicoinScript EnsicoinTransaction EnsicoinBlocks EnsicoinBlockHash EnsicoinOrphanPromotion

/-- The documented text of HexEncoder: two digits for each byte, in upper case by default. -/
def WritesHex (encoder : Bytes → Bytes) : Prop :=
  ∀ bytes, encoder bytes = (nibbles bytes).map upperDigit

/-- The documented reading of a text with the prefix 0x. -/
def ReadsHex (integer : Bytes → Nat) : Prop := ∀ digits : List Nat, (∀ d ∈ digits, d < 16) →
  integer (ascii "0x" ++ digits.map upperDigit) = Nat.ofDigits 16 digits.reverse

def Block.integerHash (encoder : Bytes → Bytes) (integer : Bytes → Nat) (crypto : Crypto)
    (b : Block) : Nat :=
  integer (ascii "0x" ++ encoder (b.hash crypto).value)

def BlockTarget.blockInferior (encoder : Bytes → Bytes) (integer : Bytes → Nat) (crypto : Crypto)
    (t : BlockTarget) (target : Block) : Bool :=
  Block.integerHash encoder integer crypto target < t.value

def mantissa (c : UInt32) : Nat := c.toNat % 2 ^ 24

def exponent (c : UInt32) : Nat := c.toNat / 2 ^ 24

/-- The integral part of m * 256 ^ (e - 3). -/
def expanded (c : UInt32) : Nat := mantissa c * 256 ^ exponent c / 256 ^ 3

def shiftAmount (c : UInt32) : UInt32 := (8 : UInt32) * ((c >>> (24 : UInt32)) - 3)

/-- A target that is read from c tells the hashes below the expanded value. -/
def Tells (encoder : Bytes → Bytes) (integer : Bytes → Nat) (crypto : Crypto) (c : UInt32)
    (b : Block) : Prop :=
  ∀ rest heap target t, BlockTarget.ofBuffer.run ⟨⟨Uint32.byteRepr c ++ rest, false⟩, heap⟩ =
    .ok (target, t) → (BlockTarget.blockInferior encoder integer crypto target b = true ↔
      ofBytes (b.hash crypto).value < expanded c)

structure ComparedExactly (encoder : Bytes → Bytes) (integer : Bytes → Nat) (crypto : Crypto)
    (c : UInt32) (b : Block) : Prop where
  told : Tells encoder integer crypto c b
  unwrapped : (shiftAmount c).toNat + 24 = 8 * exponent c

theorem integerHash_eq {encoder : Bytes → Bytes} {integer : Bytes → Nat}
    (writes : WritesHex encoder) (reads : ReadsHex integer) (crypto : Crypto) (b : Block) :
    Block.integerHash encoder integer crypto b = ofBytes (b.hash crypto).value := by
  rw [Block.integerHash, writes, reads _ (nibbles_small _), nibbles_value]

theorem target_read (c : UInt32) (rest : Bytes) (heap : Heap) :
    BlockTarget.ofBuffer.run ⟨⟨Uint32.byteRepr c ++ rest, false⟩, heap⟩ =
      .ok (⟨mantissa c <<< (shiftAmount c).toNat⟩, ⟨⟨rest, false⟩, heap⟩) := by
  have low : (c &&& 0xffffff).toNat = mantissa c := by
    rw [UInt32.toNat_and]
    exact Nat.and_two_pow_sub_one_eq_mod c.toNat 24
  refine run_bind_ok.mpr ⟨c, _, Uint32.byteRepr_read c rest heap, ?_⟩
  rw [← low]
  rfl

theorem shiftAmount_toNat (c : UInt32) : (shiftAmount c).toNat =
    if 3 ≤ exponent c then 8 * (exponent c - 3) else 2 ^ 32 - 8 * (3 - exponent c) := by
  have bound : exponent c < 256 := by
    have fits := c.toNat_lt
    unfold exponent
    omega
  have high : (c >>> (24 : UInt32)).toNat = exponent c := by
    rw [UInt32.toNat_shiftRight]
    exact Nat.shiftRight_eq_div_pow c.toNat 24
  have eight : (8 : UInt32).toNat = 8 := rfl
  have three : (3 : UInt32).toNat = 3 := rfl
  rw [shiftAmount, UInt32.toNat_mul, UInt32.toNat_sub, high, eight, three]
  split <;> omega

/-- Below 3 the shifted mantissa is zero or beyond all hashes. -/
theorem wrapped_value {c : UInt32} (small : exponent c < 3) (some : mantissa c ≠ 0) {hash : Nat}
    (bound : hash < 256 ^ 32) : hash < mantissa c <<< (shiftAmount c).toNat := by
  have far : 256 ≤ (shiftAmount c).toNat := by
    rw [shiftAmount_toNat, if_neg (by omega)]
    omega
  have same : (256 : Nat) ^ 32 = 2 ^ 256 := by norm_num
  rw [same] at bound
  rw [Nat.shiftLeft_eq]
  calc hash < 2 ^ 256 := bound
    _ ≤ 2 ^ (shiftAmount c).toNat := Nat.pow_le_pow_right (by decide) far
    _ ≤ mantissa c * 2 ^ (shiftAmount c).toNat :=
      Nat.le_mul_of_pos_left _ (Nat.pos_of_ne_zero some)

theorem shifted_value {c : UInt32} (large : 3 ≤ exponent c) :
    mantissa c <<< (shiftAmount c).toNat = expanded c := by
  have split : (256 : Nat) ^ exponent c = 256 ^ (exponent c - 3) * 256 ^ 3 := by
    rw [← pow_add, Nat.sub_add_cancel large]
  have bytes : (256 : Nat) = 2 ^ 8 := by norm_num
  rw [expanded, split, ← Nat.mul_assoc, Nat.mul_div_cancel _ (by norm_num), Nat.shiftLeft_eq,
    shiftAmount_toNat, if_pos large, pow_mul, ← bytes]

theorem tells_iff {encoder : Bytes → Bytes} {integer : Bytes → Nat} (writes : WritesHex encoder)
    (reads : ReadsHex integer) (crypto : Crypto) (c : UInt32) (b : Block) :
    Tells encoder integer crypto c b ↔ 3 ≤ exponent c ∨ mantissa c = 0 ∨
      ofBytes (b.hash crypto).value < expanded c := by
  have told : Tells encoder integer crypto c b ↔
      (ofBytes (b.hash crypto).value < mantissa c <<< (shiftAmount c).toNat ↔
        ofBytes (b.hash crypto).value < expanded c) := by
    have answer : BlockTarget.blockInferior encoder integer crypto
        ⟨mantissa c <<< (shiftAmount c).toNat⟩ b = true ↔
          ofBytes (b.hash crypto).value < mantissa c <<< (shiftAmount c).toNat := by
      rw [BlockTarget.blockInferior, integerHash_eq writes reads, decide_eq_true_iff]
    rw [← answer]
    constructor
    · intro tells
      exact tells [] (constantHeap 0) _ _ (target_read c [] (constantHeap 0))
    · intro same rest heap target t run
      rw [target_read] at run
      cases run
      exact same
  have bound := ofBytes_lt (b.hash crypto).value
  rw [(b.hash crypto).size_eq] at bound
  rw [told]
  by_cases large : 3 ≤ exponent c
  · rw [shifted_value large]
    exact iff_of_true Iff.rfl (Or.inl large)
  · by_cases none : mantissa c = 0
    · simp [none, expanded]
    · have beyond := wrapped_value (Nat.lt_of_not_le large) none bound
      simp [large, none, beyond]

theorem compared_exactly_iff {encoder : Bytes → Bytes} {integer : Bytes → Nat}
    (writes : WritesHex encoder) (reads : ReadsHex integer) (crypto : Crypto) (c : UInt32)
    (b : Block) : (ComparedExactly encoder integer crypto c b ↔ 3 ≤ exponent c) ∧
      (Tells encoder integer crypto c b ↔ 3 ≤ exponent c ∨ mantissa c = 0 ∨
        ofBytes (b.hash crypto).value < expanded c) := by
  refine ⟨?_, tells_iff writes reads crypto c b⟩
  have amount := shiftAmount_toNat c
  constructor
  · intro exact
    have straight := exact.unwrapped
    by_contra small
    rw [if_neg small] at amount
    omega
  · intro large
    refine ⟨(tells_iff writes reads crypto c b).mpr (Or.inl large), ?_⟩
    rw [if_pos large] at amount
    omega

def writeHex (bytes : Bytes) : Bytes := (nibbles bytes).map upperDigit

theorem writeHex_writes : WritesHex writeHex := fun _ => rfl

def readHex (text : Bytes) : Nat := Nat.ofDigits 16 (textDigits (text.drop 2)).reverse

theorem readHex_reads : ReadsHex readHex := by
  intro digits small
  change Nat.ofDigits 16 (textDigits (digits.map upperDigit)).reverse = _
  rw [textDigits_map digitValue_upper small]

def versionBlock : Block := ⟨⟨1, [], zeroHash, zeroHash, 0, 0, ⟨0⟩, 0⟩, []⟩

/-- 0x010000 with exponent 3, from which on nothing wraps. -/
theorem third_exponent_exact :
    ComparedExactly writeHex readHex prefixCrypto 0x03010000 versionBlock :=
  (compared_exactly_iff writeHex_writes readHex_reads prefixCrypto 0x03010000 versionBlock).1.mpr
    (by decide)

/-- 0x010000 with exponent 2 stands for 256, and shifted by 2 ^ 32 - 8 it is above every hash. -/
theorem second_exponent_wraps : expanded 0x02010000 = 256 ∧
    (shiftAmount 0x02010000).toNat = 2 ^ 32 - 8 ∧
    256 ≤ Block.integerHash writeHex readHex prefixCrypto versionBlock ∧
    ¬ Tells writeHex readHex prefixCrypto 0x02010000 versionBlock := by
  have value : expanded 0x02010000 = 256 := by decide
  have high : 256 ≤ Block.integerHash writeHex readHex prefixCrypto versionBlock := by
    decide +kernel
  refine ⟨value, by decide, high, ?_⟩
  rw [integerHash_eq writeHex_writes readHex_reads] at high
  rw [tells_iff writeHex_writes readHex_reads, value]
  have small : exponent 0x02010000 = 2 := by decide
  have some : mantissa 0x02010000 = 65536 := by decide
  omega

end EnsicoinCompactTargets
