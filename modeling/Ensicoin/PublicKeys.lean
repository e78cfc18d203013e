import Ensicoin.Library.HexTexts
import Ensicoin.Networkable

/-!
The text form of a public key. Each coordinate is printed in hexadecimal with an h behind
it and should be filled up with zeros to 65 characters; std::string("0", n) does not repeat
the zero, it copies n characters from the literal, which has two.
-/
namespace EnsicoinPublicKeys
open BigEndianWords HexTexts EnsicoinRuntime EnsicoinNetworkable

/-- Integer << std::hex, the suffix included. -/
def printHex (value : Nat) : Bytes := (hexDigits value).map lowerDigit ++ ascii "h"

/-- std::string("0", n). Past the final zero byte of the literal the copy is undefined. -/
def zeroString (n : UInt64) : Except Fault Bytes :=
  if n ≤ 2 then .ok ((ascii "0" ++ [0]).take n.toNat) else .error .pastArray

def hexPublicKey (x y : Nat) : Except Fault Bytes := do
  let zerosX ← zeroString (65 - sizeT (printHex x).length)
  let zerosY ← zeroString (65 - sizeT (printHex y).length)
  return ((zerosX ++ printHex x) ++ (zerosY ++ printHex y)).filter (· ≠ 0x68)

/-- The point that ECDSASignature::verify reads from a text. -/
def publicPoint (publicKeyString : Bytes) : Nat × Nat :=
  let decoded := packDigits (textDigits publicKeyString)
  let half := decoded.length / 2
  (ofBytes (decoded.take half), ofBytes ((decoded.drop half).take half))

def paddedText (x y : Nat) : Bytes :=
  (padZeros 64 (hexDigits x) ++ padZeros 64 (hexDigits y)).map lowerDigit

structure Survives (x y : Nat) : Prop where
  text : hexPublicKey x y = .ok (paddedText x y)
  digits : (paddedText x y).length = 128
  decoded : publicPoint (paddedText x y) = (x, y)

theorem printHex_length (value : Nat) : (printHex value).length = (hexDigits value).length + 1 := by
  rw [printHex, List.length_append, List.length_map]
  rfl

theorem padded_small (value : Nat) : ∀ d ∈ padZeros 64 (hexDigits value), d < 16 := by
  intro d member
  rcases List.mem_append.mp member with zero | digit
  · rw [List.eq_of_mem_replicate zero]
    decide
  · exact hexDigits_bounded value d digit

theorem missing_zeros {value : Nat} (bound : value < 16 ^ 64) :
    (65 - sizeT (printHex value).length).toNat = 64 - (hexDigits value).length := by
  have short := (padded_hex_fixed 64 value (by decide) bound).2
  have length : (sizeT (printHex value).length).toNat = (hexDigits value).length + 1 := by
    rw [printHex_length, sizeT, UInt64.toNat_ofNat']
    omega
  have all : (65 : UInt64).toNat = 65 := rfl
  rw [UInt64.toNat_sub, length, all]
  omega

/-- One zero is all that the literal has to give. -/
theorem full_zeros {value : Nat} (bound : value < 16 ^ 64) (large : 16 ^ 62 ≤ value) :
    zeroString (65 - sizeT (printHex value).length) =
      .ok (List.replicate (64 - (hexDigits value).length) 0x30) := by
  have long := (Nat.pow_lt_pow_iff_right (by decide)).mp (large.trans_lt (hexDigits_fill value))
  have amount := missing_zeros bound
  have within : 65 - sizeT (printHex value).length ≤ 2 := by
    rw [UInt64.le_iff_toNat_le, amount]
    change _ ≤ 2
    omega
  rw [zeroString, if_pos within, amount]
  have cases : 64 - (hexDigits value).length = 0 ∨ 64 - (hexDigits value).length = 1 := by omega
  rcases cases with none | one
  · rw [none]
    rfl
  · rw [one]
    rfl

theorem short_zeros {value : Nat} (bound : value < 16 ^ 64) (small : value < 16 ^ 62)
    {zeros : Bytes} (copied : zeroString (65 - sizeT (printHex value).length) = .ok zeros) :
    0 ∈ zeros := by
  have short := (padded_hex_fixed 62 value (by decide) small).2
  have amount := missing_zeros bound
  unfold zeroString at copied
  split at copied
  · rename_i within
    rw [UInt64.le_iff_toNat_le, amount] at within
    change _ ≤ 2 at within
    have two : 64 - (hexDigits value).length = 2 := by omega
    rw [amount, two] at copied
    cases copied
    decide
  · cases copied

theorem lowerDigit_printed : ∀ d < 16, lowerDigit d ≠ 0x68 ∧ lowerDigit d ≠ 0 := by decide

/-- With enough zeros in front, and without its suffix, the text is the padded one. -/
theorem filled_text (value : Nat) :
    (List.replicate (64 - (hexDigits value).length) 0x30 ++ printHex value).filter (· ≠ 0x68) =
      (padZeros 64 (hexDigits value)).map lowerDigit := by
  have padded : List.replicate (64 - (hexDigits value).length) 0x30 ++ printHex value =
      (padZeros 64 (hexDigits value)).map lowerDigit ++ [0x68] := by
    rw [padZeros, List.map_append, List.map_replicate, printHex, List.append_assoc]
    rfl
  rw [padded, List.filter_append, List.filter_eq_self.mpr]
  · exact List.append_nil _
  · intro ch member
    obtain ⟨d, digit, rfl⟩ := List.mem_map.mp member
    exact decide_eq_true (lowerDigit_printed d (padded_small value d digit)).1

theorem padded_length {value : Nat} (bound : value < 16 ^ 64) :
    (padZeros 64 (hexDigits value)).length = 64 := by
  rw [(padded_hex_fixed 64 value (by decide) bound).1, fixedDigits_length]

/-- The format itself tells the coordinates of all points. -/
theorem padded_decoded {x y : Nat} (boundX : x < 16 ^ 64) (boundY : y < 16 ^ 64) :
    publicPoint (paddedText x y) = (x, y) := by
  have digits : textDigits (paddedText x y) = fixedDigits 64 x ++ fixedDigits 64 y := by
    rw [paddedText, textDigits_map digitValue_lower]
    · rw [(padded_hex_fixed 64 x (by decide) boundX).1,
        (padded_hex_fixed 64 y (by decide) boundY).1]
    · intro d member
      rcases List.mem_append.mp member with first | second
      · exact padded_small x d first
      · exact padded_small y d second
  have even : (fixedDigits 64 x).length % 2 = 0 := by rw [fixedDigits_length]
  have bytes : packDigits (textDigits (paddedText x y)) = toBytes 32 x ++ toBytes 32 y := by
    rw [digits, packDigits_append _ _ even, packDigits_fixed 32, packDigits_fixed 32]
  have square : (16 : Nat) ^ 64 = 256 ^ 32 := by norm_num
  rw [square] at boundX boundY
  have half : (toBytes 32 x ++ toBytes 32 y).length / 2 = (toBytes 32 x).length := by
    rw [List.length_append, toBytes_length, toBytes_length]
  have second : (toBytes 32 y).take (toBytes 32 x).length = toBytes 32 y :=
    List.take_of_length_le (by rw [toBytes_length, toBytes_length])
  rw [publicPoint, bytes, half, List.take_left, List.drop_left, second,
    ofBytes_toBytes 32 x boundX, ofBytes_toBytes 32 y boundY]

theorem hexPublicKey_ok {x y : Nat} {text : Bytes} (run : hexPublicKey x y = .ok text) :
    ∃ zerosX zerosY, zeroString (65 - sizeT (printHex x).length) = .ok zerosX ∧
      zeroString (65 - sizeT (printHex y).length) = .ok zerosY ∧
      text = ((zerosX ++ printHex x) ++ (zerosY ++ printHex y)).filter (· ≠ 0x68) := by
  unfold hexPublicKey at run
  cases first : zeroString (65 - sizeT (printHex x).length) with
  | error fault =>
    rw [first] at run
    cases run
  | ok zerosX =>
    cases second : zeroString (65 - sizeT (printHex y).length) with
    | error fault =>
      rw [first, second] at run
      cases run
    | ok zerosY =>
      rw [first, second] at run
      cases run
      exact ⟨zerosX, zerosY, rfl, rfl, rfl⟩

theorem paddedText_dark (x y : Nat) : (0 : UInt8) ∉ paddedText x y := by
  intro member
  obtain ⟨d, digit, zero⟩ := List.mem_map.mp member
  have small : d < 16 := by
    rcases List.mem_append.mp digit with first | second
    · exact padded_small x d first
    · exact padded_small y d second
  exact (lowerDigit_printed d small).2 zero

theorem survives_iff {x y : Nat} (boundX : x < 2 ^ 256) (boundY : y < 2 ^ 256) :
    Survives x y ↔ 16 ^ 62 ≤ x ∧ 16 ^ 62 ≤ y := by
  have width : (2 : Nat) ^ 256 = 16 ^ 64 := by norm_num
  rw [width] at boundX boundY
  constructor
  · intro survives
    obtain ⟨zerosX, zerosY, first, second, text⟩ := hexPublicKey_ok survives.text
    have dark := paddedText_dark x y
    rw [text] at dark
    constructor
    · by_contra small
      have zero := short_zeros boundX (Nat.lt_of_not_le small) first
      exact dark (by simp [zero])
    · by_contra small
      have zero := short_zeros boundY (Nat.lt_of_not_le small) second
      exact dark (by simp [zero])
  · intro large
    refine ⟨?_, ?_, padded_decoded boundX boundY⟩
    · rw [hexPublicKey, full_zeros boundX large.1, full_zeros boundY large.2]
      change Except.ok _ = _
      rw [List.filter_append, filled_text, filled_text, paddedText, List.map_append]
    · rw [paddedText, List.length_map, List.length_append, padded_length boundX,
        padded_length boundY]

/-- The generator of secp256k1. -/
theorem generator_survives : Survives
    0x79be667ef9dcbbac55a06295ce870b07029bfcdb2dce28d959f2815b16f81798
    0x483ada7726a3c4655da4fbfc0e1108a8fd17b448a68554199c47d08ffb10d4b8 :=
  (survives_iff (by norm_num) (by norm_num)).mpr ⟨by norm_num, by norm_num⟩

/-- The equation of secp256k1. -/
def OnCurve (x y : Nat) : Prop :=
  y ^ 2 % (2 ^ 256 - 2 ^ 32 - 977) = (x ^ 3 + 7) % (2 ^ 256 - 2 ^ 32 - 977)

/-- A point of the curve whose first coordinate is 1: 63 characters are to be copied. -/
theorem short_coordinate_lost :
    OnCurve 1 0x4218f20ae6c646b363db68605822fb14264ca8d2587fdd6fbc750d587e76a7ee ∧
    hexPublicKey 1 0x4218f20ae6c646b363db68605822fb14264ca8d2587fdd6fbc750d587e76a7ee =
      .error .pastArray ∧
    ¬ Survives 1 0x4218f20ae6c646b363db68605822fb14264ca8d2587fdd6fbc750d587e76a7ee := by
  have refused : hexPublicKey 1
      0x4218f20ae6c646b363db68605822fb14264ca8d2587fdd6fbc750d587e76a7ee = .error .pastArray := by
    have printed : printHex 1 = ascii "1h" := by
      rw [printHex, hexDigits_small 1 (by decide)]
      rfl
    rw [hexPublicKey, printed]
    rfl
  refine ⟨by unfold OnCurve; norm_num, refused, ?_⟩
  intro survives
  rw [survives.text] at refused
  cases refused

end EnsicoinPublicKeys
