import Mathlib.Data.Nat.Digits.Defs
import Mathlib.Data.List.Induction
import Mathlib.Tactic.Ring

/-!
Unsigned numbers as big-endian bytes of a fixed width, and the detour through
a zero-padded hexadecimal text that many encoders take to produce them.
Bytes are UInt8, values are unbounded Nat; a width bounds a value by 256^width.
-/
namespace BigEndianWords

/-- The value of big-endian bytes, by the shift and or of a reading loop. -/
def ofBytes (bytes : List UInt8) : Nat :=
  bytes.foldl (fun acc b => acc <<< 8 ||| b.toNat) 0

def toBytes : Nat → Nat → List UInt8
  | 0, _ => []
  | width + 1, value => toBytes width (value / 256) ++ [UInt8.ofNat value]

/-- Hexadecimal digits, most significant first, with a single 0 for zero. -/
def hexDigits (value : Nat) : List Nat :=
  if value = 0 then [0] else (Nat.digits 16 value).reverse

def padZeros (width : Nat) (digits : List Nat) : List Nat :=
  List.replicate (width - digits.length) 0 ++ digits

/-- Two digits make a byte; a trailing single digit makes none. -/
def packDigits : List Nat → List UInt8
  | hi :: lo :: rest => UInt8.ofNat (hi * 16 + lo) :: packDigits rest
  | _ => []

theorem toBytes_length (width value : Nat) : (toBytes width value).length = width := by
  induction width generalizing value with
  | zero => rfl
  | succ width ih => simp [toBytes, ih]

theorem ofBytes_concat (bytes : List UInt8) (b : UInt8) :
    ofBytes (bytes ++ [b]) = ofBytes bytes * 256 + b.toNat := by
  have disjoint := Nat.shiftLeft_add_eq_or_of_lt (i := 8) b.toNat_lt (ofBytes bytes)
  rw [ofBytes, List.foldl_append]
  simp only [List.foldl_cons, List.foldl_nil]
  change ofBytes bytes <<< 8 ||| b.toNat = _
  rw [← disjoint, Nat.shiftLeft_eq]

theorem ofBytes_lt (bytes : List UInt8) : ofBytes bytes < 256 ^ bytes.length := by
  induction bytes using List.reverseRecOn with
  | nil => simp [ofBytes]
  | append_singleton bytes b ih =>
    have hb := b.toNat_lt
    rw [ofBytes_concat, List.length_append, List.length_singleton, pow_succ]
    omega

theorem ofBytes_toBytes (width value : Nat) (bound : value < 256 ^ width) :
    ofBytes (toBytes width value) = value := by
  induction width generalizing value with
  | zero => simp at bound; simp [toBytes, ofBytes, bound]
  | succ width ih =>
    have high : value / 256 < 256 ^ width := by
      rw [pow_succ] at bound
      exact Nat.div_lt_of_lt_mul (by omega)
    rw [toBytes, ofBytes_concat, ih _ high, UInt8.toNat_ofNat']
    omega

theorem toBytes_ofBytes (bytes : List UInt8) : toBytes bytes.length (ofBytes bytes) = bytes := by
  induction bytes using List.reverseRecOn with
  | nil => rfl
  | append_singleton bytes b ih =>
    have hb := b.toNat_lt
    have high : (ofBytes bytes * 256 + b.toNat) / 256 = ofBytes bytes := by omega
    have low : UInt8.ofNat (ofBytes bytes * 256 + b.toNat) = b := by
      apply UInt8.toNat_inj.mp
      rw [UInt8.toNat_ofNat']
      omega
    rw [List.length_append, List.length_singleton, toBytes, ofBytes_concat, high, low, ih]

theorem toBytes_injective (width : Nat) {v w : Nat} (hv : v < 256 ^ width) (hw : w < 256 ^ width)
    (same : toBytes width v = toBytes width w) : v = w := by
  rw [← ofBytes_toBytes width v hv, ← ofBytes_toBytes width w hw, same]

theorem toBytes_zero (width : Nat) : toBytes width 0 = List.replicate width 0 := by
  induction width with
  | zero => rfl
  | succ width ih =>
    rw [toBytes, Nat.zero_div, ih, List.replicate_succ']
    rfl

theorem toBytes_append (high low value : Nat) :
    toBytes (high + low) value = toBytes high (value / 256 ^ low) ++ toBytes low value := by
  induction low generalizing value with
  | zero => simp [toBytes]
  | succ low ih =>
    have shape : high + (low + 1) = high + low + 1 := by omega
    have quotient : value / 256 / 256 ^ low = value / 256 ^ (low + 1) := by
      rw [Nat.div_div_eq_div_mul, pow_succ, Nat.mul_comm]
    rw [shape, toBytes, ih, quotient, toBytes, List.append_assoc]

theorem toBytes_mod (width value : Nat) :
    toBytes width (value % 256 ^ width) = toBytes width value := by
  induction width generalizing value with
  | zero => rfl
  | succ width ih =>
    have high : value % 256 ^ (width + 1) / 256 = value / 256 % 256 ^ width := by
      rw [pow_succ', Nat.mod_mul_right_div_self]
    have low : UInt8.ofNat (value % 256 ^ (width + 1)) = UInt8.ofNat value := by
      apply UInt8.toNat_inj.mp
      rw [UInt8.toNat_ofNat', UInt8.toNat_ofNat', pow_succ']
      exact Nat.mod_mul_right_mod value 256 _
    rw [toBytes, toBytes, high, ih, low]

theorem toBytes_wider (width extra value : Nat) (bound : value < 256 ^ width) :
    toBytes (extra + width) value = List.replicate extra 0 ++ toBytes width value := by
  rw [toBytes_append, Nat.div_eq_of_lt bound, toBytes_zero]

/-- Digits of a fixed width, the counterpart of `toBytes` in base 16. -/
def fixedDigits : Nat → Nat → List Nat
  | 0, _ => []
  | width + 1, value => fixedDigits width (value / 16) ++ [value % 16]

theorem fixedDigits_length (width value : Nat) : (fixedDigits width value).length = width := by
  induction width generalizing value with
  | zero => rfl
  | succ width ih => simp [fixedDigits, ih]

theorem fixedDigits_zero (width : Nat) : fixedDigits width 0 = List.replicate width 0 := by
  induction width with
  | zero => rfl
  | succ width ih => rw [fixedDigits, Nat.zero_div, ih, List.replicate_succ']

theorem hexDigits_small (value : Nat) (small : value < 16) : hexDigits value = [value] := by
  unfold hexDigits
  split
  · rename_i zero; simp [zero]
  · rename_i positive; rw [Nat.digits_of_lt 16 value positive small]; rfl

theorem hexDigits_step (value : Nat) (large : 16 ≤ value) :
    hexDigits value = hexDigits (value / 16) ++ [value % 16] := by
  have positive : value ≠ 0 := by omega
  have high : value / 16 ≠ 0 := by omega
  rw [hexDigits, if_neg positive, hexDigits, if_neg high,
    Nat.digits_def' (by decide) (by omega), List.reverse_cons]

theorem padded_hex_fixed (width value : Nat) (positive : 0 < width) (bound : value < 16 ^ width) :
    padZeros width (hexDigits value) = fixedDigits width value ∧
      (hexDigits value).length ≤ width := by
  induction width generalizing value with
  | zero => omega
  | succ width ih =>
    by_cases small : value < 16
    · rw [hexDigits_small value small]
      have high : value / 16 = 0 := by omega
      simp [padZeros, fixedDigits, high, fixedDigits_zero, Nat.mod_eq_of_lt small]
    · have wide : 0 < width := by
        by_contra narrow
        have : width = 0 := by omega
        subst width
        omega
      have high : value / 16 < 16 ^ width := by
        rw [pow_succ] at bound
        exact Nat.div_lt_of_lt_mul (by omega)
      obtain ⟨padded, short⟩ := ih (value / 16) wide high
      rw [hexDigits_step value (by omega), fixedDigits, ← padded]
      refine ⟨?_, by simpa using short⟩
      rw [padZeros, padZeros, List.length_append, List.length_singleton, Nat.add_sub_add_right,
        List.append_assoc]

theorem packDigits_append (digits rest : List Nat) (even : digits.length % 2 = 0) :
    packDigits (digits ++ rest) = packDigits digits ++ packDigits rest := by
  induction digits using packDigits.induct with
  | case1 hi lo later ih =>
    have tail : later.length % 2 = 0 := by simp at even; omega
    simp [packDigits, ih tail]
  | case2 digits short =>
    match digits, even, short with
    | [], _, _ => rfl
    | [a], even, _ => simp at even
    | a :: b :: later, _, short => exact absurd rfl (short a b later)

theorem packDigits_length (digits : List Nat) : (packDigits digits).length = digits.length / 2 := by
  induction digits using packDigits.induct with
  | case1 hi lo later ih =>
    rw [packDigits, List.length_cons, ih, List.length_cons, List.length_cons]
    omega
  | case2 digits short =>
    match digits, short with
    | [], _ => rfl
    | [a], _ => simp [packDigits]
    | a :: b :: later, short => exact absurd rfl (short a b later)

theorem packDigits_fixed (width value : Nat) :
    packDigits (fixedDigits (2 * width) value) = toBytes width value := by
  induction width generalizing value with
  | zero => rfl
  | succ width ih =>
    have shape : 2 * (width + 1) = 2 * width + 1 + 1 := by ring
    have even : (fixedDigits (2 * width) (value / 16 / 16)).length % 2 = 0 := by
      rw [fixedDigits_length]; omega
    have byte : UInt8.ofNat (value / 16 % 16 * 16 + value % 16) = UInt8.ofNat value := by
      apply UInt8.toNat_inj.mp
      rw [UInt8.toNat_ofNat', UInt8.toNat_ofNat']
      omega
    rw [shape, fixedDigits, fixedDigits, List.append_assoc, packDigits_append _ _ even, ih,
      Nat.div_div_eq_div_mul]
    change _ ++ [UInt8.ofNat (value / 16 % 16 * 16 + value % 16)] = _
    rw [byte]
    rfl

/-- The hexadecimal text of a value, padded to its width and packed, is the
    value in big-endian bytes. -/
theorem packed_hex_bytes (width value : Nat) (positive : 0 < width) (bound : value < 256 ^ width) :
    packDigits (padZeros (2 * width) (hexDigits value)) = toBytes width value := by
  have square : (256 : Nat) = 16 ^ 2 := by norm_num
  have bound16 : value < 16 ^ (2 * width) := by rwa [pow_mul, ← square]
  rw [(padded_hex_fixed (2 * width) value (by omega) bound16).1, packDigits_fixed]

end BigEndianWords
