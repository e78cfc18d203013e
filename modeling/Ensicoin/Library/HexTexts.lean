import Ensicoin.Library.BigEndianWords

/-!
Hexadecimal digits as characters. A decoder takes both cases and steps over what is not a
digit; two digits make a byte.
-/
namespace HexTexts
open BigEndianWords

def upperDigit (d : Nat) : UInt8 := UInt8.ofNat (if d < 10 then 0x30 + d else 0x41 + (d - 10))

def lowerDigit (d : Nat) : UInt8 := UInt8.ofNat (if d < 10 then 0x30 + d else 0x61 + (d - 10))

def digitValue (ch : UInt8) : Option Nat :=
  if 0x30 ≤ ch ∧ ch ≤ 0x39 then some (ch.toNat - 0x30)
  else if 0x41 ≤ ch ∧ ch ≤ 0x46 then some (ch.toNat - 0x41 + 10)
  else if 0x61 ≤ ch ∧ ch ≤ 0x66 then some (ch.toNat - 0x61 + 10)
  else none

def textDigits (text : List UInt8) : List Nat := text.filterMap digitValue

/-- The two digits of every byte. -/
def nibbles (bytes : List UInt8) : List Nat := bytes.flatMap fun b => [b.toNat / 16, b.toNat % 16]

theorem digitValue_upper : ∀ d < 16, digitValue (upperDigit d) = some d := by decide

theorem digitValue_lower : ∀ d < 16, digitValue (lowerDigit d) = some d := by decide

theorem textDigits_map {write : Nat → UInt8} (back : ∀ d < 16, digitValue (write d) = some d)
    {digits : List Nat} (small : ∀ d ∈ digits, d < 16) :
    textDigits (digits.map write) = digits := by
  induction digits with
  | nil => rfl
  | cons d digits ih =>
    obtain ⟨first, later⟩ := List.forall_mem_cons.mp small
    rw [List.map_cons, textDigits, List.filterMap_cons, back d first]
    exact congrArg (d :: ·) (ih later)

theorem nibbles_small (bytes : List UInt8) : ∀ d ∈ nibbles bytes, d < 16 := by
  intro d member
  obtain ⟨b, _, here⟩ := List.mem_flatMap.mp member
  have bound := b.toNat_lt
  simp only [List.mem_cons, List.not_mem_nil, or_false] at here
  omega

theorem nibbles_value (bytes : List UInt8) :
    Nat.ofDigits 16 (nibbles bytes).reverse = ofBytes bytes := by
  induction bytes using List.reverseRecOn with
  | nil => rfl
  | append_singleton bytes b ih =>
    have last : nibbles [b] = [b.toNat / 16, b.toNat % 16] := rfl
    rw [ofBytes_concat, nibbles, List.flatMap_append, ← nibbles, ← nibbles, last,
      List.reverse_append]
    simp only [List.reverse_cons, List.reverse_nil, List.nil_append, List.cons_append,
      Nat.ofDigits_cons, ih]
    omega

theorem hexDigits_bounded (value : Nat) : ∀ d ∈ hexDigits value, d < 16 := by
  unfold hexDigits
  split
  · simp
  · intro d member
    exact Nat.digits_lt_base (by decide) (List.mem_reverse.mp member)

theorem hexDigits_fill (value : Nat) : value < 16 ^ (hexDigits value).length := by
  unfold hexDigits
  split
  · simp_all
  · rw [List.length_reverse]
    exact Nat.lt_base_pow_length_digits (by decide)

end HexTexts
