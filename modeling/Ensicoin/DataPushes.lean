import Ensicoin.PayToHash
import Ensicoin.ScriptSafety

/-!
What OP_STACK pushes. Its loop starts at the push itself, so the item is one byte for the
push and then the data without their last byte; and of a byte that was parsed as a push
only the operation is left, which is 01. The item is the data when every byte is 01.
-/
namespace EnsicoinDataPushes
open EnsicoinRuntime EnsicoinNetworkable EnsicoinScript EnsicoinScriptRuns EnsicoinScriptSafety
open EnsicoinPayToHash

/-- The data are the new top, nothing else changes, and the instruction behind them is next. -/
def PushesData (crypto : Crypto) (s : Script) (d : Bytes) : Prop :=
  s.step crypto = .ok ({ s with data := d :: s.data,
                                codePointer := s.codePointer + d.length + 1 }, s.valid)

/-- What the loop takes for a byte of the code. -/
def readBack (chr : UInt8) : UInt8 := (parseInstruction chr).pushedByte

def pushedItem (d : Bytes) : Bytes := 0x01 :: d.dropLast.map readBack

theorem push_step_item {crypto : Crypto} {s : Script} {before after : Code} {d : Bytes}
    (positive : 0 < d.length) (short : d.length ≤ 75)
    (code : s.scriptInstructions = before ++
      parseInstruction (UInt8.ofNat d.length) :: (d.map parseInstruction ++ after))
    (here : s.codePointer = before.length) :
    s.step crypto = .ok ({ s with data := pushedItem d :: s.data,
                                  codePointer := s.codePointer + d.length + 1 }, s.valid) := by
  obtain ⟨push, length⟩ := push_parsed positive short
  have found : s.scriptInstructions[s.codePointer]? =
      some ⟨.OP_STACK, UInt8.ofNat d.length⟩ := by
    rw [code, here, List.getElem?_append_right (Nat.le_refl _), Nat.sub_self, push]
    rfl
  have ahead : s.scriptInstructions.drop s.codePointer =
      ⟨.OP_STACK, UInt8.ofNat d.length⟩ :: (d.map parseInstruction ++ after) := by
    rw [code, here, List.drop_left, push]
  have inside : s.codePointer + (UInt8.ofNat d.length).toNat ≤ s.scriptInstructions.length := by
    rw [code, here, length]
    simp only [List.length_append, List.length_cons, List.length_map]
    omega
  have pushed : s.pushedData (UInt8.ofNat d.length) = .ok (pushedItem d) := by
    obtain ⟨n, same⟩ := Nat.exists_eq_succ_of_ne_zero (Nat.pos_iff_ne_zero.mp positive)
    have front : (d.map parseInstruction ++ after).take n = d.dropLast.map parseInstruction := by
      rw [List.take_append_of_le_length (by rw [List.length_map]; omega), ← List.map_take,
        List.dropLast_eq_take, same]
      rfl
    rw [pushedData_eq s _ inside, ahead, length, same, List.take_succ_cons, List.map_cons, front,
      List.map_map]
    rfl
  simp only [Script.step, found, Script.execute, pushed, bind, Except.bind, pure, Except.pure,
    length, Script.push]

/-- Induction on the data: each byte read back is the next byte of the data. -/
theorem pushedItem_ones (d : Bytes) (positive : 0 < d.length) :
    pushedItem d = d ↔ ∀ b ∈ d, b = 0x01 := by
  induction d with
  | nil => cases positive
  | cons b rest ih =>
    cases rest with
    | nil => simp [pushedItem, eq_comm]
    | cons c rest =>
      have onward := ih (by simp)
      simp only [pushedItem, List.dropLast_cons_cons, List.map_cons, List.cons.injEq,
        List.mem_cons, forall_eq_or_imp] at onward ⊢
      constructor
      · intro same
        obtain ⟨first, second, later⟩ := same
        have one : readBack b = 0x01 := by rw [← first]; decide
        rw [one] at second
        exact ⟨first.symm, onward.mp ⟨second, later⟩⟩
      · intro ones
        obtain ⟨first, rest⟩ := ones
        obtain ⟨second, later⟩ := onward.mpr rest
        refine ⟨first.symm, ?_, later⟩
        rw [first, ← second]
        decide

theorem pushes_data_iff_ones (crypto : Crypto) {s : Script} {before after : Code} {d : Bytes}
    (positive : 0 < d.length) (short : d.length ≤ 75)
    (code : s.scriptInstructions = before ++
      parseInstruction (UInt8.ofNat d.length) :: (d.map parseInstruction ++ after))
    (here : s.codePointer = before.length) :
    PushesData crypto s d ↔ ∀ b ∈ d, b = 0x01 := by
  rw [PushesData, push_step_item positive short code here, ← pushedItem_ones d positive]
  simp

theorem ones_pushed :
    PushesData refusingCrypto (parsed [0x02, 0x01, 0x01, 0xff]) [0x01, 0x01] := by
  have code : (parsed [0x02, 0x01, 0x01, 0xff]).scriptInstructions = [] ++
      parseInstruction (UInt8.ofNat [(0x01 : UInt8), 0x01].length) ::
        ([(0x01 : UInt8), 0x01].map parseInstruction ++ [⟨.OP_UNKNOWN, 0xff⟩]) := rfl
  exact (pushes_data_iff_ones refusingCrypto (by decide) (by decide) code rfl).mpr (by simp)

/-- The push of ff pushes 01. -/
theorem pushed_byte_replaced : ¬ PushesData refusingCrypto (parsed [0x01, 0xff]) [0xff] := by
  unfold PushesData
  decide

end EnsicoinDataPushes
