import Ensicoin.ScriptVerdicts

/-!
The script that pays to the hash of a public key. Both pushes go through, whatever
bytes they carry, and OP_DUP; the OP_HASH160 behind it copies 20 bytes into an empty
vector, so the run never comes to the comparison or to the signature.
-/
namespace EnsicoinPayToHash
open EnsicoinRuntime EnsicoinNetworkable EnsicoinScript EnsicoinScriptRuns EnsicoinScriptVerdicts
open StepRuns

def pushOf (item : Bytes) : Bytes := UInt8.ofNat item.length :: item

def inputCode (s k : Bytes) : Bytes := pushOf s ++ pushOf k

/-- OP_DUP, OP_HASH160, a push of h, OP_EQUAL, OP_VERIFY, OP_CHECKSIG. -/
def outputCode (h : FixedStr 20) : Bytes := [0x64, 0xa0] ++ pushOf h.value ++ [0x78, 0x8c, 0xaa]

def payToHash (shash s k : Bytes) (h : FixedStr 20) : Script :=
  ((parsed (inputCode s k)).chain (parsed (outputCode h))).setSHash shash

/-- The signature is by the key that h is the hash of. -/
def Pays (crypto : Crypto) (shash s k : Bytes) (h : FixedStr 20) : Prop :=
  crypto.ripemd160 k = h ∧ crypto.verify s shash k = true

/-- The loop comes to a verdict, and it is the one the opcodes ask for. -/
def Decides (crypto : Crypto) (shash s k : Bytes) (h : FixedStr 20) : Prop :=
  ∃ fuel final accepted, (payToHash shash s k h).runLoop crypto fuel = .ok (final, accepted) ∧
    (accepted = true ↔ Pays crypto shash s k h)

theorem push_parsed {item : Bytes} (positive : 0 < item.length) (short : item.length ≤ 75) :
    parseInstruction (UInt8.ofNat item.length) = ⟨.OP_STACK, UInt8.ofNat item.length⟩ ∧
      (UInt8.ofNat item.length).toNat = item.length := by
  have value : (UInt8.ofNat item.length).toNat = item.length := by
    rw [UInt8.toNat_ofNat']
    omega
  have low : (0x01 : UInt8).toNat = 1 := rfl
  have high : (0x4b : UInt8).toNat = 75 := rfl
  refine ⟨?_, value⟩
  rw [parseInstruction, if_pos]
  rw [UInt8.le_iff_toNat_le, UInt8.le_iff_toNat_le, value, low, high]
  exact ⟨positive, short⟩

/-- A script on its way, with its pointer and its stack. -/
def standing (script : Script) (pointer : Nat) (data : List Bytes) : Script :=
  { script with codePointer := pointer, data := data }

section Steps
variable (crypto : Crypto) {script : Script} {pointer : Nat} {data : List Bytes}

theorem standing_not_done {instr : Instruction}
    (found : script.scriptInstructions[pointer]? = some instr) :
    (standing script pointer data).done = false := by
  have within := (List.getElem?_eq_some_iff.mp found).1
  simp only [Script.done, standing, beq_eq_false_iff_ne]
  exact Nat.ne_of_lt within

/-- A push whose data lies in the code goes on behind it. -/
theorem push_step (data : List Bytes) {argument : UInt8}
    (found : script.scriptInstructions[pointer]? = some ⟨.OP_STACK, argument⟩)
    (inside : pointer + argument.toNat ≤ script.scriptInstructions.length)
    (flag : script.valid = true) : ∃ item, loopStep crypto (standing script pointer data) =
      some (standing script (pointer + argument.toNat + 1) (item :: data)) := by
  obtain ⟨item, pushed⟩ := pushedData_defined (standing script pointer data) argument inside
  refine ⟨item, loopStep_some.mpr ⟨standing_not_done found, ?_⟩⟩
  have here : (standing script pointer data).scriptInstructions[
      (standing script pointer data).codePointer]? = some ⟨.OP_STACK, argument⟩ := found
  simp only [Script.step, here, Script.execute, pushed, bind, Except.bind, pure, Except.pure]
  simp only [Script.push, standing, flag]

theorem dup_step (data : List Bytes) (top : Bytes)
    (found : script.scriptInstructions[pointer]? = some ⟨.OP_DUP, 0⟩)
    (flag : script.valid = true) : loopStep crypto (standing script pointer (top :: data)) =
      some (standing script (pointer + 1) (top :: top :: data)) := by
  refine loopStep_some.mpr ⟨standing_not_done found, ?_⟩
  simp only [Script.step, standing, found, Script.execute, Script.pop, bind, Except.bind, pure,
    Except.pure, Script.push, flag]

theorem hash160_step {top : Bytes}
    (found : script.scriptInstructions[pointer]? = some ⟨.OP_HASH160, 0⟩) :
    (standing script pointer (top :: data)).step crypto = .error .pastVector := by
  have long : ¬ (crypto.ripemd160 top).value.length ≤ 0 := by simp
  simp only [Script.step, standing, found, Script.execute, Script.pop, bind, Except.bind, copyInto,
    List.length_nil, if_neg long]

end Steps

/-- A run that comes to an undefined step has no result, however long it is given. -/
theorem undefined_step_never_returns {crypto : Crypto} {s t : Script} {fault : Fault}
    (run : Reaches (loopStep crypto) s t) (going : t.done = false)
    (undefined : t.step crypto = .error fault) (fuel : Nat) (result : Script × Bool) :
    s.runLoop crypto fuel ≠ .ok result := by
  induction run using Relation.ReflTransGen.head_induction_on generalizing fuel with
  | refl =>
    cases fuel with
    | zero => simp [Script.runLoop, going]
    | succ fuel => simp [Script.runLoop, going, undefined, bind, Except.bind]
  | head first _ ih =>
    obtain ⟨open_, stepped⟩ := loopStep_some.mp first
    cases fuel with
    | zero => simp [Script.runLoop, open_]
    | succ fuel =>
      have onward := ih fuel
      simpa [Script.runLoop, open_, stepped, bind, Except.bind] using onward

theorem payToHash_code (shash s k : Bytes) (h : FixedStr 20) :
    (payToHash shash s k h).scriptInstructions =
      (pushOf s ++ (pushOf k ++ outputCode h)).map parseInstruction := by
  simp [payToHash, parsed, Script.new, Script.chain, Script.setSHash, inputCode]

theorem parsed_behind_push (item rest : Bytes) (i : Nat) :
    ((pushOf item ++ rest).map parseInstruction)[item.length + 1 + i]? =
      (rest.map parseInstruction)[i]? := by
  rw [List.map_append, List.getElem?_append_right (by simp [pushOf])]
  congr 1
  simp [pushOf]

theorem payToHash_output (shash s k : Bytes) (h : FixedStr 20) (i : Nat) :
    (payToHash shash s k h).scriptInstructions[s.length + 1 + (k.length + 1 + i)]? =
      ((outputCode h).map parseInstruction)[i]? := by
  rw [payToHash_code, parsed_behind_push, parsed_behind_push]

/-- The run up to OP_HASH160, which finds the key twice on the stack. -/
theorem payToHash_reaches (crypto : Crypto) (shash : Bytes) {s k : Bytes} (h : FixedStr 20)
    (signature : 0 < s.length ∧ s.length ≤ 75) (key : 0 < k.length ∧ k.length ≤ 75) :
    ∃ x y, Reaches (loopStep crypto) (payToHash shash s k h)
      (standing (payToHash shash s k h) (s.length + 1 + (k.length + 1 + 1)) [y, y, x]) := by
  obtain ⟨parseS, lengthS⟩ := push_parsed signature.1 signature.2
  obtain ⟨parseK, lengthK⟩ := push_parsed key.1 key.2
  have size : s.length + k.length + 4 ≤ (payToHash shash s k h).scriptInstructions.length := by
    simp only [payToHash_code, pushOf, outputCode, List.length_map, List.length_append,
      List.length_cons]
    omega
  have first : (payToHash shash s k h).scriptInstructions[0]? =
      some ⟨.OP_STACK, UInt8.ofNat s.length⟩ := by
    rw [← parseS, payToHash_code]
    rfl
  have second : (payToHash shash s k h).scriptInstructions[s.length + 1]? =
      some ⟨.OP_STACK, UInt8.ofNat k.length⟩ := by
    rw [← parseK, payToHash_code, ← Nat.add_zero (s.length + 1), parsed_behind_push]
    rfl
  obtain ⟨x, goS⟩ := push_step crypto [] first (by omega) rfl
  obtain ⟨y, goK⟩ := push_step crypto [x] second (by omega) rfl
  have goDup := dup_step crypto [x] y (payToHash_output shash s k h 0) rfl
  rw [lengthS, Nat.zero_add] at goS
  rw [lengthK, Nat.add_assoc] at goK
  exact ⟨x, y, .head goS (.head goK (.single goDup))⟩

theorem payToHash_never_returns (crypto : Crypto) (shash : Bytes) {s k : Bytes} (h : FixedStr 20)
    (signature : 0 < s.length ∧ s.length ≤ 75) (key : 0 < k.length ∧ k.length ≤ 75) (fuel : Nat)
    (result : Script × Bool) : (payToHash shash s k h).runLoop crypto fuel ≠ .ok result := by
  obtain ⟨x, y, run⟩ := payToHash_reaches crypto shash h signature key
  have found := payToHash_output shash s k h 1
  exact undefined_step_never_returns run (standing_not_done found) (hash160_step crypto found)
    fuel result

theorem payToHash_never_accepts (crypto : Crypto) (shash : Bytes) {s k : Bytes} (h : FixedStr 20)
    (signature : 0 < s.length ∧ s.length ≤ 75) (key : 0 < k.length ∧ k.length ≤ 75) :
    ¬ Accepts crypto (payToHash shash s k h) := by
  intro accepts
  obtain ⟨fuel, final, run⟩ := accepts
  exact payToHash_never_returns crypto shash h signature key fuel _ run

/-- No verdict at all; with none counted as a refusal, every rightful payment is refused. -/
theorem payToHash_undecided (crypto : Crypto) (shash s k : Bytes) (h : FixedStr 20)
    (signature : 0 < s.length ∧ s.length ≤ 75) (key : 0 < k.length ∧ k.length ≤ 75) :
    ¬ Decides crypto shash s k h ∧
      ((Accepts crypto (payToHash shash s k h) ↔ Pays crypto shash s k h) ↔
        ¬ Pays crypto shash s k h) := by
  constructor
  · intro decides
    obtain ⟨fuel, final, accepted, run, _⟩ := decides
    exact payToHash_never_returns crypto shash h signature key fuel _ run
  · rw [iff_false_left (payToHash_never_accepts crypto shash h signature key)]

theorem one_byte_items_undecided :
    ¬ Decides refusingCrypto [] [7] [9] ⟨List.replicate 20 0, rfl⟩ ∧
      ((Accepts refusingCrypto (payToHash [] [7] [9] ⟨List.replicate 20 0, rfl⟩) ↔
        Pays refusingCrypto [] [7] [9] ⟨List.replicate 20 0, rfl⟩) ↔
          ¬ Pays refusingCrypto [] [7] [9] ⟨List.replicate 20 0, rfl⟩) :=
  payToHash_undecided refusingCrypto [] [7] [9] _ (by decide) (by decide)

def acceptingCrypto : Crypto := { refusingCrypto with verify := fun _ _ _ => true }

/-- The right key, a signature that verifies, and no verdict. -/
theorem rightful_payment_not_accepted :
    Pays acceptingCrypto [] [7] [9] ⟨List.replicate 20 0, rfl⟩ ∧
      ¬ Accepts acceptingCrypto (payToHash [] [7] [9] ⟨List.replicate 20 0, rfl⟩) := by
  exact ⟨⟨rfl, rfl⟩, payToHash_never_accepts acceptingCrypto [] _ (by decide) (by decide)⟩

end EnsicoinPayToHash
