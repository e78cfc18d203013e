import Ensicoin.ScriptSafety

/-!
How the loop of validateScript ends. Every step but one at a place past the code moves
codePointer on, so a run that stays in the code ends within its length. A push whose data
are the last instructions goes one place too far, where done is false and step does
nothing for ever.
-/
namespace EnsicoinScriptTermination
open EnsicoinRuntime EnsicoinNetworkable EnsicoinScript EnsicoinScriptRuns EnsicoinScriptVerdicts
open EnsicoinScriptSafety StepRuns

/-- Within as many steps as there are instructions the loop comes to the end of the code
    or a step has returned false, and every step on the way moves codePointer on. -/
def Ends (crypto : Crypto) (s : Script) : Prop :=
  (∃ final valid, s.runLoop crypto s.length = .ok (final, valid) ∧
    (final.codePointer = final.length ∨ valid = false)) ∧
  ∀ t u valid, Reaches (loopStep crypto) s t → t.done = false → t.step crypto = .ok (u, valid) →
    t.codePointer < u.codePointer

/-- Each instruction of the run has its items, is not OP_HASH160, and is followed by its
    data and the end of the code or another instruction. -/
def StaysInside (crypto : Crypto) (s : Script) : Prop :=
  ∀ t, Reaches (loopStep crypto) s t → ∀ instr ∈ t.scriptInstructions[t.codePointer]?,
    Instruction.pops instr ≤ t.data.length ∧ instr.operation ≠ .OP_HASH160 ∧
      t.codePointer + Instruction.skip instr < t.length

section Runs
variable {crypto : Crypto} {s t : Script}

theorem staysInside_step (stays : StaysInside crypto s) (go : loopStep crypto s = some t) :
    StaysInside crypto t :=
  fun u run => stays u (.head go run)

/-- A run that stays inside does not pass the end of the code. -/
theorem staysInside_within (stays : StaysInside crypto s) (here : s.codePointer ≤ s.length)
    (run : Reaches (loopStep crypto) s t) : t.codePointer ≤ t.length := by
  induction run with
  | refl => exact here
  | tail before last ih =>
    rcases loopStep_cases last with ⟨past, _⟩ | ⟨instr, found, code, _, pointer, _⟩
    · simp only [Script.length] at ih
      omega
    · have inside := (stays _ before instr found).2.2
      simp only [Script.length, code] at inside ⊢
      omega

/-- Induction on the fuel; every step uses up one instruction at least. -/
theorem staysInside_returns (stays : StaysInside crypto s) (here : s.codePointer ≤ s.length)
    {fuel : Nat} (enough : s.length - s.codePointer ≤ fuel) :
    ∃ final valid, s.runLoop crypto fuel = .ok (final, valid) := by
  induction fuel generalizing s with
  | zero =>
    have done : s.done = true := by
      simp only [Script.length] at here enough
      simp only [Script.done, beq_iff_eq]
      omega
    exact ⟨s, true, by rw [Script.runLoop, if_pos done]⟩
  | succ fuel ih =>
    by_cases done : s.done = true
    · exact ⟨s, true, by rw [Script.runLoop, if_pos done]⟩
    · have going : s.done = false := by simpa using done
      have inside : s.codePointer < s.scriptInstructions.length := by
        simp only [Script.length] at here
        simp only [Script.done, beq_iff_eq] at done
        omega
      have found := List.getElem?_eq_getElem inside
      obtain ⟨items, unhashed, data⟩ := stays s .refl _ found
      obtain ⟨t, valid, run⟩ := (step_defined_iff crypto s).mpr fun instr there => by
        obtain rfl := Option.some.inj (found.symm.trans there)
        exact ⟨⟨items, Nat.le_of_lt data⟩, unhashed⟩
      rcases step_cases run with ⟨past, _⟩ | ⟨instr, there, code, _, pointer, _, flag⟩
      · omega
      · obtain rfl := Option.some.inj (found.symm.trans there)
        rw [Script.runLoop, if_neg done]
        simp only [run, bind, Except.bind]
        cases valid with
        | false => exact ⟨t, false, rfl⟩
        | true =>
          have go : loopStep crypto s = some t := loopStep_some.mpr ⟨going, run⟩
          refine ih (staysInside_step stays go) ?_ ?_
          · simp only [Script.length, code] at data ⊢
            omega
          · simp only [Script.length, code] at enough ⊢
            omega

/-- Past its code a valid script steps for ever. -/
theorem past_never_returns (past : s.length < s.codePointer) (flag : s.valid = true)
    (fuel : Nat) : s.runLoop crypto fuel = .error .noFuel := by
  simp only [Script.length] at past
  have going : ¬ s.done = true := by
    simp only [Script.done, beq_iff_eq]
    omega
  have outside : s.scriptInstructions[s.codePointer]? = none :=
    List.getElem?_eq_none (Nat.le_of_lt past)
  have stays : s.step crypto = .ok (s, true) := by simp only [Script.step, outside, flag]
  induction fuel with
  | zero => rw [Script.runLoop, if_neg going]
  | succ fuel ih =>
    rw [Script.runLoop, if_neg going]
    simp only [stays, bind, Except.bind, ↓reduceIte]
    exact ih

theorem returns_onward (run : Reaches (loopStep crypto) s t) {fuel : Nat} {result : Script × Bool}
    (returned : s.runLoop crypto fuel = .ok result) :
    ∃ fuel', t.runLoop crypto fuel' = .ok result := by
  induction run using Relation.ReflTransGen.head_induction_on generalizing fuel with
  | refl => exact ⟨fuel, returned⟩
  | head first _ ih =>
    obtain ⟨going, stepped⟩ := loopStep_some.mp first
    cases fuel with
    | zero => simp [Script.runLoop, going] at returned
    | succ fuel =>
      simp only [Script.runLoop, going, stepped, bind, Except.bind] at returned
      exact ih returned

theorem reaches_valid (flag : s.valid = true) (run : Reaches (loopStep crypto) s t) :
    t.valid = true := by
  refine reaches_invariant (fun u => u.valid = true) ?_ run flag
  intro u v up go
  rcases loopStep_cases go with ⟨_, same⟩ | ⟨_, _, _, _, _, _, up'⟩
  · rw [same, up]
  · exact up'

theorem returns_step {fuel : Nat} {result : Script × Bool} (going : s.done = false)
    (returned : s.runLoop crypto fuel = .ok result) : ∃ u valid, s.step crypto = .ok (u, valid) ∧
      (valid = true → ∃ fuel', u.runLoop crypto fuel' = .ok result) := by
  cases fuel with
  | zero => simp [Script.runLoop, going] at returned
  | succ fuel =>
    rw [Script.runLoop, if_neg (by simp [going])] at returned
    obtain ⟨⟨u, valid⟩, stepped, rest⟩ := bind_ok returned
    refine ⟨u, valid, stepped, ?_⟩
    intro up
    exact ⟨fuel, by simpa [up] using rest⟩

theorem returns_staysInside (flag : s.valid = true) {fuel : Nat} {result : Script × Bool}
    (returned : s.runLoop crypto fuel = .ok result) : StaysInside crypto s := by
  intro t run instr found
  have inside := (List.getElem?_eq_some_iff.mp found).1
  have going : t.done = false := by
    simp only [Script.done, beq_eq_false_iff_ne]
    omega
  obtain ⟨_, later⟩ := returns_onward run returned
  obtain ⟨u, valid, stepped, onward⟩ := returns_step going later
  obtain ⟨⟨items, data⟩, unhashed⟩ :=
    (step_defined_iff crypto t).mp ⟨u, valid, stepped⟩ instr found
  refine ⟨items, unhashed, ?_⟩
  by_contra far
  simp only [Script.length] at far
  -- only a push comes this far, and it keeps the flag up
  have push : instr.operation = .OP_STACK := by
    by_contra other
    simp only [Instruction.skip, other, ↓reduceIte] at far
    omega
  rcases step_cases stepped with ⟨past, _⟩ | ⟨other, there, code, _, pointer, up, same⟩
  · omega
  · obtain rfl := Option.some.inj (found.symm.trans there)
    have raised : u.valid = true := by
      rw [up, reaches_valid flag run]
      simp [passes, push]
    obtain ⟨_, again⟩ := onward (same.trans raised)
    rw [past_never_returns (by simp only [Script.length, code]; omega) raised] at again
    cases again

end Runs

theorem ends_iff_staysInside {crypto : Crypto} {s : Script} (start : s.codePointer = 0)
    (flag : s.valid = true) : Ends crypto s ↔ StaysInside crypto s := by
  constructor
  · intro ends
    obtain ⟨⟨final, valid, returned, _⟩, _⟩ := ends
    exact returns_staysInside flag returned
  · intro stays
    have here : s.codePointer ≤ s.length := by omega
    constructor
    · have enough : s.length - s.codePointer ≤ s.length := Nat.sub_le _ _
      obtain ⟨final, valid, returned⟩ := staysInside_returns stays here enough
      refine ⟨final, valid, returned, ?_⟩
      cases valid with
      | false => exact Or.inr rfl
      | true =>
        have done := (runLoop_reaches returned).2
        exact Or.inl (by simpa [Script.done, Script.length] using done)
    · intro t u valid run going stepped
      rcases step_cases stepped with ⟨past, _⟩ | ⟨_, _, _, _, pointer, _⟩
      · have within := staysInside_within stays here run
        simp only [Script.length] at within
        simp only [Script.done, beq_eq_false_iff_ne] at going
        omega
      · omega

/-- The scripts as they are parsed and chained, whatever signing hash they carry. -/
theorem validation_ends_iff_staysInside (crypto : Crypto) (input output shash : Bytes) :
    Ends crypto ((Script.new (input.map parseInstruction) shash).chain
      (Script.new (output.map parseInstruction) shash)) ↔
    StaysInside crypto ((Script.new (input.map parseInstruction) shash).chain
      (Script.new (output.map parseInstruction) shash)) :=
  ends_iff_staysInside rfl rfl

/-- The push of one byte that is a whole script jumps over the end of it. -/
theorem last_push_never_ends :
    (∀ fuel, ((parsed [0x01]).chain (parsed [])).runLoop refusingCrypto fuel = .error .noFuel) ∧
      ¬ Ends refusingCrypto ((parsed [0x01]).chain (parsed [])) := by
  have never : ∀ fuel, ((parsed [0x01]).chain (parsed [])).runLoop refusingCrypto fuel =
      .error .noFuel := by
    intro fuel
    cases fuel with
    | zero => rfl
    | succ fuel =>
      have stepped : ((parsed [0x01]).chain (parsed [])).step refusingCrypto =
          .ok ({ parsed [0x01] with codePointer := 2, data := [[1]] }, true) := by decide
      have going : ¬ ((parsed [0x01]).chain (parsed [])).done = true := by decide
      rw [Script.runLoop, if_neg going]
      simp only [stepped, bind, Except.bind, ↓reduceIte]
      exact past_never_returns (by decide) rfl fuel
  refine ⟨never, ?_⟩
  intro ends
  obtain ⟨⟨final, valid, returned, _⟩, _⟩ := ends
  rw [never] at returned
  cases returned

end EnsicoinScriptTermination
