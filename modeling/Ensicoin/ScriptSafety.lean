import Ensicoin.ScriptVerdicts

/-!
What the steps of a Script touch. A step is defined exactly when the stack has the
items of its instruction, the data of a push lies in the code and the instruction is
not OP_HASH160. The depth of the stack and the place of codePointer depend on the code
alone, so one pass over the code tells whether all the steps of a run are defined.
-/
namespace EnsicoinScriptSafety
open EnsicoinRuntime EnsicoinNetworkable EnsicoinScript EnsicoinScriptRuns EnsicoinScriptVerdicts
open StepRuns

def Instruction.pushes (instr : Instruction) : Nat :=
  match instr.operation with
  | .OP_FALSE | .OP_TRUE | .OP_EQUAL | .OP_STACK => 1
  | .OP_DUP => 2
  | _ => 0

/-- The stack has the items and the code has the data that the instruction takes. -/
def Supplied (s : Script) (instr : Instruction) : Prop :=
  Instruction.pops instr ≤ s.data.length ∧
    s.codePointer + Instruction.skip instr ≤ s.scriptInstructions.length

theorem pushedData_eq (s : Script) (argument : UInt8)
    (inside : s.codePointer + argument.toNat ≤ s.scriptInstructions.length) :
    s.pushedData argument = .ok
      (((s.scriptInstructions.drop s.codePointer).take argument.toNat).map
        Instruction.pushedByte) := by
  have each : ∀ n, s.codePointer + n ≤ s.scriptInstructions.length →
      (List.range n).mapM (fun i => do
        let instr ← s.instructionAt (s.codePointer + i)
        return instr.pushedByte) = (.ok (((s.scriptInstructions.drop s.codePointer).take n).map
          Instruction.pushedByte) : Except Fault Bytes) := by
    intro n
    induction n with
    | zero => intro _; rfl
    | succ n ih =>
      intro fits
      have below : s.codePointer + n < s.scriptInstructions.length := by omega
      have found : s.scriptInstructions[s.codePointer + n]? =
          some s.scriptInstructions[s.codePointer + n] := List.getElem?_eq_getElem below
      rw [List.range_succ, List.mapM_append, ih (by omega), List.take_add_one, List.getElem?_drop,
        found]
      simp [Script.instructionAt, found, bind, Except.bind, pure, Except.pure]
  exact each _ inside

theorem mapM_each {α β : Type} {f : α → Except Fault β} {xs : List α} {ys : List β}
    (run : xs.mapM f = .ok ys) : ∀ x ∈ xs, ∃ y, f x = .ok y := by
  induction xs generalizing ys with
  | nil => simp
  | cons x xs ih =>
    intro a member
    rw [List.mapM_cons] at run
    obtain ⟨y, first, run⟩ := bind_ok run
    obtain ⟨rest, later, _⟩ := bind_ok run
    rcases List.mem_cons.mp member with here | old
    · rw [here]
      exact ⟨y, first⟩
    · exact ih later a old

theorem pushedData_inside {s : Script} {argument : UInt8} {data : Bytes}
    (here : s.codePointer ≤ s.scriptInstructions.length)
    (run : s.pushedData argument = .ok data) :
    s.codePointer + argument.toNat ≤ s.scriptInstructions.length := by
  by_cases none : argument.toNat = 0
  · omega
  · have last : argument.toNat - 1 ∈ List.range argument.toNat := by
      rw [List.mem_range]
      omega
    obtain ⟨_, read⟩ := mapM_each run _ last
    obtain ⟨instr, found, _⟩ := bind_ok read
    unfold Script.instructionAt at found
    split at found
    · cases found
    · rename_i inside
      have below := (List.getElem?_eq_some_iff.mp inside).1
      omega

theorem execute_depth {crypto : Crypto} {s t : Script} {instr : Instruction}
    (run : s.execute crypto instr = .ok t) : Instruction.pops instr ≤ s.data.length ∧
      t.data.length = s.data.length - Instruction.pops instr + Instruction.pushes instr := by
  obtain ⟨operation, argument⟩ := instr
  cases operation with
  | OP_FALSE | OP_TRUE | OP_UNKNOWN =>
    simp only [Script.execute, Except.ok.injEq] at run
    subst t
    simp [Script.push, Instruction.pops, Instruction.pushes]
  | OP_DUP =>
    obtain ⟨⟨top, u⟩, first, rest⟩ := bind_ok run
    obtain ⟨stack, _⟩ := pop_ok first
    cases rest
    simp [Script.push, Instruction.pops, Instruction.pushes, stack]
  | OP_EQUAL =>
    obtain ⟨⟨firstTop, u⟩, first, run⟩ := bind_ok run
    obtain ⟨⟨secondTop, v⟩, second, rest⟩ := bind_ok run
    obtain ⟨stack, _⟩ := pop_ok first
    obtain ⟨below, _⟩ := pop_ok second
    cases rest
    split <;> simp [Script.push, Instruction.pops, Instruction.pushes, stack, below]
  | OP_VERIFY =>
    obtain ⟨⟨stackTop, u⟩, first, rest⟩ := bind_ok run
    obtain ⟨stack, _⟩ := pop_ok first
    cases rest
    split <;> simp [Instruction.pops, Instruction.pushes, stack]
  | OP_HASH160 => exact absurd run (hash160_undefined rfl)
  | OP_CHECKSIG =>
    obtain ⟨⟨pubKey, u⟩, first, run⟩ := bind_ok run
    obtain ⟨⟨signatureBytes, v⟩, second, rest⟩ := bind_ok run
    obtain ⟨stack, _⟩ := pop_ok first
    obtain ⟨below, _⟩ := pop_ok second
    cases rest
    split <;> simp [Instruction.pops, Instruction.pushes, stack, below]
  | OP_STACK =>
    obtain ⟨pushed, _, rest⟩ := bind_ok run
    cases rest
    simp [Script.push, Instruction.pops, Instruction.pushes]

theorem execute_defined_iff (crypto : Crypto) {s : Script} {instr : Instruction}
    (here : s.codePointer ≤ s.scriptInstructions.length) :
    (∃ t, s.execute crypto instr = .ok t) ↔
      Supplied s instr ∧ instr.operation ≠ .OP_HASH160 := by
  constructor
  · intro defined
    obtain ⟨t, run⟩ := defined
    refine ⟨⟨(execute_depth run).1, ?_⟩, fun hash160 => hash160_undefined hash160 run⟩
    by_cases push : instr.operation = .OP_STACK
    · simp only [Script.execute, push] at run
      obtain ⟨data, pushed, _⟩ := bind_ok run
      simpa [Instruction.skip, push] using pushedData_inside here pushed
    · simpa [Instruction.skip, push] using here
  · intro supplied
    exact execute_defined crypto supplied.1.1 supplied.1.2 supplied.2

/-- A step by what it finds at codePointer. -/
theorem step_defined_iff (crypto : Crypto) (s : Script) :
    (∃ t valid, s.step crypto = .ok (t, valid)) ↔
      ∀ instr ∈ s.scriptInstructions[s.codePointer]?,
        Supplied s instr ∧ instr.operation ≠ .OP_HASH160 := by
  cases found : s.scriptInstructions[s.codePointer]? with
  | none =>
    have still : s.step crypto = .ok (s, s.valid) := by simp only [Script.step, found]
    simp [still]
  | some instr =>
    have here := (List.getElem?_eq_some_iff.mp found).1
    simp only [Option.mem_some_iff, forall_eq']
    rw [← execute_defined_iff crypto (Nat.le_of_lt here)]
    simp only [Script.step, found]
    constructor
    · intro defined
      obtain ⟨t, valid, run⟩ := defined
      obtain ⟨u, executed, _⟩ := bind_ok run
      exact ⟨u, executed⟩
    · intro defined
      obtain ⟨u, executed⟩ := defined
      exact ⟨_, _, by simp only [executed, bind, Except.bind]; rfl⟩

/-- step called again and again, whatever it returns. -/
def stepOn (crypto : Crypto) (s : Script) : Option Script :=
  (s.step crypto).toOption.map Prod.fst

/-- The next instruction takes items or data that are not there. -/
def Lacks (s : Script) : Prop :=
  ∃ instr ∈ s.scriptInstructions[s.codePointer]?, ¬ Supplied s instr

/-- Every step is defined, and one that lacks what it takes returns false. -/
def NeverLeaves (crypto : Crypto) (start : Script) : Prop :=
  ∀ s, Reaches (stepOn crypto) start s →
    ∃ t valid, s.step crypto = .ok (t, valid) ∧ (Lacks s → valid = false)

/-- One pass over the code: the bytes of a push still to come and the depth of the stack. -/
def suppliedFrom : Nat → Nat → Code → Bool
  | _, _, [] => true
  | 0, depth, instr :: rest =>
    Instruction.pops instr ≤ depth && Instruction.skip instr ≤ rest.length + 1 &&
      instr.operation ≠ .OP_HASH160 && suppliedFrom (Instruction.skip instr)
        (depth - Instruction.pops instr + Instruction.pushes instr) rest
  | inside + 1, depth, _ :: rest => suppliedFrom inside depth rest

def wellSupplied (code : Code) : Bool := suppliedFrom 0 0 code

theorem suppliedFrom_drop (inside depth : Nat) (code : Code) :
    suppliedFrom inside depth code = suppliedFrom 0 depth (code.drop inside) := by
  induction code generalizing inside with
  | nil => simp [suppliedFrom]
  | cons instr rest ih =>
    cases inside with
    | zero => rfl
    | succ inside => simp [suppliedFrom, ih inside]

/-- What is left of the pass at a state. -/
def ahead (s : Script) : Bool :=
  suppliedFrom 0 s.data.length (s.scriptInstructions.drop s.codePointer)

theorem ahead_end {s : Script} (past : s.scriptInstructions.length ≤ s.codePointer) :
    ahead s = true := by
  rw [ahead, List.drop_eq_nil_of_le past, suppliedFrom]

theorem ahead_step {crypto : Crypto} {s t : Script} {valid : Bool} {instr : Instruction}
    (found : s.scriptInstructions[s.codePointer]? = some instr)
    (run : s.step crypto = .ok (t, valid)) : ahead s = ahead t := by
  obtain ⟨inside, same⟩ := List.getElem?_eq_some_iff.mp found
  have defined := (step_defined_iff crypto s).mp ⟨t, valid, run⟩ instr found
  obtain ⟨⟨items, data⟩, unhashed⟩ := defined
  simp only [Script.step, found] at run
  obtain ⟨u, executed, rest⟩ := bind_ok run
  obtain ⟨code, _, pointer, _⟩ := execute_effect executed
  have depth := (execute_depth executed).2
  cases rest
  have enough : Instruction.skip instr ≤
      (s.scriptInstructions.drop (s.codePointer + 1)).length + 1 := by
    rw [List.length_drop]
    omega
  simp only [ahead, code, pointer, depth]
  rw [List.drop_eq_getElem_cons inside, same, suppliedFrom, suppliedFrom_drop, List.drop_drop]
  simp only [items, enough, unhashed, decide_true, ne_eq, not_false_eq_true, Bool.true_and]
  congr 2
  omega

theorem ahead_supplied {s : Script} {instr : Instruction} (whole : ahead s = true)
    (found : s.scriptInstructions[s.codePointer]? = some instr) :
    Supplied s instr ∧ instr.operation ≠ .OP_HASH160 := by
  obtain ⟨inside, same⟩ := List.getElem?_eq_some_iff.mp found
  rw [ahead, List.drop_eq_getElem_cons inside, same, suppliedFrom] at whole
  simp only [Bool.and_eq_true, decide_eq_true_eq, ne_eq, List.length_drop] at whole
  obtain ⟨⟨⟨items, data⟩, unhashed⟩, _⟩ := whole
  exact ⟨⟨items, by omega⟩, unhashed⟩

theorem stepOn_some {crypto : Crypto} {s t : Script} :
    stepOn crypto s = some t ↔ ∃ valid, s.step crypto = .ok (t, valid) := by
  unfold stepOn
  cases s.step crypto with
  | error fault => simp [Except.toOption]
  | ok pair =>
    obtain ⟨u, valid⟩ := pair
    simp [Except.toOption]

theorem stepOn_ahead {crypto : Crypto} {s t : Script} (whole : ahead s = true)
    (go : stepOn crypto s = some t) : ahead t = true := by
  obtain ⟨valid, run⟩ := stepOn_some.mp go
  cases found : s.scriptInstructions[s.codePointer]? with
  | none =>
    simp only [Script.step, found] at run
    cases run
    exact whole
  | some instr => rwa [← ahead_step found run]

theorem neverLeaves_step {crypto : Crypto} {s t : Script} (never : NeverLeaves crypto s)
    (go : stepOn crypto s = some t) : NeverLeaves crypto t :=
  fun u run => never u (.head go run)

/-- Induction on the code that is still in front of codePointer. -/
theorem neverLeaves_ahead {crypto : Crypto} {s : Script} (never : NeverLeaves crypto s) :
    ahead s = true := by
  induction left : s.scriptInstructions.length - s.codePointer using Nat.strongRecOn
    generalizing s with
  | ind k ih =>
    cases found : s.scriptInstructions[s.codePointer]? with
    | none => exact ahead_end (List.getElem?_eq_none_iff.mp found)
    | some instr =>
      have inside := (List.getElem?_eq_some_iff.mp found).1
      obtain ⟨t, valid, run, _⟩ := never s .refl
      rw [ahead_step found run]
      rcases step_cases run with ⟨past, _⟩ | ⟨_, _, code, _, pointer, _⟩
      · omega
      · refine ih _ ?_ (neverLeaves_step never (stepOn_some.mpr ⟨valid, run⟩)) rfl
        rw [code]
        omega

theorem never_leaves_iff_supplied (crypto : Crypto) (code : Code) (shash : Bytes) :
    NeverLeaves crypto (Script.new code shash) ↔ wellSupplied code = true := by
  constructor
  · exact neverLeaves_ahead
  · intro whole s run
    have kept : ahead s = true :=
      reaches_invariant (fun u => ahead u = true) (fun _ _ => stepOn_ahead) run whole
    obtain ⟨t, valid, defined⟩ := (step_defined_iff crypto s).mpr fun _ => ahead_supplied kept
    refine ⟨t, valid, defined, ?_⟩
    intro lacks
    obtain ⟨instr, found, short⟩ := lacks
    exact absurd (ahead_supplied kept found).1 short

example : wellSupplied ([0x02, 0xff, 0x50, 0x64, 0x78].map parseInstruction) = true := by decide

/-- OP_DUP alone takes the top of an empty stack. -/
theorem dup_takes_from_empty_stack :
    (parsed [0x64]).step refusingCrypto = .error .emptyStack ∧
      ¬ NeverLeaves refusingCrypto (parsed [0x64]) := by
  refine ⟨rfl, ?_⟩
  intro never
  obtain ⟨t, valid, run, _⟩ := never _ .refl
  cases run

end EnsicoinScriptSafety
