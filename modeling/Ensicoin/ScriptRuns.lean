import Ensicoin.Script

/-!
Whole runs of a Script. What one step does is said once (execute_effect); the run
lemmas follow from it. A list of instructions is framed when, read from its start,
the data of every push lies inside the list.
-/
namespace EnsicoinScriptRuns
open EnsicoinRuntime EnsicoinNetworkable EnsicoinScript StepRuns

/-- How far OP_STACK moves codePointer on its own. -/
def Instruction.skip (instr : Instruction) : Nat :=
  if instr.operation = .OP_STACK then instr.argument.toNat else 0

def Instruction.pops (instr : Instruction) : Nat :=
  match instr.operation with
  | .OP_DUP => 1
  | .OP_EQUAL => 2
  | .OP_VERIFY => 1
  | .OP_HASH160 => 1
  | .OP_CHECKSIG => 2
  | _ => 0

/-- Whether an instruction leaves the validity flag up. -/
def passes (crypto : Crypto) (s : Script) (instr : Instruction) : Bool :=
  match instr.operation with
  | .OP_VERIFY => s.data.head? != some [0x01]
  | .OP_CHECKSIG =>
    match s.data with
    | pubKey :: signatureBytes :: _ => crypto.verify signatureBytes s.signingHash pubKey
    | _ => false
  | .OP_UNKNOWN => false
  | _ => true

theorem pop_ok {s t : Script} {top : Bytes} (run : s.pop = .ok (top, t)) :
    s.data = top :: t.data ∧ t = { s with data := t.data } := by
  unfold Script.pop at run
  split at run
  · simp at run
  · rename_i first rest stack
    simp only [Except.ok.injEq, Prod.mk.injEq] at run
    obtain ⟨rfl, rfl⟩ := run
    exact ⟨stack, rfl⟩

theorem pop_cons (s : Script) {top : Bytes} {rest : List Bytes} (stack : s.data = top :: rest) :
    s.pop = .ok (top, { s with data := rest }) := by
  simp [Script.pop, stack]

theorem execute_effect {crypto : Crypto} {s t : Script} {instr : Instruction}
    (run : s.execute crypto instr = .ok t) :
    t.scriptInstructions = s.scriptInstructions ∧ t.signingHash = s.signingHash ∧
      t.codePointer = s.codePointer + Instruction.skip instr ∧
      t.valid = (s.valid && passes crypto s instr) := by
  obtain ⟨operation, argument⟩ := instr
  cases operation with
  | OP_FALSE | OP_TRUE | OP_UNKNOWN =>
    simp only [Script.execute, Except.ok.injEq] at run
    subst t
    simp [Script.push, Instruction.skip, passes]
  | OP_DUP =>
    obtain ⟨⟨top, u⟩, popped, rest⟩ := bind_ok run
    cases rest
    simp [Script.push, Instruction.skip, passes]
  | OP_EQUAL =>
    obtain ⟨⟨firstTop, u⟩, first, run⟩ := bind_ok run
    obtain ⟨⟨secondTop, v⟩, second, rest⟩ := bind_ok run
    obtain ⟨_, hu⟩ := pop_ok first
    obtain ⟨_, hv⟩ := pop_ok second
    cases rest
    rw [hv, hu]
    split <;> simp [Script.push, Instruction.skip, passes]
  | OP_VERIFY =>
    obtain ⟨⟨stackTop, u⟩, first, rest⟩ := bind_ok run
    obtain ⟨stack, hu⟩ := pop_ok first
    cases rest
    rw [hu]
    split
    · rename_i falseElem
      simp [Instruction.skip, passes, stack, falseElem]
    · rename_i other
      simp [Instruction.skip, passes, stack, other]
  | OP_HASH160 =>
    obtain ⟨⟨toHash, u⟩, first, run⟩ := bind_ok run
    obtain ⟨hashed, copied, rest⟩ := bind_ok run
    obtain ⟨_, hu⟩ := pop_ok first
    cases rest
    rw [hu]
    simp [Script.push, Instruction.skip, passes]
  | OP_CHECKSIG =>
    obtain ⟨⟨pubKey, u⟩, first, run⟩ := bind_ok run
    obtain ⟨⟨signatureBytes, v⟩, second, rest⟩ := bind_ok run
    obtain ⟨stack, hu⟩ := pop_ok first
    obtain ⟨below, hv⟩ := pop_ok second
    cases rest
    rw [hu] at hv
    rw [hv]
    split
    · rename_i verified
      simp [Instruction.skip, passes, stack, below, verified]
    · rename_i refused
      simp [Instruction.skip, passes, stack, below, refused]
  | OP_STACK =>
    obtain ⟨pushed, _, rest⟩ := bind_ok run
    cases rest
    simp [Script.push, Instruction.skip, passes]

theorem step_cases {crypto : Crypto} {s t : Script} {valid : Bool}
    (run : s.step crypto = .ok (t, valid)) :
    (s.scriptInstructions.length ≤ s.codePointer ∧ t = s ∧ valid = s.valid) ∨
    ∃ instr, s.scriptInstructions[s.codePointer]? = some instr ∧
      t.scriptInstructions = s.scriptInstructions ∧ t.signingHash = s.signingHash ∧
      t.codePointer = s.codePointer + Instruction.skip instr + 1 ∧
      t.valid = (s.valid && passes crypto s instr) ∧ valid = t.valid := by
  unfold Script.step at run
  split at run
  · rename_i outside
    cases run
    exact Or.inl ⟨List.getElem?_eq_none_iff.mp outside, rfl, rfl⟩
  · rename_i instr inside
    obtain ⟨u, executed, rest⟩ := bind_ok run
    obtain ⟨code, shash, pointer, flag⟩ := execute_effect executed
    cases rest
    exact Or.inr ⟨instr, inside, code, shash, by simp [pointer], flag, rfl⟩

def loopStep (crypto : Crypto) (s : Script) : Option Script :=
  if s.done then none
  else match s.step crypto with
    | .ok (t, true) => some t
    | _ => none

theorem loopStep_some {crypto : Crypto} {s t : Script} :
    loopStep crypto s = some t ↔ s.done = false ∧ s.step crypto = .ok (t, true) := by
  unfold loopStep
  split
  · rename_i done; simp [done]
  · rename_i going
    have open_ : s.done = false := by simpa using going
    split
    · rename_i u run; simp [open_, run]
    · rename_i other
      simp only [reduceCtorEq, false_iff, not_and]
      intro _ run
      exact other t run

theorem runLoop_reaches {crypto : Crypto} {fuel : Nat} {s t : Script}
    (run : s.runLoop crypto fuel = .ok (t, true)) :
    Reaches (loopStep crypto) s t ∧ t.done = true := by
  induction fuel generalizing s with
  | zero =>
    unfold Script.runLoop at run
    split at run
    · rename_i done
      cases run
      exact ⟨Relation.ReflTransGen.refl, done⟩
    · simp at run
  | succ fuel ih =>
    unfold Script.runLoop at run
    split at run
    · rename_i done
      cases run
      exact ⟨Relation.ReflTransGen.refl, done⟩
    · rename_i going
      obtain ⟨⟨u, valid⟩, stepped, rest⟩ := bind_ok run
      cases valid with
      | false => simp [pure, Except.pure] at rest
      | true =>
        obtain ⟨later, done⟩ := ih rest
        have first : loopStep crypto s = some u := loopStep_some.mpr ⟨by simpa using going, stepped⟩
        exact ⟨Relation.ReflTransGen.head first later, done⟩

theorem reaches_runLoop {crypto : Crypto} {s t : Script} (run : Reaches (loopStep crypto) s t)
    (done : t.done = true) : ∃ fuel, s.runLoop crypto fuel = .ok (t, true) := by
  induction run using Relation.ReflTransGen.head_induction_on with
  | refl => exact ⟨0, by rw [Script.runLoop, if_pos done]⟩
  | head first _ ih =>
    obtain ⟨fuel, later⟩ := ih
    obtain ⟨going, stepped⟩ := loopStep_some.mp first
    refine ⟨fuel + 1, ?_⟩
    rw [Script.runLoop, if_neg (by simp [going])]
    simp only [stepped, bind, Except.bind, ↓reduceIte]
    exact later

theorem accepts_iff_reaches_end (crypto : Crypto) (s : Script) :
    Accepts crypto s ↔ ∃ t, Reaches (loopStep crypto) s t ∧ t.done = true := by
  constructor
  · rintro ⟨fuel, t, run⟩
    exact ⟨t, runLoop_reaches run⟩
  · rintro ⟨t, run, done⟩
    obtain ⟨fuel, loop⟩ := reaches_runLoop run done
    exact ⟨fuel, t, loop⟩

theorem loopStep_cases {crypto : Crypto} {s t : Script} (go : loopStep crypto s = some t) :
    (s.scriptInstructions.length < s.codePointer ∧ t = s) ∨
    ∃ instr, s.scriptInstructions[s.codePointer]? = some instr ∧
      t.scriptInstructions = s.scriptInstructions ∧ t.signingHash = s.signingHash ∧
      t.codePointer = s.codePointer + Instruction.skip instr + 1 ∧
      t.valid = (s.valid && passes crypto s instr) ∧ t.valid = true := by
  obtain ⟨going, stepped⟩ := loopStep_some.mp go
  have inside : s.codePointer ≠ s.scriptInstructions.length := by simpa [Script.done] using going
  rcases step_cases stepped with ⟨past, same, _⟩ | ⟨instr, found, code, shash, pointer, flag, up⟩
  · exact Or.inl ⟨by omega, same⟩
  · exact Or.inr ⟨instr, found, code, shash, pointer, flag, up.symm⟩

theorem loopStep_forward {crypto : Crypto} {s t : Script} (go : loopStep crypto s = some t) :
    t.scriptInstructions = s.scriptInstructions ∧ s.codePointer ≤ t.codePointer := by
  rcases loopStep_cases go with ⟨_, same⟩ | ⟨instr, _, code, _, pointer, _⟩
  · rw [same]; exact ⟨rfl, Nat.le_refl _⟩
  · exact ⟨code, by omega⟩

theorem reaches_forward {crypto : Crypto} {s t : Script} (run : Reaches (loopStep crypto) s t) :
    t.scriptInstructions = s.scriptInstructions ∧ s.codePointer ≤ t.codePointer := by
  refine reaches_invariant (fun u => u.scriptInstructions = s.scriptInstructions ∧
    s.codePointer ≤ u.codePointer) ?_ run ⟨rfl, Nat.le_refl _⟩
  rintro u v ⟨code, pointer⟩ go
  obtain ⟨same, further⟩ := loopStep_forward go
  exact ⟨same.trans code, by omega⟩

/-- Reading a list in which `inside` bytes of a push are still to come. -/
def framedFrom : Nat → Code → Bool
  | 0, [] => true
  | _ + 1, [] => false
  | 0, instr :: rest => framedFrom (Instruction.skip instr) rest
  | inside + 1, _ :: rest => framedFrom inside rest

def framed (code : Code) : Bool := framedFrom 0 code

theorem framedFrom_iff (inside : Nat) (code : Code) : framedFrom inside code = true ↔
    inside ≤ code.length ∧ framed (code.drop inside) = true := by
  induction code generalizing inside with
  | nil => cases inside <;> simp [framedFrom, framed]
  | cons instr rest ih =>
    cases inside with
    | zero => simp [framed]
    | succ inside => simp [framedFrom, ih inside]

theorem framed_at {code : Code} {index : Nat} {instr : Instruction}
    (found : code[index]? = some instr) : framed (code.drop index) = true ↔
      index + Instruction.skip instr + 1 ≤ code.length ∧
        framed (code.drop (index + Instruction.skip instr + 1)) = true := by
  obtain ⟨inside, rfl⟩ := List.getElem?_eq_some_iff.mp found
  rw [List.drop_eq_getElem_cons inside]
  change framedFrom (Instruction.skip code[index]) (code.drop (index + 1)) = true ↔ _
  rw [framedFrom_iff, List.length_drop, List.drop_drop]
  have shape : index + 1 + Instruction.skip code[index] =
      index + Instruction.skip code[index] + 1 := by omega
  rw [shape]
  constructor
  · rintro ⟨fits, after⟩; exact ⟨by omega, after⟩
  · rintro ⟨fits, after⟩; exact ⟨by omega, after⟩

/-- The run of a chained script comes to the end of the first script with the
    second still to be run from its first instruction, and no push of the first
    takes data from the second. -/
def RunsFollowing (crypto : Crypto) (script following : Script) : Prop :=
  (∃ s, Reaches (loopStep crypto) (script.chain following) s ∧ s.codePointer = script.length ∧
    s.scriptInstructions.drop s.codePointer = following.scriptInstructions) ∧
  ∀ s instr, Reaches (loopStep crypto) (script.chain following) s →
    s.codePointer < script.length → s.scriptInstructions[s.codePointer]? = some instr →
    instr.operation = .OP_STACK → s.codePointer + instr.argument.toNat < script.length

/-- Over a framed first script the run is at an instruction boundary of it, or
    has passed its end by stopping there. -/
theorem framed_run_boundary {crypto : Crypto} {script following s : Script}
    (start : script.codePointer = 0) (whole : framed script.scriptInstructions = true)
    (run : Reaches (loopStep crypto) (script.chain following) s) :
    (s.codePointer ≤ script.length ∧
      framed (script.scriptInstructions.drop s.codePointer) = true) ∨
    (script.length < s.codePointer ∧ ∃ m, Reaches (loopStep crypto) (script.chain following) m ∧
      m.codePointer = script.length) := by
  induction run with
  | refl => left; simpa [Script.chain, start, Script.length] using whole
  | @tail u v before last ih =>
    obtain ⟨code, _⟩ := reaches_forward before
    obtain ⟨_, further⟩ := loopStep_forward last
    rcases ih with ⟨within, rest⟩ | ⟨past, stop⟩
    · rcases Nat.lt_or_eq_of_le within with inside | atEnd
      · rcases loopStep_cases last with ⟨outside, _⟩ | ⟨instr, found, _, _, pointer, _⟩
        · rw [code] at outside
          simp [Script.chain, Script.length] at outside inside
          omega
        · rw [code, Script.chain, List.getElem?_append_left inside] at found
          obtain ⟨fits, after⟩ := (framed_at found).mp rest
          left
          rw [pointer]
          exact ⟨fits, after⟩
      · rcases loopStep_cases last with ⟨_, same⟩ | ⟨instr, _, _, _, pointer, _⟩
        · left; rw [same]; exact ⟨within, rest⟩
        · right; exact ⟨by omega, u, before, atEnd⟩
    · right; exact ⟨by omega, stop⟩

theorem boundary_framed {crypto : Crypto} {script following s m : Script}
    (run : Reaches (loopStep crypto) s m) (code : s.scriptInstructions =
      script.scriptInstructions ++ following.scriptInstructions)
    (stop : m.codePointer = script.length) :
    framed (script.scriptInstructions.drop s.codePointer) = true := by
  induction run using Relation.ReflTransGen.head_induction_on with
  | refl => simp [stop, Script.length, framed, framedFrom]
  | @head u v first later ih =>
    obtain ⟨same, _⟩ := loopStep_forward first
    obtain ⟨_, ahead⟩ := reaches_forward later
    have rest := ih (same.trans code)
    rcases loopStep_cases first with ⟨_, stuck⟩ | ⟨instr, found, _, _, pointer, _⟩
    · rwa [stuck] at rest
    · have fits : u.codePointer + Instruction.skip instr + 1 ≤ script.length := by omega
      have inside : u.codePointer < script.scriptInstructions.length := by
        simp only [Script.length] at fits; omega
      rw [code, List.getElem?_append_left inside] at found
      rw [pointer] at rest
      exact (framed_at found).mpr ⟨fits, rest⟩

/-- An accepted chained run leaves the following script whole exactly when the
    pushes of the first script end inside it. -/
theorem following_runs_iff_framed (crypto : Crypto) (script following : Script)
    (start : script.codePointer = 0) (accepted : Accepts crypto (script.chain following)) :
    RunsFollowing crypto script following ↔ framed script.scriptInstructions = true := by
  have chained : (script.chain following).scriptInstructions =
      script.scriptInstructions ++ following.scriptInstructions := rfl
  constructor
  · rintro ⟨⟨m, run, stop, _⟩, _⟩
    have all := boundary_framed run chained stop
    simpa [Script.chain, start] using all
  · intro whole
    obtain ⟨last, run, done⟩ := (accepts_iff_reaches_end crypto _).mp accepted
    have stop : ∃ m, Reaches (loopStep crypto) (script.chain following) m ∧
        m.codePointer = script.length := by
      rcases framed_run_boundary start whole run with ⟨within, _⟩ | ⟨_, m, toEnd, atEnd⟩
      · have finish : last.codePointer = (script.chain following).scriptInstructions.length := by
          rw [← (reaches_forward run).1]
          simpa [Script.done] using done
        rw [chained, List.length_append] at finish
        exact ⟨last, run, by simp only [Script.length] at within ⊢; omega⟩
      · exact ⟨m, toEnd, atEnd⟩
    obtain ⟨m, toEnd, atEnd⟩ := stop
    refine ⟨⟨m, toEnd, atEnd, ?_⟩, ?_⟩
    · rw [(reaches_forward toEnd).1, chained, atEnd]
      simp [Script.length]
    · intro s instr toPush inside found push
      rw [(reaches_forward toPush).1, chained, List.getElem?_append_left inside] at found
      rcases framed_run_boundary start whole toPush with ⟨_, rest⟩ | ⟨past, _⟩
      · have fits := ((framed_at found).mp rest).1
        simp only [Instruction.skip, push, ↓reduceIte] at fits
        simp only [Script.length]
        omega
      · omega

/-- Fixed functions of the right result sizes, for runs on given scripts. -/
def refusingCrypto : Crypto :=
  ⟨fun _ => ⟨List.replicate 32 0, rfl⟩, fun _ => ⟨List.replicate 20 0, rfl⟩,
    fun _ _ _ => false⟩

def parsed (bytes : Bytes) : Script := Script.new (bytes.map parseInstruction) []

/-- The push of one byte that ends an input script jumps over OP_VERIFY. -/
theorem short_push_skips_following :
    Accepts refusingCrypto ((parsed [0x01]).chain (parsed [0x8c])) ∧
      ¬ RunsFollowing refusingCrypto (parsed [0x01]) (parsed [0x8c]) := by
  refine ⟨⟨1, { (parsed [0x01]).chain (parsed [0x8c]) with codePointer := 2, data := [[1]] },
    by decide⟩, ?_⟩
  rintro ⟨_, kept⟩
  have inside := kept _ ⟨.OP_STACK, 1⟩ Relation.ReflTransGen.refl (by decide) (by decide) rfl
  revert inside
  decide

theorem framed_push_runs_following :
    RunsFollowing refusingCrypto (parsed [0x02, 0xff, 0xff]) (parsed [0x8c]) :=
  (following_runs_iff_framed refusingCrypto (parsed [0x02, 0xff, 0xff]) (parsed [0x8c]) rfl
    ⟨2, { (parsed [0x02, 0xff, 0xff]).chain (parsed [0x8c]) with codePointer := 4 },
      by decide⟩).mpr (by decide)

end EnsicoinScriptRuns
