import Ensicoin.DataPushes
import Ensicoin.TransactionWire
import Ensicoin.Library.CommandPrograms

/-!
Scripts as programs. A script whose pushes lie inside it is the code of exactly one list of
commands, and the loop of validateScript does what these commands mean on a stack: what a
push means is the item that OP_STACK really pushes. A chained script is the one program
behind the other.
-/
namespace EnsicoinScriptPrograms
open EnsicoinRuntime EnsicoinNetworkable EnsicoinScript EnsicoinScriptRuns EnsicoinScriptSafety
open EnsicoinTransactionWire EnsicoinPayToHash EnsicoinDataPushes CommandPrograms PrefixCodes

/-- What one push can carry. -/
abbrev PushData := {d : Bytes // 0 < d.length ∧ d.length ≤ 75}

/-- The bytes that no opcode has. -/
abbrev Unassigned := {chr : UInt8 // (parseInstruction chr).operation = .OP_UNKNOWN}

inductive Command where
  | falseItem
  | trueItem
  | dup
  | equal
  | verify
  | hash160
  | checksig
  | push (data : PushData)
  | unknown (chr : Unassigned)
  deriving DecidableEq

def Command.code : Command → Bytes
  | .falseItem => [0x00]
  | .trueItem => [0x50]
  | .dup => [0x64]
  | .equal => [0x78]
  | .verify => [0x8c]
  | .hash160 => [0xa0]
  | .checksig => [0xaa]
  | .push data => pushOf data.val
  | .unknown chr => [chr.val]

def assemble (p : List Command) : Bytes := p.flatMap Command.code

/-- The new stack, and whether the script is still valid. -/
def Command.act (crypto : Crypto) (shash : Bytes) :
    Command → List Bytes → Except Fault (List Bytes × Bool)
  | .falseItem, stack => .ok ([0x00] :: stack, true)
  | .trueItem, stack => .ok ([0x01] :: stack, true)
  | .dup, top :: rest => .ok (top :: top :: rest, true)
  | .equal, top :: below :: rest =>
    .ok ((if top = below then [0x01] else [0x00]) :: rest, true)
  | .verify, top :: rest => .ok (rest, top ≠ [0x01])
  | .hash160, _ :: _ => .error .pastVector
  | .checksig, pubKey :: signatureBytes :: rest =>
    .ok (rest, crypto.verify signatureBytes shash pubKey)
  | .push data, stack => .ok (pushedItem data.val :: stack, true)
  | .unknown _, stack => .ok (stack, false)
  | .dup, [] | .equal, [] | .equal, [_] | .verify, [] | .hash160, [] | .checksig, []
  | .checksig, [_] => .error .emptyStack

def outcome (r : Script × Bool) : List Bytes × Bool := (r.1.data, r.2)

/-- The script has run up to the code of p. -/
structure Loaded (shash : Bytes) (p : List Command) (s : Script) : Prop where
  ahead : ∃ before, s.codePointer = before.length ∧
    s.scriptInstructions = before ++ (assemble p).map parseInstruction
  flag : s.valid = true
  hash : s.signingHash = shash

/-- A command begins with its instruction and reaches as far as the data of this. -/
theorem code_reach (c : Command) : ∃ chr rest, c.code = chr :: rest ∧
    Instruction.skip (parseInstruction chr) = rest.length := by
  cases c with
  | push data =>
    obtain ⟨push, length⟩ := push_parsed data.2.1 data.2.2
    exact ⟨_, _, rfl, by rw [push]; simp [Instruction.skip, length]⟩
  | unknown chr => exact ⟨_, _, rfl, by simp [Instruction.skip, chr.2]⟩
  | _ => exact ⟨_, _, rfl, rfl⟩

theorem assemble_cons (c : Command) (p : List Command) : assemble (c :: p) = c.code ++ assemble p :=
  List.flatMap_cons

theorem assemble_append (p q : List Command) : assemble (p ++ q) = assemble p ++ assemble q :=
  List.flatMap_append

section Steps
variable (crypto : Crypto) {shash : Bytes} {c : Command} {p : List Command} {s t : Script}

theorem loaded_next (start : Loaded shash (c :: p) s) {chr : UInt8} {rest : Bytes}
    (split : c.code = chr :: rest) :
    s.scriptInstructions[s.codePointer]? = some (parseInstruction chr) := by
  obtain ⟨before, here, code⟩ := start.ahead
  rw [code, here, assemble_cons, split, List.getElem?_append_right (Nat.le_refl _), Nat.sub_self]
  rfl

theorem loaded_open (start : Loaded shash (c :: p) s) : s.done = false := by
  obtain ⟨chr, rest, split, _⟩ := code_reach c
  obtain ⟨inside, _⟩ := List.getElem?_eq_some_iff.mp (loaded_next start split)
  simp only [Script.done, beq_eq_false_iff_ne]
  omega

theorem loaded_end (start : Loaded shash [] s) : s.done = true := by
  obtain ⟨before, here, code⟩ := start.ahead
  simp [Script.done, here, code, assemble]

theorem loaded_onward (start : Loaded shash (c :: p) s) (run : s.step crypto = .ok (t, true)) :
    Loaded shash p t := by
  obtain ⟨chr, rest, split, reach⟩ := code_reach c
  have found := loaded_next start split
  obtain ⟨before, here, code⟩ := start.ahead
  rcases step_cases run with ⟨past, _⟩ | ⟨instr, there, same, hash, pointer, _, up⟩
  · have inside := (List.getElem?_eq_some_iff.mp found).1
    omega
  · obtain rfl := Option.some.inj (found.symm.trans there)
    refine ⟨⟨before ++ c.code.map parseInstruction, ?_, ?_⟩, up.symm, hash.trans start.hash⟩
    · rw [pointer, here, reach, split, List.length_append, List.length_map, List.length_cons]
      omega
    · rw [same, code, assemble_cons, List.map_append, List.append_assoc]

theorem step_outcome {instr : Instruction}
    (found : s.scriptInstructions[s.codePointer]? = some instr) :
    (s.step crypto).map outcome = (s.execute crypto instr).map fun t => (t.data, t.valid) := by
  simp only [Script.step, found]
  cases s.execute crypto instr with
  | error fault => rfl
  | ok t => rfl

/-- One step of the script is the meaning of its next command. -/
theorem loaded_step (start : Loaded shash (c :: p) s) :
    (s.step crypto).map outcome = c.act crypto shash s.data := by
  have flag := start.flag
  have hash := start.hash
  cases c with
  | push data =>
    obtain ⟨before, here, code⟩ := start.ahead
    have behind : s.scriptInstructions = before ++ parseInstruction (UInt8.ofNat data.val.length) ::
        (data.val.map parseInstruction ++ (assemble p).map parseInstruction) := by
      rw [code, assemble_cons, Command.code, pushOf]
      simp
    rw [push_step_item data.2.1 data.2.2 behind here, flag]
    rfl
  | unknown chr =>
    rw [step_outcome crypto (loaded_next start rfl)]
    simp [Script.execute, chr.2, Command.act, Except.map]
  | falseItem | trueItem =>
    rw [step_outcome crypto (loaded_next start rfl)]
    simp [parseInstruction, Script.execute, Script.push, Command.act, Except.map, flag]
  | dup | hash160 =>
    rw [step_outcome crypto (loaded_next start rfl)]
    cases stack : s.data with
    | nil => simp [parseInstruction, Script.execute, Script.pop, stack, Command.act, bind,
        Except.bind, Except.map]
    | cons top rest => simp [parseInstruction, Script.execute, Script.pop, Script.push, stack,
        Command.act, bind, Except.bind, pure, Except.pure, Except.map, flag, copyInto]
  | verify =>
    rw [step_outcome crypto (loaded_next start rfl)]
    cases stack : s.data with
    | nil => simp [parseInstruction, Script.execute, Script.pop, stack, Command.act, bind,
        Except.bind, Except.map]
    | cons top rest =>
      simp only [parseInstruction, Script.execute, Script.pop, stack, bind, Except.bind, pure,
        Except.pure]
      by_cases isTrue : top = [0x01]
      · simp [Except.map, isTrue, Command.act]
      · simp [Except.map, isTrue, Command.act, flag]
  | equal =>
    rw [step_outcome crypto (loaded_next start rfl)]
    rcases stack : s.data with _ | ⟨top, _ | ⟨below, rest⟩⟩
    · simp [parseInstruction, Script.execute, Script.pop, stack, Command.act, bind, Except.bind,
        Except.map]
    · simp [parseInstruction, Script.execute, Script.pop, stack, Command.act, bind, Except.bind,
        Except.map]
    · by_cases same : top = below
      · simp [parseInstruction, Script.execute, Script.pop, Script.push, stack, Command.act, bind,
          Except.bind, pure, Except.pure, Except.map, flag, same]
      · simp [parseInstruction, Script.execute, Script.pop, Script.push, stack, Command.act, bind,
          Except.bind, pure, Except.pure, Except.map, flag, same]
  | checksig =>
    rw [step_outcome crypto (loaded_next start rfl)]
    rcases stack : s.data with _ | ⟨pubKey, _ | ⟨signatureBytes, rest⟩⟩
    · simp [parseInstruction, Script.execute, Script.pop, stack, Command.act, bind, Except.bind,
        Except.map]
    · simp [parseInstruction, Script.execute, Script.pop, stack, Command.act, bind, Except.bind,
        Except.map]
    · by_cases verified : crypto.verify signatureBytes shash pubKey = true
      · simp [parseInstruction, Script.execute, Script.pop, stack, Command.act, bind,
          Except.bind, pure, Except.pure, Except.map, flag, hash, verified]
      · simp [parseInstruction, Script.execute, Script.pop, stack, Command.act, bind,
          Except.bind, pure, Except.pure, Except.map, hash, verified]

theorem script_implements (shash : Bytes) : Implements Script.done (Script.step crypto)
    (Command.act crypto shash) Script.data (Loaded shash) where
  finished _ := loaded_end
  open_ _ _ _ := loaded_open
  stepped _ _ _ := loaded_step crypto
  onward _ _ _ _ := loaded_onward crypto

theorem runLoop_eq_loop (fuel : Nat) (s : Script) : s.runLoop crypto fuel =
    loop .noFuel Script.done (Script.step crypto) fuel s := by
  induction fuel generalizing s with
  | zero => rfl
  | succ fuel ih => simp only [Script.runLoop, loop, ih]

end Steps

/-- The script that is parsed from the code of p. -/
def program (shash : Bytes) (p : List Command) : Script :=
  Script.new ((assemble p).map parseInstruction) shash

theorem program_loaded (shash : Bytes) (p : List Command) : Loaded shash p (program shash p) :=
  ⟨⟨[], rfl, rfl⟩, rfl, rfl⟩

theorem program_chain (shash : Bytes) (p q : List Command) :
    (program shash p).chain (program shash q) = program shash (p ++ q) := by
  simp [program, Script.chain, Script.new, assemble_append]

theorem program_means (crypto : Crypto) (shash : Bytes) (p : List Command) {fuel : Nat}
    (enough : p.length ≤ fuel) : ((program shash p).runLoop crypto fuel).map outcome =
      perform (Command.act crypto shash) p [] := by
  rw [runLoop_eq_loop]
  exact loop_performs .noFuel (script_implements crypto shash) (program_loaded shash p) enough

theorem program_accepted (crypto : Crypto) (shash : Bytes) (p : List Command) :
    Accepts crypto (program shash p) ↔
      Leads (Command.act crypto shash) p (fun _ => True) [] := by
  have through := loop_leads_iff .noFuel (script_implements crypto shash)
    (program_loaded shash p) fun _ => True
  have empty : (program shash p).data = [] := rfl
  rw [empty] at through
  simpa only [Accepts, runLoop_eq_loop, and_true] using through

/-- The command that a string is the code of. -/
def readCommand : Bytes → Option Command
  | [] => none
  | chr :: rest =>
    match opcode : (parseInstruction chr).operation with
    | .OP_FALSE => some .falseItem
    | .OP_TRUE => some .trueItem
    | .OP_DUP => some .dup
    | .OP_EQUAL => some .equal
    | .OP_VERIFY => some .verify
    | .OP_HASH160 => some .hash160
    | .OP_CHECKSIG => some .checksig
    | .OP_STACK =>
      if fits : 0 < rest.length ∧ rest.length ≤ 75 then some (.push ⟨rest, fits⟩) else none
    | .OP_UNKNOWN => some (.unknown ⟨chr, opcode⟩)

theorem readCommand_code (c : Command) : readCommand c.code = some c := by
  cases c with
  | push data =>
    have operation := congrArg Instruction.operation (push_parsed data.2.1 data.2.2).1
    rw [Command.code, pushOf, readCommand]
    split
    all_goals simp_all
    exact data.2
  | unknown chr =>
    have operation := chr.2
    rw [Command.code, readCommand]
    split
    all_goals simp_all
  | _ => rfl

theorem code_injective {c d : Command} (same : c.code = d.code) : c = d := by
  have read := readCommand_code c
  rw [same, readCommand_code d] at read
  exact (Option.some.inj read).symm

/-- Two commands that begin alike are equally long. -/
theorem code_deciphers : Deciphers (fun _ => True) Command.code := by
  intro c d _ _ s t same
  obtain ⟨chr, rest, split, reach⟩ := code_reach c
  obtain ⟨chr', rest', split', reach'⟩ := code_reach d
  have first : chr = chr' := by
    rw [split, split'] at same
    exact (List.cons.inj same).1
  have length : c.code.length = d.code.length := by
    rw [split, split', List.length_cons, List.length_cons, ← reach, ← reach', first]
  obtain ⟨front, back⟩ := List.append_inj same length
  exact ⟨code_injective front, back⟩

theorem assemble_injective {p q : List Command} (same : assemble p = assemble q) : p = q := by
  refine flatMap_deciphered code_deciphers ?_ (fun _ _ => trivial) (fun _ _ => trivial) same
  intro c _ empty
  obtain ⟨chr, rest, split, _⟩ := code_reach c
  rw [split] at empty
  cases empty

theorem stack_byte {chr : UInt8} (operation : (parseInstruction chr).operation = .OP_STACK) :
    0 < chr.toNat ∧ chr.toNat ≤ 75 := by
  unfold parseInstruction at operation
  split at operation
  · rename_i range
    exact ⟨UInt8.le_iff_toNat_le.mp range.1, UInt8.le_iff_toNat_le.mp range.2⟩
  · repeat' split at operation
    all_goals cases operation

theorem plain_code {chr : UInt8} {rest : Bytes} {c : Command} {opcode : Opcode}
    (operation : (parseInstruction chr).operation = opcode)
    (plain : opcode ≠ .OP_UNKNOWN ∧ opcode ≠ .OP_STACK)
    (fits : Instruction.skip (parseInstruction chr) = rest.length)
    (code : c.code = [opcode.toByte]) : c.code = chr :: rest := by
  have back := toByte_parseInstruction chr
  rw [Instruction.skip, operation, if_neg plain.2] at fits
  rw [Instruction.toByte, operation, if_neg (by simp [plain])] at back
  rw [code, back, List.length_eq_zero_iff.mp fits.symm]

/-- One byte, and its data if it is a push, is a command. -/
theorem command_reads (chr : UInt8) (rest : Bytes)
    (fits : Instruction.skip (parseInstruction chr) = rest.length) :
    ∃ c : Command, c.code = chr :: rest := by
  have back := toByte_parseInstruction chr
  cases operation : (parseInstruction chr).operation with
  | OP_STACK =>
    obtain ⟨positive, short⟩ := stack_byte operation
    rw [Instruction.skip, if_pos operation] at fits
    rw [Instruction.toByte, if_pos (Or.inr operation)] at back
    rw [back] at fits
    refine ⟨.push ⟨rest, by omega⟩, ?_⟩
    change UInt8.ofNat rest.length :: rest = chr :: rest
    rw [← fits, UInt8.ofNat_toNat]
  | OP_UNKNOWN =>
    rw [Instruction.skip, if_neg (by simp [operation])] at fits
    rw [List.length_eq_zero_iff.mp fits.symm]
    exact ⟨.unknown ⟨chr, operation⟩, rfl⟩
  | OP_FALSE => exact ⟨.falseItem, plain_code operation (by decide) fits rfl⟩
  | OP_TRUE => exact ⟨.trueItem, plain_code operation (by decide) fits rfl⟩
  | OP_DUP => exact ⟨.dup, plain_code operation (by decide) fits rfl⟩
  | OP_EQUAL => exact ⟨.equal, plain_code operation (by decide) fits rfl⟩
  | OP_VERIFY => exact ⟨.verify, plain_code operation (by decide) fits rfl⟩
  | OP_HASH160 => exact ⟨.hash160, plain_code operation (by decide) fits rfl⟩
  | OP_CHECKSIG => exact ⟨.checksig, plain_code operation (by decide) fits rfl⟩

theorem assembled_framed (p : List Command) :
    framed ((assemble p).map parseInstruction) = true := by
  induction p with
  | nil => rfl
  | cons c p ih =>
    obtain ⟨chr, rest, split, reach⟩ := code_reach c
    have split_ : (assemble (c :: p)).map parseInstruction = parseInstruction chr ::
        (rest.map parseInstruction ++ (assemble p).map parseInstruction) := by
      rw [assemble_cons, split]
      simp
    rw [split_, framed, framedFrom, framedFrom_iff, reach]
    refine ⟨by simp, ?_⟩
    rw [List.drop_left' (by simp)]
    exact ih

theorem framed_assembled {bytes : Bytes} (whole : framed (bytes.map parseInstruction) = true) :
    ∃ p, assemble p = bytes := by
  induction left : bytes.length using Nat.strongRecOn generalizing bytes with
  | ind k ih =>
    cases bytes with
    | nil => exact ⟨[], rfl⟩
    | cons chr rest =>
      rw [List.map_cons, framed, framedFrom, framedFrom_iff, List.length_map, ← List.map_drop]
        at whole
      obtain ⟨inside, after⟩ := whole
      rw [List.length_cons] at left
      obtain ⟨p, later⟩ := ih _ (by rw [List.length_drop]; omega) after rfl
      obtain ⟨c, first⟩ := command_reads chr
        (rest.take (Instruction.skip (parseInstruction chr)))
        (by rw [List.length_take_of_le inside])
      exact ⟨c :: p, by rw [assemble_cons, first, later, List.cons_append, List.take_append_drop]⟩

/-- The pushes of a script lie inside it exactly when it is the code of a program, of only
    one, and then the loop of validateScript does what the program means. -/
theorem framed_iff_program (crypto : Crypto) (shash bytes : Bytes) :
    framed (bytes.map parseInstruction) = true ↔ ∃ p, assemble p = bytes ∧
      (∀ q, assemble q = bytes → q = p) ∧ ∀ fuel, p.length ≤ fuel →
        ((Script.new (bytes.map parseInstruction) shash).runLoop crypto fuel).map outcome =
          perform (Command.act crypto shash) p [] := by
  constructor
  · intro whole
    obtain ⟨p, rfl⟩ := framed_assembled whole
    exact ⟨p, rfl, fun _ => assemble_injective, fun _ => program_means crypto shash p⟩
  · intro programmed
    obtain ⟨p, rfl, _⟩ := programmed
    exact assembled_framed p

example : ((program [] [.trueItem, .dup, .equal]).runLoop refusingCrypto 3).map outcome =
    .ok ([[0x01]], true) := by decide

/-- An input script unlocks an output script exactly when it leads from the empty stack to the
    weakest precondition of the output script. -/
theorem unlocks_iff_leads (crypto : Crypto) (shash : Bytes) (p q : List Command) :
    Accepts crypto ((program shash p).chain (program shash q)) ↔
      Leads (Command.act crypto shash) p
        (Leads (Command.act crypto shash) q fun _ => True) [] := by
  rw [program_chain, program_accepted, leads_append]

end EnsicoinScriptPrograms
