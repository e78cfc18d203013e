import Ensicoin.Networkable
import Ensicoin.Library.StepRuns

/-!
The Script stack machine. codePointer is an index into scriptInstructions, and
the top of the stack is the head of data. RIPEMD160, SHA-256 and the check of an
ECDSA signature are fixed functions (Crypto). A step that reads past the script,
takes from an empty stack or copies into an empty vector is a Fault.
-/
namespace EnsicoinScript
open EnsicoinRuntime EnsicoinNetworkBuffer EnsicoinNetworkable StepRuns

/-- The digests have their lengths by type; verify takes the signature, the message
    and the public key. -/
structure Crypto where
  sha256 : Bytes → Hash
  ripemd160 : Bytes → FixedStr 20
  verify : Bytes → Bytes → Bytes → Bool

inductive Opcode where
  | OP_FALSE
  | OP_TRUE
  | OP_DUP
  | OP_EQUAL
  | OP_VERIFY
  | OP_HASH160
  | OP_CHECKSIG
  | OP_STACK
  | OP_UNKNOWN
  deriving DecidableEq, Repr

/-- The enumerators as unsigned char; OP_UNKNOWN follows OP_STACK. -/
def Opcode.toByte : Opcode → UInt8
  | .OP_FALSE => 0x00
  | .OP_TRUE => 0x50
  | .OP_DUP => 0x64
  | .OP_EQUAL => 0x78
  | .OP_VERIFY => 0x8c
  | .OP_HASH160 => 0xa0
  | .OP_CHECKSIG => 0xaa
  | .OP_STACK => 0x01
  | .OP_UNKNOWN => 0x02

structure Instruction where
  operation : Opcode
  argument : UInt8
  deriving DecidableEq, Repr

abbrev Code := List Instruction

def parseInstruction (chr : UInt8) : Instruction :=
  if 0x01 ≤ chr ∧ chr ≤ 0x4b then ⟨.OP_STACK, chr⟩
  else if chr = 0x00 then ⟨.OP_FALSE, 0⟩
  else if chr = 0x50 then ⟨.OP_TRUE, 0⟩
  else if chr = 0x64 then ⟨.OP_DUP, 0⟩
  else if chr = 0x78 then ⟨.OP_EQUAL, 0⟩
  else if chr = 0x8c then ⟨.OP_VERIFY, 0⟩
  else if chr = 0xa0 then ⟨.OP_HASH160, 0⟩
  else if chr = 0xaa then ⟨.OP_CHECKSIG, 0⟩
  else ⟨.OP_UNKNOWN, chr⟩

structure Script where
  scriptInstructions : Code
  codePointer : Nat
  data : List Bytes
  valid : Bool
  signingHash : Bytes
  deriving DecidableEq, Repr

def Script.new (instructions : Code) (shash : Bytes) : Script := ⟨instructions, 0, [], true, shash⟩

def Script.empty : Script := Script.new [] []

def Script.ofBuffer : Decoder Script := do
  let scriptStr ← VarStr.ofBuffer
  return Script.new (scriptStr.map parseInstruction) []

def Script.length (s : Script) : Nat := s.scriptInstructions.length

def Script.setSHash (s : Script) (shash : Bytes) : Script := { s with signingHash := shash }

def Instruction.toByte (instr : Instruction) : UInt8 :=
  if instr.operation = .OP_UNKNOWN ∨ instr.operation = .OP_STACK then instr.argument
  else instr.operation.toByte

def Script.byteRepr (s : Script) : Bytes :=
  VarStr.byteRepr (s.scriptInstructions.map Instruction.toByte)

def Script.done (s : Script) : Bool := s.codePointer == s.scriptInstructions.length

def Script.chain (s following : Script) : Script :=
  { s with scriptInstructions := s.scriptInstructions ++ following.scriptInstructions }

def Script.push (s : Script) (item : Bytes) : Script := { s with data := item :: s.data }

/-- top and pop, both undefined on an empty stack. -/
def Script.pop (s : Script) : Except Fault (Bytes × Script) :=
  match s.data with
  | [] => .error .emptyStack
  | top :: rest => .ok (top, { s with data := rest })

def Instruction.pushedByte (instr : Instruction) : UInt8 :=
  if instr.operation = .OP_UNKNOWN then instr.argument else instr.operation.toByte

def Script.instructionAt (s : Script) (index : Nat) : Except Fault Instruction :=
  match s.scriptInstructions[index]? with
  | none => .error .pastScript
  | some instr => .ok instr

/-- The loop of OP_STACK, which starts at the push itself. -/
def Script.pushedData (s : Script) (argument : UInt8) : Except Fault Bytes :=
  (List.range argument.toNat).mapM fun i => do
    let instr ← s.instructionAt (s.codePointer + i)
    return instr.pushedByte

/-- std::copy to the front of a vector, which does not grow. -/
def copyInto (source target : Bytes) : Except Fault Bytes :=
  if source.length ≤ target.length then .ok (overwrite source target) else .error .pastVector

/-- The switch of step on one instruction, without the increment after it. -/
def Script.execute (crypto : Crypto) (s : Script) (instr : Instruction) : Except Fault Script :=
  match instr.operation with
  | .OP_FALSE => .ok (s.push [0x00])
  | .OP_TRUE => .ok (s.push [0x01])
  | .OP_DUP => do
    let (top, _) ← s.pop
    return s.push top
  | .OP_EQUAL => do
    let (firstTop, s) ← s.pop
    let (secondTop, s) ← s.pop
    return if firstTop = secondTop then s.push [0x01] else s.push [0x00]
  | .OP_VERIFY => do
    let (stackTop, s) ← s.pop
    return if stackTop = [0x01] then { s with valid := false } else s
  | .OP_HASH160 => do
    let (toHash, s) ← s.pop
    -- hashed is an empty vector and stays one
    let hashed ← copyInto (crypto.ripemd160 toHash).value []
    return s.push hashed
  | .OP_CHECKSIG => do
    let (pubKey, s) ← s.pop
    let (signatureBytes, s) ← s.pop
    return if crypto.verify signatureBytes s.signingHash pubKey then s
      else { s with valid := false }
  | .OP_STACK => do
    let pushedData ← s.pushedData instr.argument
    return { s.push pushedData with codePointer := s.codePointer + instr.argument.toNat }
  | .OP_UNKNOWN => .ok { s with valid := false }

def Script.step (crypto : Crypto) (s : Script) : Except Fault (Script × Bool) :=
  match s.scriptInstructions[s.codePointer]? with
  | none => .ok (s, s.valid)
  | some instr => do
    let s ← s.execute crypto instr
    return ({ s with codePointer := s.codePointer + 1 }, s.valid)

/-- The loop of validateScript: step until done, stop when a step returns
    false. It has no bound in the source; noFuel is a run cut short. -/
def Script.runLoop (crypto : Crypto) : Nat → Script → Except Fault (Script × Bool)
  | fuel, s =>
    if s.done then .ok (s, true)
    else match fuel with
      | 0 => .error .noFuel
      | fuel + 1 => do
        let (s, valid) ← s.step crypto
        if valid then s.runLoop crypto fuel else return (s, false)

def Accepts (crypto : Crypto) (s : Script) : Prop :=
  ∃ fuel final, s.runLoop crypto fuel = .ok (final, true)

end EnsicoinScript
