import Ensicoin.ScriptPrograms
import Ensicoin.PublicKeys

/-!
What can come onto the stack. Every item that a parsed script pushes starts with 00 or 01,
has 75 bytes at most and none from 02 to 4b, for these are the bytes that OP_STACK gives back
as 01. The text of a key has its decimal digits and its capitals there, so what
ECDSASignature::verify decodes of an item is shorter than half a signature.
-/
namespace EnsicoinStackItems
open BigEndianWords HexTexts EnsicoinRuntime EnsicoinScript EnsicoinScriptRuns
open EnsicoinScriptSafety EnsicoinTransactionWire EnsicoinScriptPrograms EnsicoinPublicKeys StepRuns

structure Worn (item : Bytes) : Prop where
  short : item.length ≤ 75
  mark : ∃ b rest, item = b :: rest ∧ (b = 0x00 ∨ b = 0x01)
  bytes : ∀ b ∈ item, ¬ (0x02 ≤ b ∧ b ≤ 0x4b)

def Parsed (code : Code) : Prop := ∀ instr ∈ code, ∃ chr, instr = parseInstruction chr

/-- Parsed code under a stack of worn items. -/
def WornStack (s : Script) : Prop := Parsed s.scriptInstructions ∧ ∀ item ∈ s.data, Worn item

theorem worn_false : Worn [0x00] := ⟨by decide, ⟨_, _, rfl, Or.inl rfl⟩, by simp⟩

theorem worn_true : Worn [0x01] := ⟨by decide, ⟨_, _, rfl, Or.inr rfl⟩, by simp⟩

theorem pushedByte_worn (chr : UInt8) :
    ¬ (0x02 ≤ (parseInstruction chr).pushedByte ∧ (parseInstruction chr).pushedByte ≤ 0x4b) := by
  unfold parseInstruction
  split
  · change ¬ ((0x02 : UInt8) ≤ 0x01 ∧ (0x01 : UInt8) ≤ 0x4b)
    decide
  · rename_i other
    repeat' split
    all_goals try decide
    intro range
    exact other ⟨UInt8.le_trans (by decide) range.1, range.2⟩

section Steps
variable {crypto : Crypto} {s t : Script}

theorem pushed_worn {instr : Instruction} {data : Bytes} (parsed : Parsed s.scriptInstructions)
    (found : s.scriptInstructions[s.codePointer]? = some instr)
    (push : instr.operation = .OP_STACK) (run : s.pushedData instr.argument = .ok data) :
    Worn data := by
  obtain ⟨inside, same⟩ := List.getElem?_eq_some_iff.mp found
  obtain ⟨chr, rfl⟩ := parsed instr (List.mem_of_getElem? found)
  obtain ⟨positive, short⟩ := stack_byte push
  have argument : (parseInstruction chr).argument = chr := by
    have back := toByte_parseInstruction chr
    rwa [Instruction.toByte, if_pos (Or.inr push)] at back
  have within := pushedData_inside (Nat.le_of_lt inside) run
  rw [pushedData_eq s _ within, argument] at run
  obtain ⟨n, length⟩ := Nat.exists_eq_succ_of_ne_zero (Nat.pos_iff_ne_zero.mp positive)
  cases run
  refine ⟨?_, ?_, ?_⟩
  · rw [List.length_map, List.length_take]
    omega
  · rw [List.drop_eq_getElem_cons inside, same, length, List.take_succ_cons, List.map_cons]
    refine ⟨_, _, rfl, Or.inr ?_⟩
    rw [Instruction.pushedByte, push]
    rfl
  · intro b member
    obtain ⟨other, taken, rfl⟩ := List.mem_map.mp member
    obtain ⟨source, rfl⟩ := parsed other (List.mem_of_mem_drop (List.mem_of_mem_take taken))
    exact pushedByte_worn source

theorem popped_worn {top : Bytes} (items : ∀ item ∈ s.data, Worn item)
    (popped : s.pop = .ok (top, t)) : Worn top ∧ ∀ item ∈ t.data, Worn item := by
  rw [(pop_ok popped).1] at items
  exact List.forall_mem_cons.mp items

theorem execute_worn {instr : Instruction} (worn : WornStack s)
    (found : s.scriptInstructions[s.codePointer]? = some instr)
    (run : s.execute crypto instr = .ok t) : WornStack t := by
  obtain ⟨parsed, items⟩ := worn
  refine ⟨(execute_effect run).1 ▸ parsed, ?_⟩
  obtain ⟨operation, argument⟩ := instr
  cases operation with
  | OP_FALSE =>
    cases run
    exact List.forall_mem_cons.mpr ⟨worn_false, items⟩
  | OP_TRUE =>
    cases run
    exact List.forall_mem_cons.mpr ⟨worn_true, items⟩
  | OP_UNKNOWN =>
    cases run
    exact items
  | OP_DUP =>
    obtain ⟨⟨top, u⟩, popped, rest⟩ := bind_ok run
    cases rest
    exact List.forall_mem_cons.mpr ⟨(popped_worn items popped).1, items⟩
  | OP_EQUAL =>
    obtain ⟨⟨firstTop, u⟩, first, run⟩ := bind_ok run
    obtain ⟨⟨secondTop, v⟩, second, rest⟩ := bind_ok run
    have later := (popped_worn (popped_worn items first).2 second).2
    cases rest
    split
    · exact List.forall_mem_cons.mpr ⟨worn_true, later⟩
    · exact List.forall_mem_cons.mpr ⟨worn_false, later⟩
  | OP_VERIFY =>
    obtain ⟨⟨stackTop, u⟩, first, rest⟩ := bind_ok run
    have later := (popped_worn items first).2
    cases rest
    split
    · exact later
    · exact later
  | OP_HASH160 => exact absurd run (EnsicoinScriptVerdicts.hash160_undefined rfl)
  | OP_CHECKSIG =>
    obtain ⟨⟨pubKey, u⟩, first, run⟩ := bind_ok run
    obtain ⟨⟨signatureBytes, v⟩, second, rest⟩ := bind_ok run
    have later := (popped_worn (popped_worn items first).2 second).2
    cases rest
    split
    · exact later
    · exact later
  | OP_STACK =>
    obtain ⟨pushed, read, rest⟩ := bind_ok run
    cases rest
    exact List.forall_mem_cons.mpr ⟨pushed_worn parsed found rfl read, items⟩

theorem stepOn_worn (worn : WornStack s) (go : stepOn crypto s = some t) : WornStack t := by
  obtain ⟨valid, run⟩ := stepOn_some.mp go
  cases found : s.scriptInstructions[s.codePointer]? with
  | none =>
    simp only [Script.step, found] at run
    cases run
    exact worn
  | some instr =>
    simp only [Script.step, found] at run
    obtain ⟨u, executed, rest⟩ := bind_ok run
    obtain ⟨parsed, items⟩ := execute_worn worn found executed
    cases rest
    exact ⟨parsed, items⟩

end Steps

theorem parsed_map (bytes : Bytes) : Parsed (bytes.map parseInstruction) := by
  intro instr member
  obtain ⟨chr, _, same⟩ := List.mem_map.mp member
  exact ⟨chr, same.symm⟩

theorem run_worn {crypto : Crypto} {bytes shash : Bytes} {s : Script}
    (run : Reaches (stepOn crypto) (Script.new (bytes.map parseInstruction) shash) s) :
    WornStack s :=
  reaches_invariant WornStack (fun _ _ => stepOn_worn) run ⟨parsed_map bytes, by simp [Script.new]⟩

/-- Of the digits only a to f are left, and only as small letters. -/
theorem worn_digit {b : UInt8} {d : Nat} (worn : ¬ (0x02 ≤ b ∧ b ≤ 0x4b))
    (digit : digitValue b = some d) : 10 ≤ d ∧ d < 16 := by
  unfold digitValue at digit
  split at digit
  · rename_i range
    exact absurd ⟨UInt8.le_trans (by decide) range.1, UInt8.le_trans range.2 (by decide)⟩ worn
  · split at digit
    · rename_i range
      exact absurd ⟨UInt8.le_trans (by decide) range.1, UInt8.le_trans range.2 (by decide)⟩ worn
    · split at digit
      · rename_i range
        have low := UInt8.le_iff_toNat_le.mp range.1
        have high := UInt8.le_iff_toNat_le.mp range.2
        change 0x61 ≤ b.toNat at low
        change b.toNat ≤ 0x66 at high
        change some (b.toNat - 0x61 + 10) = some d at digit
        cases digit
        omega
      · cases digit

theorem worn_decoded {item : Bytes} (worn : Worn item) :
    (packDigits (textDigits item)).length ≤ 37 := by
  obtain ⟨b, rest, rfl, mark⟩ := worn.mark
  have none : digitValue b = none := by
    rcases mark with rfl | rfl
    · decide
    · decide
  have short := worn.short
  have fewer := List.length_filterMap_le digitValue rest
  rw [List.length_cons] at short
  rw [packDigits_length, textDigits, List.filterMap_cons, none]
  simp only
  omega

/-- What a script gives to ECDSASignature::verify: 37 bytes of a signature at most, and a point
    whose coordinates have 18 bytes at most, written with a to f alone. -/
theorem checked_items_short {crypto : Crypto} {bytes shash pubKey signatureBytes : Bytes}
    {s : Script} {rest : List Bytes}
    (run : Reaches (stepOn crypto) (Script.new (bytes.map parseInstruction) shash) s)
    (stack : s.data = pubKey :: signatureBytes :: rest) :
    (packDigits (textDigits signatureBytes)).length ≤ 37 ∧
      (publicPoint pubKey).1 < 2 ^ 144 ∧ (publicPoint pubKey).2 < 2 ^ 144 ∧
      ∀ d ∈ textDigits pubKey ++ textDigits signatureBytes, 10 ≤ d ∧ d < 16 := by
  have items := (run_worn run).2
  have key := items pubKey (by simp [stack])
  have signature := items signatureBytes (by simp [stack])
  have decoded := worn_decoded key
  have width : (2 : Nat) ^ 144 = 256 ^ 18 := by norm_num
  have coordinate : ∀ part : Bytes, part.length ≤ 18 → ofBytes part < 2 ^ 144 := by
    intro part length
    rw [width]
    exact (ofBytes_lt part).trans_le (Nat.pow_le_pow_right (by decide) length)
  refine ⟨worn_decoded signature, coordinate _ ?_, coordinate _ ?_, ?_⟩
  · rw [List.length_take]
    omega
  · rw [List.length_take]
    omega
  · intro d member
    rcases List.mem_append.mp member with first | second
    · obtain ⟨b, here, digit⟩ := List.mem_filterMap.mp first
      exact worn_digit (key.bytes b here) digit
    · obtain ⟨b, here, digit⟩ := List.mem_filterMap.mp second
      exact worn_digit (signature.bytes b here) digit

/-- Two pushes of the text cafe, of which caf is left. -/
theorem cafe_checked :
    (packDigits (textDigits [0x01, 0x63, 0x61, 0x66])).length ≤ 37 ∧
      (publicPoint [0x01, 0x63, 0x61, 0x66]).1 < 2 ^ 144 ∧
      (publicPoint [0x01, 0x63, 0x61, 0x66]).2 < 2 ^ 144 ∧
      ∀ d ∈ textDigits [0x01, 0x63, 0x61, 0x66] ++ textDigits [0x01, 0x63, 0x61, 0x66],
        10 ≤ d ∧ d < 16 := by
  have first : stepOn refusingCrypto (Script.new (([0x04, 0x63, 0x61, 0x66, 0x65, 0x04, 0x63,
      0x61, 0x66, 0x65, 0xaa] : Bytes).map parseInstruction) []) =
      some { Script.new (([0x04, 0x63, 0x61, 0x66, 0x65, 0x04, 0x63, 0x61, 0x66, 0x65,
        0xaa] : Bytes).map parseInstruction) [] with
          codePointer := 5, data := [[0x01, 0x63, 0x61, 0x66]] } := by decide
  have second : stepOn refusingCrypto { Script.new (([0x04, 0x63, 0x61, 0x66, 0x65, 0x04, 0x63,
      0x61, 0x66, 0x65, 0xaa] : Bytes).map parseInstruction) [] with
        codePointer := 5, data := [[0x01, 0x63, 0x61, 0x66]] } =
      some { Script.new (([0x04, 0x63, 0x61, 0x66, 0x65, 0x04, 0x63, 0x61, 0x66, 0x65,
        0xaa] : Bytes).map parseInstruction) [] with
          codePointer := 10, data := [[0x01, 0x63, 0x61, 0x66], [0x01, 0x63, 0x61, 0x66]] } := by
    decide
  exact checked_items_short (.head first (.head second .refl)) rfl

end EnsicoinStackItems
