import Ensicoin.ScriptRuns

/-!
Script verdicts. A run is accepted exactly when no step of it halts
(accepts_iff_never_halts); the verdict that is due is that every executed
instruction is clean. OP_VERIFY is the one instruction that halts where it is clean
and goes on where it is not.
-/
namespace EnsicoinScriptVerdicts
open EnsicoinRuntime EnsicoinNetworkable EnsicoinScript EnsicoinScriptRuns StepRuns

/-- What the verdict is about: at this instruction the script does what an
    accepted script does. -/
def Clean (crypto : Crypto) (s : Script) : Prop :=
  ∀ instr, s.scriptInstructions[s.codePointer]? = some instr →
    match instr.operation with
    | .OP_VERIFY => ∀ item ∈ s.data.head?, item ≠ [0x00]
    | .OP_CHECKSIG => ∀ pubKey signatureBytes rest, s.data = pubKey :: signatureBytes :: rest →
        crypto.verify signatureBytes s.signingHash pubKey = true
    | .OP_UNKNOWN => False
    | _ => True

/-- A script about to run, with its pushes inside it and never short of items. -/
structure WellFed (crypto : Crypto) (script : Script) : Prop where
  start : script.codePointer = 0
  flag : script.valid = true
  pushes : framed script.scriptInstructions = true
  items : ∀ s instr, Reaches (loopStep crypto) script s →
    s.scriptInstructions[s.codePointer]? = some instr → Instruction.pops instr ≤ s.data.length

def VerdictMatches (crypto : Crypto) (script : Script) : Prop :=
  Accepts crypto script ↔ ∀ s, Reaches (loopStep crypto) script s → Clean crypto s

def Halts (crypto : Crypto) (s : Script) : Prop :=
  ∃ instr, s.scriptInstructions[s.codePointer]? = some instr ∧
    (instr.operation = .OP_HASH160 ∨ passes crypto s instr = false)

/-- OP_VERIFY takes the item that OP_FALSE pushes. -/
def VerifiesFalse (s : Script) : Prop :=
  ∃ instr, s.scriptInstructions[s.codePointer]? = some instr ∧ instr.operation = .OP_VERIFY ∧
    s.data.head? = some [0x00]

/-- No step of the run is an OP_HASH160, and none is an OP_VERIFY of the item
    that OP_FALSE pushes or of the item that OP_TRUE pushes. -/
def AvoidsDefects (crypto : Crypto) (script : Script) : Prop :=
  ∀ s instr, Reaches (loopStep crypto) script s →
    s.scriptInstructions[s.codePointer]? = some instr → instr.operation ≠ .OP_HASH160 ∧
      (instr.operation = .OP_VERIFY → ∀ item ∈ s.data.head?, item ≠ [0x00] ∧ item ≠ [0x01])

/-- A verified false goes through, and then the run halts at another instruction. -/
def CancelsOut (crypto : Crypto) (script : Script) : Prop :=
  (∃ s, Reaches (loopStep crypto) script s ∧ VerifiesFalse s) ∧
    ∃ s, Reaches (loopStep crypto) script s ∧ Halts crypto s

theorem mapM_defined {α β : Type} {f : α → Except Fault β} {xs : List α}
    (each : ∀ x ∈ xs, ∃ y, f x = .ok y) : ∃ ys, xs.mapM f = .ok ys := by
  induction xs with
  | nil => exact ⟨[], rfl⟩
  | cons x xs ih =>
    obtain ⟨y, first⟩ := each x (by simp)
    obtain ⟨ys, rest⟩ := ih (fun a member => each a (by simp [member]))
    exact ⟨y :: ys, by simp [List.mapM_cons, first, rest, bind, Except.bind, pure, Except.pure]⟩

theorem pushedData_defined (s : Script) (argument : UInt8)
    (inside : s.codePointer + argument.toNat ≤ s.scriptInstructions.length) :
    ∃ data, s.pushedData argument = .ok data := by
  apply mapM_defined
  intro i member
  have below : s.codePointer + i < s.scriptInstructions.length := by
    have := List.mem_range.mp member
    omega
  refine ⟨s.scriptInstructions[s.codePointer + i].pushedByte, ?_⟩
  simp [Script.instructionAt, List.getElem?_eq_getElem below, bind, Except.bind, pure, Except.pure]

/-- A switch that has its items and its data, and is not OP_HASH160, is defined. -/
theorem execute_defined (crypto : Crypto) {s : Script} {instr : Instruction}
    (items : Instruction.pops instr ≤ s.data.length)
    (inside : s.codePointer + Instruction.skip instr ≤ s.scriptInstructions.length)
    (unhashed : instr.operation ≠ .OP_HASH160) : ∃ t, s.execute crypto instr = .ok t := by
  obtain ⟨operation, argument⟩ := instr
  have one : 1 ≤ s.data.length → ∃ top rest, s.data = top :: rest := by
    intro enough
    exact List.exists_cons_of_length_pos enough
  have two : 2 ≤ s.data.length → ∃ top below rest, s.data = top :: below :: rest := by
    intro enough
    obtain ⟨top, tail, stack⟩ := one (by omega)
    rw [stack, List.length_cons] at enough
    obtain ⟨below, rest, more⟩ := List.exists_cons_of_length_pos (l := tail) (by omega)
    exact ⟨top, below, rest, by rw [stack, more]⟩
  cases operation with
  | OP_FALSE | OP_TRUE | OP_UNKNOWN => exact ⟨_, rfl⟩
  | OP_DUP | OP_VERIFY =>
    obtain ⟨top, rest, stack⟩ := one items
    exact ⟨_, by simp only [Script.execute, pop_cons s stack, bind, Except.bind]; rfl⟩
  | OP_EQUAL | OP_CHECKSIG =>
    obtain ⟨top, below, rest, stack⟩ := two items
    have second := pop_cons { s with data := below :: rest } rfl
    exact ⟨_, by simp only [Script.execute, pop_cons s stack, second, bind, Except.bind]; rfl⟩
  | OP_HASH160 => exact absurd rfl unhashed
  | OP_STACK =>
    simp only [Instruction.skip, ↓reduceIte] at inside
    obtain ⟨pushed, found⟩ := pushedData_defined s argument inside
    exact ⟨_, by simp only [Script.execute, found, bind, Except.bind]; rfl⟩

theorem hash160_undefined {crypto : Crypto} {s t : Script} {instr : Instruction}
    (hash160 : instr.operation = .OP_HASH160) : s.execute crypto instr ≠ .ok t := by
  intro run
  simp only [Script.execute, hash160] at run
  obtain ⟨⟨toHash, u⟩, _, run⟩ := bind_ok run
  obtain ⟨hashed, copied, _⟩ := bind_ok run
  simp [copyInto] at copied

theorem halts_stuck {crypto : Crypto} {s : Script} (halts : Halts crypto s) :
    loopStep crypto s = none := by
  obtain ⟨instr, found, why⟩ := halts
  by_contra moves
  obtain ⟨t, go⟩ := Option.ne_none_iff_exists'.mp moves
  obtain ⟨_, stepped⟩ := loopStep_some.mp go
  simp only [Script.step, found] at stepped
  obtain ⟨u, executed, rest⟩ := bind_ok stepped
  rcases why with hash160 | refused
  · exact hash160_undefined hash160 executed
  · have flag := (execute_effect executed).2.2.2
    simp only [refused, Bool.and_false] at flag
    simp [pure, Except.pure, flag] at rest

theorem halting_unique {crypto : Crypto} {script s t : Script}
    (toS : Reaches (loopStep crypto) script s) (toT : Reaches (loopStep crypto) script t)
    (sHalts : Halts crypto s) (tHalts : Halts crypto t) : s = t := by
  have onward := reaches_stop toS (halts_stuck sHalts) toT
  rcases Relation.ReflTransGen.cases_head onward with same | ⟨u, first, _⟩
  · exact same.symm
  · rw [Follows, halts_stuck tHalts] at first
    cases first

section WellFedRuns
variable {crypto : Crypto} {script : Script}

def Underway (crypto : Crypto) (script s : Script) : Prop :=
  Reaches (loopStep crypto) script s ∧ s.codePointer ≤ s.scriptInstructions.length ∧
    s.valid = true ∧ framed (s.scriptInstructions.drop s.codePointer) = true

theorem underway_step {s t : Script} (underway : Underway crypto script s)
    (go : loopStep crypto s = some t) : Underway crypto script t ∧
      t.scriptInstructions.length - t.codePointer <
        s.scriptInstructions.length - s.codePointer := by
  obtain ⟨run, within, _, rest⟩ := underway
  rcases loopStep_cases go with ⟨past, _⟩ | ⟨instr, found, code, _, pointer, _, up⟩
  · omega
  · obtain ⟨fits, after⟩ := (framed_at found).mp rest
    refine ⟨⟨run.tail go, ?_, up, ?_⟩, ?_⟩
    · rw [code, pointer]
      exact fits
    · rw [code, pointer]
      exact after
    · rw [code]
      omega

theorem underway_goes_on (fed : WellFed crypto script) {s : Script}
    (underway : Underway crypto script s) (runs : ¬ Halts crypto s)
    (more : s.scriptInstructions.length - s.codePointer ≠ 0) : ∃ t, loopStep crypto s = some t := by
  obtain ⟨run, _, flag, rest⟩ := underway
  have found := List.getElem?_eq_getElem (l := s.scriptInstructions) (i := s.codePointer) (by omega)
  obtain ⟨fits, _⟩ := (framed_at found).mp rest
  have unhashed : s.scriptInstructions[s.codePointer].operation ≠ .OP_HASH160 :=
    fun hash160 => runs ⟨_, found, Or.inl hash160⟩
  have passed : passes crypto s s.scriptInstructions[s.codePointer] = true := by
    by_contra refused
    exact runs ⟨_, found, Or.inr (by simpa using refused)⟩
  obtain ⟨t, executed⟩ := execute_defined crypto (fed.items s _ run found) (by omega) unhashed
  have up : t.valid = true := by
    rw [(execute_effect executed).2.2.2, flag, passed]
    rfl
  refine ⟨{ t with codePointer := t.codePointer + 1 }, loopStep_some.mpr ⟨?_, ?_⟩⟩
  · simp [Script.done]
    omega
  · simp [Script.step, found, executed, bind, Except.bind, pure, Except.pure, up]

theorem accepts_iff_never_halts (fed : WellFed crypto script) :
    Accepts crypto script ↔ ∀ s, Reaches (loopStep crypto) script s → ¬ Halts crypto s := by
  rw [accepts_iff_reaches_end]
  constructor
  · rintro ⟨last, toEnd, done⟩ s toStep halts
    have stopped : loopStep crypto last = none := by simp [loopStep, done]
    rcases Relation.ReflTransGen.cases_head (reaches_stop toEnd stopped toStep) with
      same | ⟨t, go, _⟩
    · obtain ⟨instr, found, _⟩ := halts
      have inside := (List.getElem?_eq_some_iff.mp found).1
      rw [same] at inside
      simp [Script.done] at done
      omega
    · rw [Follows, halts_stuck halts] at go
      cases go
  · intro never
    obtain ⟨last, run, ⟨_, within, _, _⟩, none⟩ := measure_reaches_stop
      (Underway crypto script) (fun s : Script => s.scriptInstructions.length - s.codePointer)
      (fun s t underway go => underway_step underway go)
      (fun s underway more => underway_goes_on fed underway (never s underway.1) more) script
      ⟨Relation.ReflTransGen.refl, by simp [fed.start], fed.flag,
        by simpa [fed.start] using fed.pushes⟩
    exact ⟨last, run, by simp [Script.done]; omega⟩

/-- Apart from OP_VERIFY, the clean instructions are those that pass. -/
theorem clean_iff {s : Script} {instr : Instruction}
    (found : s.scriptInstructions[s.codePointer]? = some instr)
    (items : Instruction.pops instr ≤ s.data.length) : Clean crypto s ↔
      ¬ VerifiesFalse s ∧ (instr.operation ≠ .OP_VERIFY → passes crypto s instr = true) := by
  obtain ⟨operation, argument⟩ := instr
  unfold Clean VerifiesFalse
  simp only [found, Option.some.injEq, forall_eq', exists_eq_left']
  cases operation with
  | OP_VERIFY =>
    simp only [true_and, ne_eq, not_true_eq_false, false_implies, and_true]
    constructor
    · intro all verified
      exact all [0x00] verified rfl
    · intro other item top same
      exact other (same ▸ top)
  | OP_CHECKSIG =>
    match stack : s.data with
    | [] => simp [Instruction.pops, stack] at items
    | [top] => simp [Instruction.pops, stack] at items
    | pubKey :: signatureBytes :: rest => simp [passes, stack]
  | OP_UNKNOWN => simp [passes]
  | _ => simp [passes]

theorem verified_false_unclean {s : Script} (verified : VerifiesFalse s) : ¬ Clean crypto s := by
  obtain ⟨instr, found, operation, top⟩ := verified
  intro clean
  have item := clean instr found
  simp only [operation] at item
  exact item [0x00] top rfl

/-- Where the defects are avoided, the unclean steps are those that halt. -/
theorem halts_iff_unclean (fed : WellFed crypto script) (avoids : AvoidsDefects crypto script)
    {s : Script} (run : Reaches (loopStep crypto) script s) :
    Halts crypto s ↔ ¬ Clean crypto s := by
  cases found : s.scriptInstructions[s.codePointer]? with
  | none => simp [Halts, Clean, found]
  | some instr =>
    obtain ⟨unhashed, verify⟩ := avoids s instr run found
    have notFalse : ¬ VerifiesFalse s := by
      rintro ⟨other, also, operation, top⟩
      obtain rfl : other = instr := Option.some.inj (also.symm.trans found)
      exact (verify operation [0x00] top).1 rfl
    have passed : instr.operation = .OP_VERIFY → passes crypto s instr = true := by
      intro operation
      simp only [passes, operation, bne_iff_ne]
      intro top
      exact (verify operation [0x01] top).2 rfl
    rw [clean_iff found (fed.items s instr run found)]
    constructor
    · rintro ⟨other, also, why⟩ ⟨_, others⟩
      obtain rfl : other = instr := Option.some.inj (also.symm.trans found)
      have goesOn : passes crypto s other = true := by
        by_cases operation : other.operation = .OP_VERIFY
        · exact passed operation
        · exact others operation
      rcases why with hash160 | refused
      · exact unhashed hash160
      · rw [goesOn] at refused
        cases refused
    · intro unclean
      refine ⟨instr, found, Or.inr ?_⟩
      by_contra goesOn
      exact unclean ⟨notFalse, fun _ => by simpa using goesOn⟩

/-- When the verdict matches and no false is verified, a halt is one that is due. -/
theorem due_halt (fed : WellFed crypto script) (verdict : VerdictMatches crypto script)
    (noFalse : ¬ ∃ s, Reaches (loopStep crypto) script s ∧ VerifiesFalse s) {s : Script}
    {instr : Instruction} (run : Reaches (loopStep crypto) script s)
    (found : s.scriptInstructions[s.codePointer]? = some instr) (halts : Halts crypto s) :
    instr.operation ≠ .OP_VERIFY ∧ passes crypto s instr = false := by
  have rejected : ¬ Accepts crypto script :=
    fun accepted => (accepts_iff_never_halts fed).mp accepted s run halts
  obtain ⟨u, toU, unclean⟩ : ∃ u, Reaches (loopStep crypto) script u ∧ ¬ Clean crypto u := by
    by_contra clean
    refine rejected (verdict.mpr fun u toU => ?_)
    by_contra unclean
    exact clean ⟨u, toU, unclean⟩
  cases also : u.scriptInstructions[u.codePointer]? with
  | none => exact absurd (fun other found => by rw [also] at found; cases found) unclean
  | some other =>
    rw [clean_iff also (fed.items u other toU also)] at unclean
    simp only [not_and, Classical.not_imp] at unclean
    obtain ⟨operation, refused⟩ := unclean fun verified => noFalse ⟨u, toU, verified⟩
    have stop : passes crypto u other = false := by simpa using refused
    -- both states halt, so they are one
    obtain rfl := halting_unique toU run ⟨other, also, Or.inr stop⟩ halts
    obtain rfl : other = instr := Option.some.inj (also.symm.trans found)
    exact ⟨operation, stop⟩

/-- The verdict is sound and complete exactly for the runs without the defects, and
    for those that verify a false and halt at another step. -/
theorem verdict_matches_iff (crypto : Crypto) (script : Script) (fed : WellFed crypto script) :
    VerdictMatches crypto script ↔ AvoidsDefects crypto script ∨ CancelsOut crypto script := by
  constructor
  · intro verdict
    by_cases verifies : ∃ s, Reaches (loopStep crypto) script s ∧ VerifiesFalse s
    · refine Or.inr ⟨verifies, ?_⟩
      obtain ⟨s, toS, verified⟩ := verifies
      by_contra never
      have accepted := (accepts_iff_never_halts fed).mpr fun t toT halts => never ⟨t, toT, halts⟩
      exact verified_false_unclean verified (verdict.mp accepted s toS)
    · left
      intro s instr run found
      constructor
      · intro hash160
        have due := (due_halt fed verdict verifies run found ⟨instr, found, Or.inl hash160⟩).2
        simp [passes, hash160] at due
      · intro operation item top
        refine ⟨fun isFalse => verifies ⟨s, run, instr, found, operation, ?_⟩, fun isTrue => ?_⟩
        · rw [← isFalse]
          exact top
        · have refused : passes crypto s instr = false := by
            rw [isTrue] at top
            simp [passes, operation, Option.mem_def.mp top]
          exact (due_halt fed verdict verifies run found ⟨instr, found, Or.inr refused⟩).1 operation
  · rw [VerdictMatches, accepts_iff_never_halts fed]
    rintro (avoids | ⟨⟨s, toS, verified⟩, t, toT, halts⟩)
    · constructor
      · intro never s run
        by_contra unclean
        exact never s run ((halts_iff_unclean fed avoids run).mpr unclean)
      · intro clean s run halts
        exact (halts_iff_unclean fed avoids run).mp halts (clean s run)
    · constructor
      · intro never
        exact absurd halts (never t toT)
      · intro clean
        exact absurd (clean s toS) (verified_false_unclean verified)

end WellFedRuns

/-- OP_FALSE, OP_VERIFY: a pushed false passes the verification. -/
theorem verify_accepts_false :
    WellFed refusingCrypto (parsed [0x00, 0x8c]) ∧
      ¬ VerdictMatches refusingCrypto (parsed [0x00, 0x8c]) := by
  let pushed : Script := { parsed [0x00, 0x8c] with codePointer := 1, data := [[0]] }
  let final : Script := { parsed [0x00, 0x8c] with codePointer := 2 }
  have closed : ∀ s ∈ [parsed [0x00, 0x8c], pushed, final],
      ∀ t ∈ loopStep refusingCrypto s, t ∈ [parsed [0x00, 0x8c], pushed, final] := by decide
  have items : ∀ s ∈ [parsed [0x00, 0x8c], pushed, final],
      ∀ instr ∈ s.scriptInstructions[s.codePointer]?, Instruction.pops instr ≤ s.data.length := by
    decide
  refine ⟨⟨rfl, rfl, by decide, fun s instr run found =>
    items s (reaches_listed closed run (by simp)) instr found⟩, ?_⟩
  intro verdict
  have first : loopStep refusingCrypto (parsed [0x00, 0x8c]) = some pushed := by decide
  have clean := verdict.mp ⟨2, final, by decide⟩ pushed (Relation.ReflTransGen.single first)
    ⟨.OP_VERIFY, 0⟩ (by decide)
  exact clean [0] (by decide) rfl

theorem verdict_matches_pushed_data :
    VerdictMatches refusingCrypto (parsed [0x02, 0xff, 0xff, 0x8c]) := by
  let start := parsed [0x02, 0xff, 0xff, 0x8c]
  let states : List Script := [start, { start with codePointer := 3, data := [[1, 0xff]] },
    { start with codePointer := 4 }]
  have closed : ∀ s ∈ states, ∀ t ∈ loopStep refusingCrypto s, t ∈ states := by decide
  have items : ∀ s ∈ states, ∀ instr ∈ s.scriptInstructions[s.codePointer]?,
      Instruction.pops instr ≤ s.data.length := by decide
  have avoids : ∀ s ∈ states, ∀ instr ∈ s.scriptInstructions[s.codePointer]?,
      instr.operation ≠ .OP_HASH160 ∧ (instr.operation = .OP_VERIFY →
        ∀ item ∈ s.data.head?, item ≠ [0x00] ∧ item ≠ [0x01]) := by decide
  have listed : ∀ s, Reaches (loopStep refusingCrypto) start s → s ∈ states :=
    fun s run => reaches_listed closed run (by simp [states])
  exact (verdict_matches_iff refusingCrypto start
    ⟨rfl, rfl, by decide, fun s instr run found => items s (listed s run) instr found⟩).mpr
    (Or.inl fun s instr run found => avoids s (listed s run) instr found)

end EnsicoinScriptVerdicts
