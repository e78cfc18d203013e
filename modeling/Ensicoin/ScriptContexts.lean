import Ensicoin.ScriptPrograms
import Mathlib.Data.List.Forall2

/-!
What scripts can tell apart. A lock that compares an item with a pushed secret and verifies
the result is opened by every item but the pushed one. No script tells two pushes apart whose
data differ in the last byte or in bytes that are themselves pushes; every other difference
decides some script.
-/
namespace EnsicoinScriptContexts
open EnsicoinRuntime EnsicoinNetworkable EnsicoinScript EnsicoinScriptRuns EnsicoinPayToHash
open EnsicoinDataPushes EnsicoinScriptPrograms CommandPrograms

section Rules
variable {crypto : Crypto} {shash : Bytes} {p : List Command} {post : List Bytes → Prop}
  {stack : List Bytes}

@[simp] theorem leads_done : Leads (Command.act crypto shash) [] post stack ↔ post stack :=
  leads_nil

@[simp] theorem leads_push (data : PushData) :
    Leads (Command.act crypto shash) (.push data :: p) post stack ↔
      Leads (Command.act crypto shash) p post (pushedItem data.val :: stack) := by
  rw [leads_cons]
  simp [Command.act]

@[simp] theorem leads_equal : Leads (Command.act crypto shash) (.equal :: p) post stack ↔
    ∃ top below rest, stack = top :: below :: rest ∧ Leads (Command.act crypto shash) p post
      ((if top = below then [0x01] else [0x00]) :: rest) := by
  rw [leads_cons]
  match stack with
  | [] => simp [Command.act]
  | [top] => simp [Command.act]
  | top :: below :: rest => simp [Command.act]

@[simp] theorem leads_verify : Leads (Command.act crypto shash) (.verify :: p) post stack ↔
    ∃ top rest, stack = top :: rest ∧ top ≠ [0x01] ∧
      Leads (Command.act crypto shash) p post rest := by
  rw [leads_cons]
  cases stack with
  | nil => simp [Command.act]
  | cons top rest => simp [Command.act, and_assoc]

end Rules

/-- The output that asks for a secret. -/
def secretLock (secret : PushData) : List Command := [.push secret, .equal, .verify]

theorem secretLock_leads (crypto : Crypto) (shash : Bytes) (secret : PushData)
    (stack : List Bytes) :
    Leads (Command.act crypto shash) (secretLock secret) (fun _ => True) stack ↔
      ∃ top rest, stack = top :: rest ∧ top ≠ pushedItem secret.val := by
  simp only [secretLock, leads_push, leads_equal, leads_verify, leads_done, List.cons.injEq]
  constructor
  · intro opens
    obtain ⟨_, top, rest, ⟨rfl, below⟩, _, _, ⟨verified, _⟩, other, _⟩ := opens
    refine ⟨top, rest, below, ?_⟩
    intro same
    rw [if_pos same.symm] at verified
    exact other verified.symm
  · intro opens
    obtain ⟨top, rest, rfl, other⟩ := opens
    refine ⟨_, top, rest, ⟨rfl, rfl⟩, _, _, ⟨rfl, rfl⟩, ?_, trivial⟩
    rw [if_neg (Ne.symm other)]
    decide

/-- The lock opens to every input that leaves an item, unless this is the secret itself. -/
theorem secretLock_opens_iff (crypto : Crypto) (shash : Bytes) (secret : PushData)
    (p : List Command) :
    Accepts crypto ((program shash p).chain (program shash (secretLock secret))) ↔
      ∃ top rest, perform (Command.act crypto shash) p [] = .ok (top :: rest, true) ∧
        top ≠ pushedItem secret.val := by
  have lock := funext fun stack => propext (secretLock_leads crypto shash secret stack)
  rw [unlocks_iff_leads, lock, Leads]
  constructor
  · intro opens
    obtain ⟨_, run, top, rest, rfl, other⟩ := opens
    exact ⟨top, rest, run, other⟩
  · intro opens
    obtain ⟨top, rest, run, other⟩ := opens
    exact ⟨_, run, top, rest, rfl, other⟩

/-- The code gives the same byte back for both. -/
def ReadAlike (b c : UInt8) : Prop := b = c ∨ (0x01 ≤ b ∧ b ≤ 0x4b ∧ 0x01 ≤ c ∧ c ≤ 0x4b)

theorem readBack_push {b : UInt8} (range : 0x01 ≤ b ∧ b ≤ 0x4b) : readBack b = 0x01 := by
  rw [readBack, parseInstruction, if_pos range]
  rfl

theorem readBack_other {b : UInt8} (range : ¬ (0x01 ≤ b ∧ b ≤ 0x4b)) : readBack b = b := by
  rw [readBack, parseInstruction, if_neg range]
  repeat' split
  all_goals simp_all [Instruction.pushedByte, Opcode.toByte]

theorem readBack_alike (b c : UInt8) : readBack b = readBack c ↔ ReadAlike b c := by
  have one : (0x01 : UInt8) ≤ 0x01 ∧ (0x01 : UInt8) ≤ 0x4b := by decide
  unfold ReadAlike
  by_cases first : 0x01 ≤ b ∧ b ≤ 0x4b
  · by_cases second : 0x01 ≤ c ∧ c ≤ 0x4b
    · simp [readBack_push first, readBack_push second, first, second]
    · rw [readBack_push first, readBack_other second]
      have apart : b ≠ c := fun same => second (same ▸ first)
      have above : 0x01 ≠ c := fun same => second (same ▸ one)
      simp only [apart, above, false_or, false_iff]
      exact fun range => second ⟨range.2.2.1, range.2.2.2⟩
  · rw [readBack_other first]
    by_cases second : 0x01 ≤ c ∧ c ≤ 0x4b
    · rw [readBack_push second]
      have apart : b ≠ c := fun same => first (same ▸ second)
      have above : b ≠ 0x01 := fun same => first (same ▸ one)
      simp only [apart, above, false_or, false_iff]
      exact fun range => first ⟨range.1, range.2.1⟩
    · rw [readBack_other second, or_iff_left fun range => first ⟨range.1, range.2.1⟩]

theorem pushedItem_alike (d e : Bytes) : pushedItem d = pushedItem e ↔
    List.Forall₂ ReadAlike d.dropLast e.dropLast := by
  have alike : ReadAlike = fun b c => readBack b = readBack c :=
    funext fun b => funext fun c => propext (readBack_alike b c).symm
  rw [alike, ← List.forall₂_map_right_iff (R := fun b c => readBack b = c),
    ← List.forall₂_map_left_iff (R := fun b c => b = c), List.forall₂_eq_eq_eq]
  simp [pushedItem]

/-- The script of a context around a push. -/
def around (shash : Bytes) (before after : List Command) (d : PushData) : Script :=
  program shash (before ++ .push d :: after)

/-- No context tells two pushes apart exactly when, but for the last byte, their data are read
    alike; so a script is accepted with any such data in the place of its own. -/
theorem contexts_agree_iff (crypto : Crypto) (shash : Bytes) (d e : PushData) :
    (∀ before after, Accepts crypto (around shash before after d) ↔
      Accepts crypto (around shash before after e)) ↔
    List.Forall₂ ReadAlike d.val.dropLast e.val.dropLast := by
  rw [← pushedItem_alike]
  constructor
  · intro agree
    -- the lock that pushes d itself stays shut for d alone
    have lock : ∀ x : PushData, Accepts crypto (around shash [.push d] [.equal, .verify] x) ↔
        pushedItem d.val ≠ pushedItem x.val := by
      intro x
      have shape : around shash [.push d] [.equal, .verify] x =
          (program shash [.push d]).chain (program shash (secretLock x)) :=
        (program_chain shash [.push d] (secretLock x)).symm
      rw [shape, secretLock_opens_iff]
      simp [perform, Command.act, bind, Except.bind]
    have both := agree [.push d] [.equal, .verify]
    rw [lock d, lock e] at both
    by_contra apart
    exact both.mpr apart rfl
  · intro same before after
    have onward : Leads (Command.act crypto shash) (.push d :: after) (fun _ => True) =
        Leads (Command.act crypto shash) (.push e :: after) (fun _ => True) := by
      funext stack
      rw [leads_push, leads_push, same]
    rw [around, around, program_accepted, program_accepted, leads_append, leads_append, onward]

end EnsicoinScriptContexts
