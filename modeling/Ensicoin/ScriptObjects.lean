import Ensicoin.ScriptRuns
import Mathlib.Logic.Function.Basic

/-!
Scripts as objects in memory. An iterator is a buffer and an offset. Each vector has a
buffer of its own: a copied vector has a new one, and an insert that makes a vector longer
moves it to a new one. The copy of a Script copies its iterator as it is, and chain leaves
it where it was. An object whose iterator is in its own buffer steps as the Script at that
index.
-/
namespace EnsicoinScriptObjects
open EnsicoinRuntime EnsicoinScript EnsicoinScriptRuns StepRuns

structure Iterator where
  buffer : Nat
  offset : Nat

/-- codePointer is none where no constructor has set it; stepped is history. -/
structure ScriptObject where
  scriptInstructions : Code
  buffer : Nat
  codePointer : Option Iterator
  data : List Bytes
  valid : Bool
  signingHash : Bytes
  stepped : Bool

/-- fresh numbers the next object or buffer. -/
structure Objects where
  script : Nat → Option ScriptObject
  fresh : Nat

def Objects.empty : Objects := ⟨fun _ => none, 0⟩

/-- The begin() of a vector, after its last push_back. -/
def ScriptObject.new (instructions : Code) (shash : Bytes) (buffer : Nat) : ScriptObject :=
  ⟨instructions, buffer, some ⟨buffer, 0⟩, [], true, shash, false⟩

/-- Script() : valid(true) {} -/
def ScriptObject.default (buffer : Nat) : ScriptObject := ⟨[], buffer, none, [], true, [], false⟩

def ScriptObject.copied (o : ScriptObject) (buffer : Nat) : ScriptObject :=
  { o with buffer := buffer, stepped := false }

def ScriptObject.at (o : ScriptObject) (offset : Nat) : Script :=
  ⟨o.scriptInstructions, offset, o.data, o.valid, o.signingHash⟩

/-- What a step leaves, of the Script at its index. -/
def ScriptObject.after (o : ScriptObject) (s : Script) : ScriptObject :=
  { o with codePointer := some ⟨o.buffer, s.codePointer⟩, data := s.data, valid := s.valid,
           stepped := true }

/-- step compares codePointer with end(), which is undefined for another vector's buffer. -/
def ScriptObject.step (crypto : Crypto) (o : ScriptObject) : Option ScriptObject := do
  let pointer ← o.codePointer
  if pointer.buffer = o.buffer then
    let (s, _) ← ((o.at pointer.offset).step crypto).toOption
    some (o.after s)
  else none

inductive Operation where
  | construct (instructions : Code) (shash : Bytes)
  | constructEmpty
  | copy (source : Nat)
  | assign (target source : Nat)
  | assignTemporary (target source : Nat)
  | chain (script following : Nat)
  | step (script : Nat)

def Objects.put (s : Objects) (id : Nat) (o : ScriptObject) : Objects :=
  ⟨Function.update s.script id (some o), s.fresh + 1⟩

def Objects.drop (s : Objects) (id : Nat) : Objects :=
  { s with script := Function.update s.script id none }

def Objects.operate (crypto : Crypto) (s : Objects) : Operation → Option Objects
  | .construct instructions shash => some (s.put s.fresh (.new instructions shash s.fresh))
  | .constructEmpty => some (s.put s.fresh (.default s.fresh))
  | .copy source => do
    let o ← s.script source
    some (s.put s.fresh (o.copied s.fresh))
  | .assign target source => do
    let _ ← s.script target
    let o ← s.script source
    if target = source then some s else some (s.put target (o.copied s.fresh))
  | .assignTemporary target source => do
    let _ ← s.script target
    let o ← s.script source
    -- the vector moves with its buffer, and the temporary is gone
    if target = source then none else some ((s.drop source).put target o)
  | .chain script following => do
    let o ← s.script script
    let f ← s.script following
    if f.scriptInstructions = [] then some s
    else some (s.put script { o with
      scriptInstructions := o.scriptInstructions ++ f.scriptInstructions, buffer := s.fresh })
  | .step script => do
    let o ← s.script script
    let o' ← o.step crypto
    some (s.put script o')

/-- codePointer is in the buffer of its own vector, and at its begin() before any step. -/
structure Anchored (o : ScriptObject) : Prop where
  own : ∀ pointer ∈ o.codePointer, pointer.buffer = o.buffer
  within : ∃ pointer ∈ o.codePointer, pointer.offset ≤ o.scriptInstructions.length ∧
    (o.stepped = false → pointer.offset = 0)

def AllAnchored (s : Objects) : Prop := ∀ id o, s.script id = some o → Anchored o

/-- No default construction, no copy, nothing chained but empty code, and no step of a
    push that goes past the end of the code. -/
def Keeps (s : Objects) : Operation → Prop
  | .construct _ _ => True
  | .constructEmpty => False
  | .copy _ => False
  | .assign target source => target = source
  | .assignTemporary _ _ => True
  | .chain _ following => ∀ f ∈ s.script following, f.scriptInstructions = []
  | .step script => ∀ o ∈ s.script script, ∀ pointer ∈ o.codePointer,
      ∀ instr ∈ o.scriptInstructions[pointer.offset]?,
        pointer.offset + Instruction.skip instr < o.scriptInstructions.length

/-- Buffers are numbered in the order they were taken. -/
def Numbered (s : Objects) : Prop := ∀ id o, s.script id = some o → o.buffer < s.fresh

@[simp] theorem put_self (s : Objects) (id : Nat) (o : ScriptObject) :
    (s.put id o).script id = some o := Function.update_self ..

theorem put_other {s : Objects} {id j : Nat} (o : ScriptObject) (other : j ≠ id) :
    (s.put id o).script j = s.script j := Function.update_of_ne other ..

theorem put_found {s : Objects} {id j : Nat} {o p : ScriptObject}
    (found : (s.put id o).script j = some p) : p = o ∨ s.script j = some p := by
  by_cases here : j = id
  · rw [here, put_self] at found
    exact Or.inl (Option.some.inj found).symm
  · rw [put_other o here] at found
    exact Or.inr found

theorem put_anchored_iff {s : Objects} {id : Nat} {o : ScriptObject} (all : AllAnchored s) :
    AllAnchored (s.put id o) ↔ Anchored o := by
  constructor
  · intro after
    exact after id o (put_self s id o)
  · intro anchored j p found
    rcases put_found found with rfl | old
    · exact anchored
    · exact all j p old

theorem put_numbered {s : Objects} {id : Nat} {o : ScriptObject} (numbered : Numbered s)
    (buffer : o.buffer ≤ s.fresh) : Numbered (s.put id o) := by
  intro j p found
  rcases put_found found with rfl | old
  · exact Nat.lt_succ_of_le buffer
  · exact Nat.lt_succ_of_lt (numbered j p old)

theorem drop_found {s : Objects} {id j : Nat} {p : ScriptObject}
    (found : (s.drop id).script j = some p) : s.script j = some p := by
  by_cases here : j = id
  · have gone : (s.drop id).script id = none := Function.update_self ..
    rw [here, gone] at found
    cases found
  · have kept : (s.drop id).script j = s.script j := Function.update_of_ne here ..
    rwa [kept] at found

theorem new_anchored (instructions : Code) (shash : Bytes) (buffer : Nat) :
    Anchored (.new instructions shash buffer) where
  own := by
    intro pointer set
    cases set
    rfl
  within := ⟨⟨buffer, 0⟩, rfl, Nat.zero_le _, fun _ => rfl⟩

theorem default_unanchored (buffer : Nat) : ¬ Anchored (.default buffer) := by
  intro anchored
  obtain ⟨_, set, _⟩ := anchored.within
  cases set

/-- The iterator of an anchored object is not in a buffer taken later. -/
theorem rebuffered_unanchored {s : Objects} {id : Nat} {o p : ScriptObject}
    (numbered : Numbered s) (found : s.script id = some o) (anchored : Anchored o)
    (same : p.codePointer = o.codePointer) (buffer : p.buffer = s.fresh) : ¬ Anchored p := by
  intro again
  obtain ⟨pointer, set, _⟩ := anchored.within
  have old := anchored.own pointer set
  have new := again.own pointer (same ▸ set)
  have before := numbered id o found
  omega

theorem step_own {crypto : Crypto} {o p : ScriptObject} (go : o.step crypto = some p) :
    ∃ pointer s valid, o.codePointer = some pointer ∧ pointer.buffer = o.buffer ∧
      (o.at pointer.offset).step crypto = .ok (s, valid) ∧ p = o.after s := by
  unfold ScriptObject.step at go
  obtain ⟨pointer, set, go⟩ := Option.bind_eq_some_iff.mp go
  split at go
  · rename_i own
    obtain ⟨⟨s, valid⟩, run, go⟩ := Option.bind_eq_some_iff.mp go
    exact ⟨pointer, s, valid, set, own, toOption_some run, (Option.some.inj go).symm⟩
  · cases go

theorem step_anchored_iff {crypto : Crypto} {o p : ScriptObject} (anchored : Anchored o)
    (go : o.step crypto = some p) : Anchored p ↔ ∀ pointer ∈ o.codePointer,
      ∀ instr ∈ o.scriptInstructions[pointer.offset]?,
        pointer.offset + Instruction.skip instr < o.scriptInstructions.length := by
  obtain ⟨pointer, s, valid, set, own, run, rfl⟩ := step_own go
  obtain ⟨_, also, within, _⟩ := anchored.within
  obtain rfl := Option.some.inj (set.symm.trans also)
  have moved : Anchored (o.after s) ↔ s.codePointer ≤ o.scriptInstructions.length := by
    constructor
    · intro after
      obtain ⟨_, here, inside, _⟩ := after.within
      cases here
      exact inside
    · intro inside
      refine ⟨?_, _, rfl, inside, fun never => by cases never⟩
      intro _ here
      cases here
      rfl
  rw [moved, set]
  simp only [Option.mem_some_iff, forall_eq']
  rcases step_cases run with ⟨past, same, _⟩ | ⟨instr, found, _, _, next, _⟩
  · have outside : o.scriptInstructions[pointer.offset]? = none := List.getElem?_eq_none past
    simp only [outside, same, Option.mem_def, reduceCtorEq, false_implies, implies_true, iff_true]
    exact within
  · have there : o.scriptInstructions[pointer.offset]? = some instr := found
    simp only [there, next, Option.mem_some_iff, forall_eq']
    exact Nat.succ_le_iff

theorem operate_numbered {crypto : Crypto} {s t : Objects} {operation : Operation}
    (numbered : Numbered s) (go : s.operate crypto operation = some t) : Numbered t := by
  cases operation with
  | construct instructions shash =>
    cases go
    exact put_numbered numbered (Nat.le_refl _)
  | constructEmpty =>
    cases go
    exact put_numbered numbered (Nat.le_refl _)
  | copy source =>
    obtain ⟨o, _, go⟩ := Option.bind_eq_some_iff.mp go
    cases go
    exact put_numbered numbered (Nat.le_refl _)
  | assign target source =>
    obtain ⟨_, _, go⟩ := Option.bind_eq_some_iff.mp go
    obtain ⟨o, _, go⟩ := Option.bind_eq_some_iff.mp go
    split at go
    · cases go
      exact numbered
    · cases go
      exact put_numbered numbered (Nat.le_refl _)
  | assignTemporary target source =>
    obtain ⟨_, _, go⟩ := Option.bind_eq_some_iff.mp go
    obtain ⟨o, found, go⟩ := Option.bind_eq_some_iff.mp go
    split at go
    · cases go
    · cases go
      exact put_numbered (fun j p there => numbered j p (drop_found there))
        (Nat.le_of_lt (numbered source o found))
  | chain script following =>
    obtain ⟨o, _, go⟩ := Option.bind_eq_some_iff.mp go
    obtain ⟨f, _, go⟩ := Option.bind_eq_some_iff.mp go
    split at go
    · cases go
      exact numbered
    · cases go
      exact put_numbered numbered (Nat.le_refl _)
  | step script =>
    obtain ⟨o, found, go⟩ := Option.bind_eq_some_iff.mp go
    obtain ⟨p, stepped, go⟩ := Option.bind_eq_some_iff.mp go
    cases go
    obtain ⟨_, _, _, _, _, _, rfl⟩ := step_own stepped
    exact put_numbered numbered (Nat.le_of_lt (numbered script o found))

/-- One operation: the objects stay anchored exactly when it keeps them so. -/
theorem operate_anchored_iff {crypto : Crypto} {s t : Objects} {operation : Operation}
    (numbered : Numbered s) (all : AllAnchored s) (go : s.operate crypto operation = some t) :
    AllAnchored t ↔ Keeps s operation := by
  cases operation with
  | construct instructions shash =>
    cases go
    rw [put_anchored_iff all]
    exact iff_of_true (new_anchored _ _ _) trivial
  | constructEmpty =>
    cases go
    rw [put_anchored_iff all]
    exact iff_of_false (default_unanchored _) id
  | copy source =>
    obtain ⟨o, found, go⟩ := Option.bind_eq_some_iff.mp go
    cases go
    rw [put_anchored_iff all]
    exact iff_of_false (rebuffered_unanchored numbered found (all _ _ found) rfl rfl) id
  | assign target source =>
    obtain ⟨_, _, go⟩ := Option.bind_eq_some_iff.mp go
    obtain ⟨o, found, go⟩ := Option.bind_eq_some_iff.mp go
    split at go
    · rename_i same
      cases go
      exact iff_of_true all same
    · rename_i other
      cases go
      rw [put_anchored_iff all]
      exact iff_of_false (rebuffered_unanchored numbered found (all _ _ found) rfl rfl) other
  | assignTemporary target source =>
    obtain ⟨_, _, go⟩ := Option.bind_eq_some_iff.mp go
    obtain ⟨o, found, go⟩ := Option.bind_eq_some_iff.mp go
    split at go
    · cases go
    · cases go
      have rest : AllAnchored (s.drop source) := fun j p there => all j p (drop_found there)
      rw [put_anchored_iff rest]
      exact iff_of_true (all source o found) trivial
  | chain script following =>
    obtain ⟨o, found, go⟩ := Option.bind_eq_some_iff.mp go
    obtain ⟨f, also, go⟩ := Option.bind_eq_some_iff.mp go
    have keeps : Keeps s (.chain script following) ↔ f.scriptInstructions = [] := by
      simp [Keeps, also]
    rw [keeps]
    split at go
    · rename_i none
      cases go
      exact iff_of_true all none
    · rename_i some
      cases go
      rw [put_anchored_iff all]
      exact iff_of_false (rebuffered_unanchored numbered found (all _ _ found) rfl rfl) some
  | step script =>
    obtain ⟨o, found, go⟩ := Option.bind_eq_some_iff.mp go
    obtain ⟨p, stepped, go⟩ := Option.bind_eq_some_iff.mp go
    cases go
    rw [put_anchored_iff all, step_anchored_iff (all script o found) stepped]
    simp [Keeps, found]

theorem anchored_iff_kept (crypto : Crypto) {operations : List Operation} {t : Objects}
    (run : play (Objects.operate crypto) .empty operations = some t) :
    Throughout (Objects.operate crypto) AllAnchored .empty operations ↔
      EachStep (Objects.operate crypto) Keeps .empty operations :=
  throughout_iff_each Numbered AllAnchored Keeps (fun _ _ _ => operate_numbered)
    (fun _ _ _ numbered all => operate_anchored_iff numbered all) run
    (fun _ _ none => by cases none) (fun _ _ none => by cases none)

theorem constructed_script_anchored : Throughout (Objects.operate refusingCrypto) AllAnchored .empty
    [.construct [⟨.OP_TRUE, 0⟩] [], .step 0] := by
  have run : play (Objects.operate refusingCrypto) .empty
      [.construct [⟨.OP_TRUE, 0⟩] [], .step 0] = some _ := rfl
  refine (anchored_iff_kept refusingCrypto run).mpr ?_
  rw [eachStep_cons rfl, eachStep_cons rfl]
  refine ⟨trivial, ?_, ?_⟩
  · intro o found pointer set instr there
    cases found
    cases set
    cases there
    decide
  · intro before e u early
    simp at early

/-- A Script and its copy, as getValue() makes one of every input that is read. -/
theorem copy_points_into_source : ¬ Throughout (Objects.operate refusingCrypto) AllAnchored .empty
    [.construct [] [], .copy 0] := by
  intro always
  have last := always _ _ (List.prefix_refl _) rfl
  obtain ⟨own, _⟩ := last 1 _ rfl
  cases own _ rfl

end EnsicoinScriptObjects
