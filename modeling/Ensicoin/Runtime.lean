import Ensicoin.Library.BigEndianWords
import Mathlib.Data.List.OfFn
import Mathlib.Data.List.TakeWhile

/-!
The part of the C++ runtime under the decoders. A std::stringstream is its
unread bytes and one flag: the node only ever sets failbit and eofbit together,
and a stream that carries them yields nothing more. Memory that the source
allocates without filling it is drawn from a heap of arbitrary contents, so a
result that depends on it differs between two heaps.
-/
namespace EnsicoinRuntime

abbrev Bytes := List UInt8

def ascii (s : String) : Bytes := s.toList.map fun c => UInt8.ofNat c.toNat

/-- Ways to leave the defined results: `outOfRange` is the std::out_of_range of
    an at(), `noReturn` is the end of a function without its return value,
    `intOverflow` is a sum of ints that no int holds, `noFuel` is a loop cut short by
    the model, and the others are accesses (reads or writes) that the language leaves
    undefined. -/
inductive Fault where
  | emptyStack
  | pastScript
  | pastVector
  | pastArray
  | outOfRange
  | noReturn
  | intOverflow
  | noFuel
  deriving DecidableEq, Repr

/-- Contents of the arrays still to be allocated: which one, at which offset. -/
abbrev Heap := Nat → Nat → UInt8

structure StringStream where
  unread : Bytes
  fail : Bool
  deriving DecidableEq, Repr

/-- istream::read; its gcount is the length of what it yields. -/
def StringStream.read (s : StringStream) (count : Nat) : Bytes × StringStream :=
  if s.fail then ([], s)
  else if count ≤ s.unread.length then (s.unread.take count, ⟨s.unread.drop count, false⟩)
  else (s.unread, ⟨[], true⟩)

/-- std::isspace in the default locale. -/
def isSpace (b : UInt8) : Bool := b == 0x20 || (0x09 ≤ b && b ≤ 0x0d)

/-- Formatted extraction of one unsigned char. skipws is on by default, so
    white space in front of it is dropped. -/
def StringStream.extract (s : StringStream) : Option UInt8 × StringStream :=
  if s.fail then (none, s)
  else match s.unread.dropWhile isSpace with
    | [] => (none, ⟨[], true⟩)
    | b :: rest => (some b, ⟨rest, false⟩)

structure ReadState where
  buffer : StringStream
  heap : Heap

abbrev Decoder (α : Type) := StateT ReadState (Except Fault) α

/-- Code that decodes buffers of its own. -/
abbrev Memory (α : Type) := StateT Heap (Except Fault) α

def read (count : Nat) : Decoder Bytes := fun s =>
  .ok ((s.buffer.read count).1, { s with buffer := (s.buffer.read count).2 })

def extract : Decoder (Option UInt8) := fun s =>
  .ok (s.buffer.extract.1, { s with buffer := s.buffer.extract.2 })

def newArray (size : Nat) : Decoder Bytes := fun s =>
  .ok (List.ofFn (fun i : Fin size => s.heap 0 i), { s with heap := fun n => s.heap (n + 1) })

def raise {α : Type} (fault : Fault) : Decoder α := fun _ => .error fault

def overwrite (data array : Bytes) : Bytes := data ++ array.drop data.length

/-- The C string that starts an array, none when the array holds no zero. -/
def cString (array : Bytes) : Option Bytes :=
  if 0 ∈ array then some (array.takeWhile (· != 0)) else none

theorem bind_ok {α β : Type} {x : Except Fault α} {f : α → Except Fault β} {b : β}
    (run : x >>= f = .ok b) : ∃ a, x = .ok a ∧ f a = .ok b := by
  cases x with
  | error fault => simp [bind, Except.bind] at run
  | ok a => exact ⟨a, rfl, run⟩

theorem toOption_some {α : Type} {x : Except Fault α} {a : α} (got : x.toOption = some a) :
    x = .ok a := by
  cases x with
  | error fault => cases got
  | ok b => cases got; rfl

section Runs
variable {σ α β : Type} {s t : σ}

theorem run_bind_ok {x : StateT σ (Except Fault) α} {f : α → StateT σ (Except Fault) β} {b : β} :
    (x >>= f).run s = .ok (b, t) ↔
      ∃ a mid, x.run s = .ok (a, mid) ∧ (f a).run mid = .ok (b, t) := by
  rw [StateT.run_bind]
  cases x.run s with
  | error fault => simp [bind, Except.bind]
  | ok pair =>
    obtain ⟨a, mid⟩ := pair
    simp [bind, Except.bind]

theorem run_map_ok {x : StateT σ (Except Fault) α} {f : α → β} {b : β} :
    (f <$> x).run s = .ok (b, t) ↔ ∃ a, x.run s = .ok (a, t) ∧ f a = b := by
  rw [StateT.run_map]
  cases x.run s with
  | error fault => simp [Functor.map, Except.map]
  | ok pair =>
    obtain ⟨a, mid⟩ := pair
    simp only [Functor.map, Except.map, Except.ok.injEq, Prod.mk.injEq]
    constructor
    · rintro ⟨value, rfl⟩; exact ⟨a, ⟨rfl, rfl⟩, value⟩
    · rintro ⟨_, ⟨rfl, rfl⟩, value⟩; exact ⟨value, rfl⟩

theorem run_pure_ok {a b : α} :
    (pure a : StateT σ (Except Fault) α).run s = .ok (b, t) ↔ a = b ∧ s = t := by
  rw [StateT.run_pure]
  simp [pure, Except.pure]

end Runs

theorem lifted_ok {α : Type} {x : Except Fault α} {heap heap' : Heap} {a : α}
    (run : (liftM x : Memory α).run heap = .ok (a, heap')) : x = .ok a ∧ heap' = heap := by
  cases x with
  | error fault => cases run
  | ok b =>
    cases run
    exact ⟨rfl, rfl⟩

theorem stream_read_full (s : StringStream) (count : Nat) (alive : (s.read count).2.fail = false) :
    s.fail = false ∧ (s.read count).1.length = count ∧
      s.unread = (s.read count).1 ++ (s.read count).2.unread := by
  unfold StringStream.read at alive ⊢
  split at alive
  · rename_i failed; simp [failed] at alive
  · rename_i good
    split at alive
    · rename_i enough
      simp [good, enough]
    · simp at alive

theorem stream_read_append (data rest : Bytes) :
    (StringStream.read ⟨data ++ rest, false⟩ data.length) = (data, ⟨rest, false⟩) := by
  simp [StringStream.read]

theorem extract_some {s t : StringStream} {b : UInt8} (got : s.extract = (some b, t)) :
    s.fail = false ∧ t.fail = false ∧ isSpace b = false ∧
      ∃ spaces, (∀ w ∈ spaces, isSpace w = true) ∧ s.unread = spaces ++ b :: t.unread := by
  unfold StringStream.extract at got
  split at got
  · simp at got
  · rename_i good
    split at got
    · simp at got
    · rename_i first rest shape
      simp only [Prod.mk.injEq, Option.some.injEq] at got
      obtain ⟨rfl, rfl⟩ := got
      have cut := List.takeWhile_append_dropWhile (p := isSpace) (l := s.unread)
      have dark := List.head_dropWhile_not (p := isSpace) (l := s.unread) (by rw [shape]; simp)
      simp only [shape, List.head_cons] at dark
      refine ⟨by simpa using good, rfl, dark, s.unread.takeWhile isSpace, ?_, ?_⟩
      · intro w member; exact List.mem_takeWhile_imp member
      · rw [← shape, cut]

theorem extract_none {s t : StringStream} (got : s.extract = (none, t)) : t.fail = true := by
  unfold StringStream.extract at got
  split at got
  · rename_i failed; simp at got; rw [← got]; exact failed
  · split at got
    · simp at got; rw [← got]
    · simp at got

theorem front_zero_free (array : Bytes) : 0 ∉ array.takeWhile (· != 0) := by
  intro zero
  have nonzero := List.mem_takeWhile_imp zero
  cases nonzero

theorem cString_zero_free {array chunk : Bytes} (found : cString array = some chunk) :
    0 ∉ chunk := by
  unfold cString at found
  split at found
  · cases found
    exact front_zero_free array
  · simp at found

theorem cString_has_zero {array chunk : Bytes} (found : cString array = some chunk) :
    0 ∈ array := by
  unfold cString at found
  split at found
  · assumption
  · simp at found

theorem cString_shorter {array chunk : Bytes} (found : cString array = some chunk) :
    chunk.length < array.length := by
  have zero := cString_has_zero found
  have free := cString_zero_free found
  unfold cString at found
  rw [if_pos zero] at found
  cases found
  by_contra long
  have whole : array.takeWhile (· != 0) = array := by
    have sub := List.takeWhile_prefix (l := array) (· != (0 : UInt8))
    exact sub.eq_of_length_le (by omega)
  rw [whole] at free
  exact free zero

theorem cString_terminated {data tail : Bytes} (zero : 0 ∈ data) :
    cString (data ++ tail) = some (data.takeWhile (· != 0)) := by
  rw [cString, if_pos (List.mem_append_left tail zero), List.takeWhile_append]
  split
  · rename_i whole
    have ends : data.takeWhile (· != 0) = data :=
      (List.takeWhile_prefix _).eq_of_length whole
    rw [← ends] at zero
    exact absurd zero (front_zero_free data)
  · rfl

/-- Only zeros end a C string, so what holds none does not change it. -/
theorem cString_append {data tail chunk : Bytes} (free : 0 ∉ tail)
    (found : cString (data ++ tail) = some chunk) : cString data = some chunk := by
  have inside : 0 ∈ data := by
    rcases List.mem_append.mp (cString_has_zero found) with front | back
    · exact front
    · exact absurd back free
  rw [cString_terminated inside] at found
  rw [← found, cString, if_pos inside]

theorem overwrite_all {data array : Bytes} (full : array.length ≤ data.length) :
    overwrite data array = data := by
  rw [overwrite, List.drop_eq_nil_of_le full, List.append_nil]

theorem overwrite_length (data array : Bytes) (fits : data.length ≤ array.length) :
    (overwrite data array).length = array.length := by
  simp [overwrite]; omega

theorem newArray_length {size : Nat} {s t : ReadState} {array : Bytes}
    (run : (newArray size).run s = .ok (array, t)) : array.length = size := by
  simp only [newArray, StateT.run, Except.ok.injEq, Prod.mk.injEq] at run
  rw [← run.1, List.length_ofFn]

def constantHeap (c : UInt8) : Heap := fun _ _ => c

theorem newArray_constant (size : Nat) (c : UInt8) (s : ReadState)
    (same : s.heap = constantHeap c) :
    (newArray size).run s = .ok (List.replicate size c, s) := by
  obtain ⟨buffer, heap⟩ := s
  change heap = _ at same
  subst heap
  have cells : List.ofFn (fun _ : Fin size => c) = List.replicate size c := by
    rw [List.ofFn_const]
  simp only [newArray, StateT.run, constantHeap, cells]
  rfl

end EnsicoinRuntime
