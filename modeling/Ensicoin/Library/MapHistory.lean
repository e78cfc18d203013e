import Mathlib.Data.List.Induction
import Mathlib.Logic.Function.Basic

/-!
A map kept under encoded keys and written values, after any history of puts and
deletes. When the encoding is injective the map answers by the last call that
named the key, and calls on other keys leave the answer alone.
-/
namespace MapHistory
variable {K B V W : Type}

inductive Call (K V : Type) where
  | put (key : K) (value : V)
  | delete (key : K)

def Call.key : Call K V → K
  | .put key _ => key
  | .delete key => key

def Call.stored : Call K V → Option V
  | .put _ value => some value
  | .delete _ => none

def apply [DecidableEq B] (encode : K → B) (write : V → W) (store : B → Option W)
    (call : Call K V) : B → Option W :=
  Function.update store (encode call.key) (call.stored.map write)

def replay [DecidableEq B] (encode : K → B) (write : V → W) (calls : List (Call K V)) :
    B → Option W :=
  calls.foldl (apply encode write) fun _ => none

def lastCall [DecidableEq K] (calls : List (Call K V)) (key : K) : Option (Call K V) :=
  calls.reverse.find? fun call => call.key = key

theorem lastCall_concat [DecidableEq K] (calls : List (Call K V)) (call : Call K V) (key : K) :
    lastCall (calls ++ [call]) key = if call.key = key then some call else lastCall calls key := by
  simp only [lastCall, List.reverse_append, List.reverse_singleton, List.singleton_append,
    List.find?_cons]
  by_cases same : call.key = key
  · simp [same]
  · simp [same]

theorem lastCall_key [DecidableEq K] {calls : List (Call K V)} {key : K} {call : Call K V}
    (last : lastCall calls key = some call) : call.key = key := by
  simpa using List.find?_some last

theorem replay_last [DecidableEq K] [DecidableEq B] {encode : K → B} (write : V → W)
    (injective : Function.Injective encode) (calls : List (Call K V)) (key : K) :
    replay encode write calls (encode key) =
      ((lastCall calls key).bind Call.stored).map write := by
  induction calls using List.reverseRecOn with
  | nil => rfl
  | append_singleton calls call ih =>
    rw [replay, List.foldl_append, lastCall_concat]
    simp only [List.foldl_cons, List.foldl_nil, apply]
    split
    · rename_i same
      rw [same, Function.update_self]
      rfl
    · rename_i other
      have apart : encode key ≠ encode call.key := fun same => other (injective same).symm
      rw [Function.update_of_ne apart]
      exact ih

/-- One value written under every key of a list. -/
theorem writes_lookup [DecidableEq B] (encode : K → B) (value : W) (keys : List K)
    (store : B → Option W) (b : B) :
    keys.foldl (fun store key => Function.update store (encode key) (some value)) store b =
      if ∃ key ∈ keys, encode key = b then some value else store b := by
  induction keys using List.reverseRecOn with
  | nil => simp
  | append_singleton keys key ih =>
    rw [List.foldl_append, List.foldl_cons, List.foldl_nil]
    by_cases last : b = encode key
    · rw [last, Function.update_self, if_pos ⟨key, by simp, rfl⟩]
    · have others : (∃ k ∈ keys ++ [key], encode k = b) ↔ ∃ k ∈ keys, encode k = b := by
        simp [Ne.symm last]
      simp only [Function.update_of_ne last, ih, others]

end MapHistory
