import Mathlib.Data.List.Basic

/-!
A log that takes the first entry of every key. Under a key it holds what a search of all
that was offered finds first, so which keys it holds does not depend on the order or on the
repetition of the offers, and neither do the entries when each key has only one.
-/
namespace FirstComers
variable {α K : Type} [DecidableEq K]

def offer (key : α → K) (log : List α) (x : α) : List α :=
  if key x ∈ log.map key then log else log ++ [x]

def firsts (key : α → K) (xs : List α) : List α := xs.foldl (offer key) []

theorem find_offer (key : α → K) (log : List α) (x : α) (k : K) :
    (offer key log x).find? (fun y => key y = k) = (log ++ [x]).find? (fun y => key y = k) := by
  unfold offer
  split
  · rename_i old
    rw [List.find?_append]
    by_cases same : key x = k
    · obtain ⟨y, member, there⟩ := List.mem_map.mp old
      have found : (log.find? fun y => key y = k).isSome = true :=
        List.find?_isSome.mpr ⟨y, member, by simp [there, same]⟩
      rw [Option.or_of_isSome found]
    · simp [same]
  · rfl

theorem find_firsts (key : α → K) (xs : List α) (k : K) :
    (firsts key xs).find? (fun y => key y = k) = xs.find? (fun y => key y = k) := by
  have general : ∀ log : List α, (xs.foldl (offer key) log).find? (fun y => key y = k) =
      (log ++ xs).find? (fun y => key y = k) := by
    induction xs with
    | nil => simp
    | cons x xs ih =>
      intro log
      rw [List.foldl_cons, ih, List.find?_append, find_offer, ← List.find?_append,
        List.append_assoc, List.singleton_append]
  exact general []

theorem find_same_members {p : α → Bool} {xs ys : List α} (same : ∀ x, x ∈ xs ↔ x ∈ ys) :
    (xs.find? p).isSome = (ys.find? p).isSome := by
  rw [Bool.eq_iff_iff, List.find?_isSome, List.find?_isSome]
  constructor
  · intro found
    obtain ⟨x, member, holds⟩ := found
    exact ⟨x, (same x).mp member, holds⟩
  · intro found
    obtain ⟨x, member, holds⟩ := found
    exact ⟨x, (same x).mpr member, holds⟩

theorem find_only_member {p : α → Bool} {xs ys : List α} (same : ∀ x, x ∈ xs ↔ x ∈ ys)
    (only : ∀ x ∈ xs, ∀ y ∈ xs, p x = true → p y = true → x = y) : xs.find? p = ys.find? p := by
  have some_ := find_same_members (p := p) same
  cases left : xs.find? p with
  | none =>
    rw [left, Option.isSome_none] at some_
    rw [Option.isSome_eq_false_iff.mp some_.symm |> Option.isNone_iff_eq_none.mp]
  | some x =>
    rw [left, Option.isSome_some] at some_
    obtain ⟨y, right⟩ := Option.isSome_iff_exists.mp some_.symm
    rw [right, only x (List.mem_of_find?_eq_some left) y
      ((same y).mpr (List.mem_of_find?_eq_some right)) (List.find?_some left)
      (List.find?_some right)]

end FirstComers
