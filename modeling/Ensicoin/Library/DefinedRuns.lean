import Mathlib.Control.Basic
import Mathlib.Data.List.TakeWhile

/-!
Total correctness of programs that carry a state and can fault. `Defined inv x post` says that
x faults in no state of inv, ends in a state of inv, and that its result is as post says.
-/
namespace DefinedRuns
variable {σ ε α β : Type} {inv : σ → Prop}

def Defined (inv : σ → Prop) (x : StateT σ (Except ε) α) (post : α → Prop) : Prop :=
  ∀ s, inv s → ∃ a t, x.run s = .ok (a, t) ∧ post a ∧ inv t

abbrev Returns (inv : σ → Prop) (x : StateT σ (Except ε) α) : Prop := Defined inv x fun _ => True

theorem defined_pure {post : α → Prop} (a : α) (holds : post a) :
    Defined inv (pure a : StateT σ (Except ε) α) post :=
  fun s start => ⟨a, s, rfl, holds, start⟩

theorem defined_bind {x : StateT σ (Except ε) α} {f : α → StateT σ (Except ε) β}
    {post : α → Prop} {post' : β → Prop} (first : Defined inv x post)
    (rest : ∀ a, post a → Defined inv (f a) post') : Defined inv (x >>= f) post' := by
  intro s start
  obtain ⟨a, mid, runFirst, holds, between⟩ := first s start
  obtain ⟨b, t, runRest, holds', after⟩ := rest a holds mid between
  refine ⟨b, t, ?_, holds', after⟩
  rw [StateT.run_bind, runFirst]
  exact runRest

theorem defined_map {x : StateT σ (Except ε) α} {f : α → β} {post : α → Prop}
    {post' : β → Prop} (given : Defined inv x post) (implies : ∀ a, post a → post' (f a)) :
    Defined inv (f <$> x) post' := by
  intro s start
  obtain ⟨a, t, run, holds, after⟩ := given s start
  refine ⟨f a, t, ?_, implies a holds, after⟩
  rw [StateT.run_map, run]
  rfl

theorem defined_weaken {x : StateT σ (Except ε) α} {post post' : α → Prop}
    (given : Defined inv x post) (weaker : ∀ a, post a → post' a) : Defined inv x post' := by
  intro s start
  obtain ⟨a, t, run, holds, after⟩ := given s start
  exact ⟨a, t, run, weaker a holds, after⟩

theorem returns_any {x : StateT σ (Except ε) α} {post : α → Prop} (given : Defined inv x post) :
    Returns inv x := defined_weaken given fun _ _ => trivial

/-- One program after another, when the result of the first does not matter. -/
theorem returns_bind {x : StateT σ (Except ε) α} {f : α → StateT σ (Except ε) β}
    (first : Returns inv x) (rest : ∀ a, Returns inv (f a)) : Returns inv (x >>= f) :=
  defined_bind first fun a _ => rest a

end DefinedRuns
