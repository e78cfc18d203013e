import Ensicoin.Library.StepRuns
import Mathlib.Logic.Function.Basic

/-!
Runs of a product. Every event is for one component, so a run of the product is a run of each
component on the events for it, and nothing depends on the order of events for different ones.
-/
namespace ProductRuns
open StepRuns

variable {ι σ ε : Type} [DecidableEq ι]

/-- One component takes the event, and the others stay. -/
def productStep (step : σ → ε → Option σ) (s : ι → σ) (e : ι × ε) : Option (ι → σ) :=
  (step (s e.1) e.2).map (Function.update s e.1)

def eventsAt (i : ι) (es : List (ι × ε)) : List ε := (es.filter fun e => e.1 = i).map Prod.snd

theorem eventsAt_here (i : ι) (e : ε) (es : List (ι × ε)) :
    eventsAt i ((i, e) :: es) = e :: eventsAt i es := by
  simp [eventsAt]

theorem eventsAt_apart {i j : ι} (apart : j ≠ i) (e : ε) (es : List (ι × ε)) :
    eventsAt i ((j, e) :: es) = eventsAt i es := by
  simp [eventsAt, apart]

theorem play_product_iff {step : σ → ε → Option σ} {es : List (ι × ε)} {s t : ι → σ} :
    play (productStep step) s es = some t ↔
      ∀ i, play step (s i) (eventsAt i es) = some (t i) := by
  induction es generalizing s with
  | nil => simp [play, eventsAt, funext_iff]
  | cons first es ih =>
    obtain ⟨j, e⟩ := first
    cases taken : step (s j) e with
    | none =>
      have stuck : play (productStep step) s ((j, e) :: es) = none := by
        simp [play, productStep, taken]
      rw [stuck]
      refine iff_of_false (Option.some_ne_none _).symm ?_
      intro runs
      have run := runs j
      rw [eventsAt_here, play, taken] at run
      cases run
    | some next =>
      have go : productStep step s (j, e) = some (Function.update s j next) := by
        simp [productStep, taken]
      rw [play_cons go, ih]
      refine forall_congr' fun i => ?_
      by_cases here : j = i
      · subst here
        rw [Function.update_self, eventsAt_here, play_cons taken]
      · rw [Function.update_of_ne (Ne.symm here), eventsAt_apart here]

/-- Two interleavings of the same events for each component come to the same. -/
theorem play_product_same {step : σ → ε → Option σ} {es fs : List (ι × ε)}
    (same : ∀ i, eventsAt i es = eventsAt i fs) (s : ι → σ) :
    play (productStep step) s es = play (productStep step) s fs := by
  ext t
  rw [play_product_iff, play_product_iff]
  simp only [same]

end ProductRuns
