import Mathlib.Logic.Relation

/-!
Runs of partial step functions. `Reaches next` follows an autonomous machine
for any number of steps, up to the state where `next` is none. `play step` feeds
a list of events to a machine that answers none to an event it does not allow.
-/
namespace StepRuns
variable {σ ε : Type}

def Follows (next : σ → Option σ) (s t : σ) : Prop := next s = some t

abbrev Reaches (next : σ → Option σ) : σ → σ → Prop := Relation.ReflTransGen (Follows next)

theorem reaches_invariant {next : σ → Option σ} (inv : σ → Prop)
    (step : ∀ s t, inv s → next s = some t → inv t)
    {s t : σ} (run : Reaches next s t) (start : inv s) : inv t := by
  induction run with
  | refl => exact start
  | tail _ last ih => exact step _ _ ih last

/-- A list of states closed under stepping holds every state of a run in it. -/
theorem reaches_listed {next : σ → Option σ} {states : List σ}
    (closed : ∀ s ∈ states, ∀ t ∈ next s, t ∈ states) {s t : σ} (run : Reaches next s t)
    (start : s ∈ states) : t ∈ states :=
  reaches_invariant (· ∈ states) (fun s t member go => closed s member t go) run start

theorem reaches_linear {next : σ → Option σ} {s t u : σ} (left : Reaches next s t)
    (right : Reaches next s u) : Reaches next t u ∨ Reaches next u t := by
  apply Relation.ReflTransGen.total_of_right_unique _ left right
  intro a b c toB toC
  exact Option.some.inj (toB.symm.trans toC)

/-- The state where a machine stops is reached from every state on the way. -/
theorem reaches_stop {next : σ → Option σ} {s t u : σ} (toStop : Reaches next s t)
    (stop : next t = none) (toOther : Reaches next s u) : Reaches next u t := by
  rcases reaches_linear toStop toOther with after | before
  · rcases Relation.ReflTransGen.cases_head after with same | ⟨v, first, _⟩
    · exact same ▸ Relation.ReflTransGen.refl
    · rw [Follows, stop] at first
      cases first
  · exact before

/-- A machine whose steps use up a measure, and that only stops with none of it
    left, runs to a stop. -/
theorem measure_reaches_stop {next : σ → Option σ} (inv : σ → Prop) (left : σ → Nat)
    (step : ∀ s t, inv s → next s = some t → inv t ∧ left t < left s)
    (progress : ∀ s, inv s → left s ≠ 0 → ∃ t, next s = some t)
    (s : σ) (start : inv s) : ∃ t, Reaches next s t ∧ inv t ∧ left t = 0 := by
  induction h : left s using Nat.strongRecOn generalizing s with
  | ind k ih =>
    by_cases empty : left s = 0
    · exact ⟨s, Relation.ReflTransGen.refl, start, empty⟩
    · obtain ⟨t, first⟩ := progress s start empty
      obtain ⟨kept, less⟩ := step s t start first
      obtain ⟨u, run, final, done⟩ := ih (left t) (by omega) t kept rfl
      exact ⟨u, Relation.ReflTransGen.head first run, final, done⟩

/-- One event after another, none as soon as one of them is not allowed. -/
def play (step : σ → ε → Option σ) : σ → List ε → Option σ
  | s, [] => some s
  | s, e :: es => (step s e).bind fun t => play step t es

theorem play_append (step : σ → ε → Option σ) (s : σ) (es fs : List ε) :
    play step s (es ++ fs) = (play step s es).bind fun t => play step t fs := by
  induction es generalizing s with
  | nil => rfl
  | cons e es ih =>
    simp only [List.cons_append, play, Option.bind_assoc]
    congr 1
    funext t
    exact ih t

theorem play_concat (step : σ → ε → Option σ) (s u : σ) (es : List ε) (e : ε) :
    play step s (es ++ [e]) = some u ↔
      ∃ t, play step s es = some t ∧ step t e = some u := by
  rw [play_append]
  cases play step s es with
  | none => simp
  | some t =>
    cases last : step t e with
    | none => simp [play, last]
    | some v => simp [play, last]

theorem play_history {step : σ → ε → Option σ} (inv : List ε → σ → Prop) {s : σ}
    (start : inv [] s)
    (keep : ∀ es t e u, inv es t → step t e = some u → inv (es ++ [e]) u) :
    ∀ es t, play step s es = some t → inv es t := by
  have general : ∀ es before t u, inv before t → play step t es = some u →
      inv (before ++ es) u := by
    intro es
    induction es with
    | nil =>
      intro before t u holds run
      cases run
      simpa using holds
    | cons e es ih =>
      intro before t u holds run
      simp only [play, Option.bind_eq_some_iff] at run
      obtain ⟨v, first, rest⟩ := run
      have later := ih (before ++ [e]) v u (keep before t e v holds first) rest
      simpa using later
  intro es t run
  exact general es [] s t start run

theorem play_split {step : σ → ε → Option σ} {s t : σ} {before after : List ε}
    (run : play step s (before ++ after) = some t) :
    ∃ u, play step s before = some u ∧ play step u after = some t := by
  rwa [play_append, Option.bind_eq_some_iff] at run

def Throughout (step : σ → ε → Option σ) (p : σ → Prop) (s : σ) (es : List ε) : Prop :=
  ∀ before u, before <+: es → play step s before = some u → p u

/-- A measure that rises by one at most takes every value on the way. -/
theorem play_crosses {step : σ → ε → Option σ} (measure : σ → Nat)
    (slow : ∀ s e t, step s e = some t → measure t ≤ measure s + 1) {k : Nat} {es : List ε}
    {s t : σ} (run : play step s es = some t) (low : measure s ≤ k) (high : k ≤ measure t) :
    ∃ before u, before <+: es ∧ play step s before = some u ∧ measure u = k := by
  induction es generalizing s with
  | nil =>
    cases run
    exact ⟨[], _, List.prefix_refl [], rfl, by omega⟩
  | cons e es ih =>
    by_cases here : measure s = k
    · exact ⟨[], s, List.nil_prefix, rfl, here⟩
    · obtain ⟨v, first, rest⟩ := Option.bind_eq_some_iff.mp run
      have rise := slow s e v first
      obtain ⟨before, u, start, reached, value⟩ := ih rest (by omega)
      refine ⟨e :: before, u, List.cons_prefix_cons.mpr ⟨rfl, start⟩, ?_, value⟩
      exact Option.bind_eq_some_iff.mpr ⟨v, first, reached⟩

/-- Every event of a run comes in a state that allows it. -/
def EachStep (step : σ → ε → Option σ) (allowed : σ → ε → Prop) (s : σ) (es : List ε) : Prop :=
  ∀ before e u, before ++ [e] <+: es → play step s before = some u → allowed u e

theorem play_cons {step : σ → ε → Option σ} {s v : σ} {e : ε} (first : step s e = some v)
    (es : List ε) : play step s (e :: es) = play step v es := by
  simp [play, first]

theorem throughout_cons {step : σ → ε → Option σ} {p : σ → Prop} {s v : σ} {e : ε}
    (first : step s e = some v) (es : List ε) :
    Throughout step p s (e :: es) ↔ p s ∧ Throughout step p v es := by
  constructor
  · intro always
    refine ⟨always [] s List.nil_prefix rfl, ?_⟩
    intro before u early reached
    exact always (e :: before) u (List.cons_prefix_cons.mpr ⟨rfl, early⟩)
      ((play_cons first before).trans reached)
  · intro both before u early reached
    cases before with
    | nil =>
      cases reached
      exact both.1
    | cons e' before =>
      obtain ⟨rfl, rest⟩ := List.cons_prefix_cons.mp early
      exact both.2 before u rest ((play_cons first before).symm.trans reached)

theorem eachStep_cons {step : σ → ε → Option σ} {allowed : σ → ε → Prop} {s v : σ} {e : ε}
    (first : step s e = some v) (es : List ε) :
    EachStep step allowed s (e :: es) ↔ allowed s e ∧ EachStep step allowed v es := by
  constructor
  · intro each
    refine ⟨each [] e s (List.cons_prefix_cons.mpr ⟨rfl, List.nil_prefix⟩) rfl, ?_⟩
    intro before e' u early reached
    exact each (e :: before) e' u (List.cons_prefix_cons.mpr ⟨rfl, early⟩)
      ((play_cons first before).trans reached)
  · intro both before e' u early reached
    cases before with
    | nil =>
      obtain ⟨rfl, _⟩ := List.cons_prefix_cons.mp early
      cases reached
      exact both.1
    | cons e'' before =>
      obtain ⟨rfl, rest⟩ := List.cons_prefix_cons.mp early
      exact both.2 before e' u rest ((play_cons first before).symm.trans reached)

/-- What the allowed events keep holds at the end. -/
theorem play_keeps {step : σ → ε → Option σ} {allowed : σ → ε → Prop} (inv : σ → Prop)
    (kept : ∀ s e t, inv s → allowed s e → step s e = some t → inv t) {es : List ε} {s t : σ}
    (run : play step s es = some t) (each : EachStep step allowed s es) (start : inv s) : inv t := by
  induction es generalizing s with
  | nil =>
    cases run
    exact start
  | cons e es ih =>
    obtain ⟨v, first, rest⟩ := Option.bind_eq_some_iff.mp run
    obtain ⟨now, later⟩ := (eachStep_cons first es).mp each
    exact ih rest later (kept s e v start now first)

theorem eachStep_concat {step : σ → ε → Option σ} {allowed : σ → ε → Prop} {s t : σ}
    {es : List ε} {e : ε} (run : play step s es = some t) (each : EachStep step allowed s es)
    (last : allowed t e) : EachStep step allowed s (es ++ [e]) := by
  intro before e' u front reached
  rcases List.prefix_concat_iff.mp front with whole | early
  · obtain ⟨rfl, same⟩ := List.append_inj' whole rfl
    obtain rfl := List.singleton_inj.mp same
    obtain rfl := Option.some.inj (run.symm.trans reached)
    exact last
  · exact each before e' u early reached

/-- When a step out of a good state is good exactly if it was allowed, a run stays
    good exactly if all its steps were. -/
theorem throughout_iff_each {step : σ → ε → Option σ} (aux p : σ → Prop)
    (allowed : σ → ε → Prop) (kept : ∀ s e t, aux s → step s e = some t → aux t)
    (turns : ∀ s e t, aux s → p s → step s e = some t → (p t ↔ allowed s e))
    {es : List ε} {s t : σ} (run : play step s es = some t) (sound : aux s) (start : p s) :
    Throughout step p s es ↔ EachStep step allowed s es := by
  induction es generalizing s with
  | nil =>
    constructor
    · intro _ before e u early
      simp at early
    · intro _ before u early reached
      obtain rfl := List.prefix_nil.mp early
      cases reached
      exact start
  | cons e es ih =>
    obtain ⟨v, first, rest⟩ := Option.bind_eq_some_iff.mp run
    rw [throughout_cons first, eachStep_cons first, ← turns s e v sound start first]
    constructor
    · intro always
      have good := always.2 [] v List.nil_prefix rfl
      exact ⟨good, (ih rest (kept s e v sound first) good).mp always.2⟩
    · intro each
      exact ⟨start, (ih rest (kept s e v sound first) each.1).mpr each.2⟩

theorem play_total (f : σ → ε → σ) (s : σ) (es : List ε) :
    play (fun s e => some (f s e)) s es = some (es.foldl f s) := by
  induction es generalizing s with
  | nil => rfl
  | cons e es ih => exact ih (f s e)

/-- While something is left, some event of the allowed kind takes one off. -/
theorem play_uses_up {step : σ → ε → Option σ} (inv : σ → Prop) (left : σ → Nat)
    (allowed : ε → Prop)
    (progress : ∀ s, inv s → left s ≠ 0 →
      ∃ e t, allowed e ∧ step s e = some t ∧ inv t ∧ left t + 1 = left s)
    (s : σ) (start : inv s) : ∃ es t, (∀ e ∈ es, allowed e) ∧ es.length = left s ∧
      play step s es = some t ∧ inv t ∧ left t = 0 := by
  induction count : left s generalizing s with
  | zero => exact ⟨[], s, by simp, rfl, rfl, start, count⟩
  | succ n ih =>
    obtain ⟨e, t, kind, first, kept, less⟩ := progress s start (by omega)
    obtain ⟨es, u, kinds, length, rest, final, done⟩ := ih t kept (by omega)
    refine ⟨e :: es, u, List.forall_mem_cons.mpr ⟨kind, kinds⟩, by simp [length], ?_, final, done⟩
    exact (play_cons first es).trans rest

/-- Two lists of events that do the same one by one. -/
theorem play_map_same {ι : Type} {step : σ → ε → Option σ} {f g : ι → ε} {is : List ι}
    (same : ∀ i ∈ is, ∀ s, step s (f i) = step s (g i)) (s : σ) :
    play step s (is.map f) = play step s (is.map g) := by
  induction is generalizing s with
  | nil => rfl
  | cons i is ih =>
    obtain ⟨first, rest⟩ := List.forall_mem_cons.mp same
    simp only [List.map_cons, play, first, ih rest]

/-- A machine whose allowed steps are runs of another one, with the same to show for them. -/
theorem play_refines {τ δ ω : Type} {step : σ → ε → Option σ} {step' : τ → δ → Option τ}
    (rel : σ → τ → Prop) (allowed : σ → ε → Prop) (shown : ε → List ω) (shown' : δ → List ω)
    (simulated : ∀ s u e t, rel s u → allowed s e → step s e = some t →
      ∃ ds v, play step' u ds = some v ∧ ds.flatMap shown' = shown e ∧ rel t v)
    {es : List ε} {s t : σ} {u : τ} (run : play step s es = some t)
    (each : EachStep step allowed s es) (start : rel s u) :
    ∃ ds v, play step' u ds = some v ∧ ds.flatMap shown' = es.flatMap shown ∧ rel t v := by
  induction es generalizing s u with
  | nil =>
    cases run
    exact ⟨[], u, rfl, rfl, start⟩
  | cons e es ih =>
    obtain ⟨m, first, rest⟩ := Option.bind_eq_some_iff.mp run
    obtain ⟨now, later⟩ := (eachStep_cons first es).mp each
    obtain ⟨ds, v, run', same, related⟩ := simulated s u e m start now first
    obtain ⟨ds', w, more, same', final⟩ := ih rest later related
    refine ⟨ds ++ ds', w, ?_, ?_, final⟩
    · rw [play_append, run']
      exact more
    · rw [List.flatMap_append, List.flatMap_cons, same, same']

end StepRuns
