import Mathlib.Logic.Basic

/-!
Programs that are lists of commands. A command faults, goes on in a new state or stops
there with a refusal. `Leads act p post s` says that p goes through from s into post; it is
the weakest precondition of p. A machine whose loop has p loaded does what p does.
-/
namespace CommandPrograms
variable {κ σ φ μ : Type}

def perform (act : κ → σ → Except φ (σ × Bool)) : List κ → σ → Except φ (σ × Bool)
  | [], s => .ok (s, true)
  | c :: rest, s => do
    let (t, goes) ← act c s
    if goes then perform act rest t else return (t, false)

def Leads (act : κ → σ → Except φ (σ × Bool)) (p : List κ) (post : σ → Prop) (s : σ) : Prop :=
  ∃ t, perform act p s = .ok (t, true) ∧ post t

section Rules
variable {act : κ → σ → Except φ (σ × Bool)} {p q : List κ} {c : κ} {s t : σ}

theorem perform_goes (first : act c s = .ok (t, true)) :
    perform act (c :: p) s = perform act p t := by
  simp [perform, first, bind, Except.bind]

theorem perform_stops (first : act c s = .ok (t, false)) :
    perform act (c :: p) s = .ok (t, false) := by
  simp [perform, first, bind, Except.bind, pure, Except.pure]

theorem perform_faults {fault : φ} (first : act c s = .error fault) :
    perform act (c :: p) s = .error fault := by
  simp [perform, first, bind, Except.bind]

theorem leads_nil {post : σ → Prop} : Leads act [] post s ↔ post s := by
  simp [Leads, perform]

theorem leads_cons {post : σ → Prop} : Leads act (c :: p) post s ↔
    ∃ t, act c s = .ok (t, true) ∧ Leads act p post t := by
  unfold Leads
  cases first : act c s with
  | error fault =>
    rw [perform_faults first]
    simp
  | ok result =>
    obtain ⟨t, goes⟩ := result
    cases goes with
    | false =>
      rw [perform_stops first]
      simp
    | true =>
      rw [perform_goes first]
      simp

/-- Sequencing: the precondition of q is the postcondition that p has to reach. -/
theorem leads_append {post : σ → Prop} :
    Leads act (p ++ q) post s ↔ Leads act p (Leads act q post) s := by
  induction p generalizing s with
  | nil => simp [leads_nil]
  | cons c p ih => simp only [List.cons_append, leads_cons, ih]

end Rules

section Machines
variable (cut : φ) (done : μ → Bool) (step : μ → Except φ (μ × Bool))

/-- Step until done, stop when a step refuses; cut is what a run cut short gives. -/
def loop : Nat → μ → Except φ (μ × Bool)
  | fuel, m =>
    if done m then .ok (m, true)
    else match fuel with
      | 0 => .error cut
      | fuel + 1 => do
        let (m, goes) ← step m
        if goes then loop fuel m else return (m, false)

/-- A result stays the same when the run is given more steps. -/
theorem loop_more {cut : φ} {done : μ → Bool} {step : μ → Except φ (μ × Bool)}
    {fuel more : Nat} {m : μ} {r : μ × Bool} (run : loop cut done step fuel m = .ok r)
    (le : fuel ≤ more) : loop cut done step more m = .ok r := by
  induction fuel generalizing m more with
  | zero =>
    unfold loop at run ⊢
    split at run
    · rename_i finished
      rwa [if_pos finished]
    · cases run
  | succ fuel ih =>
    obtain ⟨more, rfl⟩ := Nat.exists_eq_succ_of_ne_zero (n := more) (by omega)
    unfold loop at run ⊢
    split at run
    · rename_i finished
      rwa [if_pos finished]
    · rename_i going
      rw [if_neg going]
      cases first : step m with
      | error fault => simp [first, bind, Except.bind] at run
      | ok result =>
        obtain ⟨m', goes⟩ := result
        simp only [first, bind, Except.bind] at run ⊢
        cases goes with
        | false => exact run
        | true => exact ih run (Nat.le_of_succ_le_succ le)

/-- What a machine that shows its state owes to the commands loaded into it. -/
structure Implements (act : κ → σ → Except φ (σ × Bool)) (view : μ → σ)
    (loaded : List κ → μ → Prop) : Prop where
  finished : ∀ m, loaded [] m → done m = true
  open_ : ∀ c p m, loaded (c :: p) m → done m = false
  stepped : ∀ c p m, loaded (c :: p) m →
    (step m).map (fun r => (view r.1, r.2)) = act c (view m)
  onward : ∀ c p m m', loaded (c :: p) m → step m = .ok (m', true) → loaded p m'

variable {done step}

theorem loop_performs {act : κ → σ → Except φ (σ × Bool)} {view : μ → σ}
    {loaded : List κ → μ → Prop} (implements : Implements done step act view loaded)
    {p : List κ} {m : μ} (start : loaded p m) {fuel : Nat} (enough : p.length ≤ fuel) :
    (loop cut done step fuel m).map (fun r => (view r.1, r.2)) = perform act p (view m) := by
  induction p generalizing m fuel with
  | nil =>
    unfold loop
    rw [if_pos (implements.finished m start)]
    rfl
  | cons c p ih =>
    rw [List.length_cons] at enough
    obtain ⟨fuel, rfl⟩ := Nat.exists_eq_succ_of_ne_zero (n := fuel) (by omega)
    have going := implements.open_ c p m start
    have shown := implements.stepped c p m start
    rw [loop, if_neg (by simp [going])]
    cases first : step m with
    | error fault =>
      rw [first] at shown
      rw [perform_faults shown.symm]
      rfl
    | ok result =>
      obtain ⟨m', goes⟩ := result
      rw [first] at shown
      cases goes with
      | false =>
        rw [perform_stops shown.symm]
        rfl
      | true =>
        rw [perform_goes shown.symm]
        exact ih (implements.onward c p m m' start first) (Nat.le_of_succ_le_succ enough)

/-- The loop comes through exactly when the program does. -/
theorem loop_leads_iff {act : κ → σ → Except φ (σ × Bool)} {view : μ → σ}
    {loaded : List κ → μ → Prop} (implements : Implements done step act view loaded)
    {p : List κ} {m : μ} (start : loaded p m) (post : σ → Prop) :
    (∃ fuel m', loop cut done step fuel m = .ok (m', true) ∧ post (view m')) ↔
      Leads act p post (view m) := by
  have shown := loop_performs cut implements start (Nat.le_refl p.length)
  constructor
  · intro through
    obtain ⟨fuel, m', run, holds⟩ := through
    have long := loop_performs cut implements start (Nat.le_max_right fuel p.length)
    rw [loop_more run (Nat.le_max_left fuel p.length)] at long
    exact ⟨view m', long.symm, holds⟩
  · intro leads
    obtain ⟨t, performed, holds⟩ := leads
    rw [performed] at shown
    cases run : loop cut done step p.length m with
    | error fault =>
      rw [run] at shown
      cases shown
    | ok result =>
      obtain ⟨m', goes⟩ := result
      rw [run] at shown
      obtain ⟨rfl, rfl⟩ := Prod.mk.inj (Except.ok.inj shown)
      exact ⟨_, _, run, holds⟩

end Machines

end CommandPrograms
