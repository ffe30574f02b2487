import Mathlib.Tactic.Basic

/-!
# Runs of a partial step function

A machine is a function that performs one labelled step where it is enabled.  A run performs a
list of labels in order; a guard is a condition on a label and the state in which it is taken.  A
policy is a label for each state.  A rank bounds how many steps can be taken.
-/

namespace OsWorkbench.Library

section Runs

variable {ι σ : Type*} (step : ι → σ → Option σ)

/-- Performs the labels in order and fails at the first one that is not enabled. -/
def runSteps : List ι → σ → Option σ
  | [], state => some state
  | label :: rest, state => (step label state).bind (runSteps rest)

/-- Every step of the run is taken in a state that meets the guard. -/
def GuardedRun (guard : ι → σ → Prop) : List ι → σ → Prop
  | [], _ => True
  | label :: rest, state =>
      guard label state ∧ ∀ next, step label state = some next → GuardedRun guard rest next

theorem run_steps_cons {label : ι} {rest : List ι} {state final : σ}
    (ran : runSteps step (label :: rest) state = some final) :
    ∃ next, step label state = some next ∧ runSteps step rest next = some final := by
  exact Option.bind_eq_some_iff.mp ran

theorem run_steps_append (first second : List ι) (state : σ) :
    runSteps step (first ++ second) state =
      (runSteps step first state).bind (runSteps step second) := by
  induction first generalizing state with
  | nil => rfl
  | cons label rest hypothesis =>
      show (step label state).bind (runSteps step (rest ++ second)) =
        ((step label state).bind (runSteps step rest)).bind (runSteps step second)
      rw [Option.bind_assoc]
      congr 1
      funext next
      exact hypothesis next

theorem guarded_run_append {guard : ι → σ → Prop} (first second : List ι) (state : σ) :
    GuardedRun step guard (first ++ second) state ↔
      GuardedRun step guard first state ∧
        ∀ middle, runSteps step first state = some middle →
          GuardedRun step guard second middle := by
  induction first generalizing state with
  | nil => simp [GuardedRun, runSteps]
  | cons label rest hypothesis =>
      constructor
      · intro guarded
        constructor
        · constructor
          · exact guarded.1
          · intro next stepped
            exact ((hypothesis next).mp (guarded.2 next stepped)).1
        · intro middle ran
          rcases run_steps_cons step ran with ⟨next, stepped, went⟩
          exact ((hypothesis next).mp (guarded.2 next stepped)).2 middle went
      · intro guarded
        constructor
        · exact guarded.1.1
        · intro next stepped
          refine (hypothesis next).mpr ⟨guarded.1.2 next stepped, ?_⟩
          intro middle went
          apply guarded.2 middle
          show (step label state).bind (runSteps step rest) = some middle
          rw [stepped]
          exact went

theorem GuardedRun.mono {guard weaker : ι → σ → Prop}
    (implied : ∀ label state, guard label state → weaker label state) {labels : List ι} {state : σ}
    (guarded : GuardedRun step guard labels state) : GuardedRun step weaker labels state := by
  induction labels generalizing state with
  | nil => trivial
  | cons label rest hypothesis =>
      constructor
      · exact implied label state guarded.1
      · intro next stepped
        exact hypothesis (guarded.2 next stepped)

/-- What every guarded step preserves holds at the end of every guarded run. -/
theorem run_invariant {guard : ι → σ → Prop} {invariant : σ → Prop}
    (preserved : ∀ label state next, invariant state → guard label state →
      step label state = some next → invariant next)
    (labels : List ι) (state final : σ) (holds : invariant state)
    (guarded : GuardedRun step guard labels state)
    (ran : runSteps step labels state = some final) : invariant final := by
  induction labels generalizing state with
  | nil =>
      cases ran
      exact holds
  | cons label rest hypothesis =>
      rcases run_steps_cons step ran with ⟨next, stepped, went⟩
      exact hypothesis next (preserved label state next holds guarded.1 stepped)
        (guarded.2 next stepped) went

/-- Every state that the run passes through has the property, the first and the last included. -/
def RunKeeps (property : σ → Prop) (labels : List ι) (state : σ) : Prop :=
  ∀ count middle, runSteps step (labels.take count) state = some middle → property middle

/-- Where a step keeps a property if and only if it meets the guard, so does a run. -/
theorem run_keeps_iff_guarded {guard : ι → σ → Prop} {property : σ → Prop}
    (exactly : ∀ label state next, property state → step label state = some next →
      (property next ↔ guard label state))
    (labels : List ι) (state final : σ) (holds : property state)
    (ran : runSteps step labels state = some final) :
    RunKeeps step property labels state ↔ GuardedRun step guard labels state := by
  induction labels generalizing state with
  | nil =>
      constructor
      · exact fun _ => trivial
      · intro _ count middle went
        rw [List.take_nil] at went
        cases went
        exact holds
  | cons label rest hypothesis =>
      rcases run_steps_cons step ran with ⟨next, stepped, went⟩
      have onward (count : Nat) : runSteps step ((label :: rest).take (count + 1)) state =
          runSteps step (rest.take count) next := by
        rw [List.take_succ_cons, runSteps, stepped, Option.bind_some]
      constructor
      · intro keeps
        have kept : property next := keeps 1 next (by rw [onward]; rfl)
        constructor
        · exact (exactly label state next holds stepped).mp kept
        · intro other also
          rw [stepped] at also
          cases also
          apply (hypothesis next kept went).mp
          intro count middle reached
          exact keeps (count + 1) middle (by rw [onward]; exact reached)
      · intro guarded count middle reached
        have kept := (exactly label state next holds stepped).mpr guarded.1
        cases count with
        | zero =>
            cases reached
            exact holds
        | succ count =>
            rw [onward] at reached
            exact (hypothesis next kept went).mpr (guarded.2 next stepped) count middle reached

theorem guarded_run_trivial (labels : List ι) (state : σ) :
    GuardedRun step (fun _ _ => True) labels state := by
  induction labels generalizing state with
  | nil => trivial
  | cons label rest hypothesis => exact ⟨trivial, fun next _ => hypothesis next⟩

/-- What every step preserves holds at the end of every run. -/
theorem run_preserves {invariant : σ → Prop}
    (preserved : ∀ label state next, invariant state → step label state = some next →
      invariant next)
    (labels : List ι) (state final : σ) (holds : invariant state)
    (ran : runSteps step labels state = some final) : invariant final :=
  run_invariant step (fun label state next kept _ stepped => preserved label state next kept stepped)
    labels state final holds (guarded_run_trivial step labels state) ran

/-- A relation to an abstract machine that every guarded step preserves relates the ends of every
guarded run. -/
theorem run_refines {α : Type*} {guard : ι → σ → Prop} {abstract : α → ι → α}
    {related : α → σ → Prop}
    (preserved : ∀ label high low next, related high low → guard label low →
      step label low = some next → related (abstract high label) next)
    (labels : List ι) (high : α) (low final : σ) (holds : related high low)
    (guarded : GuardedRun step guard labels low)
    (ran : runSteps step labels low = some final) :
    related (labels.foldl abstract high) final := by
  induction labels generalizing high low with
  | nil =>
      cases ran
      exact holds
  | cons label rest hypothesis =>
      rcases run_steps_cons step ran with ⟨next, stepped, went⟩
      exact hypothesis (abstract high label) next
        (preserved label high low next holds guarded.1 stepped) (guarded.2 next stepped) went

instance decidableGuardedRun {guard : ι → σ → Prop} [∀ label, DecidablePred (guard label)] :
    (labels : List ι) → DecidablePred (GuardedRun step guard labels)
  | [], _ => isTrue trivial
  | label :: rest, state =>
      match stepped : step label state with
      | none =>
          decidable_of_iff (guard label state)
            ⟨fun met => ⟨met, by simp [stepped]⟩, fun guarded => guarded.1⟩
      | some next =>
          have : Decidable (GuardedRun step guard rest next) := decidableGuardedRun rest next
          decidable_of_iff (guard label state ∧ GuardedRun step guard rest next)
            (by simp [GuardedRun, stepped])

end Runs

section Policies

variable {ι σ : Type*} (step : ι → σ → Option σ) (choice : σ → ι)

/-- So many steps, with the labels that the states themselves choose. -/
def follow : Nat → σ → Option σ
  | 0, state => some state
  | count + 1, state => (step (choice state) state).bind (follow count)

/-- A rank that falls until the goal is met bounds the number of steps to it. -/
theorem follow_reaches {kept goal : σ → Prop} {rank : σ → Nat}
    (progress : ∀ state, kept state → ∃ next, step (choice state) state = some next ∧
      (goal next ∨ kept next ∧ rank next < rank state))
    {state : σ} (holds : kept state) :
    ∃ count ≤ rank state + 1, ∃ final, follow step choice count state = some final ∧ goal final := by
  obtain ⟨bound, enough⟩ : ∃ bound, rank state < bound := ⟨_, Nat.lt_succ_self _⟩
  induction bound generalizing state with
  | zero => exact absurd enough (Nat.not_lt_zero _)
  | succ bound hypothesis =>
      obtain ⟨next, stepped, reached | ⟨holds, closer⟩⟩ := progress state holds
      · refine ⟨1, Nat.le_add_left 1 _, next, ?_, reached⟩
        rw [follow, stepped]
        rfl
      · obtain ⟨count, few, final, followed, reached⟩ := hypothesis holds (by omega)
        refine ⟨count + 1, by omega, final, ?_, reached⟩
        rw [follow, stepped]
        exact followed

end Policies

section Ranks

variable {ι σ : Type*} (step : ι → σ → Option σ) (idle : ι → σ → Bool)

/-- How many steps of a run are not idle. -/
def worked : List ι → σ → Nat
  | [], _ => 0
  | label :: rest, state =>
      (if idle label state then 0 else 1) + (step label state).elim 0 (worked rest)

/-- A rank that falls with every step but the idle ones bounds the number of the others, however
they are scheduled. -/
theorem worked_bounded {kept : σ → Prop} {rank : σ → Nat}
    (falls : ∀ label state next, kept state → step label state = some next →
      kept next ∧ (if idle label state then 0 else 1) + rank next ≤ rank state)
    {labels : List ι} {state final : σ} (holds : kept state)
    (ran : runSteps step labels state = some final) :
    worked step idle labels state + rank final ≤ rank state := by
  induction labels generalizing state with
  | nil =>
      cases ran
      exact Nat.le_of_eq (Nat.zero_add (rank final))
  | cons label rest hypothesis =>
      obtain ⟨next, stepped, went⟩ := run_steps_cons step ran
      obtain ⟨kept, less⟩ := falls label state next holds stepped
      have later := hypothesis kept went
      rw [worked, stepped, Option.elim_some]
      omega

end Ranks

end OsWorkbench.Library
