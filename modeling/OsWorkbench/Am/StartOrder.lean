import OsWorkbench.Am.Startup

/-!
# What holds while processors start and stop

In every state that any order of steps leads to: who may be on the stack of the boot loader, who loads
the kernel, and who is in it.
-/

namespace OsWorkbench.Am

open OsWorkbench.Library

section Order

variable {ncpu : Nat} {m first final : Boot}

/-- Behind the writes of `othercpu_halt`. -/
def Place.sends : Place → Bool
  | .haltSending _ | .exiting => true
  | _ => false

/-- What holds whenever the processors start or stop. -/
structure Orderly (ncpu : Nat) (m : Boot) : Prop where
  /-- Until the kernel stops no two processors are on the stack of the boot loader. -/
  bootstrap : m.entry ≠ .thiscpuHalt → ∀ p < ncpu, ∀ q < ncpu,
    (m.places p).bootstrap → (m.places q).bootstrap → p = q
  /-- The kernel is loaded by the first processor, before all others are started. -/
  loaded : ∀ p < ncpu, m.places p = .loading → p = 0 ∧ ∀ q < ncpu, q ≠ 0 → m.places q = .waiting
  /-- A processor that is started finds `percpu_entry` in the boot record or, behind the writes of
  `othercpu_halt`, `thiscpu_halt`, and calls nothing else. -/
  called : ∀ p < ncpu, m.places p ≠ .astray ∧
    (m.places p = .calling → m.entry = .percpuEntry ∨ m.entry = .thiscpuHalt)
  halting : ∀ p < ncpu, (m.places p).sends → m.entry = .thiscpuHalt
  /-- When the first processor comes to `user_entry`, the others are behind `ap_entry`. -/
  user : m.places 0 = .running → ∀ p < ncpu, (m.places p).initialised ∨
    m.entry = .thiscpuHalt ∧ (m.places p).leaving
  /-- When `_halt` prints its message, no other processor is in the kernel. -/
  halted : ∀ p < ncpu, m.places p = .exiting → ∀ q < ncpu, q ≠ p → (m.places q).leaving

/-- A place off the boot loader's stack, and not behind the writes of `othercpu_halt`. -/
def Place.quiet (place : Place) : Prop := place.bootstrap = false ∧ place.sends = false

theorem Split.quiet {cpu next p : Nat} (split : Split m cpu next) (inside : p ≠ 0)
    (outside : p < cpu ∨ next ≤ p) : (m.places p).quiet := by
  rcases outside with low | high
  · rcases split.before p (Nat.one_le_iff_ne_zero.mpr inside) low with here | here
    · rw [here]
      exact ⟨rfl, rfl⟩
    · rw [here]
      exact ⟨rfl, rfl⟩
  · rw [split.behind p high]
    exact ⟨rfl, rfl⟩

/-- All processors but one are in quiet places. -/
structure ButOne (ncpu : Nat) (m : Boot) (one : Nat) : Prop where
  quiet : ∀ p < ncpu, p ≠ one → (m.places p).quiet
  loaded : m.places one = .loading → one = 0 ∧ ∀ q < ncpu, q ≠ 0 → m.places q = .waiting
  called : m.places one ≠ .astray
  finds : m.places one = .calling → m.entry = .percpuEntry
  inside : (m.places one).sends = false
  user : m.places 0 ≠ .running

theorem ButOne.sends {one p : Nat} (but : ButOne ncpu m one) (inside : p < ncpu) :
    (m.places p).sends = false := by
  by_cases here : p = one
  · rw [here]
    exact but.inside
  · exact (but.quiet p inside here).2

theorem ButOne.orderly {one : Nat} (but : ButOne ncpu m one) : Orderly ncpu m where
  bootstrap := by
    intro _ p left q right here there
    have both (r : Nat) (present : r < ncpu) (on : (m.places r).bootstrap) : r = one := by
      by_contra other
      rw [(but.quiet r present other).1] at on
      exact Bool.false_ne_true on
    rw [both p left here, both q right there]
  loaded := by
    intro p present loading
    by_cases here : p = one
    · subst here
      exact but.loaded loading
    · have off := (but.quiet p present here).1
      rw [loading] at off
      exact absurd off.symm Bool.false_ne_true
  called := by
    intro p present
    by_cases here : p = one
    · subst here
      exact ⟨but.called, fun calling => Or.inl (but.finds calling)⟩
    · have off := (but.quiet p present here).1
      constructor
      all_goals
        intro on
        rw [on] at off
        exact absurd off.symm Bool.false_ne_true
  halting p present sends := by
    rw [but.sends present] at sends
    exact absurd sends Bool.false_ne_true
  user running := absurd running but.user
  halted p present exiting := by
    have still := but.sends present
    rw [exiting] at still
    exact absurd still.symm Bool.false_ne_true

theorem Alone.but (alone : Alone m) : ButOne ncpu m 0 := by
  constructor
  case quiet =>
    intro p _ other
    rw [alone.others p other]
    exact ⟨rfl, rfl⟩
  case loaded => exact fun _ => ⟨rfl, fun q _ other => alone.others q other⟩
  case inside => rcases alone.first with ⟨here, -⟩ | here | here <;> rw [here] <;> rfl
  all_goals
    rcases alone.first with ⟨here, -⟩ | here | here <;> rw [here] <;> exact Place.noConfusion

theorem Starting.but {cpu : Nat} (starting : Starting ncpu m cpu) : ButOne ncpu m 0 := by
  constructor
  case quiet => exact fun p _ other => starting.split.quiet other (Nat.lt_or_ge p cpu)
  case inside =>
    rcases starting.first with ⟨here, -⟩ | ⟨⟨here, -⟩ | ⟨here, -⟩, -⟩ <;> rw [here] <;> rfl
  all_goals
    rcases starting.first with ⟨here, -⟩ | ⟨⟨here, -⟩ | ⟨here, -⟩, -⟩ <;> rw [here] <;>
      exact Place.noConfusion

theorem Polling.but {cpu : Nat} (polling : Polling ncpu m cpu) : ButOne ncpu m cpu := by
  have place : m.places cpu ≠ .loading ∧ m.places cpu ≠ .astray ∧ (m.places cpu).sends = false := by
    rcases polling.this with ⟨-, booting⟩ | ⟨-, here | here⟩
    · cases here : m.places cpu with
      | loader => exact ⟨Place.noConfusion, Place.noConfusion, rfl⟩
      | calling => exact ⟨Place.noConfusion, Place.noConfusion, rfl⟩
      | entered _ => exact ⟨Place.noConfusion, Place.noConfusion, rfl⟩
      | initialising => exact ⟨Place.noConfusion, Place.noConfusion, rfl⟩
      | _ =>
          rw [here] at booting
          exact absurd booting Bool.false_ne_true
    all_goals
      rw [here]
      exact ⟨Place.noConfusion, Place.noConfusion, rfl⟩
  constructor
  case quiet =>
    intro p _ other
    by_cases zero : p = 0
    · rw [zero, polling.first]
      exact ⟨rfl, rfl⟩
    · exact polling.split.quiet zero (by omega)
  case loaded => exact fun loading => absurd loading place.1
  case called => exact place.2.1
  case finds => exact fun _ => polling.entry
  case inside => exact place.2.2
  case user =>
    rw [polling.first]
    exact Place.noConfusion

/-- Before all processors are started, all but one are in quiet places. -/
theorem Phase.but (phase : Phase ncpu m) : (∃ one, ButOne ncpu m one) ∨ Up ncpu m := by
  cases phase with
  | alone alone => exact Or.inl ⟨0, alone.but⟩
  | starting cpu starting => exact Or.inl ⟨0, starting.but⟩
  | polling cpu polling => exact Or.inl ⟨cpu, polling.but⟩
  | up up => exact Or.inr up

theorem safe_place {place : Place} (safe : place.safe m) :
    place.initialised ∨ m.entry = .thiscpuHalt ∧ place.leaving := by
  cases place with
  | ready => exact Or.inl rfl
  | running => exact Or.inl rfl
  | haltAnnouncing => exact Or.inl rfl
  | haltPointing => exact Or.inl rfl
  | haltSending _ => exact Or.inl rfl
  | exiting => exact Or.inl rfl
  | loader => exact Or.inr ⟨safe.2, rfl⟩
  | calling => exact Or.inr ⟨safe.2, rfl⟩
  | stopped => exact Or.inr ⟨safe.2, rfl⟩
  | _ => exact absurd safe id

theorem initialised_off {place : Place} (initialised : place.initialised) :
    place.bootstrap = false := by
  cases place <;> first | rfl | exact absurd initialised Bool.false_ne_true

theorem Up.orderly (up : Up ncpu m) : Orderly ncpu m where
  bootstrap := by
    intro running p present _ _ here
    rcases safe_place (up.safe p present) with initialised | ⟨halting, -⟩
    · rw [initialised_off initialised] at here
      exact absurd here Bool.false_ne_true
    · exact absurd halting running
  loaded p present loading := by
    have safe := up.safe p present
    rw [loading] at safe
    exact absurd safe id
  called p present := by
    have safe := up.safe p present
    constructor
    · intro astray
      rw [astray] at safe
      exact absurd safe id
    · intro calling
      rw [calling] at safe
      exact Or.inr safe.2
  halting p present sends := by
    have safe := up.safe p present
    cases here : m.places p with
    | haltSending _ =>
        rw [here] at safe
        exact safe.2
    | exiting =>
        rw [here] at safe
        exact safe.2
    | _ =>
        rw [here] at sends
        exact absurd sends Bool.false_ne_true
  user _ p present := safe_place (up.safe p present)
  halted p present exiting q inside other :=
    up.halted p present q inside (by rw [exiting]; exact inside) other

theorem Phase.orderly (phase : Phase ncpu m) : Orderly ncpu m := by
  rcases phase.but with ⟨one, but⟩ | up
  · exact but.orderly
  · exact up.orderly

/-- A processor on its way to `thiscpu_halt` moves nothing but itself. -/
theorem leaving_moves {p : Nat} {after : Boot} (leaving : (m.places p).leaving)
    (stepped : processorStep ncpu p m = some after) : ∃ place, after = m.move p place := by
  rw [processorStep] at stepped
  cases here : m.places p with
  | loader =>
      rw [here] at stepped
      exact ⟨_, (Option.some.inj stepped).symm⟩
  | calling =>
      rw [here] at stepped
      exact ⟨_, (Option.some.inj stepped).symm⟩
  | stopped =>
      rw [here] at stepped
      exact absurd stepped.symm (Option.some_ne_none after)
  | _ =>
      rw [here] at leaving
      exact absurd leaving Bool.false_ne_true

/-- The processor that ends `_halt` is not reset any more. -/
theorem exiting_stays {act : BootAct} {after : Boot} {p : Nat} (phase : Phase ncpu m)
    (inside : p < ncpu) (exiting : m.places p = .exiting)
    (stepped : bootStep ncpu act m = some after) : after.places p = .exiting := by
  have left (q : Nat) (present : q < ncpu) (other : q ≠ p) : (m.places q).leaving :=
    phase.orderly.halted p inside exiting q present other
  cases act with
  | go q =>
      rw [bootStep, goStep] at stepped
      by_cases present : q < ncpu
      · rw [if_pos present] at stepped
        by_cases same : q = p
        · rw [same, processorStep, exiting] at stepped
          exact absurd stepped.symm (Option.some_ne_none after)
        · obtain ⟨place, rfl⟩ := leaving_moves (left q present same) stepped
          rw [move_other (Ne.symm same)]
          exact exiting
      · rw [if_neg present] at stepped
        exact absurd stepped.symm (Option.some_ne_none after)
  | halt q =>
      rw [bootStep] at stepped
      by_cases both : q < ncpu ∧ m.places q = .running
      · have same : q = p := by
          by_contra other
          have gone := left q both.1 other
          rw [both.2] at gone
          exact Bool.false_ne_true gone
        rw [same, exiting] at both
        exact Place.noConfusion both.2
      · rw [if_neg both] at stepped
        exact absurd stepped.symm (Option.some_ne_none after)

theorem run_phase {acts : List BootAct} (phase : Phase ncpu first)
    (late : GuardedRun (bootStep ncpu) calledLate acts first)
    (ran : runSteps (bootStep ncpu) acts first = some final) : Phase ncpu final :=
  run_invariant (bootStep ncpu) (fun _ _ _ phase late stepped => phase.step late stepped)
    acts first final phase late ran

/-- In whatever order the processors take their steps, they come through the boot loader one at a
time, the kernel is loaded once, and the first processor enters it when the others are behind
`ap_entry`; and where `_halt` ends no other processor is in the kernel, nor ever will be. -/
theorem processors_start (acts : List BootAct) (powered : PoweredOn first)
    (late : GuardedRun (bootStep ncpu) calledLate acts first)
    (ran : runSteps (bootStep ncpu) acts first = some final) :
    Orderly ncpu final ∧ ∀ p < ncpu, final.places p = .exiting → ∀ more later,
      GuardedRun (bootStep ncpu) calledLate more final →
        runSteps (bootStep ncpu) more final = some later →
          later.places p = .exiting ∧ Orderly ncpu later := by
  have phase := run_phase powered.phase late ran
  refine ⟨phase.orderly, fun p inside exiting more later lateToo went => ?_⟩
  have both : Phase ncpu later ∧ later.places p = .exiting := by
    apply run_invariant (bootStep ncpu) _ more final later ⟨phase, exiting⟩ lateToo went
    rintro act m after ⟨phase, exiting⟩ late stepped
    exact ⟨phase.step late stepped, exiting_stays phase inside exiting stepped⟩
  exact ⟨both.2, both.1.orderly⟩

/-- A machine with a processor that waits for another one. -/
def switchedOn : Boot where
  isAp := 0
  entry := .other
  apbootDone := 0
  places p := if p = 0 then .loader else .waiting

theorem switched_on : PoweredOn switchedOn where
  first := rfl
  others _ other := if_neg other
  isAp := by decide
  entry := rfl
  done := rfl

/-- Two processors start, with an idle poll in between. -/
def bothStart : List Nat := [0, 0, 0, 0, 0, 0, 1, 0, 1, 1, 1, 0, 1, 0]

/-- Then the second one calls `_halt`. -/
def startAndHalt : List BootAct :=
  bothStart.map .go ++ .halt 1 :: [1, 1, 1, 0, 1, 0, 1].map .go

instance : ∀ act, DecidablePred (calledLate act)
  | .go _, _ => isTrue trivial
  | .halt _, m => inferInstanceAs (Decidable ((m.places 0).starting = false))

theorem processors_start_two : ∃ final, runSteps (bootStep 2) startAndHalt switchedOn = some final ∧
    final.places 0 = .stopped ∧ final.places 1 = .exiting ∧ Orderly 2 final ∧
      ∀ p < 2, final.places p = .exiting → ∀ more later,
        GuardedRun (bootStep 2) calledLate more final →
          runSteps (bootStep 2) more final = some later →
            later.places p = .exiting ∧ Orderly 2 later :=
  have started := processors_start startAndHalt switched_on (by decide) rfl
  ⟨_, rfl, rfl, rfl, started.1, started.2⟩

/-- Where a processor calls `_halt` before the first one has started all, the first one may start over
behind it. -/
example : ((runSteps (bootStep 3) (([0, 0, 0, 0, 0, 0, 1, 1, 1, 1, 1, 0, 0].map .go) ++
    .halt 1 :: [1, 1, 0, 1, 0, 0, 0, 1, 1, 1].map .go) switchedOn).map fun m =>
      (m.places 0, m.places 1)) = some (.announcing 1, .exiting) := rfl

end Order

end OsWorkbench.Am
