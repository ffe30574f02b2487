import OsWorkbench.Kernel.SpinSteps

/-!
# Spin locks are exclusive and reentrant

What holds of the locks and the interrupt counts in every state, for every interleaving of the
accesses.
-/

namespace OsWorkbench.Kernel

open OsWorkbench.Library

section Purpose

variable {C L : Type}

theorem unlocked_sound (intena interrupts : C → Bool) :
    SpinSound interrupts (fun _ => ∅) (unlocked intena interrupts : SpinMachine C L) where
  locks := by
    constructor
    · intro c l held
      simp at held
    · intro c d l held
      simp at held
  rel := by
    intro c l
    constructor
    · simp [unlocked, SpinPc.grips, SpinPc.unnamed, SpinPc.pending]
    · simp [unlocked]
    · simp [unlocked]
    · simp [unlocked]
    · simp [unlocked]
    · simp [unlocked, reenSize]
  cpu := by
    intro c
    constructor
    · simp [unlocked, SpinPc.closed]
    · intro open'
      exact ⟨fun _ => open', fun nonzero => absurd rfl nonzero⟩
    · trivial

/-- What holds at every moment of CPUs that use spin locks. -/
structure SpinSafe (interrupts : C → Bool) (m : SpinMachine C L) : Prop where
  single : ∀ l c d, 0 < (m.cpus c).taken l → 0 < (m.cpus d).taken l → c = d
  counted : ∀ c l, (m.cpus c).pc = .out →
    ((m.locks l).owner = some c ↔ 0 < (m.cpus c).taken l) ∧
      ((m.locks l).owner = some c → (m.locks l).reen = (m.cpus c).taken l)
  nested : ∀ c, (m.cpus c).pc = .out → ∃ owned : Finset L,
    (∀ l, l ∈ owned ↔ 0 < (m.cpus c).taken l) ∧ (m.cpus c).ncli = owned.card ∧
      (interrupts c = true → ((m.cpus c).interrupts = true ↔ owned.card = 0))

theorem SpinSound.safe {started : C → Bool} {grip : C → Finset L} {m : SpinMachine C L}
    (sound : SpinSound started grip m) : SpinSafe started m where
  single := by
    intro l c d first second
    exact sound.locks.unique c d l ((sound.rel c l).has.mpr (Or.inl first))
      ((sound.rel d l).has.mpr (Or.inl second))
  counted := by
    intro c l place
    have rel := sound.rel c l
    have idle : ¬(m.cpus c).pc.grips l := by
      rw [place]
      simp [SpinPc.grips, SpinPc.unnamed, SpinPc.pending]
    constructor
    · rw [rel.owner, rel.has, place]
      rw [place] at idle
      simp [idle, SpinPc.unnamed]
    · intro named
      exact rel.reen named (by simp [place, SpinPc.pending])
  nested := by
    intro c place
    have here := sound.cpu c
    have ncli := here.ncli
    rw [place] at ncli
    simp only [SpinPc.closed] at ncli
    refine ⟨grip c, ?_, by omega, ?_⟩
    · intro l
      rw [(sound.rel c l).has, place]
      simp [SpinPc.grips, SpinPc.unnamed, SpinPc.pending]
    · intro open'
      have calm := here.calm open'
      unfold SpinCpu.Calm at calm
      rw [place] at calm
      constructor
      · intro enabled
        by_contra some
        have closed := (calm.2 (by omega)).1
        rw [enabled] at closed
        cases closed
      · intro none
        exact calm.1 (by omega)

end Purpose

section Runs

variable {C L : Type} [DecidableEq C] [DecidableEq L]

/-- `reen` has room for one more acquisition. -/
def ReenRoom (act : SpinAct C L) (m : SpinMachine C L) : Prop :=
  match act with
  | .lock c l => (m.cpus c).taken l + 1 < reenSize
  | _ => True

instance decidableReenRoom (act : SpinAct C L) : DecidablePred (ReenRoom act) :=
  fun _ =>
    match act with
    | .lock _ _ => inferInstanceAs (Decidable (_ < _))
    | .unlock _ _ => isTrue trivial
    | .go _ => isTrue trivial

theorem spin_step_sound {started : C → Bool} (act : SpinAct C L) (m next : SpinMachine C L)
    (sound : ∃ grip, SpinSound started grip m) (room : ReenRoom act m)
    (stepped : spinStep act m = some next) : ∃ grip, SpinSound started grip next := by
  rcases sound with ⟨grip, sound⟩
  cases act with
  | lock c l =>
      simp only [spinStep] at stepped
      split at stepped
      next place =>
        cases stepped
        exact ⟨grip, lock_call_sound sound place room⟩
      next => cases stepped
  | unlock c l =>
      simp only [spinStep] at stepped
      split at stepped
      next place =>
        cases stepped
        exact ⟨grip, unlock_call_sound sound place.1 place.2⟩
      next => cases stepped
  | go c =>
      rcases Option.map_eq_some_iff.mp stepped with ⟨⟨cpu', locks⟩, went, rfl⟩
      exact go_sound sound went

/-- However the accesses interleave, as long as no acquisition makes `reen` wrap around. -/
theorem spinlocks_safe (intena interrupts : C → Bool) (acts : List (SpinAct C L))
    (final : SpinMachine C L)
    (room : GuardedRun spinStep ReenRoom acts (unlocked intena interrupts))
    (ran : runSteps spinStep acts (unlocked intena interrupts) = some final) :
    SpinSafe interrupts final := by
  have sound : ∃ grip, SpinSound interrupts grip final :=
    run_invariant spinStep spin_step_sound acts _ final ⟨_, unlocked_sound intena interrupts⟩ room
      ran
  rcases sound with ⟨grip, sound⟩
  exact sound.safe

/-- A call, and so many accesses of the CPU that makes it. -/
def call (act : SpinAct C L) (c : C) (accesses : Nat) : List (SpinAct C L) :=
  act :: List.replicate accesses (.go c)

/-- CPU `false` takes lock `true`, then lock `false` twice, and gives up lock `true` first; CPU `true`
takes it then. -/
def crossing : List (SpinAct Bool Bool) :=
  List.flatten
    [call (.lock false true) false 14, call (.lock false false) false 14,
      call (.lock false false) false 10, call (.lock true true) true 9,
      call (.unlock false true) false 8, List.replicate 10 (.go true)]

theorem spinlocks_safe_once : ∃ final : SpinMachine Bool Bool, SpinSafe (fun _ => true) final ∧
    runSteps spinStep crossing (unlocked (fun _ => false) fun _ => true) = some final ∧
      (final.cpus false).taken false = 2 ∧ (final.cpus true).taken true = 1 := by
  have results : (runSteps spinStep crossing (unlocked (fun _ => false) fun _ => true)).map
      (fun m => ((m.cpus false).taken false, (m.cpus true).taken true)) = some (2, 1) := by
    decide +kernel
  have room : GuardedRun spinStep ReenRoom crossing (unlocked (fun _ => false) fun _ => true) := by
    decide +kernel
  rcases Option.map_eq_some_iff.mp results with ⟨final, ran, known⟩
  simp only [Prod.mk.injEq] at known
  exact ⟨final, spinlocks_safe _ _ crossing final room ran, ran, known⟩

/-- One CPU has taken one lock `count` times. -/
def nested (count reen : Nat) : SpinMachine Unit Unit where
  cpus := fun _ => ⟨.out, 1, true, false, fun _ => count⟩
  locks := fun _ => ⟨reen, some (), true⟩

def firstTime : List (SpinAct Unit Unit) := call (.lock () ()) () 14

def onceMore : List (SpinAct Unit Unit) := call (.lock () ()) () 10

theorem first_time : runSteps spinStep firstTime (unlocked (fun _ => false) fun _ => true) =
    some (nested 1 1) := by
  rfl

theorem once_more (count reen : Nat) :
    runSteps spinStep onceMore (nested count reen) =
      some (nested (count + 1) ((reen + 1) % reenSize)) := by
  rfl

theorem nested_reached (more : Nat) : ∃ acts : List (SpinAct Unit Unit),
    runSteps spinStep acts (unlocked (fun _ => false) fun _ => true) =
      some (nested (more + 1) ((more + 1) % reenSize)) := by
  induction more with
  | zero => exact ⟨firstTime, first_time⟩
  | succ more hypothesis =>
      rcases hypothesis with ⟨acts, ran⟩
      refine ⟨acts ++ onceMore, ?_⟩
      rw [run_steps_append, ran, Option.bind_some, once_more, Nat.mod_add_mod]

/-- After 2^32 acquisitions `reen` is 0. -/
theorem reen_wraps : ¬∀ (acts : List (SpinAct Unit Unit)) (final : SpinMachine Unit Unit),
    runSteps spinStep acts (unlocked (fun _ => false) fun _ => true) = some final →
      SpinSafe (fun _ => true) final := by
  intro safe
  rcases nested_reached (reenSize - 1) with ⟨acts, ran⟩
  have counted := ((safe acts _ ran).counted () () rfl).2 rfl
  simp [nested, reenSize] at counted

end Runs

end OsWorkbench.Kernel
