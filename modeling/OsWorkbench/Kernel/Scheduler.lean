import OsWorkbench.Kernel.TaskSteps

/-!
# Scheduling

No task runs on two CPUs, a task is chosen only when no CPU stands on its stack, and a task that goes
on finds the interrupt counts with which it was stopped.
-/

namespace OsWorkbench.Kernel

open OsWorkbench.Library

section Saved

variable {T : Type} [DecidableEq T] {m m' : Machine T} {a : T}

/-- What a task gets back when it goes on. -/
def Task.saved (task : Task) : BitVec 32 × BitVec 32 := (task.ncli, task.intena)

theorem modify_saved {b : T} {change : Task → Task} (keeps : ∀ task, (change task).saved = task.saved) :
    ((m.modify b change).memory a).saved = (m.memory a).saved := by
  by_cases same : a = b
  · rw [same]
    exact (congrArg Task.saved (Function.update_self _ _ _)).trans (keeps _)
  · exact congrArg Task.saved (Function.update_of_ne same _ _)

theorem unlock_last_saved (cpu : Nat) :
    ((unlockLast cpu m).memory a).saved = (m.memory a).saved := by
  rcases unlock_last_memory cpu m a with kept | ⟨opened, -⟩
  · rw [kept]
  · rw [opened]
    rfl

theorem save_self {cpu : Nat} (current : m.currents cpu = some a) :
    ((kmtContextSave cpu m).memory a).saved = (m.ncli cpu, m.intena cpu) := by
  unfold kmtContextSave saveContext
  rw [unlock_last_frame]
  simp only [setLast, current, Machine.modify, Function.update_self]
  rfl

theorem save_other {cpu : Nat} (other : m.currents cpu ≠ some a) :
    ((kmtContextSave cpu m).memory a).saved = (m.memory a).saved := by
  unfold kmtContextSave saveContext
  rw [unlock_last_frame]
  dsimp only [setLast]
  split
  next current known =>
    have differs : a ≠ current := by
      intro same
      rw [same] at other
      exact other known
    simp only [Machine.modify, Function.update_of_ne differs]
    exact unlock_last_saved cpu
  next => exact unlock_last_saved cpu

theorem switch_saved (cpu : Nat) (rand : Nat → Nat) :
    ((kmtContextSwitch cpu rand m).memory a).saved = (m.memory a).saved := by
  unfold kmtContextSwitch
  split
  next => rfl
  next => exact modify_saved fun _ => rfl

theorem clean_saved (cleaned : kmtContextClean m = some m') :
    (m'.memory a).saved = (m.memory a).saved := by
  unfold kmtContextClean at cleaned
  split at cleaned
  next =>
    cases cleaned
    rfl
  next =>
    split at cleaned
    next =>
      rcases Option.map_eq_some_iff.mp cleaned with ⟨queue, -, rfl⟩
      rfl
    next =>
      cases cleaned
      exact modify_saved fun _ => rfl

/-- `kmt_context_clean` does not touch the CPUs. -/
theorem clean_frame (cleaned : kmtContextClean m = some m') :
    m'.currents = m.currents ∧ m'.lasts = m.lasts ∧ m'.ncli = m.ncli ∧ m'.intena = m.intena := by
  unfold kmtContextClean at cleaned
  split at cleaned
  next =>
    cases cleaned
    exact ⟨rfl, rfl, rfl, rfl⟩
  next =>
    split at cleaned
    next =>
      rcases Option.map_eq_some_iff.mp cleaned with ⟨queue, -, rfl⟩
      exact ⟨rfl, rfl, rfl, rfl⟩
    next =>
      cases cleaned
      exact ⟨rfl, rfl, rfl, rfl⟩

/-- The CPU that switches gets the task it draws; the others are left alone. -/
theorem switch_currents (cpu : Nat) (rand : Nat → Nat) :
    (kmtContextSwitch cpu rand m).currents =
      Function.update m.currents cpu (drawTask m rand 10000) := by
  unfold kmtContextSwitch
  split
  next nobody => rw [nobody]
  next drawn => rw [drawn]

theorem switch_resumes {cpu : Nat} {rand : Nat → Nat} (drawn : drawTask m rand 10000 = some a) :
    ((kmtContextSwitch cpu rand m).ncli cpu, (kmtContextSwitch cpu rand m).intena cpu) =
      (m.memory a).saved := by
  unfold kmtContextSwitch
  rw [drawn]
  simp only [Function.update_self]
  rfl

/-- What a trap does to the CPUs. -/
structure Trapped (m next : Machine T) (cpu : Nat) (rand : Nat → Nat) : Prop where
  ordered : Ordered (kmtContextSave cpu m)
  currents : next.currents =
    Function.update m.currents cpu (drawTask (kmtContextSave cpu m) rand 10000)
  memory : ∀ a, (next.memory a).saved = ((kmtContextSave cpu m).memory a).saved
  resumed : ∀ a, drawTask (kmtContextSave cpu m) rand 10000 = some a →
    (next.ncli cpu, next.intena cpu) = ((kmtContextSave cpu m).memory a).saved

theorem trap_cases (ordered : Ordered m) {cpu : Nat} {rand : Nat → Nat}
    (stepped : taskStep (.trap cpu rand) m = some m') : Trapped m m' cpu rand := by
  simp only [taskStep] at stepped
  split at stepped
  next =>
    have frame := clean_frame stepped
    constructor
    · exact kmt_context_save_ordered ordered cpu
    · have same : (kmtContextSave cpu m).currents = m.currents := by rw [save_frame]
      rw [frame.1, switch_currents, same]
    · intro a
      rw [clean_saved stepped, switch_saved]
    · intro a drawn
      rw [frame.2.2.1, frame.2.2.2]
      exact switch_resumes drawn
  next => cases stepped

/-- A drawn task has been left by every CPU. -/
theorem drawn_free {cpu : Nat} {rand : Nat → Nat} (ordered : Ordered (kmtContextSave cpu m))
    (drawn : drawTask (kmtContextSave cpu m) rand 10000 = some a) (other : Nat) :
    m.currents other ≠ some a ∧ (other ≠ cpu → m.lasts other ≠ some a) := by
  rcases draw_task_runnable drawn with ⟨slot, -, -, unlocked⟩
  have free : ¬(kmtContextSave cpu m).held a := by
    intro held
    rw [held.2] at unlocked
    cases unlocked
  have unheld := ordered.locks.free free (.cpu other)
  rw [save_frame] at unheld
  constructor
  · exact fun current => unheld (Or.inl current)
  · intro differs last
    apply unheld
    right
    exact (Function.update_of_ne differs _ _).trans last

end Saved

section Resuming

variable {T : Type} [DecidableEq T] {m m' : Machine T} {a : T}

theorem back_saved {b : T} {next : Back} (ran : runBackCmd b next m = some m') :
    (m'.memory a).saved = (m.memory a).saved := by
  cases next with
  | lock =>
      simp only [runBackCmd, Machine.seize] at ran
      split at ran
      next => cases ran
      next =>
        cases ran
        exact modify_saved fun _ => rfl
  | test =>
      simp only [runBackCmd] at ran
      split at ran
      next =>
        cases ran
        rfl
      next =>
        cases ran
        rfl
  | mark =>
      cases ran
      exact modify_saved fun _ => rfl
  | unlock =>
      cases ran
      exact modify_saved fun _ => rfl
  | teardown =>
      cases ran
      rfl
  | free =>
      cases ran
      rfl
  | returned => cases ran

theorem wait_saved {b : T} {next : Wait} (ran : kmtWait b next m = some m') :
    (m'.memory a).saved = (m.memory a).saved := by
  cases next with
  | test =>
      simp only [kmtWait] at ran
      split at ran
      next =>
        cases ran
        rfl
      next =>
        cases ran
        rfl
  | lock =>
      simp only [kmtWait, Machine.seize] at ran
      split at ran
      next => cases ran
      next =>
        cases ran
        exact modify_saved fun _ => rfl
  | teardown =>
      cases ran
      rfl
  | free =>
      cases ran
      rfl

theorem exit_saved {b : T} (ran : exitStep b m = some m') :
    (m'.memory a).saved = (m.memory a).saved := by
  unfold exitStep at ran
  split at ran
  next =>
    cases ran
    exact modify_saved fun _ => rfl
  next =>
    cases ran
    rfl
  next =>
    split at ran
    next =>
      rcases Option.map_eq_some_iff.mp ran with ⟨queue, -, rfl⟩
      rfl
    next =>
      cases ran
      rfl
  next => cases ran

/-- Only the trap that stops a task saves its counts. -/
theorem step_saved {act : TaskAct T} (ordered : Ordered m) (stepped : taskStep act m = some m')
    (stopped : ∀ cpu, m.currents cpu ≠ some a) (same : ∀ cpu duty, act ≠ .create cpu a duty) :
    (m'.memory a).saved = (m.memory a).saved := by
  cases act with
  | trap cpu rand =>
      rw [(trap_cases ordered stepped).memory a]
      exact save_other (stopped cpu)
  | create cpu new duty =>
      have differs : a ≠ new := by
        intro here
        rw [here] at same
        exact same cpu duty rfl
      simp only [taskStep] at stepped
      split at stepped
      next =>
        unfold kmtCreate at stepped
        split at stepped
        next => cases stepped
        next =>
          rcases Option.map_eq_some_iff.mp stepped with ⟨pid, -, rfl⟩
          exact congrArg Task.saved (Function.update_of_ne differs _ _)
      next => cases stepped
  | count cpu ncli intena =>
      cases stepped
      rfl
  | sleep cpu =>
      rcases Option.map_eq_some_iff.mp stepped with ⟨b, -, rfl⟩
      exact modify_saved fun _ => rfl
  | wake b =>
      simp only [taskStep] at stepped
      split at stepped
      next =>
        cases stepped
        exact modify_saved fun _ => rfl
      next => cases stepped
  | exit cpu =>
      rcases Option.bind_eq_some_iff.mp stepped with ⟨b, -, ran⟩
      exact exit_saved ran
  | serve cpu b =>
      simp only [taskStep] at stepped
      split at stepped
      next =>
        split at stepped
        next => cases stepped
        next => exact back_saved stepped
        next => exact wait_saved stepped
      next => cases stepped

/-- The task is not resumed by the step, and its address is not given to a new task. -/
def Stopped (a : T) (act : TaskAct T) (m : Machine T) : Prop :=
  (∀ next, taskStep act m = some next → ∀ cpu, next.currents cpu ≠ some a) ∧
    ∀ cpu duty, act ≠ .create cpu a duty

/-- A task that no CPU runs keeps its counts until it is resumed. -/
theorem stopped_run_saved (acts : List (TaskAct T)) (ordered : Ordered m)
    (stopped : ∀ cpu, m.currents cpu ≠ some a) (guarded : GuardedRun taskStep (Stopped a) acts m)
    (ran : runSteps taskStep acts m = some m') :
    Ordered m' ∧ (∀ cpu, m'.currents cpu ≠ some a) ∧ (m'.memory a).saved = (m.memory a).saved := by
  apply run_invariant taskStep ?_ acts m m' ⟨ordered, stopped, rfl⟩ guarded ran
  · intro act state next kept guard stepped
    constructor
    · exact step_ordered act state next kept.1 stepped
    · constructor
      · exact guard.1 next stepped
      · rw [step_saved kept.1 stepped kept.2.1 guard.2]
        exact kept.2.2

/-- What the scheduler promises in a state. -/
structure Exclusion (m : Machine T) : Prop where
  single : ∀ cpu other a, m.currents cpu = some a → m.currents other = some a → cpu = other
  locked : ∀ cpu a, m.currents cpu = some a ∨ m.lasts cpu = some a → (m.memory a).running = true
  chosen : ∀ cpu rand next a, taskStep (.trap cpu rand) m = some next →
    next.currents cpu = some a →
      (m.memory a).attr &&& ~~~taskNowait = 0 ∧
        ∀ other, other ≠ cpu → m.currents other ≠ some a ∧ m.lasts other ≠ some a
  resumed : ∀ cpu rand after a, m.currents cpu = some a →
    taskStep (.trap cpu rand) m = some after → ∀ acts later,
      GuardedRun taskStep (Stopped a) acts after → runSteps taskStep acts after = some later →
        ∀ other draws next, taskStep (.trap other draws) later = some next →
          next.currents other = some a →
            next.ncli other = m.ncli cpu ∧ next.intena other = m.intena cpu

theorem Ordered.exclusion (ordered : Ordered m) : Exclusion m where
  single := by
    intro cpu other a first second
    have same := ordered.locks.unique (.cpu cpu) (.cpu other) a (Or.inl first) (Or.inl second)
    cases same
    rfl
  locked := fun cpu a holds => (ordered.locks.locked (.cpu cpu) a holds).2
  chosen := by
    intro cpu rand next a stepped current
    have trapped := trap_cases ordered stepped
    rw [trapped.currents, Function.update_self] at current
    rcases draw_task_runnable current with ⟨slot, -, flags, -⟩
    constructor
    · rw [← save_attr cpu m a]
      exact flags
    · intro other differs
      have free := drawn_free trapped.ordered current other
      exact ⟨free.1, free.2 differs⟩
  resumed := by
    intro cpu rand after a current stepped acts later guarded ran other draws next resumed runs
    have trapped := trap_cases ordered stepped
    have stopped : ∀ cpu, after.currents cpu ≠ some a := by
      intro place runs
      rw [trapped.currents] at runs
      by_cases same : place = cpu
      · rw [same, Function.update_self] at runs
        exact (drawn_free trapped.ordered runs cpu).1 current
      · rw [Function.update_of_ne same] at runs
        have both := ordered.locks.unique (.cpu place) (.cpu cpu) a (Or.inl runs) (Or.inl current)
        cases both
        exact same rfl
    have kept := stopped_run_saved acts (step_ordered _ m after ordered stepped) stopped guarded ran
    have back := trap_cases kept.1 resumed
    rw [back.currents, Function.update_self] at runs
    have counts := back.resumed a runs
    rw [save_other (kept.2.1 other), kept.2.2, trapped.memory, save_self current] at counts
    exact Prod.mk.inj counts

/-- On any number of CPUs, in every state of every run. -/
theorem scheduler_exclusive (memory : T → Task) (ncli intena : Nat → BitVec 32)
    (acts : List (TaskAct T)) (final : Machine T)
    (ran : runSteps taskStep acts (powered memory ncli intena) = some final) : Exclusion final :=
  (run_ordered ran).exclusion

/-- Three tasks take turns on CPU 0; once it has left the stack of the second, CPU 1 takes that. -/
def turns : List (TaskAct Nat) :=
  [.create 0 7 .none, .create 0 8 .none, .create 0 9 .none, .trap 0 fun _ => 1, .count 0 1 1,
    .trap 0 fun _ => 2, .trap 0 fun _ => 1, .trap 0 fun _ => 3, .trap 1 fun _ => 2]

theorem scheduler_exclusive_once : ∃ final, Exclusion final ∧
    runSteps taskStep turns (powered (fun _ => blankTask 0) (fun _ => 0) fun _ => 0) = some final ∧
    final.currents 0 = some 9 ∧ final.currents 1 = some 8 ∧ final.lasts 0 = some 7 := by
  have results :
      (runSteps taskStep turns (powered (fun _ => blankTask 0) (fun _ => 0) fun _ => 0)).map
        (fun m => (m.currents 0, m.currents 1, m.lasts 0)) = some (some 9, some 8, some 7) := by
    decide +kernel
  rcases Option.map_eq_some_iff.mp results with ⟨final, ran, known⟩
  simp only [Prod.mk.injEq] at known
  exact ⟨final, scheduler_exclusive _ _ _ turns final ran, ran, known⟩

end Resuming

end OsWorkbench.Kernel
