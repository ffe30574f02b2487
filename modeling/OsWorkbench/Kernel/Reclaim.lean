import OsWorkbench.Kernel.Scheduler

/-!
# Reclaiming children

A child is torn down and freed once, by its creator or by `kmt_context_clean`, after no CPU stands
on its stack; a dead child that its creator has let go waits in `ctx_queue`.
-/

namespace OsWorkbench.Kernel

open OsWorkbench.Library

/-- The creator has torn the task down and not freed it yet. -/
def Duty.torn : Duty → Nat
  | .back .free | .wait .free => 1
  | _ => 0

section Books

variable {T : Type} [DecidableEq T] {m m' : Machine T} {a : T}

/-- The events of a step, and the tasks that they concern. -/
structure Books (m next : Machine T) (events : List (TaskEvent T)) : Prop where
  log : next.log = events ++ m.log
  created : ∀ a, events.count (.created a) + (m.allocated a).toNat =
    events.count (.freed a) + (next.allocated a).toNat
  torn : ∀ a, events.count (.tornDown a) + (m.duties a).torn =
    events.count (.freed a) + (next.duties a).torn
  dead : ∀ a, .tornDown a ∈ events ∨ .freed a ∈ events →
    m.allocated a = true ∧ m.exits a ≠ .before ∧
      ∀ cpu, next.currents cpu ≠ some a ∧ next.lasts cpu ≠ some a

theorem books_silent (log : m'.log = m.log) (allocated : m'.allocated = m.allocated)
    (torn : ∀ a, (m'.duties a).torn = (m.duties a).torn) : Books m m' [] where
  log := log
  created := by
    intro a
    rw [allocated]
    rfl
  torn := by
    intro a
    rw [torn]
    rfl
  dead := by simp

theorem Books.from_same {s : Machine T} {events : List (TaskEvent T)} (books : Books s m' events)
    (log : s.log = m.log) (allocated : s.allocated = m.allocated) (duties : s.duties = m.duties)
    (exits : s.exits = m.exits) : Books m m' events where
  log := by
    rw [← log]
    exact books.log
  created := by
    rw [← allocated]
    exact books.created
  torn := by
    rw [← duties]
    exact books.torn
  dead := by
    rw [← allocated, ← exits]
    exact books.dead

theorem torn_of_other {duty : Duty} {b : T} (same : duty.torn = (m.duties a).torn) :
    (Function.update m.duties a duty b).torn = (m.duties b).torn := by
  by_cases here : b = a
  · rw [here, Function.update_self]
    exact same
  · rw [Function.update_of_ne here]

/-- The creator has torn the task down. -/
theorem teardown_books (ordered : Ordered m) {duty : Duty} (holds : (m.duties a).holds = true)
    (late : (m.duties a).late = true) (whole : (m.duties a).torn = 0) (next : duty.torn = 1) :
    Books m ((kmtTeardown a m).setDuty a duty) [.tornDown a] where
  log := rfl
  created := by
    intro b
    simp [Machine.setDuty, kmtTeardown]
  torn := by
    intro b
    by_cases here : b = a
    · simp [here, Machine.setDuty, kmtTeardown, whole, next]
    · simp [here, Ne.symm here, Machine.setDuty, kmtTeardown]
  dead := by
    intro b listed
    simp only [List.mem_singleton, TaskEvent.tornDown.injEq, reduceCtorEq, or_false] at listed
    rw [listed]
    have used := ordered.of_holds (show m.holds .creator a from holds)
    exact ⟨used, ((ordered.settled a).living used).late late, ordered.apart holds⟩

/-- The creator has freed the task. -/
theorem free_books (ordered : Ordered m) (holds : (m.duties a).holds = true)
    (late : (m.duties a).late = true) (torn : (m.duties a).torn = 1) :
    Books m ((freeTask a m).setDuty a .none) [.freed a] := by
  have used := ordered.of_holds (show m.holds .creator a from holds)
  constructor
  · rfl
  · intro b
    by_cases here : b = a
    · simp [here, Machine.setDuty, freeTask, used]
    · simp [here, Ne.symm here, Machine.setDuty, freeTask]
  · intro b
    have idle : Duty.none.torn = 0 := rfl
    by_cases here : b = a
    · simp [here, Machine.setDuty, freeTask, torn, idle]
    · simp [here, Ne.symm here, Machine.setDuty, freeTask]
  · intro b listed
    simp only [List.mem_singleton, TaskEvent.freed.injEq, reduceCtorEq, false_or] at listed
    rw [listed]
    exact ⟨used, ((ordered.settled a).living used).late late, ordered.apart holds⟩

theorem clean_books (ordered : Ordered m) (ran : kmtContextClean m = some m') :
    ∃ events, Books m m' events := by
  have after := kmt_context_clean_ordered ordered ran
  unfold kmtContextClean at ran
  rcases dequeue_entries ordered.ring with ⟨-, empty⟩ | ⟨entry, rest, entries, first, -, -⟩
  · rw [empty] at ran
    cases ran
    exact ⟨[], books_silent rfl rfl fun _ => rfl⟩
  · split at ran
    next =>
      cases ran
      exact ⟨[], books_silent rfl rfl fun _ => rfl⟩
    next b queue taken =>
      split at ran
      next =>
        rcases Option.map_eq_some_iff.mp ran with ⟨queue, -, rfl⟩
        exact ⟨[], books_silent rfl rfl fun _ => rfl⟩
      next =>
        cases ran
        rw [taken] at first
        have queued : some b ∈ m.ctxQueue.entries := by
          rw [entries, ← first]
          exact List.mem_cons_self
        have settled := ordered.settled b
        have used : m.allocated b = true := by
          cases known : m.allocated b with
          | true => rfl
          | false => exact absurd queued (settled.gone known).2
        have place := (settled.living used).queued.mp queued
        have whole : (m.duties b).torn = 0 := by
          rw [place.2]
          rfl
        refine ⟨[.freed b, .tornDown b], rfl, ?_, ?_, ?_⟩
        · intro c
          by_cases here : c = b
          · simp [here, freeTask, kmtTeardown, used]
          · simp [here, Ne.symm here, freeTask, kmtTeardown, Machine.modify]
        · intro c
          by_cases here : c = b
          · simp [here, freeTask, kmtTeardown, Machine.modify, whole]
          · simp [Ne.symm here, freeTask, kmtTeardown, Machine.modify]
        · intro c listed
          have here : c = b := by simpa using listed
          rw [here]
          constructor
          · exact used
          · constructor
            · rw [place.1]
              simp
            · -- a task that is freed has no holders left
              intro cpu
              have free : (freeTask b (kmtTeardown b { m.modify b lockRunning with
                  ctxQueue := queue })).allocated b = false := Function.update_self _ _ _
              constructor
              · intro current
                have still := after.of_holds (show Machine.holds _ (.cpu cpu) b from Or.inl current)
                cases free.symm.trans still
              · intro last
                have still := after.of_holds (show Machine.holds _ (.cpu cpu) b from Or.inr last)
                cases free.symm.trans still

theorem save_same (cpu : Nat) (rand : Nat → Nat) (m : Machine T) :
    (kmtContextSwitch cpu rand (kmtContextSave cpu m)).log = m.log ∧
      (kmtContextSwitch cpu rand (kmtContextSave cpu m)).allocated = m.allocated ∧
        (kmtContextSwitch cpu rand (kmtContextSave cpu m)).duties = m.duties ∧
          (kmtContextSwitch cpu rand (kmtContextSave cpu m)).exits = m.exits := by
  have frame := save_frame cpu m
  unfold kmtContextSwitch
  split
  next =>
    rw [frame]
    exact ⟨rfl, rfl, rfl, rfl⟩
  next =>
    rw [frame]
    exact ⟨rfl, rfl, rfl, rfl⟩

theorem seize_books {duty : Duty} (seized : m.seize a duty = some m')
    (same : duty.torn = (m.duties a).torn) : Books m m' [] := by
  unfold Machine.seize at seized
  split at seized
  next => cases seized
  next =>
    cases seized
    exact books_silent rfl rfl fun _ => torn_of_other same

theorem back_books (ordered : Ordered m) {next : Back} (known : m.duties a = .back next)
    (ran : runBackCmd a next m = some m') : ∃ events, Books m m' events := by
  cases next with
  | lock =>
      refine ⟨[], seize_books ran ?_⟩
      rw [known]
      rfl
  | test =>
      simp only [runBackCmd] at ran
      split at ran
      next =>
        cases ran
        refine ⟨[], books_silent rfl rfl fun _ => torn_of_other ?_⟩
        rw [known]
        rfl
      next =>
        cases ran
        refine ⟨[], books_silent rfl rfl fun _ => torn_of_other ?_⟩
        rw [known]
        rfl
  | mark =>
      cases ran
      refine ⟨[], books_silent rfl rfl fun _ => torn_of_other ?_⟩
      change _ = (m.duties a).torn
      rw [known]
      rfl
  | unlock =>
      cases ran
      refine ⟨[], books_silent rfl rfl fun _ => torn_of_other ?_⟩
      change _ = (m.duties a).torn
      rw [known]
      rfl
  | teardown =>
      cases ran
      exact ⟨_, teardown_books ordered (by rw [known]; rfl) (by rw [known]; rfl)
        (by rw [known]; rfl) rfl⟩
  | free =>
      cases ran
      exact ⟨_, free_books ordered (by rw [known]; rfl) (by rw [known]; rfl) (by rw [known]; rfl)⟩
  | returned => cases ran

theorem wait_books (ordered : Ordered m) {next : Wait} (known : m.duties a = .wait next)
    (ran : kmtWait a next m = some m') : ∃ events, Books m m' events := by
  cases next with
  | test =>
      simp only [kmtWait] at ran
      split at ran
      next =>
        cases ran
        refine ⟨[], books_silent rfl rfl fun _ => torn_of_other ?_⟩
        rw [known]
        rfl
      next =>
        cases ran
        exact ⟨[], books_silent rfl rfl fun _ => rfl⟩
  | lock =>
      refine ⟨[], seize_books ran ?_⟩
      rw [known]
      rfl
  | teardown =>
      cases ran
      exact ⟨_, teardown_books ordered (by rw [known]; rfl) (by rw [known]; rfl)
        (by rw [known]; rfl) rfl⟩
  | free =>
      cases ran
      exact ⟨_, free_books ordered (by rw [known]; rfl) (by rw [known]; rfl) (by rw [known]; rfl)⟩

theorem exit_books (ran : exitStep a m = some m') : Books m m' [] := by
  unfold exitStep at ran
  split at ran
  next =>
    cases ran
    exact books_silent rfl rfl fun _ => rfl
  next =>
    cases ran
    exact books_silent rfl rfl fun _ => rfl
  next =>
    split at ran
    next =>
      rcases Option.map_eq_some_iff.mp ran with ⟨queue, -, rfl⟩
      exact books_silent rfl rfl fun _ => rfl
    next =>
      cases ran
      exact books_silent rfl rfl fun _ => rfl
  next => cases ran

theorem create_books (ordered : Ordered m) {cpu : Nat} {duty : Duty}
    (starts : m.starts cpu duty = true) (ran : kmtCreate cpu a duty m = some m') :
    Books m m' [.created a] := by
  have start : duty.torn = 0 := by
    unfold Machine.starts at starts
    simp only [Bool.or_eq_true, decide_eq_true_eq, Bool.and_eq_true] at starts
    rcases starts with rfl | ⟨-, rfl | rfl⟩ <;> rfl
  unfold kmtCreate at ran
  split at ran
  next => cases ran
  next unused =>
    rcases Option.map_eq_some_iff.mp ran with ⟨pid, -, rfl⟩
    rw [Bool.not_eq_true] at unused
    have done := ((ordered.settled a).gone unused).1
    have whole : (m.duties a).torn = 0 := by
      unfold Duty.done at done
      split at done
      next known => rw [known]; rfl
      next known => rw [known]; rfl
      next => cases done
    constructor
    · rfl
    · intro b
      by_cases here : b = a
      · simp [here, unused]
      · simp [here, Ne.symm here]
    · intro b
      change _ = _ + (Function.update m.duties a duty b).torn
      rw [torn_of_other (start.trans whole.symm)]
      simp
    · simp

theorem step_books {act : TaskAct T} (ordered : Ordered m) (stepped : taskStep act m = some m') :
    ∃ events, Books m m' events := by
  cases act with
  | trap cpu rand =>
      simp only [taskStep] at stepped
      split at stepped
      next trapped =>
        have saved := kmt_context_save_ordered ordered cpu
        have switched := kmt_context_switch_ordered saved cpu rand ((save_trapped cpu m).trans trapped)
        rcases clean_books switched stepped with ⟨events, books⟩
        have same := save_same cpu rand m
        exact ⟨events, books.from_same same.1 same.2.1 same.2.2.1 same.2.2.2⟩
      next => cases stepped
  | create cpu new duty =>
      simp only [taskStep] at stepped
      split at stepped
      next starts => exact ⟨_, create_books ordered starts stepped⟩
      next => cases stepped
  | count cpu ncli intena =>
      cases stepped
      exact ⟨[], books_silent rfl rfl fun _ => rfl⟩
  | sleep cpu =>
      rcases Option.map_eq_some_iff.mp stepped with ⟨b, -, rfl⟩
      exact ⟨[], books_silent rfl rfl fun _ => rfl⟩
  | wake b =>
      simp only [taskStep] at stepped
      split at stepped
      next =>
        cases stepped
        exact ⟨[], books_silent rfl rfl fun _ => rfl⟩
      next => cases stepped
  | exit cpu =>
      rcases Option.bind_eq_some_iff.mp stepped with ⟨b, -, ran⟩
      exact ⟨[], exit_books ran⟩
  | serve cpu b =>
      simp only [taskStep] at stepped
      split at stepped
      next =>
        split at stepped
        next => cases stepped
        next known => exact back_books ordered known stepped
        next known => exact wait_books ordered known stepped
      next => cases stepped

/-- A task is created, torn down and freed in turn. -/
structure Ledger (m : Machine T) : Prop where
  created : ∀ a, m.log.count (.created a) = m.log.count (.freed a) + (m.allocated a).toNat
  torn : ∀ a, m.log.count (.tornDown a) = m.log.count (.freed a) + (m.duties a).torn

theorem Books.ledger {events : List (TaskEvent T)} (books : Books m m' events) (ledger : Ledger m) :
    Ledger m' where
  created := by
    intro a
    have change := books.created a
    have before := ledger.created a
    rw [books.log, List.count_append, List.count_append]
    omega
  torn := by
    intro a
    have change := books.torn a
    have before := ledger.torn a
    rw [books.log, List.count_append, List.count_append]
    omega

end Books

section Purpose

variable {T : Type} {m m' : Machine T} {a : T}

/-- `ctx_queue` has room when `exit` enqueues, so that the task is not preempted there. -/
def queueRoom (act : TaskAct T) (m : Machine T) : Bool :=
  match act with
  | .trap cpu _ =>
      match m.currents cpu with
      | none => true
      | some a => m.exits a ≠ .unlisted
  | _ => true

/-- Who is in the last part of `exit` is on a CPU. -/
def Leaving (m : Machine T) : Prop :=
  ∀ a, m.exits a = .unlisted → ∃ cpu, m.currents cpu = some a

theorem Leaving.congr (leaving : Leaving m) (exits : m'.exits = m.exits)
    (currents : m'.currents = m.currents) : Leaving m' := by
  intro a unlisted
  rw [exits] at unlisted
  rw [currents]
  exact leaving a unlisted

/-- Nothing points to the task, and its creator is through with it. -/
structure Forgotten (m : Machine T) (a : T) : Prop where
  duty : (m.duties a).done = true
  slots : ∀ slot, m.tasks slot ≠ some a
  queue : some a ∉ m.ctxQueue.entries
  cpus : ∀ cpu, m.currents cpu ≠ some a ∧ m.lasts cpu ≠ some a

/-- `run_back_cmd` still has to look at its child, or the child waits in `ctx_queue`. -/
def Watched (m : Machine T) (a : T) : Prop :=
  m.duties a ≠ .back .returned ∨ some a ∈ m.ctxQueue.entries

/-- The task has become a zombie and is still in `exit` on its CPU. -/
def Exiting (m : Machine T) (a : T) : Prop :=
  (m.exits a = .zombie ∨ m.exits a = .unlisted) ∧ ∃ cpu, m.currents cpu = some a

theorem torn_le_one (duty : Duty) : duty.torn ≤ 1 := by
  unfold Duty.torn
  split
  next => exact Nat.le_refl _
  next => exact Nat.le_refl _
  next => exact Nat.zero_le _

theorem Ordered.forgotten (ordered : Ordered m) (unused : m.allocated a = false) :
    Forgotten m a where
  duty := ((ordered.settled a).gone unused).1
  slots := by
    intro slot stands
    cases unused.symm.trans ((ordered.settled a).listed slot stands).1
  queue := ((ordered.settled a).gone unused).2
  cpus := by
    intro cpu
    constructor
    · intro current
      cases unused.symm.trans (ordered.of_holds (show m.holds (.cpu cpu) a from Or.inl current))
    · intro last
      cases unused.symm.trans (ordered.of_holds (show m.holds (.cpu cpu) a from Or.inr last))

theorem Ordered.torn_used (ordered : Ordered m) (a : T) :
    (m.duties a).torn ≤ (m.allocated a).toNat := by
  cases known : m.allocated a with
  | true => exact torn_le_one _
  | false =>
      have done := ((ordered.settled a).gone known).1
      unfold Duty.done at done
      split at done
      next idle =>
        rw [idle]
        exact Nat.le_refl _
      next idle =>
        rw [idle]
        exact Nat.le_refl _
      next => cases done

end Purpose

section Leaving

variable {T : Type} [DecidableEq T] {m m' : Machine T} {a : T}

theorem back_leaving (leaving : Leaving m) {next : Back} (ran : runBackCmd a next m = some m') :
    Leaving m' := by
  cases next with
  | lock =>
      simp only [runBackCmd, Machine.seize] at ran
      split at ran
      next => cases ran
      next =>
        cases ran
        exact leaving.congr rfl rfl
  | test =>
      simp only [runBackCmd] at ran
      split at ran
      next =>
        cases ran
        exact leaving.congr rfl rfl
      next =>
        cases ran
        exact leaving.congr rfl rfl
  | mark =>
      cases ran
      exact leaving.congr rfl rfl
  | unlock =>
      cases ran
      exact leaving.congr rfl rfl
  | teardown =>
      cases ran
      exact leaving.congr rfl rfl
  | free =>
      cases ran
      exact leaving.congr rfl rfl
  | returned => cases ran

theorem wait_leaving (leaving : Leaving m) {next : Wait} (ran : kmtWait a next m = some m') :
    Leaving m' := by
  cases next with
  | test =>
      simp only [kmtWait] at ran
      split at ran
      next =>
        cases ran
        exact leaving.congr rfl rfl
      next =>
        cases ran
        exact leaving
  | lock =>
      simp only [kmtWait, Machine.seize] at ran
      split at ran
      next => cases ran
      next =>
        cases ran
        exact leaving.congr rfl rfl
  | teardown =>
      cases ran
      exact leaving.congr rfl rfl
  | free =>
      cases ran
      exact leaving.congr rfl rfl

theorem exits_of_update {exit : Exit} {b : T} (differs : exit ≠ .unlisted)
    (unlisted : Function.update m.exits a exit b = .unlisted) : m.exits b = .unlisted := by
  by_cases here : b = a
  · rw [here, Function.update_self] at unlisted
    exact absurd unlisted differs
  · rwa [Function.update_of_ne here] at unlisted

theorem exit_leaving (leaving : Leaving m) {cpu : Nat} (current : m.currents cpu = some a)
    (ran : exitStep a m = some m') : Leaving m' := by
  unfold exitStep at ran
  split at ran
  next =>
    cases ran
    exact fun b unlisted => leaving b (exits_of_update (by simp) unlisted)
  next =>
    cases ran
    intro b unlisted
    by_cases here : b = a
    · exact ⟨cpu, here ▸ current⟩
    · exact leaving b ((Function.update_of_ne here _ _).symm.trans unlisted)
  next =>
    split at ran
    next =>
      rcases Option.map_eq_some_iff.mp ran with ⟨queue, -, rfl⟩
      exact fun b unlisted => leaving b (exits_of_update (by simp) unlisted)
    next =>
      cases ran
      exact fun b unlisted => leaving b (exits_of_update (by simp) unlisted)
  next => cases ran

theorem clean_exits (cleaned : kmtContextClean m = some m') : m'.exits = m.exits := by
  unfold kmtContextClean at cleaned
  split at cleaned
  next =>
    cases cleaned
    rfl
  next =>
    split at cleaned
    next =>
      rcases Option.map_eq_some_iff.mp cleaned with ⟨queue, -, rfl⟩
      rfl
    next =>
      cases cleaned
      rfl

theorem step_leaving {act : TaskAct T} (ordered : Ordered m) (leaving : Leaving m)
    (roomy : queueRoom act m = true) (stepped : taskStep act m = some m') : Leaving m' := by
  cases act with
  | trap cpu rand =>
      have trapped := trap_cases ordered stepped
      simp only [taskStep] at stepped
      split at stepped
      next =>
        intro a unlisted
        rw [clean_exits stepped, (save_same cpu rand m).2.2.2] at unlisted
        rcases leaving a unlisted with ⟨other, current⟩
        have differs : other ≠ cpu := by
          intro same
          rw [same] at current
          simp [queueRoom, current, unlisted] at roomy
        refine ⟨other, ?_⟩
        rw [trapped.currents, Function.update_of_ne differs]
        exact current
      next => cases stepped
  | create cpu new duty =>
      simp only [taskStep] at stepped
      split at stepped
      next =>
        unfold kmtCreate at stepped
        split at stepped
        next => cases stepped
        next =>
          rcases Option.map_eq_some_iff.mp stepped with ⟨pid, -, rfl⟩
          exact fun b unlisted => leaving b (exits_of_update (by simp) unlisted)
      next => cases stepped
  | count cpu ncli intena =>
      cases stepped
      exact leaving.congr rfl rfl
  | sleep cpu =>
      rcases Option.map_eq_some_iff.mp stepped with ⟨b, -, rfl⟩
      exact leaving.congr rfl rfl
  | wake b =>
      simp only [taskStep] at stepped
      split at stepped
      next =>
        cases stepped
        exact leaving.congr rfl rfl
      next => cases stepped
  | exit cpu =>
      rcases Option.bind_eq_some_iff.mp stepped with ⟨b, current, ran⟩
      exact exit_leaving leaving current ran
  | serve cpu b =>
      simp only [taskStep] at stepped
      split at stepped
      next =>
        split at stepped
        next => cases stepped
        next => exact back_leaving leaving stepped
        next => exact wait_leaving leaving stepped
      next => cases stepped

/-- What holds of the tasks in every state. -/
structure Reclaimed (m : Machine T) : Prop where
  once : ∀ a, m.log.count (.freed a) ≤ m.log.count (.tornDown a) ∧
    m.log.count (.tornDown a) ≤ m.log.count (.created a) ∧
      m.log.count (.created a) ≤ m.log.count (.freed a) + 1
  dead : ∀ act next a, taskStep act m = some next →
    m.log.count (.tornDown a) < next.log.count (.tornDown a) ∨
      m.log.count (.freed a) < next.log.count (.freed a) →
        (m.memory a).has taskZombie = true ∧
          ∀ cpu, next.currents cpu ≠ some a ∧ next.lasts cpu ≠ some a
  unused : ∀ a, m.allocated a = false → Forgotten m a
  kept : ∀ a next, m.allocated a = true → m.duties a = .back next →
    (m.memory a).has taskZombie = true → Watched m a ∨ Exiting m a

theorem Ordered.reclaimed (ordered : Ordered m) (ledger : Ledger m) (leaving : Leaving m) :
    Reclaimed m where
  once := by
    intro a
    have created := ledger.created a
    have torn := ledger.torn a
    have used := ordered.torn_used a
    have one := Bool.toNat_le (m.allocated a)
    constructor
    · omega
    · constructor
      · omega
      · omega
  dead := by
    intro act next a stepped more
    rcases step_books ordered stepped with ⟨events, books⟩
    rw [books.log, List.count_append, List.count_append] at more
    have listed : .tornDown a ∈ events ∨ .freed a ∈ events := by
      rcases more with torn | freed
      · exact Or.inl (List.count_pos_iff.mp (by omega))
      · exact Or.inr (List.count_pos_iff.mp (by omega))
    rcases books.dead a listed with ⟨used, late, apart⟩
    exact ⟨((ordered.settled a).living used).zombie.mpr late, apart⟩
  unused := fun a unused => ordered.forgotten unused
  kept := by
    intro a next used known zombie
    have alive := (ordered.settled a).living used
    unfold Watched
    by_cases returned : m.duties a = .back .returned
    · cases place : m.exits a with
      | before => exact absurd place (alive.zombie.mp zombie)
      | zombie => exact Or.inr ⟨Or.inl place, alive.exiting place⟩
      | unlisted => exact Or.inr ⟨Or.inr place, leaving a place⟩
      | left => exact Or.inl (Or.inr (alive.queued.mpr ⟨place, returned⟩))
    · exact Or.inl (Or.inl returned)

/-- However traps, `exit`, `run_back_cmd` and `kmt_wait` interleave. -/
theorem children_reclaimed (memory : T → Task) (ncli intena : Nat → BitVec 32)
    (acts : List (TaskAct T)) (final : Machine T)
    (roomy : GuardedRun taskStep (fun act m => queueRoom act m = true) acts
      (powered memory ncli intena))
    (ran : runSteps taskStep acts (powered memory ncli intena) = some final) : Reclaimed final := by
  have all : Ordered final ∧ Ledger final ∧ Leaving final := by
    apply run_invariant taskStep ?_ acts _ final ?_ roomy ran
    · intro act state next kept room stepped
      rcases step_books kept.1 stepped with ⟨events, books⟩
      exact ⟨step_ordered act state next kept.1 stepped, books.ledger kept.2.1,
        step_leaving kept.1 kept.2.2 room stepped⟩
    · constructor
      · exact powered_ordered memory ncli intena
      · constructor
        · constructor
          · exact fun _ => rfl
          · exact fun _ => rfl
        · intro a unlisted
          cases unlisted
  exact all.1.reclaimed all.2.1 all.2.2

/-- Memory at the start of the examples. -/
def blankMachine : Machine Nat := powered (fun _ => blankTask 0) (fun _ => 0) fun _ => 0

/-- A shell starts a child in the background and lets it go; the child sets `TASK_ZOMBIE`. -/
def dying : List (TaskAct Nat) :=
  [.create 0 7 .none, .trap 0 fun _ => 1, .create 0 8 (.back .lock), .create 0 9 .none,
    .create 0 10 .none, .serve 0 8, .serve 0 8, .serve 0 8, .serve 0 8, .trap 1 fun _ => 2, .exit 1]

/-- The child goes on to `ctx_queue`, and its CPU leaves it and then its stack. -/
def buried : List (TaskAct Nat) :=
  dying ++ [.exit 1, .exit 1, .trap 1 fun _ => 3, .trap 1 fun _ => 4]

theorem children_reclaimed_once : ∃ final, Reclaimed final ∧
    runSteps taskStep buried blankMachine = some final ∧ final.allocated 8 = false ∧
      final.log.count (.freed 8) = 1 := by
  have results : (runSteps taskStep buried blankMachine).map
      (fun m => (m.allocated 8, m.log.count (.freed 8))) = some (false, 1) := by
    decide +kernel
  have roomy : GuardedRun taskStep (fun act m => queueRoom act m = true) buried blankMachine := by
    decide +kernel
  rcases Option.map_eq_some_iff.mp results with ⟨final, ran, known⟩
  simp only [Prod.mk.injEq] at known
  exact ⟨final, children_reclaimed _ _ _ buried final roomy ran, ran, known⟩

/-- While the child is on its way to `ctx_queue`, nobody watches it. -/
theorem zombie_unwatched : ¬∀ (acts : List (TaskAct Nat)) (final : Machine Nat),
    GuardedRun taskStep (fun act m => queueRoom act m = true) acts blankMachine →
      runSteps taskStep acts blankMachine = some final → ∀ a next, final.allocated a = true →
        final.duties a = .back next → (final.memory a).has taskZombie = true →
          Watched final a := by
  intro watched
  have results : (runSteps taskStep dying blankMachine).map
      (fun m => (m.allocated 8, m.duties 8, (m.memory 8).has taskZombie,
        decide (some 8 ∈ m.ctxQueue.entries))) = some (true, .back .returned, true, false) := by
    decide +kernel
  have roomy : GuardedRun taskStep (fun act m => queueRoom act m = true) dying blankMachine := by
    decide +kernel
  rcases Option.map_eq_some_iff.mp results with ⟨final, ran, known⟩
  simp only [Prod.mk.injEq, decide_eq_false_iff_not] at known
  rcases watched dying final roomy ran 8 .returned known.1 known.2.1 known.2.2.1 with let_go | queued
  · exact let_go known.2.1
  · exact known.2.2.2 queued

end Leaving

end OsWorkbench.Kernel
