import OsWorkbench.Kernel.Tasks
import OsWorkbench.Library.Exclusion

/-!
# The life of a task

Who holds the lock of a task, and how its flags, its slot, its place in `ctx_queue` and the duty of
its creator go together. Every step keeps both.
-/

namespace OsWorkbench.Kernel

open OsWorkbench.Library

section Flags

variable {flag other : BitVec 32} {task : Task}

theorem has_set_self (nonzero : flag ≠ 0) : (setFlag flag task).has flag = true := by
  unfold Task.has setFlag
  rw [decide_eq_true_iff, BitVec.and_or_distrib_right, BitVec.and_self]
  intro zero
  exact nonzero (BitVec.or_eq_zero_iff.mp zero).2

theorem has_set_other (apart : flag &&& other = 0) :
    (setFlag flag task).has other = task.has other := by
  unfold Task.has setFlag
  rw [BitVec.and_or_distrib_right, apart]
  simp

theorem has_neg_other (inside : ~~~flag &&& other = other) :
    (negFlag flag task).has other = task.has other := by
  unfold Task.has negFlag
  simp only [BitVec.and_assoc, inside]

end Flags

/-- The creator is between taking the lock and giving it up. -/
def Duty.holds : Duty → Bool
  | .back .test | .back .mark | .back .unlock | .back .teardown | .back .free => true
  | .wait .teardown | .wait .free => true
  | _ => false

/-- `run_back_cmd` has set `TASK_NOWAIT`. -/
def Duty.marked : Duty → Bool
  | .back .unlock | .back .returned => true
  | _ => false

/-- `run_back_cmd` holds the lock and has found no zombie. -/
def Duty.early : Duty → Bool
  | .back .mark | .back .unlock => true
  | _ => false

/-- The creator has found a zombie. -/
def Duty.late : Duty → Bool
  | .back .teardown | .back .free => true
  | .wait .lock | .wait .teardown | .wait .free => true
  | _ => false

/-- The creator does not come back to the task. -/
def Duty.done : Duty → Bool
  | .none | .back .returned => true
  | _ => false

inductive Holder where
  | cpu (index : Nat)
  | creator
  deriving DecidableEq

section Alive

/-- How the parts of a task that is in use go together: `runs` says that a CPU has it as its current
task, `waits` that it is in `ctx_queue`. -/
structure Alive (task : Task) (exit : Exit) (duty : Duty) (runs waits : Prop) : Prop where
  zombie : task.has taskZombie = true ↔ exit ≠ .before
  nowait : task.has taskNowait = true ↔ duty.marked = true
  exiting : exit = .zombie → runs
  early : duty.early = true → exit = .before
  late : duty.late = true → exit ≠ .before
  queued : waits ↔ exit = .left ∧ duty = .back .returned

variable {task changed : Task} {exit : Exit} {duty next : Duty} {runs waits : Prop}

/-- Only two flags matter. -/
theorem Alive.congr (alive : Alive task exit duty runs waits)
    (zombie : changed.has taskZombie = task.has taskZombie)
    (nowait : changed.has taskNowait = task.has taskNowait) :
    Alive changed exit duty runs waits where
  zombie := by
    rw [zombie]
    exact alive.zombie
  nowait := by
    rw [nowait]
    exact alive.nowait
  exiting := alive.exiting
  early := alive.early
  late := alive.late
  queued := alive.queued

theorem Alive.moved {runs' : Prop} (alive : Alive task exit duty runs waits)
    (kept : exit = .zombie → runs → runs') :
    Alive task exit duty runs' waits where
  zombie := alive.zombie
  nowait := alive.nowait
  exiting := fun leaving => kept leaving (alive.exiting leaving)
  early := alive.early
  late := alive.late
  queued := alive.queued

theorem Alive.dies (alive : Alive task .before duty runs waits) (running : runs)
    (late : duty.early = false) : Alive (setFlag taskZombie task) .zombie duty runs waits where
  zombie := by
    rw [has_set_self (by decide)]
    simp
  nowait := by
    rw [has_set_other (by decide)]
    exact alive.nowait
  exiting := fun _ => running
  early := by
    intro early
    rw [late] at early
    cases early
  late := by simp
  queued := by
    have none := alive.queued
    simp at none
    simp [none]

theorem Alive.unlists (alive : Alive task .zombie duty runs waits) :
    Alive task .unlisted duty runs waits where
  zombie := by
    have zombie := alive.zombie
    simp at zombie
    simp [zombie]
  nowait := alive.nowait
  exiting := by simp
  early := fun early => absurd (alive.early early) (by simp)
  late := by simp
  queued := by
    have none := alive.queued
    simp at none
    simp [none]

/-- In its last access to itself, a task goes to `ctx_queue` exactly if `run_back_cmd` is through
with it. -/
theorem Alive.leaves (alive : Alive task .unlisted duty runs waits) :
    (task.has taskNowait = true ↔ duty = .back .returned) ∧ ¬waits := by
  have dead := alive.early
  have none := alive.queued
  simp at none
  constructor
  · rw [alive.nowait]
    constructor
    · intro marked
      cases duty with
      | none => cases marked
      | wait next => cases marked
      | back next =>
          cases next with
          | returned => rfl
          | unlock => cases dead rfl
          | lock => cases marked
          | test => cases marked
          | mark => cases marked
          | teardown => cases marked
          | free => cases marked
    · intro returned
      rw [returned]
      rfl
  · exact none

theorem Alive.left {waits' : Prop} (alive : Alive task .unlisted duty runs waits)
    (queued : waits' ↔ duty = .back .returned) : Alive task .left duty runs waits' where
  zombie := by
    have zombie := alive.zombie
    simp at zombie
    simp [zombie]
  nowait := alive.nowait
  exiting := by simp
  early := fun early => absurd (alive.early early) (by simp)
  late := by simp
  queued := by simp [queued]

/-- The creator goes on, and neither marks the task nor returns. -/
theorem Alive.serves (alive : Alive task exit duty runs waits)
    (marked : next.marked = duty.marked) (early : next.early = true → exit = .before)
    (late : next.late = true → exit ≠ .before) (before : duty ≠ .back .returned)
    (after : next ≠ .back .returned) : Alive task exit next runs waits where
  zombie := alive.zombie
  nowait := by
    rw [marked]
    exact alive.nowait
  exiting := alive.exiting
  early := early
  late := late
  queued := by
    have none := alive.queued
    simp [before] at none
    simp [after, none]

/-- The creator goes on with a dead task. -/
theorem Alive.serves_dead (alive : Alive task exit duty runs waits) (dead : exit ≠ .before)
    (marked : next.marked = duty.marked) (later : next.early = false)
    (before : duty ≠ .back .returned) (after : next ≠ .back .returned) :
    Alive task exit next runs waits :=
  alive.serves marked (fun early => nomatch later.symm.trans early) (fun _ => dead) before after

theorem Alive.marks (alive : Alive task exit (.back .mark) runs waits) :
    Alive (setFlag taskNowait task) exit (.back .unlock) runs waits where
  zombie := by
    rw [has_set_other (by decide)]
    exact alive.zombie
  nowait := by
    rw [has_set_self (by decide)]
    simp [Duty.marked]
  exiting := alive.exiting
  early := fun _ => alive.early rfl
  late := by simp [Duty.late]
  queued := by
    have none := alive.queued
    simp at none
    simp [none]

theorem Alive.returns (alive : Alive task exit (.back .unlock) runs waits) :
    Alive task exit (.back .returned) runs waits where
  zombie := alive.zombie
  nowait := by
    rw [alive.nowait]
    rfl
  exiting := alive.exiting
  early := by simp [Duty.early]
  late := by simp [Duty.late]
  queued := by
    have none := alive.queued
    have early := alive.early rfl
    simp at none
    simp [none, early]

end Alive

section Invariant

variable {T : Type}

def Machine.held (m : Machine T) (a : T) : Prop :=
  m.allocated a = true ∧ (m.memory a).running = true

def Machine.holds (m : Machine T) (holder : Holder) (a : T) : Prop :=
  match holder with
  | .cpu cpu => m.currents cpu = some a ∨ m.lasts cpu = some a
  | .creator => (m.duties a).holds = true

def Machine.living (m : Machine T) (a : T) : Prop :=
  Alive (m.memory a) (m.exits a) (m.duties a) (∃ cpu, m.currents cpu = some a)
    (some a ∈ m.ctxQueue.entries)

structure Settled (m : Machine T) (a : T) : Prop where
  listed : ∀ slot, m.tasks slot = some a →
    m.allocated a = true ∧ (m.memory a).pid = slot ∧ (m.exits a = .before ∨ m.exits a = .zombie)
  living : m.allocated a = true → m.living a
  gone : m.allocated a = false → (m.duties a).done = true ∧ some a ∉ m.ctxQueue.entries

structure Ordered (m : Machine T) : Prop where
  locks : Exclusive m.held m.holds
  settled : ∀ a, Settled m a
  ring : m.ctxQueue.Sound
  once : m.ctxQueue.entries.Nodup
  real : none ∉ m.ctxQueue.entries

/-- A step that concerns one task leaves the others as they are. -/
structure Touches (m m' : Machine T) (a : T) : Prop where
  memory : ∀ b, b ≠ a → m'.memory b = m.memory b
  allocated : ∀ b, b ≠ a → m'.allocated b = m.allocated b
  exits : ∀ b, b ≠ a → m'.exits b = m.exits b
  duties : ∀ b, b ≠ a → m'.duties b = m.duties b
  currents : m'.currents = m.currents
  lasts : m'.lasts = m.lasts
  tasks : ∀ slot b, b ≠ a → m'.tasks slot = some b → m.tasks slot = some b
  queue : ∀ b, b ≠ a → (some b ∈ m'.ctxQueue.entries ↔ some b ∈ m.ctxQueue.entries)

variable {m m' : Machine T} {a : T}

theorem Touches.trans {m'' : Machine T} (first : Touches m m' a) (second : Touches m' m'' a) :
    Touches m m'' a where
  memory := fun b other => (second.memory b other).trans (first.memory b other)
  allocated := fun b other => (second.allocated b other).trans (first.allocated b other)
  exits := fun b other => (second.exits b other).trans (first.exits b other)
  duties := fun b other => (second.duties b other).trans (first.duties b other)
  currents := second.currents.trans first.currents
  lasts := second.lasts.trans first.lasts
  tasks := fun slot b other stands => first.tasks slot b other (second.tasks slot b other stands)
  queue := fun b other => (second.queue b other).trans (first.queue b other)

theorem Touches.cpu_holds (touches : Touches m m' a) {cpu : Nat} {b : T} :
    m'.holds (.cpu cpu) b ↔ m.holds (.cpu cpu) b := by
  unfold Machine.holds
  rw [touches.currents, touches.lasts]

theorem Touches.settled (touches : Touches m m' a) (settled : ∀ b, Settled m b)
    (here : Settled m' a) (b : T) : Settled m' b := by
  by_cases same : b = a
  · rw [same]
    exact here
  · have before := settled b
    constructor
    · intro slot stands
      rw [touches.allocated b same, touches.memory b same, touches.exits b same]
      exact before.listed slot (touches.tasks slot b same stands)
    · intro used
      rw [touches.allocated b same] at used
      unfold Machine.living
      rw [touches.memory b same, touches.exits b same, touches.duties b same, touches.currents,
        touches.queue b same]
      exact before.living used
    · intro unused
      rw [touches.allocated b same] at unused
      rw [touches.duties b same, touches.queue b same]
      exact before.gone unused

/-- Only the creator can have taken the lock of the task that the step concerns. -/
theorem Touches.locks (touches : Touches m m' a) (locks : Exclusive m.held m.holds)
    (still : ∀ holder, m'.holds holder a → m'.held a)
    (taken : (m'.duties a).holds = true → (m.duties a).holds = true ∨ ¬m.held a) :
    Exclusive m'.held m'.holds := by
  apply locks.evolve
  · intro holder b holds
    by_cases same : b = a
    · rw [same] at holds ⊢
      exact still holder holds
    · unfold Machine.held
      rw [touches.allocated b same, touches.memory b same]
      apply locks.locked holder b
      cases holder with
      | cpu cpu => exact touches.cpu_holds.mp holds
      | creator =>
          change (m'.duties b).holds = true at holds
          rw [touches.duties b same] at holds
          exact holds
  · intro holder b holds
    cases holder with
    | cpu cpu => exact Or.inl (touches.cpu_holds.mp holds)
    | creator =>
        by_cases same : b = a
        · rw [same] at holds ⊢
          cases taken holds with
          | inl before => exact Or.inl before
          | inr free =>
              right
              constructor
              · exact free
              · intro other also
                cases other with
                | creator => rfl
                | cpu cpu => exact absurd (touches.cpu_holds.mp also) (locks.free free (.cpu cpu))
        · left
          change (m'.duties b).holds = true at holds
          rw [touches.duties b same] at holds
          exact holds

/-- The lock of the task and who holds it stay as they are. -/
theorem Touches.same_locks (touches : Touches m m' a) (locks : Exclusive m.held m.holds)
    (held : m.held a → m'.held a) (holds : (m'.duties a).holds = true → (m.duties a).holds = true) :
    Exclusive m'.held m'.holds := by
  apply touches.locks locks
  · intro holder holding
    apply held
    cases holder with
    | cpu cpu => exact locks.locked (.cpu cpu) a (touches.cpu_holds.mp holding)
    | creator => exact locks.locked .creator a (holds holding)
  · exact fun holding => Or.inl (holds holding)

/-- The creator gives the lock up, so nobody is left. -/
theorem Touches.released (touches : Touches m m' a) (locks : Exclusive m.held m.holds)
    (before : (m.duties a).holds = true) (after : (m'.duties a).holds = false) :
    Exclusive m'.held m'.holds := by
  apply touches.locks locks
  · intro holder holding
    cases holder with
    | cpu cpu =>
        have same := locks.unique (.cpu cpu) .creator a (touches.cpu_holds.mp holding) before
        cases same
    | creator =>
        change (m'.duties a).holds = true at holding
        rw [after] at holding
        cases holding
  · intro holding
    rw [after] at holding
    cases holding

/-- Nobody holds a task that is not locked. -/
theorem Touches.unheld (touches : Touches m m' a) (locks : Exclusive m.held m.holds)
    (free : ¬m.held a) (after : (m'.duties a).holds = false) : Exclusive m'.held m'.holds := by
  apply touches.locks locks
  · intro holder holding
    cases holder with
    | cpu cpu => exact absurd (touches.cpu_holds.mp holding) (locks.free free (.cpu cpu))
    | creator =>
        change (m'.duties a).holds = true at holding
        rw [after] at holding
        cases holding
  · intro holding
    rw [after] at holding
    cases holding

theorem Ordered.used (ordered : Ordered m) (busy : (m.duties a).done = false) :
    m.allocated a = true := by
  cases known : m.allocated a with
  | true => rfl
  | false =>
      have done := ((ordered.settled a).gone known).1
      rw [busy] at done
      cases done

/-- An entry that was not put there now was there before. -/
theorem of_update {table : Nat → Option T} {index place : Nat} {entry : Option T} {b : T}
    (stands : Function.update table place entry index = some b) (differs : entry ≠ some b) :
    table index = some b := by
  by_cases same : index = place
  · rw [same, Function.update_self] at stands
    exact absurd stands differs
  · rwa [Function.update_of_ne same] at stands

theorem add_task_free {tasks : Nat → Option T} {fuel pid slot : Nat}
    (found : addTask tasks fuel pid = some slot) : tasks slot = none := by
  induction fuel generalizing pid with
  | zero => cases found
  | succ fuel hypothesis =>
      unfold addTask at found
      simp only at found
      split at found
      next free =>
        cases found
        exact free
      next => exact hypothesis found

/-- What holds of a child while its creator is busy with it. -/
theorem Ordered.child (ordered : Ordered m) {duty : Duty} (known : m.duties a = duty)
    (busy : duty.done = false) :
    Alive (m.memory a) (m.exits a) duty (∃ cpu, m.currents cpu = some a)
      (some a ∈ m.ctxQueue.entries) := by
  rw [← known] at busy ⊢
  exact (ordered.settled a).living (ordered.used busy)

/-- A task of which a CPU or the creator has the lock is in use. -/
theorem Ordered.of_holds (ordered : Ordered m) {holder : Holder} (holds : m.holds holder a) :
    m.allocated a = true := (ordered.locks.locked holder a holds).1

theorem Ordered.apart (ordered : Ordered m) (holds : (m.duties a).holds = true) (cpu : Nat) :
    m.currents cpu ≠ some a ∧ m.lasts cpu ≠ some a := by
  constructor
  · intro current
    have same := ordered.locks.unique (.cpu cpu) .creator a (Or.inl current) holds
    cases same
  · intro last
    have same := ordered.locks.unique (.cpu cpu) .creator a (Or.inr last) holds
    cases same

/-- A zombie that no CPU runs has given up its slot. -/
theorem Ordered.unlisted (ordered : Ordered m) (used : m.allocated a = true)
    (dead : m.exits a ≠ .before) (apart : ∀ cpu, m.currents cpu ≠ some a) (slot : Nat) :
    m.tasks slot ≠ some a := by
  intro stands
  rcases ((ordered.settled a).listed slot stands).2.2 with early | zombie
  · exact dead early
  · rcases ((ordered.settled a).living used).exiting zombie with ⟨cpu, current⟩
    exact apart cpu current

theorem Ordered.touched (ordered : Ordered m) (touches : Touches m m' a)
    (locks : Exclusive m'.held m'.holds) (here : Settled m' a) (queue : m'.ctxQueue = m.ctxQueue) :
    Ordered m' where
  locks := locks
  settled := touches.settled ordered.settled here
  ring := by
    rw [queue]
    exact ordered.ring
  once := by
    rw [queue]
    exact ordered.once
  real := by
    rw [queue]
    exact ordered.real

/-- What there is to say about a task whose memory is in use. -/
theorem settled_used (used : m.allocated a = true) (living : m.living a)
    (listed : ∀ slot, m.tasks slot = some a →
      (m.memory a).pid = slot ∧ (m.exits a = .before ∨ m.exits a = .zombie)) : Settled m a where
  listed := fun slot stands => ⟨used, listed slot stands⟩
  living := fun _ => living
  gone := fun unused => nomatch used.symm.trans unused

/-- A task in use stays settled if its slot does and its parts go together. -/
theorem Settled.kept (settled : Settled m a) (used : m'.allocated a = true)
    (living : m'.living a) (tasks : m'.tasks = m.tasks)
    (pid : (m'.memory a).pid = (m.memory a).pid)
    (exits : m.exits a = .before → m'.exits a = .before ∨ m'.exits a = .zombie)
    (later : m.exits a = .zombie → m'.exits a = .zombie) : Settled m' a := by
  apply settled_used used living
  intro slot stands
  rw [tasks] at stands
  have before := settled.listed slot stands
  constructor
  · rw [pid]
    exact before.2.1
  · rcases before.2.2 with early | late
    · exact exits early
    · exact Or.inr (later late)

/-- What was torn down only the log shows. -/
theorem Ordered.teardown (ordered : Ordered m) (b : T) : Ordered (kmtTeardown b m) where
  locks := ordered.locks
  settled := fun a => ⟨(ordered.settled a).listed, (ordered.settled a).living, (ordered.settled a).gone⟩
  ring := ordered.ring
  once := ordered.once
  real := ordered.real

theorem draw_task_runnable {rand : Nat → Nat} {cnt : Nat} (drawn : drawTask m rand cnt = some a) :
    ∃ slot, m.tasks slot = some a ∧ (m.memory a).attr &&& ~~~taskNowait = 0 ∧
      (m.memory a).running = false := by
  induction cnt with
  | zero => cases drawn
  | succ cnt hypothesis =>
      unfold drawTask at drawn
      split at drawn
      next => cases drawn
      next =>
        split at drawn
        next b found =>
          cases drawn
          unfold Machine.runnable at found
          split at found
          next => cases found
          next c stands =>
            split at found
            next => cases found
            next fit =>
              cases found
              rw [not_or, not_not, Bool.not_eq_true] at fit
              exact ⟨_, stands, fit.1, fit.2⟩
        next => exact hypothesis drawn

theorem Settled.congr (settled : Settled m a) (tasks : m'.tasks = m.tasks)
    (allocated : m'.allocated = m.allocated) (exits : m'.exits = m.exits)
    (duties : m'.duties = m.duties) (queue : m'.ctxQueue = m.ctxQueue)
    (pid : (m'.memory a).pid = (m.memory a).pid)
    (attr : (m'.memory a).attr = (m.memory a).attr)
    (runs : m.exits a = .zombie →
      (∃ cpu, m.currents cpu = some a) → ∃ cpu, m'.currents cpu = some a) : Settled m' a where
  listed := by
    rw [tasks, allocated, exits, pid]
    exact settled.listed
  living := by
    intro used
    rw [allocated] at used
    unfold Machine.living
    rw [exits, duties, queue]
    apply ((settled.living used).moved runs).congr
    · unfold Task.has
      rw [attr]
    · unfold Task.has
      rw [attr]
  gone := by
    rw [allocated, duties, queue]
    exact settled.gone

theorem powered_ordered (memory : T → Task) (ncli intena : Nat → BitVec 32) :
    Ordered (powered memory ncli intena) where
  locks := by
    constructor
    · intro holder a holds
      cases holder with
      | cpu cpu =>
          rcases holds with current | last
          · cases current
          · cases last
      | creator => cases holds
    · intro holder other a holds
      cases holder with
      | cpu cpu =>
          rcases holds with current | last
          · cases current
          · cases last
      | creator => cases holds
  settled := by
    intro a
    constructor
    · intro slot stands
      cases stands
    · intro used
      cases used
    · intro _
      constructor
      · rfl
      · change some a ∉ Pool.empty.entries
        rw [Pool.empty_entries]
        exact List.not_mem_nil
  ring := Pool.empty_sound
  once := by
    change Pool.empty.entries.Nodup
    rw [Pool.empty_entries]
    exact List.nodup_nil
  real := by
    change none ∉ Pool.empty.entries
    rw [Pool.empty_entries]
    exact List.not_mem_nil

end Invariant

section Serving

variable {T : Type} [DecidableEq T] {m m' : Machine T} {a : T}

theorem touches_modify (m : Machine T) (a : T) (change : Task → Task) :
    Touches m (m.modify a change) a where
  memory := fun _ other => Function.update_of_ne other _ _
  allocated := fun _ _ => rfl
  exits := fun _ _ => rfl
  duties := fun _ _ => rfl
  currents := rfl
  lasts := rfl
  tasks := fun _ _ _ stands => stands
  queue := fun _ _ => Iff.rfl

theorem touches_duty (m : Machine T) (a : T) (duty : Duty) : Touches m (m.setDuty a duty) a where
  memory := fun _ _ => rfl
  allocated := fun _ _ => rfl
  exits := fun _ _ => rfl
  duties := fun _ other => Function.update_of_ne other _ _
  currents := rfl
  lasts := rfl
  tasks := fun _ _ _ stands => stands
  queue := fun _ _ => Iff.rfl

theorem touches_exit (m : Machine T) (a : T) (exit : Exit) :
    Touches m { m with exits := Function.update m.exits a exit } a where
  memory := fun _ _ => rfl
  allocated := fun _ _ => rfl
  exits := fun _ other => Function.update_of_ne other _ _
  duties := fun _ _ => rfl
  currents := rfl
  lasts := rfl
  tasks := fun _ _ _ stands => stands
  queue := fun _ _ => Iff.rfl

theorem touches_free (m : Machine T) (a : T) : Touches m (freeTask a m) a where
  memory := fun _ _ => rfl
  allocated := fun _ other => Function.update_of_ne other _ _
  exits := fun _ _ => rfl
  duties := fun _ _ => rfl
  currents := rfl
  lasts := rfl
  tasks := fun _ _ _ stands => stands
  queue := fun _ _ => Iff.rfl

/-- The task changes, but not in what the scheduler and its creator go by. -/
theorem Ordered.modify (ordered : Ordered m) {change : Task → Task}
    (running : (change (m.memory a)).running = (m.memory a).running)
    (pid : (change (m.memory a)).pid = (m.memory a).pid)
    (zombie : (change (m.memory a)).has taskZombie = (m.memory a).has taskZombie)
    (nowait : (change (m.memory a)).has taskNowait = (m.memory a).has taskNowait) :
    Ordered (m.modify a change) := by
  have touches := touches_modify m a change
  have self : (m.modify a change).memory a = change (m.memory a) := Function.update_self _ _ _
  have settled := ordered.settled a
  apply ordered.touched touches
  · apply touches.same_locks ordered.locks
    · intro held
      unfold Machine.held
      rw [self, running]
      exact held
    · exact id
  · constructor
    · intro slot stands
      rw [self, pid]
      exact settled.listed slot stands
    · intro used
      unfold Machine.living
      rw [self]
      exact (settled.living used).congr zombie nowait
    · exact settled.gone
  · rfl

/-- The creator takes the lock of the task. -/
theorem Ordered.seize (ordered : Ordered m) {duty : Duty} (seized : m.seize a duty = some m')
    (busy : (m.duties a).done = false)
    (alive : Alive (m.memory a) (m.exits a) duty (∃ cpu, m.currents cpu = some a)
      (some a ∈ m.ctxQueue.entries)) : Ordered m' := by
  have used := ordered.used busy
  unfold Machine.seize at seized
  split at seized
  next => cases seized
  next free =>
    cases seized
    have touches := (touches_modify m a lockRunning).trans (touches_duty _ a duty)
    have self : ((m.modify a lockRunning).setDuty a duty).memory a = lockRunning (m.memory a) :=
      Function.update_self _ _ _
    have own : ((m.modify a lockRunning).setDuty a duty).duties a = duty :=
      Function.update_self _ _ _
    apply ordered.touched touches
    · apply touches.locks ordered.locks
      · intro holder _
        constructor
        · exact used
        · rw [self]
          rfl
      · exact fun _ => Or.inr fun held => free held.2
    · have still : ((m.modify a lockRunning).setDuty a duty).allocated a = true := used
      apply (ordered.settled a).kept still
      · unfold Machine.living
        rw [self, own]
        exact alive.congr rfl rfl
      · rfl
      · rw [self]
        rfl
      · exact Or.inl
      · exact id
    · rfl

/-- The creator goes on and keeps what it holds. -/
theorem Ordered.serves (ordered : Ordered m) {duty : Duty} (busy : (m.duties a).done = false)
    (holds : duty.holds = true → (m.duties a).holds = true)
    (alive : Alive (m.memory a) (m.exits a) duty (∃ cpu, m.currents cpu = some a)
      (some a ∈ m.ctxQueue.entries)) : Ordered (m.setDuty a duty) := by
  have used := ordered.used busy
  have touches := touches_duty m a duty
  have own : (m.setDuty a duty).duties a = duty := Function.update_self _ _ _
  apply ordered.touched touches
  · apply touches.same_locks ordered.locks
    · exact id
    · rw [own]
      exact holds
  · have still : (m.setDuty a duty).allocated a = true := used
    apply (ordered.settled a).kept still
    · unfold Machine.living
      rw [own]
      exact alive
    · rfl
    · rfl
    · exact Or.inl
    · exact id
  · rfl

/-- The creator holds a dead task and frees it. -/
theorem Ordered.frees (ordered : Ordered m) (holds : (m.duties a).holds = true)
    (late : (m.duties a).late = true) : Ordered ((freeTask a m).setDuty a .none) := by
  have used := ordered.of_holds (show m.holds .creator a from holds)
  have alive := (ordered.settled a).living used
  have unlisted := ordered.unlisted used (alive.late late) fun cpu => (ordered.apart holds cpu).1
  have touches := (touches_free m a).trans (touches_duty _ a .none)
  have own : ((freeTask a m).setDuty a .none).duties a = .none := Function.update_self _ _ _
  have unused : ((freeTask a m).setDuty a .none).allocated a = false := Function.update_self _ _ _
  apply ordered.touched touches
  · apply touches.released ordered.locks holds
    rw [own]
    rfl
  · constructor
    · intro slot stands
      exact absurd stands (unlisted slot)
    · intro used
      rw [unused] at used
      cases used
    · intro _
      constructor
      · rw [own]
        rfl
      · intro queued
        have returned := (alive.queued.mp queued).2
        rw [returned] at late
        cases late
  · rfl

end Serving

end OsWorkbench.Kernel
