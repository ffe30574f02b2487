import OsWorkbench.Kernel.TaskSteps

/-!
# Pids

The loop of `add_task_real` goes round the table until it meets a free slot, and knows no failure,
although `kmt_create` asserts that there was none. In every run of the machine the tasks of the table
have the indexes of their slots as pids; a new one gets a slot as long as there is one.
-/

namespace OsWorkbench.Kernel

open OsWorkbench.Library

section Search

variable {T : Type} {tasks : Nat → Option T} {fuel pid : Nat}

/-- The loop ends at a slot that is free. -/
theorem add_task_finds (free : ∃ d < fuel, tasks ((pid + 1 + d) % 0x40) = none) :
    ∃ slot < 0x40, addTask tasks fuel pid = some slot ∧ tasks slot = none := by
  induction fuel generalizing pid with
  | zero =>
      obtain ⟨d, below, -⟩ := free
      exact absurd below (Nat.not_lt_zero d)
  | succ fuel hypothesis =>
      rw [addTask]
      split
      next here => exact ⟨_, Nat.mod_lt _ (by decide), rfl, here⟩
      next taken =>
        obtain ⟨d, below, empty⟩ := free
        apply hypothesis
        cases d with
        | zero => exact absurd empty taken
        | succ d =>
            refine ⟨d, by omega, ?_⟩
            have same : ((pid + 1) % 0x40 + 1 + d) % 0x40 = (pid + 1 + (d + 1)) % 0x40 := by omega
            rw [same]
            exact empty

/-- A full table keeps it going. -/
theorem add_task_full (full : ∀ slot < 0x40, tasks slot ≠ none) : addTask tasks fuel pid = none := by
  induction fuel generalizing pid with
  | zero => rfl
  | succ fuel hypothesis =>
      rw [addTask]
      rw [if_neg (full _ (Nat.mod_lt _ (by decide)))]
      exact hypothesis

theorem add_task_returns {slot : Nat} (inside : slot < 0x40) (free : tasks slot = none) :
    ∃ slot < 0x40, addTask tasks 0x40 pid = some slot ∧ tasks slot = none := by
  refine add_task_finds ⟨(slot + 0x40 - (pid + 1) % 0x40) % 0x40, Nat.mod_lt _ (by decide), ?_⟩
  have same : (pid + 1 + (slot + 0x40 - (pid + 1) % 0x40) % 0x40) % 0x40 = slot := by omega
  rw [same]
  exact free

end Search

section Table

variable {T : Type} [DecidableEq T]

/-- What the table of tasks is to keep, and what the next `add_task_real` is to do with a new task. -/
structure PidsKept (m : Machine T) : Prop where
  own : ∀ slot a, m.tasks slot = some a → (m.memory a).pid = slot
  once : ∀ i j a, m.tasks i = some a → m.tasks j = some a → i = j
  ends : ∃ fuel slot, addTask m.tasks fuel m.pid = some slot
  stores : ∀ cpu new duty, m.allocated new = false → ∃ next slot,
    kmtCreate cpu new duty m = some next ∧ slot < 0x40 ∧ m.tasks slot = none ∧
      next.tasks = Function.update m.tasks slot (some new) ∧ (next.memory new).pid = slot

theorem create_stores {m : Machine T} {slot : Nat} (inside : slot < 0x40) (free : m.tasks slot = none)
    (cpu : Nat) {new : T} (duty : Duty) (unused : m.allocated new = false) : ∃ next slot,
      kmtCreate cpu new duty m = some next ∧ slot < 0x40 ∧ m.tasks slot = none ∧
        next.tasks = Function.update m.tasks slot (some new) ∧ (next.memory new).pid = slot := by
  obtain ⟨place, low, found, empty⟩ := @add_task_returns _ _ m.pid _ inside free
  have created : kmtCreate cpu new duty m = some { m with
      memory := Function.update m.memory new (blankTask place)
      allocated := Function.update m.allocated new true
      tasks := Function.update m.tasks place (some new)
      pid := place
      exits := Function.update m.exits new .before
      duties := Function.update m.duties new duty
      creators := Function.update m.creators new (m.currents cpu)
      log := .created new :: m.log } := by
    rw [kmtCreate, if_neg (by rw [unused]; exact Bool.false_ne_true), found, Option.map_some]
  refine ⟨_, place, created, low, empty, rfl, ?_⟩
  dsimp only
  rw [Function.update_self]
  rfl

/-- In every state of every run pids and slots agree, and what is to be kept of the table is, if and only
if a slot is free. -/
theorem pid_allocation (memory : T → Task) (ncli intena : Nat → BitVec 32) (acts : List (TaskAct T))
    (final : Machine T)
    (ran : runSteps taskStep acts (powered memory ncli intena) = some final) :
    (∀ slot a, final.tasks slot = some a → (final.memory a).pid = slot) ∧
      (∀ i j a, final.tasks i = some a → final.tasks j = some a → i = j) ∧
        (PidsKept final ↔ ∃ slot < 0x40, final.tasks slot = none) := by
  have ordered := run_ordered ran
  have own (slot : Nat) (a : T) (stands : final.tasks slot = some a) :
      (final.memory a).pid = slot := ((ordered.settled a).listed slot stands).2.1
  have once (i j : Nat) (a : T) (first : final.tasks i = some a) (second : final.tasks j = some a) :
      i = j := (own i a first).symm.trans (own j a second)
  refine ⟨own, once, ?_, ?_⟩
  · intro kept
    by_contra full
    push Not at full
    obtain ⟨fuel, slot, found⟩ := kept.ends
    rw [add_task_full full] at found
    exact nomatch found
  · rintro ⟨slot, inside, free⟩
    constructor
    case own => exact own
    case once => exact once
    case ends =>
      obtain ⟨place, -, found, -⟩ := @add_task_returns _ _ final.pid _ inside free
      exact ⟨0x40, place, found⟩
    case stores =>
      intro cpu new duty unused
      exact create_stores inside free cpu duty unused

end Table

/-- 64 tasks are created at the start. -/
def fillers : List (TaskAct Nat) := (List.range 0x40).map fun new => .create 0 new .none

theorem fillers_fill : ∃ final,
    runSteps taskStep fillers (powered (fun _ => blankTask 0) (fun _ => 0) fun _ => 0) = some final ∧
      ∀ slot < 0x40, final.tasks slot ≠ none := by
  have results : (runSteps taskStep fillers
      (powered (fun _ => blankTask 0) (fun _ => 0) fun _ => 0)).map
        (fun m => (List.range 0x40).all fun slot => (m.tasks slot).isSome) = some true := by
    decide +kernel
  obtain ⟨final, ran, known⟩ := Option.map_eq_some_iff.mp results
  refine ⟨final, ran, fun slot inside empty => ?_⟩
  have present := List.all_eq_true.mp known slot (List.mem_range.mpr inside)
  rw [empty] at present
  exact Bool.false_ne_true present

/-- The 65th call of `add_task_real` does not return. -/
theorem add_task_hangs : ∃ final,
    runSteps taskStep fillers (powered (fun _ => blankTask 0) (fun _ => 0) fun _ => 0) = some final ∧
      ∀ fuel, addTask final.tasks fuel final.pid = none := by
  obtain ⟨final, ran, full⟩ := fillers_fill
  exact ⟨final, ran, fun fuel => add_task_full full⟩

/-- A child is started, runs on another CPU and leaves the table; then one more task is created. -/
def leavers : List (TaskAct Nat) :=
  [.create 0 7 .none, .trap 0 fun _ => 1, .create 0 8 (.wait .test), .create 0 9 .none,
    .trap 1 fun _ => 2, .exit 1, .exit 1, .create 0 10 .none]

theorem pid_allocation_leavers : ∃ final,
    runSteps taskStep leavers (powered (fun _ => blankTask 0) (fun _ => 0) fun _ => 0) = some final ∧
      final.tasks 2 = none ∧ final.tasks 4 = some 10 ∧ (final.memory 10).pid = 4 ∧ PidsKept final := by
  have results : (runSteps taskStep leavers
      (powered (fun _ => blankTask 0) (fun _ => 0) fun _ => 0)).map
        (fun m => (m.tasks 2, m.tasks 4)) = some (none, some 10) := by
    decide +kernel
  obtain ⟨final, ran, known⟩ := Option.map_eq_some_iff.mp results
  obtain ⟨free, last⟩ := Prod.mk.inj known
  obtain ⟨own, -, exact⟩ := pid_allocation _ _ _ leavers final ran
  exact ⟨final, ran, free, last, own 4 10 last, exact.mpr ⟨2, by decide, free⟩⟩

end OsWorkbench.Kernel
