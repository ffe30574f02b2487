import OsWorkbench.Kernel.Pool
import Mathlib.Data.BitVec

/-!
# Tasks of `kmt.c`

The table of tasks, the three handlers that every trap runs, and the life of a task: `kmt_create`,
`exit`, and what `run_back_cmd` and `kmt_wait` do with a child. A trap is one step; `exit`,
`run_back_cmd` and the callers of `kmt_wait` take one step for each access to the task. Contexts,
stacks, names and descriptors are left out, as is the stop on a damaged stack fence.
-/

namespace OsWorkbench.Kernel

open OsWorkbench.Library

/-- `task_t`, as far as the scheduler reads it. -/
structure Task where
  attr : BitVec 32
  ncli : BitVec 32
  intena : BitVec 32
  pid : Nat
  running : Bool

def taskSleep : BitVec 32 := 1
def taskZombie : BitVec 32 := 4
def taskNowait : BitVec 32 := 8

def setFlag (flag : BitVec 32) (task : Task) : Task := { task with attr := task.attr ||| flag }

def negFlag (flag : BitVec 32) (task : Task) : Task := { task with attr := task.attr &&& ~~~flag }

def Task.has (task : Task) (flag : BitVec 32) : Bool := decide (task.attr &&& flag ≠ 0)

def lockRunning (task : Task) : Task := { task with running := true }

def unlockRunning (task : Task) : Task := { task with running := false }

/-- How far a task has come in `exit`. -/
inductive Exit where
  | before
  | zombie
  | unlisted
  | left
  deriving DecidableEq

/-- The next access of `run_back_cmd` to its child. -/
inductive Back where
  | lock
  | test
  | mark
  | unlock
  | teardown
  | free
  | returned
  deriving DecidableEq

/-- The next access of `kmt_wait` and of its caller to a child. -/
inductive Wait where
  | test
  | lock
  | teardown
  | free
  deriving DecidableEq

/-- What the creator of a task still does with it. The tasks of `os_init` and `dev_init` are left
to themselves. -/
inductive Duty where
  | none
  | back (next : Back)
  | wait (next : Wait)
  deriving DecidableEq

inductive TaskEvent (T : Type) where
  | created (task : T)
  | tornDown (task : T)
  | freed (task : T)
  deriving DecidableEq

/-- Everything the CPUs share, and the variables that each of them has for itself. `memory` is what
stands at an address, `allocated` what the allocator has given out; the last four fields are where
the running code stands and what it has done. -/
structure Machine (T : Type) where
  memory : T → Task
  allocated : T → Bool
  tasks : Nat → Option T
  pid : Nat
  currents : Nat → Option T
  lasts : Nat → Option T
  ncli : Nat → BitVec 32
  intena : Nat → BitVec 32
  ctxQueue : Pool T
  exits : T → Exit
  duties : T → Duty
  creators : T → Option T
  log : List (TaskEvent T)

section Source

variable {T : Type} [DecidableEq T]

def Machine.modify (m : Machine T) (a : T) (change : Task → Task) : Machine T :=
  { m with memory := Function.update m.memory a (change (m.memory a)) }

def unlockLast (cpu : Nat) (m : Machine T) : Machine T :=
  match m.lasts cpu with
  | some last => if m.currents cpu ≠ some last then m.modify last unlockRunning else m
  | none => m

def setLast (cpu : Nat) (m : Machine T) : Machine T :=
  { m with lasts := Function.update m.lasts cpu (m.currents cpu) }

def saveContext (cpu : Nat) (m : Machine T) : Machine T :=
  match m.currents cpu with
  | some current =>
      m.modify current fun task => { task with ncli := m.ncli cpu, intena := m.intena cpu }
  | none => m

def kmtContextSave (cpu : Nat) (m : Machine T) : Machine T :=
  saveContext cpu (setLast cpu (unlockLast cpu m))

/-- The slot is taken by a task that has no flag but `TASK_NOWAIT` and whose lock is free. -/
def Machine.runnable (m : Machine T) (slot : Nat) : Option T :=
  match m.tasks slot with
  | none => none
  | some a =>
      if (m.memory a).attr &&& ~~~taskNowait ≠ 0 ∨ (m.memory a).running then none else some a

/-- The loop of `kmt_context_switch_real`: it gives up when `cnt` reaches 0. -/
def drawTask (m : Machine T) (rand : Nat → Nat) : Nat → Option T
  | 0 => none
  | cnt + 1 =>
      if cnt = 0 then none
      else match m.runnable (rand cnt % 0x40) with
        | some a => some a
        | none => drawTask m rand cnt

def kmtContextSwitch (cpu : Nat) (rand : Nat → Nat) (m : Machine T) : Machine T :=
  match drawTask m rand 10000 with
  | none => { m with currents := Function.update m.currents cpu none }
  | some a =>
      { m.modify a lockRunning with
        currents := Function.update m.currents cpu (some a)
        ncli := Function.update m.ncli cpu (m.memory a).ncli
        intena := Function.update m.intena cpu (m.memory a).intena }

def kmtTeardown (a : T) (m : Machine T) : Machine T := { m with log := .tornDown a :: m.log }

def freeTask (a : T) (m : Machine T) : Machine T :=
  { m with allocated := Function.update m.allocated a false, log := .freed a :: m.log }

def kmtContextClean (m : Machine T) : Option (Machine T) :=
  match dequeue m.ctxQueue with
  | (none, queue) => some { m with ctxQueue := queue }
  | (some a, queue) =>
      if (m.memory a).running then
        (enqueue queue a).map fun queue => { m with ctxQueue := queue }
      else
        let m := { m.modify a lockRunning with ctxQueue := queue }
        some (freeTask a (kmtTeardown a m))

/-- The next free slot after `pid`; with none free, the loop of `add_task` goes on for ever. -/
def addTask (tasks : Nat → Option T) : Nat → Nat → Option Nat
  | 0, _ => none
  | fuel + 1, pid =>
      let pid := (pid + 1) % 0x40
      if tasks pid = none then some pid else addTask tasks fuel pid

def blankTask (pid : Nat) : Task := ⟨0, 0, 0, pid, false⟩

/-- The allocator gives an address that is not in use; that of a `task_t` that was freed may come again. -/
def kmtCreate (cpu : Nat) (new : T) (duty : Duty) (m : Machine T) : Option (Machine T) :=
  if m.allocated new then none
  else (addTask m.tasks 0x40 m.pid).map fun pid =>
    { m with
      memory := Function.update m.memory new (blankTask pid)
      allocated := Function.update m.allocated new true
      tasks := Function.update m.tasks pid (some new)
      pid := pid
      exits := Function.update m.exits new .before
      duties := Function.update m.duties new duty
      creators := Function.update m.creators new (m.currents cpu)
      log := .created new :: m.log }

/-- The next access of `exit`, which closes interrupts first; its `_yield` is a trap. -/
def exitStep (a : T) (m : Machine T) : Option (Machine T) :=
  match m.exits a with
  | .before =>
      some { m.modify a (setFlag taskZombie) with exits := Function.update m.exits a .zombie }
  | .zombie =>
      some { m with
        tasks := Function.update m.tasks (m.memory a).pid none
        exits := Function.update m.exits a .unlisted }
  | .unlisted =>
      if (m.memory a).has taskNowait then
        (enqueue m.ctxQueue a).map fun queue =>
          { m with ctxQueue := queue, exits := Function.update m.exits a .left }
      else some { m with exits := Function.update m.exits a .left }
  | .left => none

def Machine.setDuty (m : Machine T) (a : T) (duty : Duty) : Machine T :=
  { m with duties := Function.update m.duties a duty }

/-- `pthread_mutex_lock(&a->running)`. -/
def Machine.seize (m : Machine T) (a : T) (duty : Duty) : Option (Machine T) :=
  if (m.memory a).running then none else some ((m.modify a lockRunning).setDuty a duty)

def runBackCmd (a : T) (next : Back) (m : Machine T) : Option (Machine T) :=
  match next with
  | .lock => m.seize a (.back .test)
  | .test =>
      if (m.memory a).has taskZombie then some (m.setDuty a (.back .teardown))
      else some (m.setDuty a (.back .mark))
  | .mark => some ((m.modify a (setFlag taskNowait)).setDuty a (.back .unlock))
  | .unlock => some ((m.modify a unlockRunning).setDuty a (.back .returned))
  | .teardown => some ((kmtTeardown a m).setDuty a (.back .free))
  | .free => some ((freeTask a m).setDuty a .none)
  | .returned => none

/-- `kmt_wait`, `kmt_teardown` and `pmm->free`, as `run_list_cmd` and `run_pipe_cmd` call them. -/
def kmtWait (a : T) (next : Wait) (m : Machine T) : Option (Machine T) :=
  match next with
  | .test =>
      if (m.memory a).has taskZombie then some (m.setDuty a (.wait .lock)) else some m
  | .lock => m.seize a (.wait .teardown)
  | .teardown => some ((kmtTeardown a m).setDuty a (.wait .free))
  | .free => some ((freeTask a m).setDuty a .none)

inductive TaskAct (T : Type) where
  | trap (cpu : Nat) (rand : Nat → Nat)
  | create (cpu : Nat) (new : T) (duty : Duty)
  | count (cpu : Nat) (ncli intena : BitVec 32)
  | sleep (cpu : Nat)
  | wake (a : T)
  | exit (cpu : Nat)
  | serve (cpu : Nat) (a : T)

/-- The task that runs on the CPU and has not called `exit`. -/
def Machine.acting (m : Machine T) (cpu : Nat) : Option T :=
  match m.currents cpu with
  | none => none
  | some a => if m.exits a = .before then some a else none

/-- `exit` is not preempted before its `_yield`, but `enqueue` yields while the pool is full. -/
def Machine.trapped (m : Machine T) (cpu : Nat) : Bool :=
  match m.currents cpu with
  | none => true
  | some a =>
      match m.exits a with
      | .before => true
      | .zombie => false
      | .unlisted => (m.memory a).has taskNowait && (enqueue m.ctxQueue a).isNone
      | .left => true

/-- A new task is left to itself, or its creator goes on with it in `run_back_cmd` or `kmt_wait`. -/
def Machine.starts (m : Machine T) (cpu : Nat) (duty : Duty) : Bool :=
  duty = .none || (m.acting cpu).isSome && (duty = .back .lock || duty = .wait .test)

def taskStep (act : TaskAct T) (m : Machine T) : Option (Machine T) :=
  match act with
  | .trap cpu rand =>
      if m.trapped cpu then
        kmtContextClean (kmtContextSwitch cpu rand (kmtContextSave cpu m))
      else none
  | .create cpu new duty => if m.starts cpu duty then kmtCreate cpu new duty m else none
  | .count cpu ncli intena =>
      some { m with
        ncli := Function.update m.ncli cpu ncli
        intena := Function.update m.intena cpu intena }
  | .sleep cpu => (m.acting cpu).map fun a => m.modify a (setFlag taskSleep)
  | .wake a => if m.allocated a then some (m.modify a (negFlag taskSleep)) else none
  | .exit cpu => (m.currents cpu).bind fun a => exitStep a m
  | .serve cpu a =>
      if m.acting cpu = m.creators a then
        match m.duties a with
        | .none => none
        | .back next => runBackCmd a next m
        | .wait next => kmtWait a next m
      else none

/-- Before `os_init`: no tasks, and memory as it happens to be. -/
def powered (memory : T → Task) (ncli intena : Nat → BitVec 32) : Machine T where
  memory := memory
  allocated := fun _ => false
  tasks := fun _ => none
  pid := 0
  currents := fun _ => none
  lasts := fun _ => none
  ncli := ncli
  intena := intena
  ctxQueue := Pool.empty
  exits := fun _ => .before
  duties := fun _ => .none
  creators := fun _ => none
  log := []

end Source

end OsWorkbench.Kernel
