import OsWorkbench.Library.Runs
import Mathlib.Data.Int.Basic
import Mathlib.Logic.Function.Basic
import Mathlib.Algebra.Group.Nat.Defs

/-!
# Spin locks of `kmt.c`

`kmt_spin_lock` and `kmt_spin_unlock` with `_intr_close` and `_intr_open`, one step for each read or
write of a variable, and one for `atomic_xchg`. No task is switched, and the CPUs run different
tasks, so a CPU stands for its task. Locks are objects in memory, so their number does not leave
`int`; `reen` wraps around.
-/

namespace OsWorkbench.Kernel

/-- `spinlock_t`, without its name. -/
structure SpinLock (C : Type) where
  reen : Nat
  owner : Option C
  locked : Bool

/-- Where `kmt_spin_lock` goes on after `_intr_close`. -/
inductive AfterClose (L : Type) where
  | test (l : L)
  | settle (l : L)
  deriving DecidableEq

/-- The next access of a CPU. `_intr_open` knows the lock that was taken, if any. -/
inductive SpinPc (L : Type) where
  | out
  | closeRead (next : AfterClose L)
  | closeCli (next : AfterClose L) (intOn : Bool)
  | closeIntena (next : AfterClose L) (intOn : Bool)
  | closeNcli (next : AfterClose L)
  | lockTest (l : L)
  | lockOwner (l : L)
  | lockSpin (l : L)
  | lockXchg (l : L)
  | lockReen (l : L)
  | lockSetOwner (l : L)
  | reenRead (l : L)
  | reenWrite (l : L) (reen : Nat)
  | openNcli (taken : Option L)
  | openTest (taken : Option L)
  | openIntena (taken : Option L)
  | openClear (taken : Option L)
  | openSti (taken : Option L)
  | unlockTest (l : L)
  | unlockOwner (l : L)
  | unlockRead (l : L)
  | unlockWrite (l : L) (reen : Nat)
  | unlockClear (l : L)
  | unlockXchg (l : L)
  deriving DecidableEq

/-- `taken` counts the acquisitions that were not undone yet; `interrupts` is the flag of the CPU. -/
structure SpinCpu (L : Type) where
  pc : SpinPc L
  ncli : Int
  intena : Bool
  interrupts : Bool
  taken : L → Nat

structure SpinMachine (C L : Type) where
  cpus : C → SpinCpu L
  locks : L → SpinLock C

/-- The size of `uint32_t`. -/
def reenSize : Nat := 2 ^ 32

section Source

variable {C L : Type} [DecidableEq C] [DecidableEq L]

def SpinCpu.goto (cpu : SpinCpu L) (pc : SpinPc L) : SpinCpu L := { cpu with pc := pc }

/-- The call returns. -/
def SpinCpu.finish (cpu : SpinCpu L) : Option L → SpinCpu L
  | none => cpu.goto .out
  | some l => { cpu with pc := .out, taken := Function.update cpu.taken l (cpu.taken l + 1) }

def AfterClose.pc : AfterClose L → SpinPc L
  | .test l => .lockTest l
  | .settle l => .lockReen l

/-- The next access of a CPU, to its own variables and to a lock. A failed `Assert` halts. -/
def spinGo (current : C) (cpu : SpinCpu L) (locks : L → SpinLock C) :
    Option (SpinCpu L × (L → SpinLock C)) :=
  match cpu.pc with
  | .out => none
  | .closeRead next => some (cpu.goto (.closeCli next cpu.interrupts), locks)
  | .closeCli next intOn =>
      some ({ cpu with pc := .closeIntena next intOn, interrupts := false }, locks)
  | .closeIntena next intOn =>
      if cpu.ncli < 0 then none
      else some ({ cpu with pc := .closeNcli next, intena := cpu.intena || intOn }, locks)
  | .closeNcli next => some ({ cpu with pc := next.pc, ncli := cpu.ncli + 1 }, locks)
  | .lockTest l => some (cpu.goto (if (locks l).locked then .lockOwner l else .lockXchg l), locks)
  | .lockOwner l =>
      some (cpu.goto (if (locks l).owner = some current then .reenRead l else .lockSpin l), locks)
  | .lockSpin l => some (cpu.goto (if (locks l).locked then .lockSpin l else .lockXchg l), locks)
  | .lockXchg l =>
      if (locks l).locked then some (cpu, locks)
      else some (cpu.goto (.closeRead (.settle l)),
        Function.update locks l { locks l with locked := true })
  | .lockReen l =>
      some (cpu.goto (.lockSetOwner l), Function.update locks l { locks l with reen := 1 })
  | .lockSetOwner l =>
      some (cpu.goto (.openNcli (some l)),
        Function.update locks l { locks l with owner := some current })
  | .reenRead l => some (cpu.goto (.reenWrite l (((locks l).reen + 1) % reenSize)), locks)
  | .reenWrite l reen =>
      some (cpu.goto (.openNcli (some l)), Function.update locks l { locks l with reen := reen })
  | .openNcli taken => some ({ cpu with pc := .openTest taken, ncli := cpu.ncli - 1 }, locks)
  | .openTest taken =>
      if cpu.ncli = 0 then some (cpu.goto (.openIntena taken), locks)
      else if cpu.ncli < 0 then none
      else some (cpu.finish taken, locks)
  | .openIntena taken =>
      if cpu.intena then some (cpu.goto (.openClear taken), locks)
      else some (cpu.finish taken, locks)
  | .openClear taken => some ({ cpu with pc := .openSti taken, intena := false }, locks)
  | .openSti taken => some ({ cpu with interrupts := true }.finish taken, locks)
  | .unlockTest l =>
      if (locks l).locked then some (cpu.goto (.unlockOwner l), locks) else none
  | .unlockOwner l =>
      some (cpu.goto (if (locks l).owner = some current then .unlockRead l else .out), locks)
  | .unlockRead l =>
      some (cpu.goto (.unlockWrite l (((locks l).reen + (reenSize - 1)) % reenSize)), locks)
  | .unlockWrite l reen =>
      some (cpu.goto (if reen = 0 then .unlockClear l else .out),
        Function.update locks l { locks l with reen := reen })
  | .unlockClear l =>
      some (cpu.goto (.unlockXchg l), Function.update locks l { locks l with owner := none })
  | .unlockXchg l =>
      some (cpu.goto (.openNcli none), Function.update locks l { locks l with locked := false })

inductive SpinAct (C L : Type) where
  | lock (c : C) (l : L)
  | unlock (c : C) (l : L)
  | go (c : C)
  deriving DecidableEq

/-- A task calls when it is outside the lock code, and unlocks what it holds. -/
def spinStep (act : SpinAct C L) (m : SpinMachine C L) : Option (SpinMachine C L) :=
  match act with
  | .lock c l =>
      if (m.cpus c).pc = .out then
        some { m with
          cpus := Function.update m.cpus c ((m.cpus c).goto (.closeRead (.test l))) }
      else none
  | .unlock c l =>
      if (m.cpus c).pc = .out ∧ 0 < (m.cpus c).taken l then
        some { m with
          cpus := Function.update m.cpus c { m.cpus c with
            pc := .unlockTest l
            taken := Function.update (m.cpus c).taken l ((m.cpus c).taken l - 1) } }
      else none
  | .go c =>
      (spinGo c (m.cpus c) m.locks).map fun done =>
        ⟨Function.update m.cpus c done.1, done.2⟩

/-- No lock is taken, and no CPU has interrupts closed by a lock. -/
def unlocked (intena interrupts : C → Bool) : SpinMachine C L where
  cpus := fun c => ⟨.out, 0, intena c, interrupts c, fun _ => 0⟩
  locks := fun _ => ⟨0, none, false⟩

end Source

end OsWorkbench.Kernel
