import OsWorkbench.Library.Runs
import Mathlib

/-!
# `co.c`

Coroutines over `setjmp` and `longjmp`. A jump buffer holds a control point with its stack; what
happens from there on is the program's choice, so that the point is given by the flow of control it
belongs to. A step is one call of the library or the return of a body. Only the main flow waits.
Where the source exits, jumps through a buffer that was never filled or follows a null pointer, no
step is taken.
-/

namespace OsWorkbench.Libco

/-- `MAX_ROUTINES`. -/
def maxRoutines : Nat := 100

/-- The main flow, or the body of the coroutine that the `n`-th call of `co_start` made. -/
inductive Flow where
  | main
  | body (n : Nat)
  deriving DecidableEq

/-- `struct co`; `alive` is the bit `CO_ALIVE` of `stat`. -/
structure Co where
  tarBuf : Option Flow
  alive : Bool
  deriving DecidableEq

/-- The variables of `co.c`, the flow that runs, and what has happened so far. Pointers to
`struct co` are indexes of `routines`; `pool` has its top first. `ret_buf` holds a point in a call
of `co_wait`, and `retBuf` is the coroutine that call waits for. -/
structure Coroutines where
  routines : Nat → Co
  current : Option Nat
  pool : List Nat
  retBuf : Option Nat
  running : Flow
  /-- What the calls of `co_start` returned. -/
  started : List Nat
  /-- The coroutine that a slot was last given to. -/
  owner : Nat → Option Nat
  /-- The coroutines whose body has returned. -/
  returned : List Nat
  /-- The coroutines for which a `co_wait` has returned. -/
  waited : List Nat

def coInit : Coroutines where
  routines := fun _ => ⟨none, false⟩
  current := none
  pool := (List.range maxRoutines).reverse
  retBuf := none
  running := .main
  started := []
  owner := fun _ => none
  returned := []
  waited := []

def Coroutines.setCo (s : Coroutines) (slot : Nat) (co : Co) : Coroutines :=
  { s with routines := Function.update s.routines slot co }

/-- `new_co`, and `co_start` up to its return to the caller. -/
def coStart (s : Coroutines) : Option Coroutines :=
  match s.pool with
  | [] => none
  | slot :: pool =>
      let n := s.started.length
      some { s.setCo slot ⟨some (.body n), true⟩ with
        current := some slot
        pool := pool
        started := s.started ++ [slot]
        owner := Function.update s.owner slot (some n) }

def coJmp (co : Nat) (s : Coroutines) : Option Coroutines :=
  (s.routines co).tarBuf.map fun flow => { s with current := some co, running := flow }

/-- `next` is the slot that the loop over `rand()` ends with. -/
def coYield (next : Nat) (s : Coroutines) : Option Coroutines :=
  match s.current with
  | none => none
  | some slot =>
      let s := s.setCo slot { s.routines slot with tarBuf := some s.running }
      if next < maxRoutines ∧ (s.routines next).alive = true then coJmp next s else none

/-- The end of `co_wait(thd)`, where `thd` is what the `n`-th `co_start` returned. -/
def Coroutines.waitEnds (s : Coroutines) (n thd : Nat) : Coroutines :=
  { s.setCo thd { s.routines thd with alive := false } with waited := n :: s.waited }

def coWait (n : Nat) (s : Coroutines) : Option Coroutines :=
  if s.running = .main then
    match s.started[n]? with
    | none => none
    | some thd =>
        let s := { s with retBuf := some n }
        if (s.routines thd).alive = true then coJmp thd s else some (s.waitEnds n thd)
  else none

/-- What `co_start` does after `func(arg)`. -/
def coReturn (s : Coroutines) : Option Coroutines :=
  match s.running, s.current with
  | .body n, some slot =>
      let s :=
        { s.setCo slot { s.routines slot with alive := false } with
          pool := slot :: s.pool
          returned := n :: s.returned }
      match s.retBuf with
      | none => none
      | some m =>
          match s.started[m]? with
          | none => none
          | some thd => some ({ s with running := .main }.waitEnds m thd)
  | _, _ => none

inductive CoAct where
  | start
  | yield (next : Nat)
  | wait (n : Nat)
  | finish
  deriving DecidableEq

def coStep (act : CoAct) (s : Coroutines) : Option Coroutines :=
  match act with
  | .start => coStart s
  | .yield next => coYield next s
  | .wait n => coWait n s
  | .finish => coReturn s

section Purpose

/-- `co_wait` has only returned for coroutines whose body has returned, and a slot that is not in
the pool belongs to a coroutine whose body has not. -/
structure Coroutines.Waits (s : Coroutines) : Prop where
  waited : ∀ n ∈ s.waited, n ∈ s.returned
  slots : ∀ slot < maxRoutines, slot ∉ s.pool → ∃ n, s.owner slot = some n ∧ n ∉ s.returned

/-- The slot that the running body was given. -/
def Coroutines.own (s : Coroutines) : Option Nat :=
  match s.running with
  | .main => none
  | .body n => s.started[n]?

/-- A body runs, and `current` is its own slot. -/
def Coroutines.RunsOwn (s : Coroutines) : Prop := s.own.isSome = true ∧ s.own = s.current

/-- Bodies yield and return as themselves, and return while the main flow waits for them. -/
def coGuard (act : CoAct) (s : Coroutines) : Prop :=
  match act with
  | .start | .wait _ => True
  | .yield _ => s.RunsOwn
  | .finish => s.RunsOwn ∧ (s.retBuf.bind fun m => s.started[m]?) = s.current

instance (s : Coroutines) : Decidable s.RunsOwn := inferInstanceAs (Decidable (_ ∧ _))

instance decidableCoGuard : (act : CoAct) → DecidablePred (coGuard act)
  | .start, _ | .wait _, _ => isTrue trivial
  | .yield _, s => inferInstanceAs (Decidable s.RunsOwn)
  | .finish, _ => inferInstanceAs (Decidable (_ ∧ _))

theorem Coroutines.RunsOwn.elim {s : Coroutines} (own : s.RunsOwn) :
    ∃ n slot, s.running = .body n ∧ s.started[n]? = some slot ∧ s.current = some slot := by
  obtain ⟨runs, same⟩ := own
  unfold Coroutines.own at runs same
  split at runs
  · cases runs
  · rename_i n body
    rw [body] at same
    obtain ⟨slot, started⟩ := Option.isSome_iff_exists.mp runs
    exact ⟨n, slot, body, started, by rw [← same]; exact started⟩

end Purpose

end OsWorkbench.Libco
