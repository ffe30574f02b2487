import OsWorkbench.Kernel.Framebuffer
import OsWorkbench.Library.Runs

/-!
# The screen shows the current terminal

Four terminals on one screen, and any number of tasks that write to them. `tty_write` changes the
cells under the lock of the terminal, and then `tty_render` takes the lock again and draws cell by
cell, while other tasks go on and `tty_task` may switch to another terminal.
-/

namespace OsWorkbench.Kernel

open Library

variable {J : Type*}

/-- Where a task is in `tty_write`. -/
inductive RenderPc where
  | idle
  | waits (tty : Nat)
  | draws (tty place : Nat)
  deriving DecidableEq

/-- The locks name their owners. -/
structure Desktop (J : Type*) where
  fb : Framebuffer
  ttys : Nat → TtyScreen
  locks : Nat → Option J
  jobs : J → RenderPc

inductive RenderAct (J : Type*) where
  | write (job : J) (tty : Nat) (bytes : List UInt8)
  | lock (job : J)
  | draw (job : J)
  | unlock (job : J)
  | switch (job : J) (tty : Nat)
  | color (tty fg bg : Nat)

section Marks

/-- Every cell is marked. Nothing ever takes a mark away. -/
def AllMarked (tty : TtyScreen) : Prop := ∀ place < tty.size, tty.dirty place = 1

variable {tty tty' : TtyScreen} {place : Nat} {ch : UInt8}

end Marks

section Picture

/-- The cell in column `x` of line `y` is on the screen as the terminal has it. -/
def CellShown (font : Nat → UInt8) (fb : Framebuffer) (tty : TtyScreen) (x y : Nat) : Prop :=
  ∀ px < fb.width, ∀ py < fb.height, inCell x y px py →
    fb.pixels (py * fb.width + px) = pictureAt font tty px py

/-- The task has still to draw the cell. -/
def RenderPc.Owes (tty place : Nat) (pc : RenderPc) : Prop :=
  pc = .waits tty ∨ ∃ next ≤ place, pc = .draws tty next

/-- The terminals that a task can be busy with. -/
def RenderPc.About (tty : Nat) (pc : RenderPc) : Prop :=
  pc = .waits tty ∨ ∃ place, pc = .draws tty place

/-- A task that draws owns the lock. -/
structure Employed (locks : Nat → Option J) (jobs : J → RenderPc) : Prop where
  four : ∀ job tty, (jobs job).About tty → tty < 4
  owner : ∀ job tty place, jobs job = .draws tty place → locks tty = some job

/-- The bytes that the run has written to a terminal. -/
def RenderAct.bytes (tty : Nat) : RenderAct J → List UInt8
  | .write _ other bytes => if other = tty then bytes else []
  | .lock _ => []
  | .draw _ => []
  | .unlock _ => []
  | .switch _ _ => []
  | .color _ _ _ => []

/-- A cell of the current terminal is on the screen, or some task has still to draw it. -/
structure Displays (font : Nat → UInt8) (width height lines columns : Nat)
    (terminals : Nat → Terminal) (s : Desktop J) : Prop where
  sameWidth : s.fb.width = width
  sameHeight : s.fb.height = height
  wide : 2 ≤ columns
  across : columns * 8 ≤ s.fb.width
  down : lines * 16 ≤ s.fb.height
  narrow : s.fb.width ≤ 0x10000
  flat : s.fb.height ≤ 0x10000
  lettered : Lettered font s.fb
  current : s.fb.current < 4
  shows : ∀ tty < 4, Shows lines columns (terminals tty) (s.ttys tty)
  marked : ∀ tty < 4, AllMarked (s.ttys tty)
  employed : Employed s.locks s.jobs
  drawn : ∀ y < lines, ∀ x < columns,
    CellShown font s.fb (s.ttys s.fb.current) x y ∨
      ∃ job, (s.jobs job).Owes s.fb.current (y * columns + x)

variable {font : Nat → UInt8} {width height lines columns : Nat} {terminals : Nat → Terminal}
  {s next : Desktop J} {job : J} {tty : Nat} {locks : Nat → Option J} {jobs : J → RenderPc}

theorem Displays.fitting (displays : Displays font width height lines columns terminals s)
    (small : tty < 4) :
    Fitting (s.ttys tty) tty s.fb := by
  have shows := displays.shows tty small
  refine ⟨?_, ?_, displays.narrow, displays.flat, ?_, by omega, displays.marked tty small⟩
  · rw [shows.sameColumns]
    exact displays.across
  · rw [shows.sameLines]
    exact displays.down
  · rw [shows.sameSize, shows.sameColumns, shows.sameLines]

/-- The cell that comes next. -/
theorem Displays.place_inside (displays : Displays font width height lines columns terminals s)
    (small : tty < 4) {place : Nat} (inside : place < (s.ttys tty).size) :
    place / columns < lines ∧ place % columns < columns := by
  rw [(displays.shows tty small).sameSize] at inside
  exact ⟨Nat.div_lt_of_lt_mul inside, Nat.mod_lt _ (Nat.zero_lt_of_lt displays.wide)⟩

theorem Employed.moved [DecidableEq J] {pc : RenderPc} (employed : Employed locks jobs)
    (four : ∀ tty, pc.About tty → tty < 4)
    (owner : ∀ tty place, pc = .draws tty place → locks tty = some job) :
    Employed locks (Function.update jobs job pc) := by
  constructor
  · intro other number about
    by_cases here : other = job
    · rw [here, Function.update_self] at about
      exact four number about
    · rw [Function.update_of_ne here] at about
      exact employed.four other number about
  · intro other number place draws
    by_cases here : other = job
    · rw [here, Function.update_self] at draws
      rw [here]
      exact owner number place draws
    · rw [Function.update_of_ne here] at draws
      exact employed.owner other number place draws

theorem Employed.locked (employed : Employed locks jobs) (free : locks tty = none)
    (holder : Option J) :
    Employed (Function.update locks tty holder) jobs := by
  refine ⟨employed.four, fun other number place draws => ?_⟩
  have owned := employed.owner other number place draws
  have apart : number ≠ tty := by
    rintro rfl
    rw [free] at owned
    cases owned
  rw [Function.update_of_ne apart]
  exact owned

theorem Employed.released (employed : Employed locks jobs) (owned : locks tty = some job)
    (left : jobs job = .idle) :
    Employed (Function.update locks tty none) jobs := by
  refine ⟨employed.four, fun other number place draws => ?_⟩
  have holds := employed.owner other number place draws
  have apart : number ≠ tty := by
    rintro rfl
    rw [owned] at holds
    cases holds
    rw [left] at draws
    cases draws
  rw [Function.update_of_ne apart]
  exact holds

theorem about_waits {number : Nat} (about : (RenderPc.waits tty).About number) : number = tty := by
  rcases about with waits | ⟨_, draws⟩
  · cases waits
    rfl
  · cases draws

end Picture

section Steps

variable [DecidableEq J] {font : Nat → UInt8} {width height lines columns : Nat}
  {terminals : Nat → Terminal}
  {s next : Desktop J} {job : J} {tty : Nat}

theorem Employed.waiting {locks : Nat → Option J} {jobs : J → RenderPc}
    (employed : Employed locks jobs) (small : tty < 4) :
    Employed locks (Function.update jobs job (.waits tty)) := by
  apply employed.moved
  · intro number about
    rw [about_waits about]
    exact small
  · intro number place draws
    cases draws

end Steps

section Runs

variable [DecidableEq J] {font : Nat → UInt8} {width height lines columns : Nat}
  {terminals : Nat → Terminal} {s final : Desktop J}

/-- The bytes that a run writes to a terminal. -/
def written (acts : List (RenderAct J)) (tty : Nat) : List UInt8 := acts.flatMap (RenderAct.bytes tty)

end Runs

end OsWorkbench.Kernel
