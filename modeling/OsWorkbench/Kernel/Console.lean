import OsWorkbench.Kernel.InputQueue
import OsWorkbench.Kernel.LineDiscipline

/-!
# `tty_task`

From the keys to the lines of the four terminals. Handling an event calls `tty_cook` at most once, and
is one step; what the task draws on the screen is not part of this state.
-/

namespace OsWorkbench.Kernel

open Library

/-- Where `tty_task` is in its loop. -/
inductive TtyTask where
  | waits
  | passed
  | handles (ev : InputEvent)
  deriving DecidableEq

/-- `ttydev` is the number of the terminal, from zero on. -/
structure Console where
  keyboard : Keyboard
  ttys : Nat → Tty
  ttydev : Nat
  task : TtyTask

inductive ConsoleAct where
  | key (stroke : Stroke)
  | signal
  | wait
  | take
  | handle
  | pass (tty : Nat)
  | read (tty count : Nat)
  deriving DecidableEq

def ConsoleAct.strokes : ConsoleAct → List Stroke
  | .key stroke => [stroke]
  | .signal => []
  | .wait => []
  | .take => []
  | .handle => []
  | .pass _ => []
  | .read _ _ => []

section Purpose

/-- What the console is for: an editor of lines for each terminal, and the one that is typed on. -/
structure Desk where
  ttydev : Nat
  editors : Nat → LineEditor

def Desk.start : Desk := ⟨0, fun _ => LineEditor.blank⟩

/-- The characters that choose a terminal when Alt is held, in the order of the terminals. -/
def choosers : List UInt8 := [0x31, 0x32, 0x33, 0x34]

/-- The character that ends a line when Ctrl is held. -/
def lineEnder : UInt8 := 0x64

def Desk.choose (desk : Desk) (data : UInt8) : Desk :=
  { desk with ttydev := (choosers.findIdx? fun digit => data == digit).getD desk.ttydev }

def Desk.type (desk : Desk) (ch : UInt8) : Desk :=
  { desk with
    editors := Function.update desk.editors desk.ttydev ((desk.editors desk.ttydev).type ch) }

/-- Alt and a digit choose a terminal, Ctrl-D ends the line and a plain character is typed. -/
def Desk.event (desk : Desk) (ev : InputEvent) : Desk :=
  if ev.ctrl ∧ ev.data = lineEnder then desk.type 0
  else if ev.alt then desk.choose ev.data
  else if ev.ctrl then desk
  else desk.type ev.data

/-- The desk after these events. -/
def deskOf (events : List InputEvent) : Desk := events.foldl Desk.event Desk.start

end Purpose

section Task

/-- The event that the task has read and not handled yet. -/
def TtyTask.hand : TtyTask → List InputEvent
  | .waits => []
  | .passed => []
  | .handles ev => [ev]

/-- The readers behind the semaphore of the keyboard. -/
def TtyTask.readers : TtyTask → Nat
  | .waits => 0
  | .passed => 1
  | .handles _ => 0

/-- The events that have been read are the ones that the desk has seen, and the one in hand. -/
structure Serves (strokes : List Stroke) (seen : List InputEvent) (console : Console) : Prop where
  keyboard : Relays strokes console.keyboard
  reader : console.keyboard.passed = console.task.readers
  taken : (typedEvents strokes).take console.keyboard.calls.length = seen ++ console.task.hand
  ttydev : console.ttydev = (deskOf seen).ttydev
  cooks : ∀ tty, Cooks ((deskOf seen).editors tty) (console.ttys tty)

variable {strokes : List Stroke} {stroke : Stroke} {seen : List InputEvent}
  {console next : Console} {ev : InputEvent}

end Task

section Lines

variable {strokes : List Stroke} {seen : List InputEvent} {console next : Console}

end Lines

end OsWorkbench.Kernel
