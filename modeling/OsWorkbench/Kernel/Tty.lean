import OsWorkbench.Library.Ring
import OsWorkbench.Library.Runs

/-!
# `tty.c`

The line discipline: `tty_cook` fills the ring of typed characters, `tty_read` empties it line by
line. The part of each function under `tty->lock` is one step, and waiting for `tty->cooked` is a
step of its own, for any number of readers. Where the source panics no step is taken.
-/

namespace OsWorkbench.Kernel

open Library

/-- `TTY_COOK_BUF_SZ`. -/
def ttyCookBufSz : Nat := 1024

def newline : UInt8 := 0x0a
def backspace : UInt8 := 0x08

/-- `struct tty_queue`; pointers are indexes from `buf`, and `end` is `ttyCookBufSz`. -/
structure TtyQueue where
  buf : Nat → UInt8
  front : Nat
  rear : Nat

/-- The next place of `front` or `rear`. -/
def afterPlace (place : Nat) : Nat := if place + 1 = ttyCookBufSz then 0 else place + 1

def ttyEnqueue (q : TtyQueue) (ch : UInt8) : Option TtyQueue :=
  let rear := afterPlace q.rear
  if rear = q.front then none
  else some
    { q with
      buf := Function.update (Function.update q.buf q.rear ch) rear 0
      rear := rear }

/-- The queue and the value that is returned. -/
def ttyPopBack (q : TtyQueue) : TtyQueue × Nat :=
  if q.front ≠ ttyCookBufSz then
    let pos := if q.rear = 0 then ttyCookBufSz else q.rear
    if q.buf (pos - 1) ≠ 0 then
      ({ q with buf := Function.update q.buf (pos - 1) 0, rear := pos - 1 }, 0)
    else (q, 1)
  else (q, 1)

/-- What a call of `tty_read` with this count stored in its buffer, and what it returned. -/
structure TtyRead where
  count : Nat
  buf : List UInt8
  nread : Nat
  deriving DecidableEq

/-- The loop of `tty_read`, for at most `fuel` characters. -/
def ttyDrain : Nat → TtyQueue → TtyRead → Option (TtyQueue × TtyRead)
  | 0, _, _ => none
  | fuel + 1, q, call =>
      let ch := q.buf q.front
      let stored : TtyRead :=
        if call.nread < call.count ∧ ch ≠ 0 then { call with buf := call.buf ++ [ch] } else call
      let after := { q with front := afterPlace q.front }
      if ch = 0 then some (after, stored)
      else ttyDrain fuel after { stored with nread := stored.nread + 1 }

/-- `passed` counts the readers between `sem_wait(&tty->cooked)` and `sem_wait(&tty->lock)`;
`reads` are the calls of `tty_read` that have returned. -/
structure Tty where
  queue : TtyQueue
  cooked : Nat
  passed : Nat
  reads : List TtyRead

def ttyInit : Tty where
  queue := ⟨fun _ => 0, 0, 0⟩
  cooked := 0
  passed := 0
  reads := []

/-- The state and the value that is returned. -/
def ttyCook (tty : Tty) (ch : UInt8) : Option (Tty × Nat) :=
  if ch = newline then
    (ttyEnqueue tty.queue ch).bind fun q => (ttyEnqueue q 0).map fun q =>
      ({ tty with queue := q, cooked := tty.cooked + 1 }, 0)
  else if ch = 0 then
    (ttyEnqueue tty.queue 0).map fun q => ({ tty with queue := q, cooked := tty.cooked + 1 }, 0)
  else if ch = backspace then
    let (q, ret) := ttyPopBack tty.queue
    some ({ tty with queue := q }, ret)
  else (ttyEnqueue tty.queue ch).map fun q => ({ tty with queue := q }, 0)

/-- After as many characters as the ring has the loop has seen all of them. -/
def ttyRead (tty : Tty) (count : Nat) : Option Tty :=
  (ttyDrain ttyCookBufSz tty.queue ⟨count, [], 0⟩).map fun (q, call) =>
    { tty with queue := q, reads := tty.reads ++ [call] }

inductive TtyAct where
  | cook (ch : UInt8)
  | pass
  | read (count : Nat)
  deriving DecidableEq

def ttyStep (act : TtyAct) (tty : Tty) : Option Tty :=
  match act with
  | .cook ch => (ttyCook tty ch).map Prod.fst
  | .pass =>
      match tty.cooked with
      | 0 => none
      | cooked + 1 => some { tty with cooked := cooked, passed := tty.passed + 1 }
  | .read count =>
      match tty.passed with
      | 0 => none
      | passed + 1 => ttyRead { tty with passed := passed } count

section Purpose

/-- What the line discipline is for: the finished lines, and the one that is being typed. -/
structure LineEditor where
  lines : List (List UInt8)
  current : List UInt8
  deriving DecidableEq

def LineEditor.blank : LineEditor := ⟨[], []⟩

def LineEditor.type (editor : LineEditor) (ch : UInt8) : LineEditor :=
  if ch = newline then ⟨editor.lines ++ [editor.current ++ [newline]], []⟩
  else if ch = 0 then ⟨editor.lines ++ [editor.current], []⟩
  else if ch = backspace then ⟨editor.lines, editor.current.dropLast⟩
  else ⟨editor.lines, editor.current ++ [ch]⟩

def LineEditor.act (editor : LineEditor) : TtyAct → LineEditor
  | .cook ch => editor.type ch
  | .pass => editor
  | .read _ => editor

/-- What the characters of a run make in the editor. -/
def edited (acts : List TtyAct) : LineEditor := acts.foldl LineEditor.act LineEditor.blank

end Purpose

end OsWorkbench.Kernel
