import OsWorkbench.Kernel.Tty

/-!
# `tty.c`: the screen

`tty_putc` on the flat array of cells. Pointers are indexes from `buf`, and `end` is `size`. An access
to a cell or to a mark outside the arrays has no result.
-/

namespace OsWorkbench.Kernel

/-- `struct character`. -/
structure Character where
  metadata : Nat
  ch : UInt8
  fg : Nat
  bg : Nat
  deriving DecidableEq

def defaultFg : Nat := 0x00ffffff

def defaultBg : Nat := 0x00300A24

def ttyDefaultch : Character := ⟨0, 0, defaultFg, defaultBg⟩

def carriageReturn : UInt8 := 0x0d

/-- The fields of `tty_t` that belong to the screen. -/
structure TtyScreen where
  lines : Nat
  columns : Nat
  size : Nat
  buf : Nat → Character
  dirty : Nat → UInt8
  cursor : Nat
  fg : Nat
  bg : Nat

/-- The forward loop of `memmove`. -/
def memmoveForward {α : Type} (cells : Nat → α) (dest src : Nat) : Nat → Nat → α
  | 0 => cells
  | n + 1 =>
      let moved := memmoveForward cells dest src n
      Function.update moved (dest + n) (moved (src + n))

/-- `memmove`. The loop for `dest>src` starts at the last index and counts up, away from the array. -/
def memmove {α : Type} (cells : Nat → α) (dest src n : Nat) : Option (Nat → α) :=
  if dest > src then if n = 0 then some cells else none
  else some (memmoveForward cells dest src n)

namespace TtyScreen

def setCell (tty : TtyScreen) (place : Nat) (cell : Character) : Option TtyScreen :=
  if place < tty.size then some { tty with buf := Function.update tty.buf place cell } else none

end TtyScreen

def ttyUpdScrollup (tty : TtyScreen) : Option TtyScreen := do
  let moveSz := tty.columns * (tty.lines - 1)
  if tty.columns + moveSz > tty.size ∨ tty.cursor < tty.columns then none
  else
    let buf ← memmove tty.buf 0 tty.columns moveSz
    let dirty ← memmove tty.dirty 0 tty.columns moveSz
    let moved := { tty with buf := buf, dirty := dirty, cursor := tty.cursor - tty.columns }
    (List.range tty.columns).foldlM (fun tty i => tty.setCell (moved.cursor + i) ttyDefaultch) moved

def ttyUpdCr (tty : TtyScreen) : TtyScreen :=
  { tty with cursor := tty.cursor - tty.cursor % tty.columns }

def ttyUpdLf (tty : TtyScreen) : TtyScreen :=
  { tty with cursor := tty.cursor + tty.columns }

def ttyUpdBacksp (tty : TtyScreen) : Option TtyScreen :=
  if tty.cursor > 0 then
    { tty with cursor := tty.cursor - 1 }.setCell (tty.cursor - 1)
      { tty.buf (tty.cursor - 1) with ch := 0 }
  else some tty

def ttyUpdPutc (tty : TtyScreen) (ch : UInt8) : Option TtyScreen :=
  { tty with cursor := tty.cursor + 1 }.setCell tty.cursor
    { tty.buf tty.cursor with ch := ch, fg := tty.fg, bg := tty.bg }

def ttyMark (tty : TtyScreen) (ch : Nat) : Option TtyScreen :=
  if ch < tty.size then some { tty with dirty := Function.update tty.dirty ch 1 } else none

def ttyMarkLine (tty : TtyScreen) (ch : Nat) : Option TtyScreen :=
  (List.range tty.columns).foldlM (fun tty' i => ttyMark tty' (ch - ch % tty.columns + i)) tty

def ttyMarkAll (tty : TtyScreen) : Option TtyScreen :=
  (List.range tty.size).foldlM ttyMark tty

def ttyPutc (ch : UInt8) (tty : TtyScreen) : Option TtyScreen :=
  if ch = carriageReturn then ttyMarkLine (ttyUpdCr tty) (ttyUpdCr tty).cursor
  else if ch = backspace then do
    let tty ← ttyUpdBacksp tty
    let tty ← ttyMark tty tty.cursor
    ttyMark tty (tty.cursor + 1)
  else if ch = newline then
    let tty := ttyUpdLf (ttyUpdCr tty)
    if tty.cursor = tty.size then (ttyUpdScrollup tty).bind ttyMarkAll
    else if tty.cursor < tty.columns then none
    else do
      let tty ← ttyMarkLine tty (tty.cursor - tty.columns)
      ttyMarkLine tty tty.cursor
  else do
    let tty ← ttyUpdPutc tty ch
    if tty.cursor = tty.size then (ttyUpdScrollup tty).bind ttyMarkAll
    else do
      let tty ← ttyMark tty (tty.cursor - 1)
      ttyMark tty tty.cursor

/-- The screen that `tty_init` makes for a display of so many lines and columns. -/
def ttyScreenInit (lines columns : Nat) : TtyScreen where
  lines := lines
  columns := columns
  size := columns * lines
  buf _ := ttyDefaultch
  dirty _ := 1
  cursor := 0
  fg := 0xffffff
  bg := 0x300A24

section Purpose

/-- What the screen is for: a terminal with a cell for each row and column, and the place where the
next character goes. -/
structure Terminal where
  cell : Nat → Nat → UInt8
  row : Nat
  col : Nat

variable (lines columns : Nat)

namespace Terminal

def start : Terminal := ⟨fun _ _ => 0, 0, 0⟩

def overwrite (terminal : Terminal) (row col : Nat) (ch : UInt8) : Terminal :=
  { terminal with cell := fun r c => if r = row ∧ c = col then ch else terminal.cell r c }

/-- To the start of the next line, which is a new one below the last. -/
def nextLine (terminal : Terminal) : Terminal :=
  if terminal.row + 1 < lines then { terminal with row := terminal.row + 1, col := 0 }
  else
    { cell := fun r c => if r + 1 < lines then terminal.cell (r + 1) c else 0
      row := terminal.row
      col := 0 }

def advance (terminal : Terminal) : Terminal :=
  if terminal.col + 1 < columns then { terminal with col := terminal.col + 1 }
  else terminal.nextLine lines

/-- To the previous cell, which becomes blank. -/
def erase (terminal : Terminal) : Terminal :=
  if 0 < terminal.col then
    { terminal.overwrite terminal.row (terminal.col - 1) 0 with col := terminal.col - 1 }
  else if 0 < terminal.row then
    { terminal.overwrite (terminal.row - 1) (columns - 1) 0 with
      row := terminal.row - 1
      col := columns - 1 }
  else terminal

def put (terminal : Terminal) (ch : UInt8) : Terminal :=
  if ch = carriageReturn then { terminal with col := 0 }
  else if ch = backspace then terminal.erase columns
  else if ch = newline then terminal.nextLine lines
  else (terminal.overwrite terminal.row terminal.col ch).advance lines columns

end Terminal

end Purpose

end OsWorkbench.Kernel
