import Mathlib.Data.List.GetD
import OsWorkbench.Library.Ring
import OsWorkbench.Library.Runs

/-!
# `input.c`

The keys that are held, the characters that they type and the ring of events. `push_event` is two
steps, the part under the lock and `sem_signal`; so is `pop_event`, for any number of readers. Where
the source panics no step is taken.
-/

namespace OsWorkbench.Kernel

open Library

section Keymaps

/-- `keymap`, by the codes of `_KEYS` in `amdev.h`. -/
def keymapChars : List UInt8 :=
  List.replicate 14 0 ++
    [0x60, 0x31, 0x32, 0x33, 0x34, 0x35, 0x36, 0x37, 0x38, 0x39, 0x30, 0x2d, 0x3d, 0x08,
      0, 0x71, 0x77, 0x65, 0x72, 0x74, 0x79, 0x75, 0x69, 0x6f, 0x70, 0x5b, 0x5d, 0x5c,
      0, 0x61, 0x73, 0x64, 0x66, 0x67, 0x68, 0x6a, 0x6b, 0x6c, 0x3b, 0x27, 0x0a,
      0, 0x7a, 0x78, 0x63, 0x76, 0x62, 0x6e, 0x6d, 0x2c, 0x2e, 0x2f, 0, 0, 0, 0, 0x20]

/-- `keymap_shift`, which has nothing for the return key. -/
def keymapShiftChars : List UInt8 :=
  List.replicate 14 0 ++
    [0x7e, 0x21, 0x40, 0x23, 0x24, 0x25, 0x5e, 0x26, 0x2a, 0x28, 0x29, 0x5f, 0x2b, 0x08,
      0, 0x51, 0x57, 0x45, 0x52, 0x54, 0x59, 0x55, 0x49, 0x4f, 0x50, 0x7b, 0x7d, 0x7c,
      0, 0x41, 0x53, 0x44, 0x46, 0x47, 0x48, 0x4a, 0x4b, 0x4c, 0x3a, 0x22, 0,
      0, 0x5a, 0x58, 0x43, 0x56, 0x42, 0x4e, 0x4d, 0x3c, 0x3e, 0x3f, 0, 0, 0, 0, 0x20]

def keymap (key : Nat) : UInt8 := keymapChars.getD key 0

def keymapShift (key : Nat) : UInt8 := keymapShiftChars.getD key 0

/-- The length of both arrays. -/
def keymapSize : Nat := 256

def keyCapslock : Nat := 42
def keyLshift : Nat := 55
def keyRshift : Nat := 66
def keyLctrl : Nat := 67
def keyLalt : Nat := 69
def keyRalt : Nat := 71
def keyRctrl : Nat := 72

end Keymaps

/-- `struct input_event`. -/
structure InputEvent where
  ctrl : Bool
  alt : Bool
  data : UInt8
  deriving DecidableEq

/-- `sizeof(struct input_event)`. -/
def sizeofEvent : Nat := 4

/-- `NEVENTS`. -/
def nevents : Nat := 128

/-- `input_t`; the pairs are the left and the right key. -/
structure Input where
  events : Nat → InputEvent
  front : Nat
  rear : Nat
  capslock : Bool
  shiftDown : Bool × Bool
  ctrlDown : Bool × Bool
  altDown : Bool × Bool

/-- `push_event` under the lock. -/
def pushEvent (input : Input) (ev : InputEvent) : Option Input :=
  let rear := (input.rear + 1) % nevents
  if rear = input.front then none
  else some { input with events := Function.update input.events input.rear ev, rear := rear }

/-- `pop_event` under the lock. -/
def popEvent (input : Input) : Option (Input × InputEvent) :=
  if input.rear = input.front then none
  else some ({ input with front := (input.front + 1) % nevents }, input.events input.front)

/-- A key that goes down or up. -/
structure Stroke where
  keydown : Bool
  keycode : Nat
  deriving DecidableEq

def readKey (stroke : Stroke) : Nat :=
  if stroke.keydown then stroke.keycode ||| 0x8000 else stroke.keycode

/-- The state behind the call, and whether it pushed an event. -/
def inputKeydown (input : Input) (code : Nat) : Option (Input × Bool) :=
  let key := code &&& 0xffff7fff
  if code &&& 0x8000 ≠ 0 then
    if key = keyCapslock then some ({ input with capslock := !input.capslock }, false)
    else if key = keyLctrl then some ({ input with ctrlDown := (true, input.ctrlDown.2) }, false)
    else if key = keyRctrl then some ({ input with ctrlDown := (input.ctrlDown.1, true) }, false)
    else if key = keyLalt then some ({ input with altDown := (true, input.altDown.2) }, false)
    else if key = keyRalt then some ({ input with altDown := (input.altDown.1, true) }, false)
    else if key = keyLshift then some ({ input with shiftDown := (true, input.shiftDown.2) }, false)
    else if key = keyRshift then some ({ input with shiftDown := (input.shiftDown.1, true) }, false)
    else
      let ch := keymap key
      if ch = 0 then some (input, false)
      else
        let shift := input.shiftDown.1 || input.shiftDown.2
        let ctrl := input.ctrlDown.1 || input.ctrlDown.2
        let alt := input.altDown.1 || input.altDown.2
        if ctrl || alt then (pushEvent input ⟨ctrl, alt, ch⟩).map (·, true)
        else
          let shift := if 0x61 ≤ ch ∧ ch ≤ 0x7a then xor shift input.capslock else shift
          if shift then (pushEvent input ⟨false, false, keymapShift key⟩).map (·, true)
          else (pushEvent input ⟨false, false, ch⟩).map (·, true)
  else if code = keyLctrl then some ({ input with ctrlDown := (false, input.ctrlDown.2) }, false)
  else if code = keyRctrl then some ({ input with ctrlDown := (input.ctrlDown.1, false) }, false)
  else if code = keyLalt then some ({ input with altDown := (false, input.altDown.2) }, false)
  else if code = keyRalt then some ({ input with altDown := (input.altDown.1, false) }, false)
  else if code = keyLshift then some ({ input with shiftDown := (false, input.shiftDown.2) }, false)
  else if code = keyRshift then some ({ input with shiftDown := (input.shiftDown.1, false) }, false)
  else some (input, false)

/-- What a call of `input_read` with this count stored. -/
structure InputCall where
  count : Nat
  stored : Option InputEvent
  deriving DecidableEq

/-- `owed` counts the events whose `sem_signal` is still to come, `passed` the readers between
`sem_wait(&in->event_sem)` and the lock; `calls` are the calls of `input_read` that have returned. -/
structure Keyboard where
  input : Input
  eventSem : Nat
  owed : Nat
  passed : Nat
  calls : List InputCall

def inputInit : Keyboard where
  input := ⟨fun _ => ⟨false, false, 0⟩, 0, 0, false, (false, false), (false, false), (false, false)⟩
  eventSem := 0
  owed := 0
  passed := 0
  calls := []

inductive KeyboardAct where
  | key (stroke : Stroke)
  | signal
  | pass
  | read (count : Nat)
  deriving DecidableEq

/-- `input_task` takes a key when it has signalled the last one. -/
def keyboardStep (act : KeyboardAct) (dev : Keyboard) : Option Keyboard :=
  match act with
  | .key stroke =>
      if dev.owed = 0 ∧ stroke.keycode < keymapSize then
        (inputKeydown dev.input (readKey stroke)).map fun (input, pushed) =>
          { dev with input := input, owed := if pushed then 1 else 0 }
      else none
  | .signal =>
      match dev.owed with
      | 0 => none
      | owed + 1 => some { dev with owed := owed, eventSem := dev.eventSem + 1 }
  | .pass =>
      match dev.eventSem with
      | 0 => none
      | value + 1 => some { dev with eventSem := value, passed := dev.passed + 1 }
  | .read count =>
      match dev.passed with
      | 0 => none
      | passed + 1 =>
          (popEvent dev.input).map fun (input, ev) =>
            { dev with
              input := input
              passed := passed
              calls := dev.calls ++ [⟨count, if sizeofEvent ≤ count then some ev else none⟩] }

section Purpose

/-- The last stroke of the key was downwards. -/
def keyHeld (strokes : List Stroke) (key : Nat) : Bool :=
  (((strokes.filter fun stroke => stroke.keycode = key).getLast?).map Stroke.keydown).getD false

/-- The key was pressed an odd number of times. -/
def capsOn (strokes : List Stroke) : Bool :=
  (strokes.count ⟨true, keyCapslock⟩) % 2 = 1

/-- What a stroke types, after the strokes before it. -/
def meaning (before : List Stroke) (stroke : Stroke) : Option InputEvent :=
  let ch := keymap stroke.keycode
  let shift := keyHeld before keyLshift || keyHeld before keyRshift
  let ctrl := keyHeld before keyLctrl || keyHeld before keyRctrl
  let alt := keyHeld before keyLalt || keyHeld before keyRalt
  let upper := if 0x61 ≤ ch ∧ ch ≤ 0x7a then xor shift (capsOn before) else shift
  if stroke.keydown ∧ ch ≠ 0 then
    if ctrl || alt then some ⟨ctrl, alt, ch⟩
    else some ⟨false, false, if upper then keymapShift stroke.keycode else ch⟩
  else none

/-- The events of the strokes, after the strokes before them. -/
def typedAfter : List Stroke → List Stroke → List InputEvent
  | _, [] => []
  | before, stroke :: rest => (meaning before stroke).toList ++ typedAfter (before ++ [stroke]) rest

def typedEvents (strokes : List Stroke) : List InputEvent := typedAfter [] strokes

/-- The strokes of a run. -/
def KeyboardAct.strokes : KeyboardAct → List Stroke
  | .key stroke => [stroke]
  | .signal => []
  | .pass => []
  | .read _ => []

end Purpose

section Strokes

variable {strokes : List Stroke} {stroke : Stroke} {key : Nat}

set_option maxRecDepth 2000 in
theorem read_key_down (down : stroke.keydown = true) (inside : stroke.keycode < keymapSize) :
    readKey stroke &&& 0x8000 ≠ 0 ∧ readKey stroke &&& 0xffff7fff = stroke.keycode := by
  have codes : ∀ key < keymapSize, (key ||| 0x8000) &&& 0x8000 ≠ 0 ∧
      (key ||| 0x8000) &&& 0xffff7fff = key := by decide
  rw [readKey, if_pos down]
  exact codes stroke.keycode inside

set_option maxRecDepth 2000 in
theorem read_key_up (up : stroke.keydown = false) (inside : stroke.keycode < keymapSize) :
    readKey stroke &&& 0x8000 = 0 ∧ readKey stroke = stroke.keycode := by
  have codes : ∀ key < keymapSize, key &&& 0x8000 = 0 := by decide
  have code : readKey stroke = stroke.keycode := by
    rw [readKey, up]
    exact if_neg Bool.false_ne_true
  exact ⟨code ▸ codes stroke.keycode inside, code⟩

theorem key_held_concat (strokes : List Stroke) (stroke : Stroke) (key : Nat) :
    keyHeld (strokes ++ [stroke]) key =
      if stroke.keycode = key then stroke.keydown else keyHeld strokes key := by
  unfold keyHeld
  by_cases same : stroke.keycode = key
  · simp [List.filter_append, same]
  · simp [List.filter_append, same]

theorem caps_on_concat (strokes : List Stroke) (stroke : Stroke) :
    capsOn (strokes ++ [stroke]) =
      if stroke = ⟨true, keyCapslock⟩ then !capsOn strokes else capsOn strokes := by
  unfold capsOn
  by_cases same : stroke = ⟨true, keyCapslock⟩
  · rw [if_pos same, same, List.count_append, List.count_singleton_self]
    rcases Nat.mod_two_eq_zero_or_one (strokes.count ⟨true, keyCapslock⟩) with even | odd
    · simp [Nat.add_mod, even]
    · simp [Nat.add_mod, odd]
  · simp [List.count_append, same]

theorem typed_after_append (before first second : List Stroke) :
    typedAfter before (first ++ second) =
      typedAfter before first ++ typedAfter (before ++ first) second := by
  induction first generalizing before with
  | nil => simp [typedAfter]
  | cons stroke rest hypothesis =>
      rw [List.cons_append, typedAfter, typedAfter, hypothesis, List.append_assoc, List.append_assoc]
      rfl

theorem typed_events_concat (strokes : List Stroke) (stroke : Stroke) :
    typedEvents (strokes ++ [stroke]) = typedEvents strokes ++ (meaning strokes stroke).toList := by
  rw [typedEvents, typed_after_append, List.nil_append]
  simp [typedAfter, typedEvents]

/-- A key that is not in `keymap` types nothing. -/
theorem meaning_nothing (blank : keymap stroke.keycode = 0) : meaning strokes stroke = none := by
  simp [meaning, blank]

theorem meaning_up (up : stroke.keydown = false) : meaning strokes stroke = none := by
  simp [meaning, up]

end Strokes

end OsWorkbench.Kernel
