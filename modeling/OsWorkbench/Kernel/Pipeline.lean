import OsWorkbench.Kernel.Descriptors
import OsWorkbench.Kernel.PipeFifo

/-!
# A pipeline

`run_pipe_cmd` and the tasks of its two sides. The parent goes through the steps of `run_pipe_cmd`
after its `pipe`; all other tasks, and the parent afterwards, do what they like with descriptors, and
those that have one for the write end call `pipe_write`. A task in `pipe_read` or `pipe_write` does
nothing else. The right side is created last, so nobody reads before, and its reads do not overlap.
-/

namespace OsWorkbench.Kernel

open ByteStore Library

/-- `agenda` is what the parent has still to do, `readEnd` and `writeEnd` are the two files of its
pipe and `id` is their pipe. `written` has the bytes of all calls of `pipe_write` so far, and
`received` what `pipe_read` has returned. -/
structure Pipeline where
  fds : Descriptors
  parent : Nat
  agenda : List FdAct
  id : Nat
  readEnd : Nat
  writeEnd : Nat
  pipe : Pipe
  reading : Option Nat
  reader : Reader
  writers : List (Nat × Writer)
  written : List UInt8
  received : List UInt8

inductive PipelineAct where
  | parent
  | fd (act : FdAct)
  | read (task count : Nat)
  | reader
  | write (task : Nat) (buf : List UInt8)
  | writer (task : Nat)
  deriving DecidableEq

/-- The steps of `run_pipe_cmd`; each `kmt_create` is for one side. -/
def runPipeCmd (parent : Nat) : List FdAct :=
  [.redirectOut parent, .create (some parent), .restoreOut parent, .redirectIn parent,
    .create (some parent)]

def FdAct.actor : FdAct → Option Nat
  | .openFile t _ => some t
  | .close t _ => some t
  | .pipe t => some t
  | .create creator => creator
  | .exit t => some t
  | .leave t => some t
  | .redirectOut t => some t
  | .restoreOut t => some t
  | .redirectIn t => some t

/-- A task that is not in a call of `pipe_read` or `pipe_write` nor in `run_pipe_cmd`. -/
def Pipeline.free (s : Pipeline) (t : Nat) : Bool :=
  (decide (t ≠ s.parent) || s.agenda.isEmpty) && decide (s.reading ≠ some t) &&
    (s.writers.lookup t).isNone

/-- The `open` of the pipe is the one that `pipe_iclose` clears. -/
def Pipeline.setFds (s : Pipeline) (fds : Descriptors) : Pipeline :=
  { s with fds := fds, pipe := { s.pipe with isOpen := fds.opens.getD s.id false } }

/-- A task with a descriptor for this file. -/
def Descriptors.has (fds : Descriptors) (t f : Nat) : Bool :=
  match fds.running t with
  | none => false
  | some task => task.fd.contains (some f)

def Pipeline.afterRead (s : Pipeline) (p : Pipe) (reader : Reader) : Pipeline :=
  if reader.agenda = [] then
    { s with
      pipe := p
      reading := none
      reader := { reader with nread := 0 }
      received := s.received ++ slice reader.buf 0 reader.nread }
  else { s with pipe := p, reader := reader }

def Pipeline.afterWrite (s : Pipeline) (t : Nat) (p : Pipe) (writer : Writer) : Pipeline :=
  if writer.agenda = [] then
    { s with pipe := p, writers := s.writers.filter fun call => call.1 ≠ t }
  else
    { s with pipe := p, writers := s.writers.map fun call => if call.1 = t then (t, writer) else call }

def pipelineStep (act : PipelineAct) (s : Pipeline) : Option Pipeline :=
  match act with
  | .parent =>
      match s.agenda with
      | [] => none
      | next :: rest =>
          (fdStep next s.fds).map fun fds => ({ s with agenda := rest } : Pipeline).setFds fds
  | .fd act =>
      if act.actor.all s.free then (fdStep act s.fds).map s.setFds else none
  | .read t count =>
      if s.agenda = [] ∧ s.free t ∧ s.fds.has t s.readEnd ∧ s.reader.agenda = [] ∧ 0 < count then
        some { s with reading := some t, reader := ⟨[.size 0 count], s.reader.buf, 0⟩ }
      else none
  | .reader =>
      match s.reader.agenda with
      | [] => none
      | op :: rest =>
          let done := readOp op rest s.pipe s.reader
          some (s.afterRead done.1 done.2)
  | .write t buf =>
      if s.free t ∧ s.fds.has t s.writeEnd ∧ buf ≠ [] then
        some { s with
          writers := s.writers ++ [(t, ⟨[.size buf], 0⟩)]
          written := s.written ++ buf }
      else none
  | .writer t =>
      match s.writers.lookup t with
      | none => none
      | some writer =>
          match writer.agenda with
          | [] => none
          | op :: rest =>
              let done := writeOp op rest s.pipe writer
              some (s.afterWrite t done.1 done.2)

/-- `run_pipe_cmd` of a task has called `pipe`. -/
def Pipeline.start (before : Descriptors) (parent : Nat) (mem buf : Bytes) : Option Pipeline :=
  (fdStep (.pipe parent) before).map fun fds =>
    { fds := fds
      parent := parent
      agenda := runPipeCmd parent
      id := before.opens.length
      readEnd := before.files.length
      writeEnd := before.files.length + 1
      pipe := ⟨0, 0, true, mem⟩
      reading := none
      reader := ⟨[], buf, 0⟩
      writers := []
      written := []
      received := [] }

section Conditions

/-- A task that has the file in a slot or in its `backup`. -/
def FdTask.keeps (task : FdTask) (f : Nat) : Bool :=
  task.fd.contains (some f) || task.backup == some (some f)

/-- What the parent will have once it has put `backup` back in `fd[1]`. -/
def FdTask.restored (task : FdTask) : FdTask :=
  match task.backup with
  | none => task
  | some backup => task.put 1 backup

/-- A task that has the write end, where the parent's own copy counts only if it stays. -/
def Pipeline.keeps (s : Pipeline) (t : Nat) (task : FdTask) : Bool :=
  if t = s.parent ∧ s.agenda.head? = some (.restoreOut s.parent) then task.restored.keeps s.writeEnd
  else task.keeps s.writeEnd

def Pipeline.noWriter (s : Pipeline) (tasks : List FdTask) : Bool :=
  tasks.zipIdx.all fun entry => !s.keeps entry.2 entry.1

/-- The task and the slot of a call of `vfs_close`. -/
def Descriptors.closing (fds : Descriptors) (act : FdAct) : Option (Nat × Nat) :=
  match act with
  | .close t i => some (t, i)
  | .leave t =>
      match fds.tasks[t]?.map FdTask.life with
      | some (.leaving i) => some (t, i)
      | _ => none
  | _ => none

/-- The slot has an end of the pipe. -/
def Descriptors.endAt (fds : Descriptors) (id : Nat) (place : Nat × Nat) : Bool :=
  match (fds.tasks[place.1]?.bind fun task => task.slot place.2).bind fun f => fds.files[f]? with
  | none => false
  | some file => file.ops = .pipe id

/-- The reader has found the pipe empty and will look at `open` next. -/
def Reader.polls (reader : Reader) : Bool :=
  match reader.agenda with
  | .poll _ _ :: _ => true
  | _ => false

/-- Calls of `pipe_write` do not overlap, and an end of the pipe is closed only where nobody keeps
the write end then and no bytes have come since the reader found the pipe empty. -/
def disciplined (act : PipelineAct) (s : Pipeline) : Bool :=
  match act with
  | .write _ _ => s.writers.isEmpty
  | .fd act =>
      match (s.fds.closing act).filter (s.fds.endAt s.id) with
      | none => true
      | some (t, i) =>
          s.noWriter (s.fds.tasks.modify t fun task => task.put i none) &&
            !(s.reader.polls && decide (getSize s.pipe ≠ 0))
  | _ => true

end Conditions

section EndOfFile

/-- A call of `pipe_read` for at least one byte has returned 0. -/
def ReturnsZero (s next : Pipeline) : Prop :=
  s.reading ≠ none ∧ next.reading = none ∧ next.received = s.received

/-- No task has a descriptor for the write end, and all bytes that were written have been read. -/
structure AtEnd (s : Pipeline) : Prop where
  closed : ∀ task ∈ s.fds.tasks, task.keeps s.writeEnd = false
  read : s.received = s.written

end EndOfFile

end OsWorkbench.Kernel
