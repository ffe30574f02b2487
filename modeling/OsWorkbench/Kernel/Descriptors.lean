import OsWorkbench.Library.References
import OsWorkbench.Library.Runs

/-!
# Descriptors

`task->fd`, the `vfile_t` objects it points to, and what opens, inherits, moves and closes
descriptors: `vfs_open`, `vfs_close`, `pipe`, `kmt_create`, `exit` and `run_pipe_cmd`. A file is its
place in the list of all files that were allocated; `freed` says that `pmm->free` was called on it.
`exit` closes one slot in each step. Where the source writes through `fd[-1]` or a null pointer or
stops at an `Assert`, no step is taken.
-/

namespace OsWorkbench.Kernel

open Library

/-- `FD_NUM`. -/
def fdNum : Nat := 16

inductive FileSystem where
  | blkfs
  | devfs
  | procfs
  deriving DecidableEq

/-- Whose `inodeops_t` an inode has, and for `pipe_iops` which pipe it belongs to. -/
inductive InodeOps where
  | fs (kind : FileSystem)
  | pipe (id : Nat)
  deriving DecidableEq

structure Vfile where
  ops : InodeOps
  refcnt : Int
  freed : Bool
  deriving DecidableEq

inductive Life where
  | running
  | leaving (i : Nat)
  | zombie
  deriving DecidableEq

/-- What `task_t` has of descriptors. `pipefd` and `backup` are the variables of `run_pipe_cmd`,
between the call of `pipe` and the last use of them. -/
structure FdTask where
  fd : List (Option Nat)
  size : fd.length = fdNum
  pipefd : Option (Nat × Nat)
  backup : Option (Option Nat)
  life : Life

structure Descriptors where
  tasks : List FdTask
  files : List Vfile
  opens : List Bool

inductive FdAct where
  | openFile (task : Nat) (inode : Option FileSystem)
  | close (task fd : Nat)
  | pipe (task : Nat)
  | create (creator : Option Nat)
  | exit (task : Nat)
  | leave (task : Nat)
  | redirectOut (task : Nat)
  | restoreOut (task : Nat)
  | redirectIn (task : Nat)
  deriving DecidableEq

def FdTask.slot (task : FdTask) (i : Nat) : Option Nat := task.fd.getD i none

def FdTask.put (task : FdTask) (i : Nat) (slot : Option Nat) : FdTask :=
  { task with
    fd := task.fd.set i slot
    size := by
      rw [List.length_set]
      exact task.size }

def newFdNum (task : FdTask) : Option Nat := task.fd.findIdx? Option.isNone

def Descriptors.setTask (s : Descriptors) (t : Nat) (task : FdTask) : Descriptors :=
  { s with tasks := s.tasks.set t task }

/-- `vfs_open`; `inode` is what `vfs_lookup` found. -/
def Descriptors.vfsOpen (s : Descriptors) (t : Nat) (task : FdTask)
    (inode : Option FileSystem) : Option Descriptors :=
  match newFdNum task, inode with
  | none, _ => none
  | some _, none => some s
  | some fd, some kind =>
      some { s.setTask t (task.put fd (some s.files.length)) with
        files := s.files ++ [⟨.fs kind, 1, false⟩] }

/-- `blkfs_iclose`, `devfs_iclose` and `procfs_iclose`, and `pipe_iclose`. -/
def iclose (file : Vfile) : Vfile :=
  match file.ops with
  | .fs _ => { file with refcnt := file.refcnt - 1 }
  | .pipe _ => file

/-- What `iclose` does to the `open` of the pipes. -/
def shut (file : Vfile) (opens : List Bool) : List Bool :=
  match file.ops with
  | .fs _ => opens
  | .pipe id => opens.set id false

def Descriptors.vfsClose (s : Descriptors) (t : Nat) (task : FdTask) (fd : Nat) :
    Option Descriptors :=
  match task.slot fd with
  | none => none
  | some f =>
      match s.files[f]? with
      | none => none
      | some file =>
          let file' := iclose file
          if file'.refcnt < 0 then none
          else some
            { tasks := s.tasks.set t (task.put fd none)
              files := s.files.set f (if file'.refcnt = 0 then { file' with freed := true } else file')
              opens := shut file s.opens }

def Descriptors.pipe (s : Descriptors) (t : Nat) (task : FdTask) : Option Descriptors :=
  let n := s.files.length
  let file : Vfile := ⟨.pipe s.opens.length, 1, false⟩
  match newFdNum task with
  | none => none
  | some i =>
      let task' := task.put i (some n)
      match newFdNum task' with
      | none => none
      | some j =>
          some
            { tasks := s.tasks.set t { task'.put j (some (n + 1)) with pipefd := some (i, j) }
              files := s.files ++ [file, file]
              opens := s.opens ++ [true] }

/-- The loop of `kmt_create` over the slots of its caller. -/
def inherit (fd : List (Option Nat)) (files : List Vfile) : List Vfile :=
  fd.foldl (fun files slot =>
    match slot with
    | none => files
    | some f => files.modify f fun file => { file with refcnt := file.refcnt + 1 }) files

def FdTask.blank : FdTask where
  fd := List.replicate fdNum none
  size := List.length_replicate
  pipefd := none
  backup := none
  life := .running

def Descriptors.kmtCreate (s : Descriptors) (creator : Option FdTask) : Descriptors :=
  match creator with
  | none => { s with tasks := s.tasks ++ [FdTask.blank] }
  | some cur =>
      { s with
        tasks := s.tasks ++ [{ FdTask.blank with fd := cur.fd, size := cur.size }]
        files := inherit cur.fd s.files }

/-- One turn of the loop of `exit`, or what follows it. -/
def Descriptors.leave (s : Descriptors) (t : Nat) (task : FdTask) : Option Descriptors :=
  match task.life with
  | .leaving i =>
      if i < fdNum then
        let task' := { task with life := .leaving (i + 1) }
        if task.slot i = none then some (s.setTask t task') else s.vfsClose t task' i
      else some (s.setTask t { task with life := .zombie })
  | _ => none

/-- `backup=current->fd[1]` and the two assignments after it. -/
def Descriptors.redirectOut (s : Descriptors) (t : Nat) (task : FdTask) : Option Descriptors :=
  match task.pipefd with
  | none => none
  | some (_, w) =>
      let task' := (task.put 1 (task.slot w)).put w none
      some (s.setTask t { task' with backup := some (task.slot 1) })

def Descriptors.restoreOut (s : Descriptors) (t : Nat) (task : FdTask) : Option Descriptors :=
  match task.backup with
  | none => none
  | some backup => some (s.setTask t { task.put 1 backup with backup := none })

def Descriptors.redirectIn (s : Descriptors) (t : Nat) (task : FdTask) : Option Descriptors :=
  match task.pipefd with
  | none => none
  | some (r, _) =>
      let task' := (task.put 0 (task.slot r)).put r none
      some (s.setTask t { task' with pipefd := none })

/-- A task of the machine that has not called `exit`. -/
def Descriptors.running (s : Descriptors) (t : Nat) : Option FdTask :=
  match s.tasks[t]? with
  | none => none
  | some task => if task.life = .running then some task else none

def fdStep (act : FdAct) (s : Descriptors) : Option Descriptors :=
  match act with
  | .openFile t inode => (s.running t).bind fun task => s.vfsOpen t task inode
  | .close t fd => (s.running t).bind fun task => s.vfsClose t task fd
  | .pipe t => (s.running t).bind fun task => s.pipe t task
  | .create none => some (s.kmtCreate none)
  | .create (some t) => (s.running t).bind fun task => some (s.kmtCreate (some task))
  | .exit t => (s.running t).bind fun task => some (s.setTask t { task with life := .leaving 0 })
  | .leave t => s.tasks[t]?.bind fun task => s.leave t task
  | .redirectOut t => (s.running t).bind fun task => s.redirectOut t task
  | .restoreOut t => (s.running t).bind fun task => s.restoreOut t task
  | .redirectIn t => (s.running t).bind fun task => s.redirectIn t task

section Cases

variable {s s' : Descriptors} {t fd : Nat} {task : FdTask} {inode : Option FileSystem}

theorem vfs_open_cases (opened : s.vfsOpen t task inode = some s') :
    s' = s ∨ ∃ i kind, newFdNum task = some i ∧
      s' = { s.setTask t (task.put i (some s.files.length)) with
        files := s.files ++ [⟨.fs kind, 1, false⟩] } := by
  unfold Descriptors.vfsOpen at opened
  split at opened
  next => cases opened
  next =>
    cases opened
    exact Or.inl rfl
  next i kind found =>
    cases opened
    exact Or.inr ⟨i, kind, found, rfl⟩

theorem vfs_close_cases (closed : s.vfsClose t task fd = some s') :
    ∃ f file, task.slot fd = some f ∧ s.files[f]? = some file ∧ 0 ≤ (iclose file).refcnt ∧
      s' =
        { tasks := s.tasks.set t (task.put fd none)
          files := s.files.set f (if (iclose file).refcnt = 0 then
            { iclose file with freed := true } else iclose file)
          opens := shut file s.opens } := by
  unfold Descriptors.vfsClose at closed
  split at closed
  next => cases closed
  next f points =>
    split at closed
    next => cases closed
    next file known =>
      simp only at closed
      split at closed
      next => cases closed
      next counted =>
        cases closed
        exact ⟨f, file, points, known, Int.not_lt.mp counted, rfl⟩

theorem pipe_cases (piped : s.pipe t task = some s') :
    ∃ i j, newFdNum task = some i ∧ newFdNum (task.put i (some s.files.length)) = some j ∧
      s' =
        { tasks := s.tasks.set t
            { (task.put i (some s.files.length)).put j (some (s.files.length + 1)) with
              pipefd := some (i, j) }
          files := s.files ++ [⟨.pipe s.opens.length, 1, false⟩, ⟨.pipe s.opens.length, 1, false⟩]
          opens := s.opens ++ [true] } := by
  unfold Descriptors.pipe at piped
  simp only at piped
  split at piped
  next => cases piped
  next i found =>
    split at piped
    next => cases piped
    next j second =>
      cases piped
      exact ⟨i, j, found, second, rfl⟩

/-- A task that leaves goes on to the next slot, closes this one, or is done. -/
theorem leave_cases (left : s.leave t task = some s') :
    ∃ i, task.life = .leaving i ∧
      ((task.slot i = none ∧ s' = s.setTask t { task with life := .leaving (i + 1) }) ∨
        s.vfsClose t { task with life := .leaving (i + 1) } i = some s' ∨
        (fdNum ≤ i ∧ s' = s.setTask t { task with life := .zombie })) := by
  unfold Descriptors.leave at left
  split at left
  next i life =>
    refine ⟨i, life, ?_⟩
    split at left
    next =>
      simp only at left
      split at left
      next empty =>
        cases left
        exact Or.inl ⟨empty, rfl⟩
      next => exact Or.inr (Or.inl left)
    next outside =>
      cases left
      exact Or.inr (Or.inr ⟨Nat.le_of_not_lt outside, rfl⟩)
  next => cases left

theorem redirect_out_cases (redirected : s.redirectOut t task = some s') :
    ∃ r w, task.pipefd = some (r, w) ∧
      s' = s.setTask t { (task.put 1 (task.slot w)).put w none with
        backup := some (task.slot 1) } := by
  unfold Descriptors.redirectOut at redirected
  split at redirected
  next => cases redirected
  next r w pipefd =>
    cases redirected
    exact ⟨r, w, pipefd, rfl⟩

theorem restore_out_cases (restored : s.restoreOut t task = some s') :
    ∃ backup, task.backup = some backup ∧
      s' = s.setTask t { task.put 1 backup with backup := none } := by
  unfold Descriptors.restoreOut at restored
  split at restored
  next => cases restored
  next backup saved =>
    cases restored
    exact ⟨backup, saved, rfl⟩

theorem redirect_in_cases (redirected : s.redirectIn t task = some s') :
    ∃ r w, task.pipefd = some (r, w) ∧
      s' = s.setTask t { (task.put 0 (task.slot r)).put r none with pipefd := none } := by
  unfold Descriptors.redirectIn at redirected
  split at redirected
  next => cases redirected
  next r w pipefd =>
    cases redirected
    exact ⟨r, w, pipefd, rfl⟩

end Cases

/-- Before the first task is created. -/
def noTasks : Descriptors := ⟨[], [], []⟩

end OsWorkbench.Kernel
