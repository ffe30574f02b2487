import OsWorkbench.Kernel.Dir
import OsWorkbench.Shell.Parse

/-!
# `runcmd.c`

What `runcmd` does with a command before it executes something: `run_redir_cmd` on the descriptors
of the running task, with `vfs_open` and `vfs_close`. The file systems are a parameter. A `vfile_t`
is its place among all that were allocated. Null pointers, failed assertions and paths that do not
fit their buffer end in `halts`.
-/

namespace OsWorkbench.Shell

open Kernel (slash toAbsolute Text)

/-- `vfs_lookup` and the `open` and `close` of the inodes, which may change the file systems.
`pipe_iclose` leaves the count of references alone. -/
structure FileOps (World Inode : Type) where
  lookup : World → List UInt8 → Nat → World × Option Inode
  opened : World → Inode → Nat → World
  closed : World → Inode → World
  isPipe : Inode → Bool

structure OpenFile (Inode : Type) where
  inode : Inode
  flags : Nat
  refcnt : Int
  freed : Bool
  deriving DecidableEq

structure Task (World Inode : Type) where
  world : World
  pwd : List UInt8
  fd : List (Option Nat)
  files : List (OpenFile Inode)

/-- How `runcmd` ends: the command is executed, there is none, tasks are created for its parts, or
the task exits. -/
inductive Ran (World Inode : Type) where
  | execs (argv : List (List UInt8)) (task : Task World Inode)
  | returns (task : Task World Inode)
  | forks (cmd : Cmd (List UInt8)) (task : Task World Inode)
  | exits (task : Task World Inode)
  | halts

variable {World Inode : Type} (ops : FileOps World Inode)

def newFdNum (task : Task World Inode) : Option Nat := task.fd.findIdx? Option.isNone

def vfsClose (task : Task World Inode) (fd : Nat) : Option (Task World Inode) :=
  match task.fd.getD fd none with
  | none => none
  | some f =>
      match task.files[f]? with
      | none => none
      | some file =>
          let refcnt := if ops.isPipe file.inode then file.refcnt else file.refcnt - 1
          if refcnt < 0 then none
          else some
            { task with
              world := ops.closed task.world file.inode
              fd := task.fd.set fd none
              files := task.files.set f { file with refcnt := refcnt, freed := refcnt == 0 } }

/-- The descriptor, or `none` for -1. -/
def vfsOpen (task : Task World Inode) (path : List UInt8) (flags : Nat) :
    Option (Task World Inode × Option Nat) :=
  match newFdNum task with
  | none => none
  | some fd =>
      let found := ops.lookup task.world path flags
      match found.2 with
      | none => some ({ task with world := found.1 }, none)
      | some inode =>
          some
            ({ task with
               world := ops.opened found.1 inode flags
               fd := task.fd.set fd (some task.files.length)
               files := task.files ++ [⟨inode, flags, 1, false⟩] }, some fd)

/-- `char dest[0x100]` of `run_redir_cmd`. -/
def destSize : Nat := 0x100

/-- `run_redir_cmd` before the command inside is run: whether it exits, and the task then. -/
def redirect (task : Task World Inode) (file : List UInt8) (mode fd : Nat) :
    Option (Task World Inode × Bool) :=
  match vfsClose ops task fd with
  | none => none
  | some task =>
      match toAbsolute task.pwd file with
      | none => none
      | some dest =>
          if destSize < dest.reach then none
          else (vfsOpen ops task dest.chars mode).map fun opened =>
            (opened.1, decide (opened.2 ≠ some fd))

def runcmd : Cmd (List UInt8) → Task World Inode → Ran World Inode
  | .exec argv, task => if argv = [] then .returns task else .execs argv task
  | .redir cmd file mode fd, task =>
      match redirect ops task file mode fd with
      | none => .halts
      | some (task, true) => .exits task
      | some (task, false) => runcmd cmd task
  | .pipe left right, task => .forks (.pipe left right) task
  | .list left right, task => .forks (.list left right) task
  | .back cmd, task => .forks (.back cmd) task

end OsWorkbench.Shell
