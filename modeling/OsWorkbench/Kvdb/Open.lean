import OsWorkbench.Kvdb.Locks
import OsWorkbench.Kvdb.Restart

/-!
# Opening a database

Any number of processes open one file and put into it. `kvdb_open` looks at the length of the file
before it takes the lock; `init_db` and the puts are run access by access with the lock held, and a
process may die before any access, which releases its lock. The lock is the exclusive lock on the
file; inside a process there is one thread.
-/

namespace OsWorkbench.Kvdb

open ByteStore WriteTrace Library

/-- The length check of `kvdb_open`. -/
def tooShort (file : File) : Bool := decide ((file.pread 0 headerLen).length < headerLen)

/-- `kvdb_open` on a file that nobody else uses. -/
def kvdbOpen : Db Unit := do
  let short ← Prog.read tooShort
  onlyIf short initDb

/-- What a process does next. A put keeps the file on which it started and counts its writes. -/
inductive Phase where
  | outside
  | waiting
  | filling (rest : Db Unit)
  | opened
  | putting (put : Assignment) (base : File) (written : Nat) (rest : Db Int)
  | dead

/-- A put that is over: `died` is the number of writes after which its process died, those of
`recov_backup` not counted. -/
structure Ended where
  put : Assignment
  died : Option Nat
  deriving DecidableEq

structure Site (P : Type) where
  file : File
  holder : Option P
  phase : P → Phase
  history : List Ended

/-- `put` gives the fuel for the loops of the put; it must last. -/
inductive Act where
  | go
  | put (put : Assignment) (fuel : Nat)
  | die

structure Move (P : Type) where
  proc : P
  act : Act

/-- How many writes `recov_backup` performs. -/
def repairs (file : File) : Nat := (recovBackup.trace file).1.length

def lasts (fuel : Nat) (put : Assignment) (file : File) : Bool :=
  match (kvdbPut fuel put.1 put.2).outcome file with
  | .error .fuel => false
  | _ => true

section Machine

variable {P : Type} [DecidableEq P]

def Site.become (site : Site P) (p : P) (phase : Phase) : Site P :=
  { site with phase := Function.update site.phase p phase }

def Site.release (site : Site P) (p : P) (phase : Phase) : Site P :=
  { site.become p phase with holder := none }

def Site.finish (site : Site P) (p : P) (phase : Phase) (ended : Ended) : Site P :=
  { site.release p phase with history := site.history ++ [ended] }

/-- The process is gone, and with it its lock. -/
def Site.bury (site : Site P) (p : P) : Site P :=
  match site.phase p with
  | .filling _ => site.release p .dead
  | .putting put base written _ => site.finish p .dead ⟨put, some (written - repairs base)⟩
  | _ => site.become p .dead

/-- One access of `init_db`, or the unlocking after it. -/
def Site.fill (site : Site P) (p : P) : Db Unit → Site P
  | .ret _ => site.release p .opened
  | .stop _ => site.bury p
  | .look next => site.become p (.filling (next site.file))
  | .edit change rest => { site.become p (.filling rest) with file := site.file.pwrite change }

/-- One access of `_kvdb_put`, or the unlocking after it. -/
def Site.store (site : Site P) (p : P) (put : Assignment) (base : File) (written : Nat) :
    Db Int → Site P
  | .ret _ => site.finish p .opened ⟨put, none⟩
  | .stop _ => site.bury p
  | .look next => site.become p (.putting put base written (next site.file))
  | .edit change rest =>
      { site.become p (.putting put base (written + 1) rest) with file := site.file.pwrite change }

def openStep (move : Move P) (site : Site P) : Option (Site P) :=
  match move.act, site.phase move.proc with
  | .go, .outside =>
      if tooShort site.file then some (site.become move.proc .waiting)
      else some (site.become move.proc .opened)
  | .go, .waiting =>
      if site.holder = none then
        some { site.become move.proc (.filling initDb) with holder := some move.proc }
      else none
  | .go, .filling rest => some (site.fill move.proc rest)
  | .go, .putting put base written rest => some (site.store move.proc put base written rest)
  | .put put fuel, .opened =>
      if site.holder = none ∧ lasts fuel put site.file then
        some { site.become move.proc (.putting put site.file 0 (kvdbPut fuel put.1 put.2)) with
          holder := some move.proc }
      else none
  | .die, .dead => none
  | .die, _ => some (site.bury move.proc)
  | _, _ => none

/-- The file has just been created and nobody has opened it. -/
def created : Site P where
  file := File.empty
  holder := none
  phase := fun _ => .outside
  history := []

end Machine

end OsWorkbench.Kvdb
