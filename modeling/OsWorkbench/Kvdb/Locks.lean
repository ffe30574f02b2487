import Mathlib.Logic.Function.Basic
import OsWorkbench.Library.Runs

/-!
# The two lock layers

`kvdb_lock` as single accesses: the counters of `kvdb_t`, its reader/writer lock and `flock`.
A process owns one `kvdb_t` and one open file description; its threads share both.
-/

namespace OsWorkbench.Kvdb

open OsWorkbench.Library

inductive LockMode where
  | shared
  | exclusive
  deriving DecidableEq, Repr

/-- The next access of a thread that calls `kvdb_get` or `kvdb_put`. -/
inductive Point where
  | outside
  -- KVDB_RD
  | loadAcq
  | loadCnt (tmp : Int)
  | storeCnt (tmp count : Int)
  | recheckAcq (tmp : Int)
  | clearCnt
  | spin
  | rdlock
  | flockShared
  | reading
  -- KVDB_WR
  | raiseAcq
  | wrlock
  | lowerAcq
  | resetCnt
  | flockExclusive
  | writing
  -- KVDB_UN
  | rwUnlock
  | flockUnlock
  deriving DecidableEq, Repr

inductive Call where
  | get
  | put
  deriving DecidableEq, Repr

section Machine

variable {P T : Type} [DecidableEq P] [DecidableEq T]

/-- The fields of `kvdb_t` that `kvdb_lock` uses; the reader/writer lock is given by its holders. -/
structure KvdbT (T : Type) where
  wrAcq : Int
  rdCnt : Int
  readers : List T
  writer : Option T

structure System (P T : Type) where
  db : P → KvdbT T
  point : P → T → Point
  locks : List (P × LockMode)

/-- What a thread can change in one step. -/
structure Local (P T : Type) where
  point : Point
  db : KvdbT T
  locks : List (P × LockMode)

/-- The process and thread that run next, with the call a thread outside starts. -/
structure Turn (P T : Type) where
  proc : P
  thread : T
  call : Call

def pthreadRwlockUnlock (t : T) (db : KvdbT T) : KvdbT T :=
  if db.writer = some t then { db with writer := none }
  else { db with readers := db.readers.erase t }

def unlocked (p : P) (locks : List (P × LockMode)) : List (P × LockMode) :=
  locks.filter fun lock => lock.1 ≠ p

def compatible (mode : LockMode) (lock : P × LockMode) : Bool :=
  decide (mode = .shared ∧ lock.2 = .shared)

/-- One round of `flock(fd, mode)`.  A lock the description holds in the other mode is dropped
first, and the call goes around again; it blocks while another description conflicts. -/
def flock (p : P) (mode : LockMode) (again done : Point) (db : KvdbT T)
    (locks : List (P × LockMode)) : Option (Local P T) :=
  if (p, mode) ∈ locks then some ⟨done, db, locks⟩
  else if p ∈ locks.map Prod.fst then some ⟨again, db, unlocked p locks⟩
  else if locks.all (compatible mode) then some ⟨done, db, (p, mode) :: locks⟩
  else none

/-- One access of `kvdb_lock`, or one of the two critical sections as a whole. -/
def lockStep (p : P) (t : T) (call : Call) (point : Point) (db : KvdbT T)
    (locks : List (P × LockMode)) : Option (Local P T) :=
  match point with
  | .outside =>
      match call with
      | .get => some ⟨.loadAcq, db, locks⟩
      | .put => some ⟨.raiseAcq, db, locks⟩
  | .loadAcq =>
      if db.wrAcq > 0 then some ⟨.loadCnt db.wrAcq, db, locks⟩ else some ⟨.spin, db, locks⟩
  | .loadCnt tmp => some ⟨.storeCnt tmp db.rdCnt, db, locks⟩
  | .storeCnt tmp count => some ⟨.recheckAcq tmp, { db with rdCnt := count + 1 }, locks⟩
  | .recheckAcq tmp =>
      if tmp ≠ db.wrAcq then some ⟨.clearCnt, db, locks⟩ else some ⟨.spin, db, locks⟩
  | .clearCnt => some ⟨.spin, { db with rdCnt := 0 }, locks⟩
  | .spin =>
      if db.rdCnt > 0x77 then some ⟨.spin, db, locks⟩ else some ⟨.rdlock, db, locks⟩
  | .rdlock =>
      if db.writer = none then
        some ⟨.flockShared, { db with readers := t :: db.readers }, locks⟩
      else none
  | .flockShared => flock p .shared .flockShared .reading db locks
  | .reading => some ⟨.rwUnlock, db, locks⟩
  | .raiseAcq => some ⟨.wrlock, { db with wrAcq := db.wrAcq + 1 }, locks⟩
  | .wrlock =>
      if db.writer = none ∧ db.readers = [] then
        some ⟨.lowerAcq, { db with writer := some t }, locks⟩
      else none
  | .lowerAcq => some ⟨.resetCnt, { db with wrAcq := db.wrAcq - 1 }, locks⟩
  | .resetCnt => some ⟨.flockExclusive, { db with rdCnt := 0 }, locks⟩
  | .flockExclusive => flock p .exclusive .flockExclusive .writing db locks
  | .writing => some ⟨.rwUnlock, db, locks⟩
  | .rwUnlock => some ⟨.flockUnlock, pthreadRwlockUnlock t db, locks⟩
  | .flockUnlock => some ⟨.outside, db, unlocked p locks⟩

/-- Puts what a thread changed back into the system. -/
def System.install (s : System P T) (p : P) (t : T) (changed : Local P T) : System P T where
  db := Function.update s.db p changed.db
  point := Function.update s.point p (Function.update (s.point p) t changed.point)
  locks := changed.locks

def takeTurn (turn : Turn P T) (s : System P T) : Option (System P T) :=
  (lockStep turn.proc turn.thread turn.call (s.point turn.proc turn.thread) (s.db turn.proc)
    s.locks).map (s.install turn.proc turn.thread)

/-- Every process has opened the file and no thread has called yet. -/
def opened : System P T where
  db := fun _ => ⟨0, 0, [], none⟩
  point := fun _ _ => .outside
  locks := []

end Machine

end OsWorkbench.Kvdb
