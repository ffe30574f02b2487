import Mathlib.Data.Fintype.Basic
import OsWorkbench.Kvdb.Locks

/-!
# Isolation between processes

`KVDB_UN` releases the reader/writer lock before the `flock`, and the `flock` belongs to the whole
process.  A late `LOCK_UN` drops the file lock of a thread that entered in between; processes are
isolated in every run in which this does not happen.
-/

namespace OsWorkbench.Kvdb

open OsWorkbench.Library

section Isolation

variable {P T : Type}

def Point.critical (point : Point) : Prop := point = .reading ∨ point = .writing

/-- No thread is in its critical section while a thread of another process writes. -/
def Isolated (s : System P T) : Prop :=
  ∀ p q t u, p ≠ q → s.point p t = .writing → ¬ (s.point q u).critical

/-- `LOCK_UN` is executed only while no other thread of the process is in its critical section. -/
def LoneUnlock (turn : Turn P T) (s : System P T) : Prop :=
  s.point turn.proc turn.thread = .flockUnlock →
    ∀ t, t ≠ turn.thread → ¬ (s.point turn.proc t).critical

/-- What a thread holds at each point of its call. -/
def Holds (p : P) (t : T) (db : KvdbT T) (locks : List (P × LockMode)) : Point → Prop
  | .flockShared => t ∈ db.readers
  | .reading => t ∈ db.readers ∧ (p, .shared) ∈ locks
  | .lowerAcq | .resetCnt | .flockExclusive => db.writer = some t
  | .writing => db.writer = some t ∧ (p, .exclusive) ∈ locks
  | _ => True

def KvdbT.Exclusive (db : KvdbT T) : Prop := ∀ t, db.writer = some t → db.readers = []

/-- Two locks on the file are both shared, unless they are the same lock. -/
def Granted (locks : List (P × LockMode)) : Prop :=
  ∀ first ∈ locks, ∀ second ∈ locks,
    first = second ∨ (first.1 ≠ second.1 ∧ first.2 = .shared ∧ second.2 = .shared)

structure Coherent (s : System P T) : Prop where
  holds : ∀ p t, Holds p t (s.db p) s.locks (s.point p t)
  exclusive : ∀ p, (s.db p).Exclusive
  granted : Granted s.locks

theorem opened_coherent : Coherent (opened : System P T) where
  holds := by
    intro p t
    trivial
  exclusive := by
    intro p t written
    rfl
  granted := by
    intro first listed
    cases listed

theorem Granted.subset {locks others : List (P × LockMode)} (granted : Granted locks)
    (subset : ∀ lock ∈ others, lock ∈ locks) : Granted others := by
  intro first firstListed second secondListed
  exact granted first (subset first firstListed) second (subset second secondListed)

theorem Granted.conflict {locks : List (P × LockMode)} (granted : Granted locks) {p q : P}
    {mode : LockMode} (apart : p ≠ q) (held : (p, LockMode.exclusive) ∈ locks) :
    (q, mode) ∉ locks := by
  intro heldOther
  rcases granted _ held _ heldOther with same | ⟨_, shared, _⟩
  · exact apart (congrArg Prod.fst same)
  · cases shared

theorem Coherent.isolated {s : System P T} (coherent : Coherent s) : Isolated s := by
  intro p q t u apart writes enters
  have writer := coherent.holds p t
  rw [writes] at writer
  have holder := coherent.holds q u
  rcases enters with reads | writesToo
  · rw [reads] at holder
    exact coherent.granted.conflict apart writer.2 holder.2
  · rw [writesToo] at holder
    exact coherent.granted.conflict apart writer.2 holder.2

section Flock

variable [DecidableEq P]

theorem mem_unlocked {p : P} {locks : List (P × LockMode)} {lock : P × LockMode} :
    lock ∈ unlocked p locks ↔ lock ∈ locks ∧ lock.1 ≠ p := by
  simp [unlocked]

/-- One round of `flock` keeps the thread where it is without a lock on the other mode, or lets
it pass with the wanted one. -/
theorem flock_cases {p : P} {mode : LockMode} {again done : Point} {db : KvdbT T}
    {locks : List (P × LockMode)} {changed : Local P T}
    (went : flock p mode again done db locks = some changed) :
    (changed = ⟨done, db, locks⟩ ∧ (p, mode) ∈ locks) ∨
      (changed = ⟨again, db, unlocked p locks⟩ ∧ (p, mode) ∉ locks) ∨
      (changed = ⟨done, db, (p, mode) :: locks⟩ ∧ p ∉ locks.map Prod.fst ∧
        ∀ lock ∈ locks, mode = .shared ∧ lock.2 = .shared) := by
  unfold flock at went
  split at went
  next held =>
    left
    exact ⟨(Option.some.inj went).symm, held⟩
  next other =>
    split at went
    next held =>
      right; left
      exact ⟨(Option.some.inj went).symm, other⟩
    next free =>
      split at went
      next agree =>
        right; right
        refine ⟨(Option.some.inj went).symm, free, ?_⟩
        intro lock listed
        have fits := List.all_eq_true.mp agree lock listed
        exact of_decide_eq_true fits
      next => cases went

theorem flock_granted {p : P} {mode : LockMode} {again done : Point} {db : KvdbT T}
    {locks : List (P × LockMode)} {changed : Local P T} (granted : Granted locks)
    (went : flock p mode again done db locks = some changed) : Granted changed.locks := by
  rcases flock_cases went with ⟨rfl, _⟩ | ⟨rfl, _⟩ | ⟨rfl, free, agree⟩
  · exact granted
  · apply granted.subset
    intro lock listed
    exact (mem_unlocked.mp listed).1
  · intro first firstListed second secondListed
    have owned : ∀ lock ∈ locks, lock.1 ≠ p := by
      intro lock listed same
      exact free (List.mem_map.mpr ⟨lock, listed, same⟩)
    rcases List.mem_cons.mp firstListed with rfl | firstOld <;>
      rcases List.mem_cons.mp secondListed with rfl | secondOld
    · left; rfl
    · right
      exact ⟨(owned second secondOld).symm, agree second secondOld⟩
    · right
      have both := agree first firstOld
      exact ⟨owned first firstOld, both.2, both.1⟩
    · exact granted first firstOld second secondOld

end Flock

section Advance

variable {p : P} {t : T} {point : Point} {db : KvdbT T}
variable {locks : List (P × LockMode)} {changed : Local P T}

/-- What a step leaves of the locks that other threads and processes hold. -/
structure Kept (p : P) (t : T) (point : Point) (db : KvdbT T) (locks : List (P × LockMode))
    (changed : Local P T) : Prop where
  readers : ∀ u, u ≠ t → u ∈ db.readers → u ∈ changed.db.readers
  writer : ∀ u, u ≠ t → db.writer = some u → changed.db.writer = some u
  own : ∀ mode, (p, mode) ∈ locks → (p, mode) ∈ changed.locks ∨ point = .flockUnlock ∨
    (point = .flockShared ∧ (p, LockMode.shared) ∉ locks) ∨
    (point = .flockExclusive ∧ (p, LockMode.exclusive) ∉ locks)
  others : ∀ q mode, q ≠ p → (q, mode) ∈ locks → (q, mode) ∈ changed.locks

theorem Kept.of_locks_eq (readers : ∀ u, u ≠ t → u ∈ db.readers → u ∈ changed.db.readers)
    (writer : ∀ u, u ≠ t → db.writer = some u → changed.db.writer = some u)
    (same : changed.locks = locks) : Kept p t point db locks changed where
  readers := readers
  writer := writer
  own := by
    intro mode held
    left
    rw [same]
    exact held
  others := by
    intro q mode apart held
    rw [same]
    exact held

/-- A step of another thread of the process takes nothing from a thread, unless it is the
`LOCK_UN` that the guard rules out. -/
theorem Kept.sibling (kept : Kept p t point db locks changed) (exclusive : db.Exclusive)
    (held : Holds p t db locks point) {u : T} {other : Point} (apart : u ≠ t)
    (otherHeld : Holds p u db locks other)
    (guarded : point = .flockUnlock → ¬ other.critical) :
    Holds p u changed.db changed.locks other := by
  cases other with
  | flockShared => exact kept.readers u apart otherHeld
  | reading =>
      constructor
      · exact kept.readers u apart otherHeld.1
      · rcases kept.own .shared otherHeld.2 with still | rfl | ⟨_, absent⟩ | ⟨rfl, _⟩
        · exact still
        · exact absurd (Or.inl rfl) (guarded rfl)
        · exact absurd otherHeld.2 absent
        · have none := exclusive t held
          have listed := otherHeld.1
          rw [none] at listed
          cases listed
  | lowerAcq | resetCnt | flockExclusive => exact kept.writer u apart otherHeld
  | writing =>
      constructor
      · exact kept.writer u apart otherHeld.1
      · rcases kept.own .exclusive otherHeld.2 with still | rfl | ⟨rfl, _⟩ | ⟨_, absent⟩
        · exact still
        · exact absurd (Or.inr rfl) (guarded rfl)
        · have none := exclusive u otherHeld.1
          have listed : t ∈ db.readers := held
          rw [none] at listed
          cases listed
        · exact absurd otherHeld.2 absent
  | outside | loadAcq | loadCnt tmp | storeCnt tmp count | recheckAcq tmp | clearCnt | spin
  | rdlock | raiseAcq | wrlock | rwUnlock | flockUnlock => trivial

theorem Kept.stranger (kept : Kept p t point db locks changed) {q : P} {u : T}
    {otherDb : KvdbT T} {other : Point} (apart : q ≠ p)
    (otherHeld : Holds q u otherDb locks other) : Holds q u otherDb changed.locks other := by
  cases other with
  | reading => exact ⟨otherHeld.1, kept.others q .shared apart otherHeld.2⟩
  | writing => exact ⟨otherHeld.1, kept.others q .exclusive apart otherHeld.2⟩
  | flockShared | lowerAcq | resetCnt | flockExclusive => exact otherHeld
  | outside | loadAcq | loadCnt tmp | storeCnt tmp count | recheckAcq tmp | clearCnt | spin
  | rdlock | raiseAcq | wrlock | rwUnlock | flockUnlock => trivial

variable [DecidableEq P]

theorem flock_kept {mode : LockMode} {again done : Point}
    (reason : (point = .flockShared ∧ mode = .shared) ∨
      (point = .flockExclusive ∧ mode = .exclusive))
    (went : flock p mode again done db locks = some changed) :
    Kept p t point db locks changed := by
  rcases flock_cases went with ⟨rfl, _⟩ | ⟨rfl, absent⟩ | ⟨rfl, _⟩
  · exact Kept.of_locks_eq (fun _ _ listed => listed) (fun _ _ owned => owned) rfl
  · constructor
    · intro u apart listed
      exact listed
    · intro u apart owned
      exact owned
    · intro other held
      right; right
      rcases reason with ⟨rfl, rfl⟩ | ⟨rfl, rfl⟩
      · left
        exact ⟨rfl, absent⟩
      · right
        exact ⟨rfl, absent⟩
    · intro q other apart held
      exact mem_unlocked.mpr ⟨held, apart⟩
  · constructor
    · intro u apart listed
      exact listed
    · intro u apart owned
      exact owned
    · intro other held
      left
      exact List.mem_cons_of_mem _ held
    · intro q other apart held
      exact List.mem_cons_of_mem _ held

variable [DecidableEq T] {call : Call}

theorem unlock_readers {t u : T} {db : KvdbT T} (apart : u ≠ t) (listed : u ∈ db.readers) :
    u ∈ (pthreadRwlockUnlock t db).readers := by
  unfold pthreadRwlockUnlock
  split
  next => exact listed
  next => exact (List.mem_erase_of_ne apart).mpr listed

theorem unlock_writer {t u : T} {db : KvdbT T} (apart : u ≠ t) (owned : db.writer = some u) :
    (pthreadRwlockUnlock t db).writer = some u := by
  unfold pthreadRwlockUnlock
  split
  next self =>
    rw [owned] at self
    exact absurd (Option.some.inj self) apart
  next => exact owned

theorem unlock_exclusive {t : T} {db : KvdbT T} (exclusive : db.Exclusive) :
    (pthreadRwlockUnlock t db).Exclusive := by
  intro u owned
  unfold pthreadRwlockUnlock at owned ⊢
  split at owned
  next => cases owned
  next other =>
    rw [if_neg other]
    have none := exclusive u owned
    simp only [none, List.erase_nil]

theorem step_kept (stepped : lockStep p t call point db locks = some changed) :
    Kept p t point db locks changed := by
  cases point with
  | outside =>
      cases call <;> cases stepped <;>
        exact Kept.of_locks_eq (fun _ _ listed => listed) (fun _ _ owned => owned) rfl
  | flockShared => exact flock_kept (Or.inl ⟨rfl, rfl⟩) stepped
  | flockExclusive => exact flock_kept (Or.inr ⟨rfl, rfl⟩) stepped
  | rdlock =>
      simp only [lockStep] at stepped
      split at stepped <;> cases stepped
      apply Kept.of_locks_eq
      · intro u apart listed
        exact List.mem_cons_of_mem _ listed
      · intro u apart owned
        exact owned
      · rfl
  | wrlock =>
      simp only [lockStep] at stepped
      split at stepped
      next free =>
        cases stepped
        apply Kept.of_locks_eq
        · intro u apart listed
          exact listed
        · intro u apart owned
          rw [free.1] at owned
          cases owned
        · rfl
      next => cases stepped
  | rwUnlock =>
      cases stepped
      apply Kept.of_locks_eq
      · intro u apart listed
        exact unlock_readers apart listed
      · intro u apart owned
        exact unlock_writer apart owned
      · rfl
  | flockUnlock =>
      cases stepped
      constructor
      · intro u apart listed
        exact listed
      · intro u apart owned
        exact owned
      · intro mode held
        right; left
        rfl
      · intro q mode apart held
        exact mem_unlocked.mpr ⟨held, apart⟩
  | loadAcq | recheckAcq tmp | spin =>
      simp only [lockStep] at stepped
      split at stepped <;> cases stepped <;>
        exact Kept.of_locks_eq (fun _ _ listed => listed) (fun _ _ owned => owned) rfl
  | loadCnt tmp | storeCnt tmp count | clearCnt | reading | raiseAcq | lowerAcq | resetCnt
  | writing =>
      cases stepped
      exact Kept.of_locks_eq (fun _ _ listed => listed) (fun _ _ owned => owned) rfl

/-- The thread that moves holds what its new point asks for. -/
theorem step_holds (held : Holds p t db locks point)
    (stepped : lockStep p t call point db locks = some changed) :
    Holds p t changed.db changed.locks changed.point := by
  cases point with
  | outside => cases call <;> cases stepped <;> trivial
  | rdlock =>
      simp only [lockStep] at stepped
      split at stepped <;> cases stepped
      exact List.mem_cons_self
  | wrlock =>
      simp only [lockStep] at stepped
      split at stepped <;> cases stepped
      rfl
  | flockShared =>
      rcases flock_cases stepped with ⟨rfl, owned⟩ | ⟨rfl, _⟩ | ⟨rfl, _⟩
      · exact ⟨held, owned⟩
      · exact held
      · exact ⟨held, List.mem_cons_self⟩
  | flockExclusive =>
      rcases flock_cases stepped with ⟨rfl, owned⟩ | ⟨rfl, _⟩ | ⟨rfl, _⟩
      · exact ⟨held, owned⟩
      · exact held
      · exact ⟨held, List.mem_cons_self⟩
  | loadAcq | recheckAcq tmp | spin =>
      simp only [lockStep] at stepped
      split at stepped <;> cases stepped <;> trivial
  | lowerAcq | resetCnt =>
      cases stepped
      exact held
  | loadCnt tmp | storeCnt tmp count | clearCnt | reading | raiseAcq | writing | rwUnlock
  | flockUnlock =>
      cases stepped
      trivial

theorem step_exclusive (exclusive : db.Exclusive)
    (stepped : lockStep p t call point db locks = some changed) : changed.db.Exclusive := by
  cases point with
  | outside => cases call <;> cases stepped <;> exact exclusive
  | rdlock =>
      simp only [lockStep] at stepped
      split at stepped
      next free =>
        cases stepped
        intro u owned
        change db.writer = some u at owned
        rw [free] at owned
        cases owned
      next => cases stepped
  | wrlock =>
      simp only [lockStep] at stepped
      split at stepped
      next free =>
        cases stepped
        intro u owned
        exact free.2
      next => cases stepped
  | flockShared =>
      rcases flock_cases stepped with ⟨rfl, _⟩ | ⟨rfl, _⟩ | ⟨rfl, _⟩ <;> exact exclusive
  | flockExclusive =>
      rcases flock_cases stepped with ⟨rfl, _⟩ | ⟨rfl, _⟩ | ⟨rfl, _⟩ <;> exact exclusive
  | rwUnlock =>
      cases stepped
      exact unlock_exclusive exclusive
  | loadAcq | recheckAcq tmp | spin =>
      simp only [lockStep] at stepped
      split at stepped <;> cases stepped <;> exact exclusive
  | loadCnt tmp | storeCnt tmp count | clearCnt | reading | raiseAcq | lowerAcq | resetCnt
  | writing | flockUnlock =>
      cases stepped
      exact exclusive

theorem step_granted (granted : Granted locks)
    (stepped : lockStep p t call point db locks = some changed) : Granted changed.locks := by
  cases point with
  | outside => cases call <;> cases stepped <;> exact granted
  | flockShared => exact flock_granted granted stepped
  | flockExclusive => exact flock_granted granted stepped
  | flockUnlock =>
      cases stepped
      apply granted.subset
      intro lock listed
      exact (mem_unlocked.mp listed).1
  | loadAcq | recheckAcq tmp | spin | rdlock | wrlock =>
      simp only [lockStep] at stepped
      split at stepped <;> cases stepped <;> exact granted
  | loadCnt tmp | storeCnt tmp count | clearCnt | reading | raiseAcq | lowerAcq | resetCnt
  | writing | rwUnlock =>
      cases stepped
      exact granted

end Advance

section Whole

variable [DecidableEq P] [DecidableEq T]

theorem turn_coherent (turn : Turn P T) (s next : System P T) (coherent : Coherent s)
    (lone : LoneUnlock turn s) (taken : takeTurn turn s = some next) : Coherent next := by
  rcases turn with ⟨p, t, call⟩
  rcases Option.map_eq_some_iff.mp taken with ⟨changed, stepped, rfl⟩
  have held := coherent.holds p t
  have kept := step_kept stepped
  constructor
  · intro q u
    by_cases sameProc : q = p
    · subst q
      by_cases sameThread : u = t
      · subst u
        simpa only [System.install, Function.update_self] using step_holds held stepped
      · simpa only [System.install, Function.update_self, Function.update_of_ne sameThread]
          using kept.sibling (coherent.exclusive p) held sameThread (coherent.holds p u)
            (fun unlocking => lone unlocking u sameThread)
    · simpa only [System.install, Function.update_of_ne sameProc]
        using kept.stranger sameProc (coherent.holds q u)
  · intro q
    by_cases sameProc : q = p
    · subst q
      simpa only [System.install, Function.update_self]
        using step_exclusive (coherent.exclusive p) stepped
    · simpa only [System.install, Function.update_of_ne sameProc] using coherent.exclusive q
  · exact step_granted coherent.granted stepped

/-- Every run keeps the processes apart, as long as no `LOCK_UN` is executed while another thread
of the process is in its critical section. -/
theorem processes_isolated (turns : List (Turn P T)) (final : System P T)
    (lone : GuardedRun takeTurn LoneUnlock turns opened)
    (ran : runSteps takeTurn turns opened = some final) : Isolated final := by
  have coherent := run_invariant takeTurn turn_coherent turns opened final opened_coherent lone ran
  exact coherent.isolated

end Whole

section Schedules

instance (point : Point) : Decidable point.critical :=
  inferInstanceAs (Decidable (_ ∨ _))

instance [Fintype T] [DecidableEq T] (turn : Turn P T) : DecidablePred (LoneUnlock turn) :=
  fun s => inferInstanceAs (Decidable (s.point turn.proc turn.thread = .flockUnlock →
    ∀ t, t ≠ turn.thread → ¬ (s.point turn.proc t).critical))

def turns (count : Nat) (p t : Bool) (call : Call) : List (Turn Bool Bool) :=
  List.replicate count ⟨p, t, call⟩

/-- A put of one process, complete, and then a get of the other up to its critical section. -/
theorem processes_isolated_in_turn :
    ∃ final, Isolated final ∧
      runSteps takeTurn (turns 9 false false .put ++ turns 5 true true .get) opened = some final ∧
      final.point true true = .reading := by
  rcases reached : runSteps takeTurn (turns 9 false false .put ++ turns 5 true true .get) opened
    with _ | final
  · exact absurd (congrArg Option.isSome reached) (by decide)
  · refine ⟨final, ?_, rfl, ?_⟩
    · exact processes_isolated (turns 9 false false .put ++ turns 5 true true .get) final
        (by decide) reached
    · have points := congrArg (Option.map fun s => s.point true true) reached
      exact Option.some.inj (points.symm.trans (by decide))

/-- A reader that has released the reader/writer lock, a writer of the same process that enters,
the reader's `LOCK_UN`, and a reader of another process. -/
def lateUnlock : List (Turn Bool Bool) :=
  turns 7 false false .get ++ turns 7 false true .put ++ turns 1 false false .get ++
    turns 5 true false .get

theorem late_unlock_exposes :
    ¬ ∀ (run : List (Turn Bool Bool)) (final : System Bool Bool),
      runSteps takeTurn run opened = some final → Isolated final := by
  intro isolated
  have points : (runSteps takeTurn lateUnlock opened).map
      (fun s => (s.point false true, s.point true false)) = some (.writing, .reading) := by
    decide
  rcases Option.map_eq_some_iff.mp points with ⟨final, ran, both⟩
  have writes : final.point false true = .writing := congrArg Prod.fst both
  have reads : final.point true false = .reading := congrArg Prod.snd both
  exact isolated lateUnlock final ran false true true false (by decide) writes (Or.inl reads)

end Schedules

end Isolation

end OsWorkbench.Kvdb
