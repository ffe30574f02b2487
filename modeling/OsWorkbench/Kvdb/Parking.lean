import OsWorkbench.Kvdb.Locks
import Mathlib.Data.Finset.Card

/-!
# No reader is parked for good

Readers spin while `rd_cnt` is large. Whoever makes it positive has seen a writer that waits, or
tests once more whether one does, so that somebody who sets it back is always on the way.
-/

namespace OsWorkbench.Kvdb

open Library

section Points

/-- Counted in `wr_acq`. -/
def Point.waits : Point → Bool
  | .wrlock | .lowerAcq => true
  | _ => false

/-- A writer between `lock_op(&db->wr_acq,1)` and `db->rd_cnt=0`. -/
def Point.serves : Point → Bool
  | .wrlock | .lowerAcq | .resetCnt => true
  | _ => false

/-- A reader between its store to `rd_cnt` and the end of the test of `wr_acq` that follows. -/
def Point.tests : Point → Bool
  | .recheckAcq _ | .clearCnt => true
  | _ => false

/-- The value of `wr_acq` that a reader has seen. -/
def Point.seen : Point → Option Int
  | .loadCnt tmp | .storeCnt tmp _ | .recheckAcq tmp => some tmp
  | _ => none

theorem waits_serves {point : Point} (waits : point.waits = true) : point.serves = true := by
  cases point <;> first | rfl | cases waits

end Points

section Accesses

variable {P T : Type} [DecidableEq P] {p : P} {t : T} {call : Call} {point : Point} {db : KvdbT T}
  {locks : List (P × LockMode)} {changed : Local P T}

theorem flock_keeps {mode : LockMode} {again done : Point}
    (locked : flock p mode again done db locks = some changed) :
    changed.db = db ∧ (changed.point = again ∨ changed.point = done) := by
  simp only [flock] at locked
  split at locked
  · cases locked
    exact ⟨rfl, .inr rfl⟩
  · split at locked
    · cases locked
      exact ⟨rfl, .inl rfl⟩
    · split at locked
      · cases locked
        exact ⟨rfl, .inr rfl⟩
      · cases locked

variable [DecidableEq T]

/-- What one access does to `wr_acq`. -/
theorem lock_step_acq (stepped : lockStep p t call point db locks = some changed) :
    changed.db.wrAcq + (point.waits.toNat : Int) = db.wrAcq + (changed.point.waits.toNat : Int) := by
  cases point with
  | outside => cases call <;> (cases stepped; rfl)
  | loadAcq | recheckAcq | spin | rdlock | wrlock =>
      simp only [lockStep] at stepped
      split at stepped <;> (cases stepped; try rfl)
  | flockShared | flockExclusive =>
      obtain ⟨same, again | done⟩ := flock_keeps stepped
      · rw [same, again]
      · rw [same, done]
        rfl
  | loadCnt | storeCnt | clearCnt | reading | raiseAcq | resetCnt | writing | flockUnlock =>
      cases stepped
      simp [Point.waits]
  | lowerAcq =>
      cases stepped
      simp [Point.waits]
  | rwUnlock =>
      cases stepped
      unfold pthreadRwlockUnlock
      split <;> rfl

/-- A value that a reader has seen was positive. -/
theorem lock_step_seen (stepped : lockStep p t call point db locks = some changed) {tmp : Int}
    (seen : changed.point.seen = some tmp) : point.seen = some tmp ∨ 0 < tmp := by
  cases point with
  | outside => cases call <;> (cases stepped; cases seen)
  | loadAcq =>
      simp only [lockStep] at stepped
      split at stepped
      · rename_i positive
        cases stepped
        cases seen
        exact .inr positive
      · cases stepped
        cases seen
  | loadCnt | storeCnt =>
      cases stepped
      exact .inl seen
  | recheckAcq | spin | rdlock | wrlock =>
      simp only [lockStep] at stepped
      split at stepped <;> (cases stepped; try cases seen)
  | flockShared | flockExclusive =>
      obtain ⟨-, again | done⟩ := flock_keeps stepped
      · rw [again] at seen
        cases seen
      · rw [done] at seen
        cases seen
  | clearCnt | reading | raiseAcq | lowerAcq | resetCnt | writing | rwUnlock | flockUnlock =>
      cases stepped
      cases seen

/-- A thread that leaves `rd_cnt` positive answers for it, or did so only as a reader that has just
seen the current `wr_acq`. -/
theorem lock_step_cnt (stepped : lockStep p t call point db locks = some changed)
    (positive : 0 < changed.db.rdCnt) :
    (changed.point.serves = true ∨ changed.point.tests = true) ∨
      changed.db.rdCnt = db.rdCnt ∧
        (point.serves = true ∨ point.tests = true → point = .recheckAcq db.wrAcq) := by
  cases point with
  | outside => cases call <;> (cases stepped; exact .inr ⟨rfl, by simp [Point.serves, Point.tests]⟩)
  | loadAcq | spin | rdlock =>
      simp only [lockStep] at stepped
      split at stepped <;>
        (cases stepped; try exact .inr ⟨rfl, by simp [Point.serves, Point.tests]⟩)
  | recheckAcq tmp =>
      simp only [lockStep] at stepped
      split at stepped
      · cases stepped
        exact .inl (.inr rfl)
      · rename_i same
        cases stepped
        exact .inr ⟨rfl, fun _ => by rw [not_not.mp same]⟩
  | wrlock =>
      simp only [lockStep] at stepped
      split at stepped <;> (cases stepped; try exact .inl (.inl rfl))
  | flockShared | flockExclusive =>
      obtain ⟨same, -⟩ := flock_keeps stepped
      rw [same]
      exact .inr ⟨rfl, by simp [Point.serves, Point.tests]⟩
  | loadCnt | reading | writing | flockUnlock =>
      cases stepped
      exact .inr ⟨rfl, by simp [Point.serves, Point.tests]⟩
  | storeCnt =>
      cases stepped
      exact .inl (.inr rfl)
  | raiseAcq | lowerAcq =>
      cases stepped
      exact .inl (.inl rfl)
  | clearCnt | resetCnt =>
      cases stepped
      exact absurd positive (lt_irrefl _)
  | rwUnlock =>
      cases stepped
      have same : (pthreadRwlockUnlock t db).rdCnt = db.rdCnt := by
        unfold pthreadRwlockUnlock
        split <;> rfl
      exact .inr ⟨same, by simp [Point.serves, Point.tests]⟩

end Accesses

section Runs

variable {P T : Type}

/-- `wr_acq` counts the writers that wait, and somebody answers for a positive `rd_cnt`. -/
structure Answered (s : System P T) (p : P) : Prop where
  writers : ∃ writers : Finset T, (∀ t, t ∈ writers ↔ (s.point p t).waits = true) ∧
    (s.db p).wrAcq = writers.card
  seen : ∀ t tmp, (s.point p t).seen = some tmp → 0 < tmp
  answered : 0 < (s.db p).rdCnt →
    ∃ t, (s.point p t).serves = true ∨ (s.point p t).tests = true

theorem opened_answered (p : P) : Answered (opened : System P T) p where
  writers := ⟨∅, by simp [opened, Point.waits], rfl⟩
  seen := by
    intro t tmp seen
    cases seen
  answered := by
    intro positive
    exact absurd positive (lt_irrefl _)

variable [DecidableEq T]

/-- The writers that wait after an access of one thread. -/
theorem writers_after {point : T → Point} {writers : Finset T} {t : T} {after : Point}
    {before now : Int} (members : ∀ u, u ∈ writers ↔ (point u).waits = true)
    (counted : before = writers.card)
    (moved : now + ((point t).waits.toNat : Int) = before + (after.waits.toNat : Int)) :
    ∃ writers' : Finset T,
      (∀ u, u ∈ writers' ↔ (Function.update point t after u).waits = true) ∧
        now = writers'.card := by
  cases goes : after.waits with
  | true =>
      refine ⟨insert t writers, ?_, ?_⟩
      · intro u
        rcases eq_or_ne u t with rfl | other
        · simp [goes]
        · rw [Finset.mem_insert, members u, Function.update_of_ne other]
          simp [other]
      · cases was : (point t).waits with
        | true =>
            rw [Finset.insert_eq_of_mem ((members t).mpr was)]
            simp only [goes, was] at moved
            omega
        | false =>
            have outside : t ∉ writers := by
              rw [members t, was]
              exact Bool.false_ne_true
            rw [Finset.card_insert_of_notMem outside]
            simp only [goes, was, Bool.toNat_false, Bool.toNat_true] at moved
            omega
  | false =>
      refine ⟨writers.erase t, ?_, ?_⟩
      · intro u
        rcases eq_or_ne u t with rfl | other
        · simp [goes]
        · rw [Finset.mem_erase, members u, Function.update_of_ne other]
          simp [other]
      · cases was : (point t).waits with
        | true =>
            have inside : t ∈ writers := (members t).mpr was
            have some := Finset.card_pos.mpr ⟨t, inside⟩
            rw [Finset.card_erase_of_mem inside]
            simp only [goes, was, Bool.toNat_false, Bool.toNat_true] at moved
            omega
        | false =>
            have outside : t ∉ writers := by
              rw [members t, was]
              exact Bool.false_ne_true
            rw [Finset.erase_eq_of_notMem outside]
            simp only [goes, was] at moved
            omega

variable [DecidableEq P]

theorem turn_answered {turn : Turn P T} {s next : System P T} {p : P} (holds : Answered s p)
    (taken : takeTurn turn s = some next) : Answered next p := by
  obtain ⟨changed, stepped, rfl⟩ := Option.map_eq_some_iff.mp taken
  rcases eq_or_ne p turn.proc with rfl | elsewhere
  · obtain ⟨writers, members, counted⟩ := holds.writers
    have acq := lock_step_acq stepped
    constructor
    · simp only [System.install, Function.update_self]
      exact writers_after members counted acq
    · intro t tmp seen
      simp only [System.install, Function.update_self] at seen
      rcases eq_or_ne t turn.thread with rfl | other
      · rw [Function.update_self] at seen
        rcases lock_step_seen stepped seen with before | positive
        · exact holds.seen _ _ before
        · exact positive
      · rw [Function.update_of_ne other] at seen
        exact holds.seen _ _ seen
    · simp only [System.install, Function.update_self]
      intro positive
      rcases lock_step_cnt stepped positive with answers | ⟨same, leaves⟩
      · exact ⟨turn.thread, by rw [Function.update_self]; exact answers⟩
      · rw [same] at positive
        obtain ⟨t, answers⟩ := holds.answered positive
        rcases eq_or_ne t turn.thread with rfl | other
        · -- The reader has seen the current `wr_acq`, so a writer waits.
          have test := leaves answers
          have waited : 0 < (s.db turn.proc).wrAcq :=
            holds.seen turn.thread _ (by rw [test]; rfl)
          rw [counted] at waited
          obtain ⟨writer, inside⟩ := Finset.card_pos.mp (Int.natCast_pos.mp waited)
          have waits := (members writer).mp inside
          have other : writer ≠ turn.thread := by
            rintro rfl
            rw [test] at waits
            cases waits
          exact ⟨writer, by rw [Function.update_of_ne other]; exact .inl (waits_serves waits)⟩
        · exact ⟨t, by rw [Function.update_of_ne other]; exact answers⟩
  · have database : (s.install turn.proc turn.thread changed).db p = s.db p :=
      Function.update_of_ne elsewhere _ _
    have points : (s.install turn.proc turn.thread changed).point p = s.point p :=
      Function.update_of_ne elsewhere _ _
    constructor
    · rw [database, points]
      exact holds.writers
    · rw [points]
      exact holds.seen
    · rw [database, points]
      exact holds.answered

/-- In every reachable state somebody answers for a positive `rd_cnt`; so the readers that spin on
it are never the only threads that have not finished. -/
theorem readers_not_parked {turns : List (Turn P T)} {s : System P T}
    (ran : runSteps takeTurn turns opened = some s) (p : P) :
    (0 < (s.db p).rdCnt → ∃ t, (s.point p t).serves = true ∨ (s.point p t).tests = true) ∧
      ¬((s.db p).rdCnt > 0x77 ∧ ∀ t, s.point p t = .outside ∨ s.point p t = .spin) := by
  have holds : Answered s p :=
    run_preserves takeTurn (fun _ _ _ kept taken => turn_answered kept taken) turns opened s
      (opened_answered p) ran
  refine ⟨holds.answered, ?_⟩
  rintro ⟨large, spinning⟩
  obtain ⟨t, answers⟩ := holds.answered (by omega)
  rcases spinning t with finished | spins
  · simp [finished, Point.serves, Point.tests] at answers
  · simp [spins, Point.serves, Point.tests] at answers

/-- A writer has raised `wr_acq`, and a reader is about to test it again. -/
theorem readers_not_parked_testing :
    ∃ s : System Unit Bool, (s.db ()).rdCnt = 1 ∧
      (0 < (s.db ()).rdCnt → ∃ t, (s.point () t).serves = true ∨ (s.point () t).tests = true) ∧
        ¬((s.db ()).rdCnt > 0x77 ∧ ∀ t, s.point () t = .outside ∨ s.point () t = .spin) := by
  have ran : ∃ s : System Unit Bool, runSteps takeTurn
      [⟨(), true, .put⟩, ⟨(), true, .put⟩, ⟨(), false, .get⟩, ⟨(), false, .get⟩, ⟨(), false, .get⟩,
        ⟨(), false, .get⟩] opened = some s ∧ (s.db ()).rdCnt = 1 := ⟨_, rfl, rfl⟩
  obtain ⟨s, ran, one⟩ := ran
  exact ⟨s, one, readers_not_parked ran ()⟩

end Runs

end OsWorkbench.Kvdb
