import OsWorkbench.Kernel.Pool

/-!
# Tasks on one pool

Any number of tasks call `enqueue` and `dequeue`. What a call does between taking and releasing the
lock is one step; an `enqueue` that finds the pool full gives the lock up and tries again later.
-/

namespace OsWorkbench.Kernel

open OsWorkbench.Library

/-- A pool of pointers, the arguments of the calls that wait, and what went in and came out so far.
A pointer that is `NULL` is `none`. -/
structure Shared (ι U : Type) where
  pool : Pool (Option U)
  waiting : ι → Option (Option U)
  entered : List (Option U)
  taken : List (Option U)

inductive PoolAct (ι U : Type) where
  | enqueue (task : ι) (mem : Option U)
  | retry (task : ι)
  | dequeue (task : ι)

section Source

variable {ι U : Type} [DecidableEq ι]

/-- One look at the pool in `enqueue`. -/
def attempt (task : ι) (mem : Option U) (s : Shared ι U) : Shared ι U :=
  match enqueue s.pool mem with
  | none => { s with waiting := Function.update s.waiting task (some mem) }
  | some pool =>
      { s with
        pool := pool
        waiting := Function.update s.waiting task none
        entered := s.entered ++ [mem] }

def poolStep (act : PoolAct ι U) (s : Shared ι U) : Option (Shared ι U) :=
  match act with
  | .enqueue task mem => if s.waiting task = none then some (attempt task mem s) else none
  | .retry task => (s.waiting task).map fun mem => attempt task mem s
  | .dequeue task =>
      if s.waiting task = none then
        let got := dequeue s.pool
        some { s with pool := got.2, taken := s.taken ++ [got.1.join] }
      else none

def untouched : Shared ι U := ⟨Pool.empty, fun _ => none, [], []⟩

end Source

section Invariant

variable {ι U : Type}

/-- The pointers of a list that are not `NULL`. -/
def nonNull (list : List (Option U)) : List U := list.filterMap id

/-- The pointers that the pool holds, from the one that comes out next. -/
def Shared.stored (s : Shared ι U) : List (Option U) := s.pool.entries.map Option.join

structure QueueKept (s : Shared ι U) : Prop where
  head : s.pool.head < poolLen
  tail : s.pool.tail < poolLen
  few : (nonNull s.stored).length ≤ poolLen - 1
  order : nonNull s.entered = nonNull s.taken ++ nonNull s.stored

theorem non_null_append (first second : List (Option U)) :
    nonNull (first ++ second) = nonNull first ++ nonNull second := List.filterMap_append

/-- One cell of the ring stays free. -/
theorem stored_few (s : Shared ι U) : (nonNull s.stored).length ≤ poolLen - 1 := by
  have bound : (s.pool.tail + poolLen - s.pool.head) % poolLen < poolLen := Nat.mod_lt _ (by decide)
  have fewer : (nonNull s.stored).length ≤ s.stored.length := List.length_filterMap_le _ _
  have length : s.stored.length = (s.pool.tail + poolLen - s.pool.head) % poolLen := by
    rw [Shared.stored, List.length_map, Pool.entries, window_length]
  omega

theorem QueueKept.of_order {s : Shared ι U} (sound : s.pool.Sound)
    (order : nonNull s.entered = nonNull s.taken ++ nonNull s.stored) : QueueKept s :=
  ⟨sound.head, sound.tail, stored_few s, order⟩

theorem dequeue_kept {s : Shared ι U} (kept : QueueKept s) :
    QueueKept { s with pool := (dequeue s.pool).2, taken := s.taken ++ [(dequeue s.pool).1.join] } := by
  rcases dequeue_entries ⟨kept.head, kept.tail⟩ with
    ⟨-, same⟩ | ⟨entry, rest, before, got, after, sound⟩
  · rw [same]
    refine .of_order ⟨kept.head, kept.tail⟩ ?_
    dsimp only [Shared.stored]
    rw [non_null_append, kept.order]
    exact (congrArg (· ++ _) (List.append_nil _)).symm
  · refine .of_order sound ?_
    have stored : s.stored = entry.join :: rest.map Option.join := by
      rw [Shared.stored, before, List.map_cons]
    have split : nonNull s.stored = nonNull [entry.join] ++ nonNull (rest.map Option.join) := by
      rw [stored, ← non_null_append]
      rfl
    dsimp only [Shared.stored]
    rw [got, after, non_null_append, kept.order, split, List.append_assoc]

variable [DecidableEq ι] {s : Shared ι U}

theorem attempt_kept (kept : QueueKept s) (task : ι) (mem : Option U) :
    QueueKept (attempt task mem s) := by
  unfold attempt
  cases added : enqueue s.pool mem with
  | none => exact ⟨kept.head, kept.tail, kept.few, kept.order⟩
  | some pool =>
      obtain ⟨entries, sound⟩ := enqueue_entries ⟨kept.head, kept.tail⟩ added
      refine .of_order sound ?_
      have stored : pool.entries.map Option.join = s.stored ++ [mem] := by
        rw [entries, List.map_append]
        rfl
      dsimp only [Shared.stored]
      rw [stored, non_null_append, non_null_append, kept.order, List.append_assoc]

theorem pool_step_kept (act : PoolAct ι U) (s next : Shared ι U) (kept : QueueKept s)
    (stepped : poolStep act s = some next) : QueueKept next := by
  cases act with
  | enqueue task mem =>
      rw [poolStep] at stepped
      split at stepped
      · exact Option.some.inj stepped ▸ attempt_kept kept task mem
      · exact nomatch stepped
  | retry task =>
      obtain ⟨mem, -, rfl⟩ := Option.map_eq_some_iff.mp stepped
      exact attempt_kept kept task mem
  | dequeue task =>
      rw [poolStep] at stepped
      split at stepped
      · exact Option.some.inj stepped ▸ dequeue_kept kept
      · exact nomatch stepped

/-- However the calls of the tasks interleave. -/
theorem bounded_queue (acts : List (PoolAct ι U)) (final : Shared ι U)
    (ran : runSteps poolStep acts untouched = some final) : QueueKept final := by
  refine run_preserves poolStep pool_step_kept acts _ final ?_ ran
  refine .of_order Pool.empty_sound ?_
  dsimp only [Shared.stored, untouched]
  rw [Pool.empty_entries]
  rfl

/-- Two tasks fill a pool, one of them has to wait, and a third one takes two pointers. -/
def busy : List (PoolAct (Fin 3) Nat) :=
  (List.range 19).map (fun mem => .enqueue 0 (some mem)) ++
    [.enqueue 0 (some 19), .enqueue 1 (some 20), .dequeue 2, .retry 1, .retry 0, .dequeue 2, .retry 0]

theorem bounded_queue_busy : ∃ final, runSteps poolStep busy untouched = some final ∧
    nonNull final.taken = [0, 1] ∧ QueueKept final := by
  have results : (runSteps poolStep busy untouched).map (fun s => nonNull s.taken) = some [0, 1] := by
    decide +kernel
  obtain ⟨final, ran, known⟩ := Option.map_eq_some_iff.mp results
  exact ⟨final, ran, known, bounded_queue busy final ran⟩

end Invariant

end OsWorkbench.Kernel
