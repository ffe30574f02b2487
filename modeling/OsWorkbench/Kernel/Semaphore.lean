import OsWorkbench.Library.Ring
import OsWorkbench.Library.Runs
import Mathlib.Data.Int.Basic
import Mathlib.Data.Fintype.Basic
import Mathlib.Algebra.Group.Nat.Defs
import Mathlib.Algebra.Group.Int.Defs

/-!
# Semaphores of `kmt.c`

The part of `kmt_sem_wait` and `kmt_sem_signal` under `sem->lock`, for any number of semaphores.
Parked tasks stand in a ring of `POOL_LEN` entries that nobody checks for room, while the task
table has 64 slots. As long as the ring is not full when a task parks, a semaphore is a counter
and a queue.
-/

namespace OsWorkbench.Kernel

open OsWorkbench.Library

/-- `POOL_LEN`. -/
def poolLen : Nat := 20

/-- The value of an `int` after an operation on it. -/
def int32 (value : Int) : Int := Int.bmod value (2 ^ 32)

/-- `semaphore_t`, without its name and lock. -/
structure Sem (T : Type) where
  value : Int
  pool : Nat → Option T
  head : Nat
  tail : Nat

/-- The semaphores, and the flag `TASK_SLEEP` of every task. -/
structure Parking (S T : Type) where
  sems : S → Sem T
  asleep : T → Bool

inductive SemCall (S T : Type) where
  | wait (sem : S) (cur : T)
  | signal (sem : S)
  deriving DecidableEq

section Machine

variable {S T : Type}

def kmtSemInit (value : Int) : Sem T where
  value := value
  pool := fun _ => none
  head := 0
  tail := 0

/-- An index after its increment. -/
def wrapped (index : Nat) : Nat := if index ≥ poolLen then index - poolLen else index

def semAddTask (sem : Sem T) (park : T) : Sem T where
  value := sem.value
  pool := Function.update sem.pool sem.tail (some park)
  head := sem.head
  tail := wrapped (sem.tail + 1)

def semRemoveTask (sem : Sem T) : Sem T where
  value := sem.value
  pool := sem.pool
  head := wrapped (sem.head + 1)
  tail := sem.tail

def Sem.count (sem : Sem T) (value : Int) : Sem T := { sem with value := int32 value }

variable [DecidableEq S] [DecidableEq T]

def Parking.setSem (state : Parking S T) (s : S) (sem : Sem T) : Parking S T :=
  { state with sems := Function.update state.sems s sem }

def Parking.setFlag (state : Parking S T) (t : T) (flag : Bool) : Parking S T :=
  { state with asleep := Function.update state.asleep t flag }

/-- A task that sleeps does not call. Waking an entry that was never stored is undefined. -/
def semStep (call : SemCall S T) (state : Parking S T) : Option (Parking S T) :=
  match call with
  | .wait s cur =>
      let sem := (state.sems s).count ((state.sems s).value - 1)
      if state.asleep cur then none
      else if sem.value < 0 then some ((state.setSem s (semAddTask sem cur)).setFlag cur true)
      else some (state.setSem s sem)
  | .signal s =>
      let sem := (state.sems s).count ((state.sems s).value + 1)
      if sem.value ≤ 0 then
        (sem.pool sem.head).map fun woken => (state.setSem s (semRemoveTask sem)).setFlag woken false
      else some (state.setSem s sem)

def initialised (values : S → Int) : Parking S T where
  sems := fun s => kmtSemInit (values s)
  asleep := fun _ => false

end Machine

section Purpose

variable {S T : Type} [DecidableEq S]

/-- What a semaphore is for: free places, and the tasks that wait for one in order of arrival. -/
structure Turnstile (T : Type) where
  free : Nat
  waiting : List T

def Turnstile.enter (turnstile : Turnstile T) (t : T) : Turnstile T :=
  match turnstile.free with
  | 0 => ⟨0, turnstile.waiting ++ [t]⟩
  | free + 1 => ⟨free, turnstile.waiting⟩

def Turnstile.leave (turnstile : Turnstile T) : Turnstile T :=
  match turnstile.waiting with
  | [] => ⟨turnstile.free + 1, []⟩
  | _ :: rest => ⟨turnstile.free, rest⟩

def turn (turnstiles : S → Turnstile T) : SemCall S T → S → Turnstile T
  | .wait s t => Function.update turnstiles s ((turnstiles s).enter t)
  | .signal s => Function.update turnstiles s (turnstiles s).leave

/-- Where the calls lead to from the initial values. -/
def turnstiles (values : S → Int) (calls : List (SemCall S T)) : S → Turnstile T :=
  calls.foldl turn fun s => ⟨(values s).toNat, []⟩

/-- The tasks parked on a semaphore, in order of arrival. -/
def parked (values : S → Int) (calls : List (SemCall S T)) (s : S) : List T :=
  (turnstiles values calls s).waiting

def SemCall.isWait (s : S) : SemCall S T → Bool
  | .wait other _ => decide (other = s)
  | .signal _ => false

def SemCall.isSignal (s : S) : SemCall S T → Bool
  | .wait _ _ => false
  | .signal other => decide (other = s)

def waits (s : S) (calls : List (SemCall S T)) : Nat := calls.countP (SemCall.isWait s)

def signals (s : S) (calls : List (SemCall S T)) : Nat := calls.countP (SemCall.isSignal s)

def Turnstile.value (turnstile : Turnstile T) : Int :=
  turnstile.free - turnstile.waiting.length

theorem enter_value (turnstile : Turnstile T) (t : T) :
    (turnstile.enter t).value = turnstile.value - 1 := by
  rcases turnstile with ⟨_ | free, waiting⟩
  · simp only [Turnstile.enter, Turnstile.value, List.length_append, List.length_singleton]
    omega
  · simp only [Turnstile.enter, Turnstile.value]
    omega

theorem leave_value (turnstile : Turnstile T) :
    turnstile.leave.value = turnstile.value + 1 := by
  rcases turnstile with ⟨free, _ | ⟨first, rest⟩⟩
  · simp only [Turnstile.leave, Turnstile.value, List.length_nil]
    omega
  · simp only [Turnstile.leave, Turnstile.value, List.length_cons]
    omega

/-- The balance of a turnstile, by induction on the calls. -/
theorem turnstiles_value (calls : List (SemCall S T)) (start : S → Turnstile T) (s : S) :
    (calls.foldl turn start s).value = (start s).value + signals s calls - waits s calls := by
  induction calls generalizing start with
  | nil => simp [signals, waits]
  | cons call rest hypothesis =>
      rw [List.foldl_cons, hypothesis]
      cases call with
      | wait other t =>
          by_cases same : other = s
          · subst other
            simp only [turn, Function.update_self, enter_value, signals, waits, List.countP_cons,
              SemCall.isWait, SemCall.isSignal]
            simp
            omega
          · simp [turn, Function.update_of_ne (Ne.symm same), signals, waits, SemCall.isWait,
              SemCall.isSignal, same]
      | signal other =>
          by_cases same : other = s
          · subst other
            simp only [turn, Function.update_self, leave_value, signals, waits, List.countP_cons,
              SemCall.isWait, SemCall.isSignal]
            simp
            omega
          · simp [turn, Function.update_of_ne (Ne.symm same), signals, waits, SemCall.isWait,
              SemCall.isSignal, same]

end Purpose

section Refinement

variable {S T : Type}

/-- A semaphore stands at a turnstile. -/
structure Stands (turnstile : Turnstile T) (sem : Sem T) : Prop where
  value : sem.value = turnstile.value
  single : turnstile.free = 0 ∨ turnstile.waiting = []
  inside : sem.head < poolLen
  ring : window sem.pool poolLen sem.head turnstile.waiting.length = turnstile.waiting.map some
  tail : sem.tail = (sem.head + turnstile.waiting.length) % poolLen
  small : sem.value < 2 ^ 31
  few : turnstile.waiting.length ≤ poolLen

/-- The semaphores stand at the turnstiles, and the tasks that wait there are asleep. -/
structure Follows (turnstiles : S → Turnstile T) (state : Parking S T) : Prop where
  stands : ∀ s, Stands (turnstiles s) (state.sems s)
  asleep : ∀ t, state.asleep t = true ↔ ∃ s, t ∈ (turnstiles s).waiting
  distinct : ∀ s, (turnstiles s).waiting.Nodup
  once : ∀ s other t, t ∈ (turnstiles s).waiting → t ∈ (turnstiles other).waiting → s = other

/-- A task that parks finds room in the ring, and the counter does not overflow. -/
def Roomy (call : SemCall S T) (state : Parking S T) : Prop :=
  match call with
  | .wait s _ => -(poolLen : Int) < (state.sems s).value
  | .signal s => (state.sems s).value < 2 ^ 31 - 1

theorem wrapped_mod {index : Nat} (inside : index < poolLen) :
    wrapped (index + 1) = (index + 1) % poolLen := by
  unfold wrapped
  split
  next beyond =>
    have last : index + 1 = poolLen := Nat.le_antisymm inside beyond
    rw [last, Nat.sub_self, Nat.mod_self]
  next within => exact (Nat.mod_eq_of_lt (Nat.lt_of_not_le within)).symm

theorem int32_of_small {value : Int} (low : -(2 ^ 31) ≤ value) (high : value < 2 ^ 31) :
    int32 value = value := by
  unfold int32
  apply Int.bmod_eq_of_le <;> omega

/-- While nobody waits the value is what is free, else it is minus the number that waits. -/
theorem Stands.cases {turnstile : Turnstile T} {sem : Sem T} (stands : Stands turnstile sem) :
    (turnstile.waiting = [] ∧ sem.value = turnstile.free) ∨
      (turnstile.free = 0 ∧ sem.value = -turnstile.waiting.length) := by
  have value := stands.value
  unfold Turnstile.value at value
  rcases stands.single with taken | alone
  · right
    constructor
    · exact taken
    · rw [value, taken]
      omega
  · left
    constructor
    · exact alone
    · rw [value, alone, List.length_nil]
      omega

theorem Stands.low {turnstile : Turnstile T} {sem : Sem T} (stands : Stands turnstile sem) :
    -(poolLen : Int) ≤ sem.value := by
  have few := stands.few
  rcases stands.cases with ⟨-, value⟩ | ⟨-, value⟩ <;> omega

theorem init_stands {value : Int} (start : 0 ≤ value ∧ value < 2 ^ 31) :
    Stands (⟨value.toNat, []⟩ : Turnstile T) (kmtSemInit value) where
  value := by
    change value = (value.toNat : Int) - 0
    omega
  single := Or.inr rfl
  inside := Nat.zero_lt_succ 19
  ring := rfl
  tail := rfl
  small := start.2
  few := Nat.zero_le _

/-- A task parks. -/
theorem Stands.park {turnstile : Turnstile T} {sem : Sem T} (stands : Stands turnstile sem)
    (room : -(poolLen : Int) < sem.value) (negative : sem.value - 1 < 0) (t : T) :
    Stands (turnstile.enter t) (semAddTask (sem.count (sem.value - 1)) t) ∧
      (turnstile.enter t).waiting = turnstile.waiting ++ [t] := by
  rcases turnstile with ⟨free, waiting⟩
  have few : waiting.length < poolLen := by
    rcases stands.cases with ⟨alone, -⟩ | ⟨-, value⟩
    · change waiting = [] at alone
      rw [alone]
      exact Nat.zero_lt_succ 19
    · change sem.value = -(waiting.length : Int) at value
      omega
  have taken : free = 0 := by
    rcases stands.cases with ⟨-, value⟩ | ⟨taken, -⟩
    · change sem.value = (free : Int) at value
      omega
    · exact taken
  subst taken
  have low := stands.low
  have small := stands.small
  have exact32 := @int32_of_small (sem.value - 1)
    (by simp only [poolLen] at low; omega) (by omega)
  have tail : sem.tail = (sem.head + waiting.length) % poolLen := stands.tail
  constructor
  · constructor
    · change int32 (sem.value - 1) = _
      rw [exact32, enter_value, ← stands.value]
    · left
      rfl
    · exact stands.inside
    · change window (Function.update sem.pool sem.tail (some t)) poolLen sem.head
          (waiting ++ [t]).length = (waiting ++ [t]).map some
      rw [List.length_append, List.length_singleton, tail, window_push _ few, stands.ring,
        List.map_append]
      rfl
    · change wrapped (sem.tail + 1) = (sem.head + (waiting ++ [t]).length) % poolLen
      have inside : sem.tail < poolLen := by
        rw [tail]
        exact Nat.mod_lt _ (by decide)
      rw [wrapped_mod inside, tail, Nat.mod_add_mod, List.length_append, Nat.add_assoc]
      rfl
    · change int32 (sem.value - 1) < 2 ^ 31
      rw [exact32]
      omega
    · change (waiting ++ [t]).length ≤ poolLen
      rw [List.length_append]
      exact few
  · rfl

/-- A task passes. -/
theorem Stands.pass {turnstile : Turnstile T} {sem : Sem T} (stands : Stands turnstile sem)
    (positive : ¬ sem.value - 1 < 0) (t : T) :
    Stands (turnstile.enter t) (sem.count (sem.value - 1)) ∧
      (turnstile.enter t).waiting = turnstile.waiting := by
  rcases turnstile with ⟨free, waiting⟩
  have small := stands.small
  have exact32 := @int32_of_small (sem.value - 1) (by omega) (by omega)
  rcases stands.cases with ⟨alone, value⟩ | ⟨taken, value⟩
  · change waiting = [] at alone
    change sem.value = (free : Int) at value
    subst alone
    obtain ⟨less, rfl⟩ : ∃ less, free = less + 1 := ⟨free - 1, by omega⟩
    constructor
    · constructor
      · change int32 (sem.value - 1) = _
        rw [exact32, enter_value, ← stands.value]
      · right
        rfl
      · exact stands.inside
      · exact stands.ring
      · exact stands.tail
      · change int32 (sem.value - 1) < 2 ^ 31
        rw [exact32]
        omega
      · exact stands.few
    · rfl
  · change sem.value = -(waiting.length : Int) at value
    omega

/-- A signal wakes the first task of the queue. -/
theorem Stands.wake {turnstile : Turnstile T} {sem : Sem T} (stands : Stands turnstile sem)
    {first : T} {rest : List T} (queued : turnstile.waiting = first :: rest) :
    int32 (sem.value + 1) ≤ 0 ∧ sem.pool sem.head = some first ∧
      Stands turnstile.leave (semRemoveTask (sem.count (sem.value + 1))) ∧
      turnstile.leave.waiting = rest := by
  rcases turnstile with ⟨free, waiting⟩
  change waiting = first :: rest at queued
  subst queued
  have few := stands.few
  have low := stands.low
  rcases stands.cases with ⟨alone, -⟩ | ⟨taken, value⟩
  · cases alone
  change free = 0 at taken
  subst taken
  change sem.value = -((first :: rest).length : Int) at value
  have long : ((first :: rest).length : Int) = rest.length + 1 := by
    rw [List.length_cons]
    omega
  have exact32 := @int32_of_small (sem.value + 1)
    (by simp only [poolLen] at low; omega) (by omega)
  have ring : window sem.pool poolLen sem.head (rest.length + 1) = (first :: rest).map some :=
    stands.ring
  rw [window, List.map_cons, List.cons.injEq, Nat.mod_eq_of_lt stands.inside] at ring
  constructor
  · rw [exact32]
    omega
  constructor
  · exact ring.1
  constructor
  · constructor
    · change int32 (sem.value + 1) = _
      rw [exact32, leave_value, ← stands.value]
    · left
      rfl
    · change wrapped (sem.head + 1) < poolLen
      rw [wrapped_mod stands.inside]
      exact Nat.mod_lt _ (by decide)
    · change window sem.pool poolLen (wrapped (sem.head + 1)) rest.length = rest.map some
      rw [wrapped_mod stands.inside, window_congr sem.pool (Nat.mod_mod _ _) rest.length]
      exact ring.2
    · change sem.tail = (wrapped (sem.head + 1) + rest.length) % poolLen
      have tail : sem.tail = (sem.head + (first :: rest).length) % poolLen := stands.tail
      rw [wrapped_mod stands.inside, Nat.mod_add_mod, tail, List.length_cons]
      congr 1
      omega
    · change int32 (sem.value + 1) < 2 ^ 31
      rw [exact32]
      omega
    · exact Nat.le_of_succ_le few
  · rfl

/-- A signal while nobody waits. -/
theorem Stands.release {turnstile : Turnstile T} {sem : Sem T} (stands : Stands turnstile sem)
    (room : sem.value < 2 ^ 31 - 1) (empty : turnstile.waiting = []) :
    ¬ int32 (sem.value + 1) ≤ 0 ∧ Stands turnstile.leave (sem.count (sem.value + 1)) ∧
      turnstile.leave.waiting = [] := by
  rcases turnstile with ⟨free, waiting⟩
  change waiting = [] at empty
  subst empty
  have value : sem.value = (free : Int) := by
    have value := stands.value
    change sem.value = (free : Int) - 0 at value
    omega
  have exact32 := @int32_of_small (sem.value + 1) (by omega) (by omega)
  constructor
  · rw [exact32]
    omega
  constructor
  · constructor
    · change int32 (sem.value + 1) = _
      rw [exact32, leave_value, ← stands.value]
    · right
      rfl
    · exact stands.inside
    · exact stands.ring
    · exact stands.tail
    · change int32 (sem.value + 1) < 2 ^ 31
      rw [exact32]
      omega
    · exact stands.few
  · rfl

variable [DecidableEq S] [DecidableEq T]

theorem wait_follows {turnstiles : S → Turnstile T} {state next : Parking S T} {s : S} {cur : T}
    (follows : Follows turnstiles state) (room : -(poolLen : Int) < (state.sems s).value)
    (stepped : semStep (.wait s cur) state = some next) :
    Follows (turn turnstiles (.wait s cur)) next := by
  simp only [semStep] at stepped
  split at stepped
  next => cases stepped
  next awake =>
    have absent : ∀ other, cur ∉ (turnstiles other).waiting := by
      intro other listed
      exact awake ((follows.asleep cur).mpr ⟨other, listed⟩)
    have low := (follows.stands s).low
    have small := (follows.stands s).small
    have exact32 := @int32_of_small ((state.sems s).value - 1)
      (by simp only [poolLen] at low; omega) (by omega)
    split at stepped
    next negative =>
      cases stepped
      change int32 ((state.sems s).value - 1) < 0 at negative
      rw [exact32] at negative
      rcases (follows.stands s).park room negative cur with ⟨stands, waiting⟩
      constructor
      · intro other
        by_cases same : other = s
        · subst other
          simpa only [turn, Parking.setFlag, Parking.setSem, Function.update_self] using stands
        · simpa only [turn, Parking.setFlag, Parking.setSem, Function.update_of_ne same]
            using follows.stands other
      · intro t
        by_cases here : t = cur
        · subst t
          simp only [Parking.setFlag, Function.update_self, true_iff]
          refine ⟨s, ?_⟩
          rw [turn, Function.update_self, waiting]
          exact List.mem_append_right _ (List.mem_singleton_self _)
        · simp only [Parking.setFlag, Parking.setSem, Function.update_of_ne here]
          rw [follows.asleep t]
          apply exists_congr
          intro other
          by_cases same : other = s
          · subst other
            rw [turn, Function.update_self, waiting, List.mem_append, List.mem_singleton]
            exact ⟨Or.inl, fun listed => listed.resolve_right here⟩
          · rw [turn, Function.update_of_ne same]
      · intro other
        by_cases same : other = s
        · subst other
          rw [turn, Function.update_self, waiting]
          exact (follows.distinct s).append (List.nodup_singleton cur)
            (List.disjoint_singleton.mpr (absent s))
        · rw [turn, Function.update_of_ne same]
          exact follows.distinct other
      · have known : ∀ other t, t ∈ (turn turnstiles (.wait s cur) other).waiting →
            t ∈ (turnstiles other).waiting ∨ (t = cur ∧ other = s) := by
          intro other t listed
          by_cases same : other = s
          · subst other
            rw [turn, Function.update_self, waiting, List.mem_append, List.mem_singleton] at listed
            exact listed.imp_right fun here => ⟨here, rfl⟩
          · rw [turn, Function.update_of_ne same] at listed
            exact Or.inl listed
        intro first second t inFirst inSecond
        rcases known first t inFirst with old | ⟨rfl, rfl⟩ <;>
          rcases known second t inSecond with older | ⟨here, there⟩
        · exact follows.once first second t old older
        · exact absurd (here ▸ old) (absent first)
        · exact absurd older (absent second)
        · exact there.symm
    next positive =>
      cases stepped
      change ¬ int32 ((state.sems s).value - 1) < 0 at positive
      rw [exact32] at positive
      rcases (follows.stands s).pass positive cur with ⟨stands, waiting⟩
      have kept : ∀ other, (turn turnstiles (.wait s cur) other).waiting =
          (turnstiles other).waiting := by
        intro other
        by_cases same : other = s
        · subst other
          rw [turn, Function.update_self, waiting]
        · rw [turn, Function.update_of_ne same]
      constructor
      · intro other
        by_cases same : other = s
        · subst other
          simpa only [turn, Parking.setSem, Function.update_self] using stands
        · simpa only [turn, Parking.setSem, Function.update_of_ne same] using follows.stands other
      · intro t
        simp only [kept]
        exact follows.asleep t
      · intro other
        rw [kept]
        exact follows.distinct other
      · intro first second t
        rw [kept, kept]
        exact follows.once first second t

/-- A signal with waiters wakes the one that has waited longest. -/
theorem signal_wakes {turnstiles : S → Turnstile T} {state : Parking S T} {s : S} {first : T}
    {rest : List T} (follows : Follows turnstiles state)
    (queued : (turnstiles s).waiting = first :: rest) :
    ∃ next, semStep (.signal s) state = some next ∧
      next.asleep = Function.update state.asleep first false ∧
      (turn turnstiles (.signal s) s).waiting = rest ∧ Follows (turn turnstiles (.signal s)) next := by
  rcases (follows.stands s).wake queued with ⟨waiters, woken, stands, waiting⟩
  refine ⟨(state.setSem s (semRemoveTask ((state.sems s).count
    ((state.sems s).value + 1)))).setFlag first false, ?_, rfl, ?_, ?_⟩
  · have enabled : ((state.sems s).count ((state.sems s).value + 1)).value ≤ 0 := waiters
    have entry : ((state.sems s).count ((state.sems s).value + 1)).pool
        ((state.sems s).count ((state.sems s).value + 1)).head = some first := woken
    simp only [semStep]
    rw [if_pos enabled, entry]
    rfl
  · rw [turn, Function.update_self, waiting]
  have distinct := follows.distinct s
  rw [queued, List.nodup_cons] at distinct
  have listed : ∀ other t, t ∈ (turn turnstiles (.signal s) other).waiting ↔
      t ∈ (turnstiles other).waiting ∧ t ≠ first := by
    intro other t
    by_cases same : other = s
    · subst other
      rw [turn, Function.update_self, waiting, queued, List.mem_cons]
      constructor
      · intro later
        exact ⟨Or.inr later, fun here => distinct.1 (here ▸ later)⟩
      · rintro ⟨here | later, apart⟩
        · exact absurd here apart
        · exact later
    · rw [turn, Function.update_of_ne same]
      constructor
      · intro inside
        refine ⟨inside, ?_⟩
        rintro rfl
        exact same (follows.once other s t inside (by rw [queued]; exact List.mem_cons_self))
      · exact And.left
  constructor
  · intro other
    by_cases same : other = s
    · subst other
      simpa only [turn, Parking.setFlag, Parking.setSem, Function.update_self] using stands
    · simpa only [turn, Parking.setFlag, Parking.setSem, Function.update_of_ne same]
        using follows.stands other
  · intro t
    simp only [listed]
    by_cases here : t = first
    · simp [Parking.setFlag, here]
    · simp only [Parking.setFlag, Parking.setSem, Function.update_of_ne here, ne_eq, here,
        not_false_eq_true, and_true]
      exact follows.asleep t
  · intro other
    by_cases same : other = s
    · subst other
      rw [turn, Function.update_self, waiting]
      exact distinct.2
    · rw [turn, Function.update_of_ne same]
      exact follows.distinct other
  · intro left right t inLeft inRight
    exact follows.once left right t ((listed left t).mp inLeft).1 ((listed right t).mp inRight).1

theorem signal_releases {turnstiles : S → Turnstile T} {state next : Parking S T} {s : S}
    (follows : Follows turnstiles state) (room : (state.sems s).value < 2 ^ 31 - 1)
    (empty : (turnstiles s).waiting = []) (stepped : semStep (.signal s) state = some next) :
    Follows (turn turnstiles (.signal s)) next := by
  rcases (follows.stands s).release room empty with ⟨none, stands, waiting⟩
  have disabled : ¬ ((state.sems s).count ((state.sems s).value + 1)).value ≤ 0 := none
  simp only [semStep] at stepped
  rw [if_neg disabled] at stepped
  cases stepped
  have kept : ∀ other, (turn turnstiles (.signal s) other).waiting =
      (turnstiles other).waiting := by
    intro other
    by_cases same : other = s
    · subst other
      rw [turn, Function.update_self, waiting, empty]
    · rw [turn, Function.update_of_ne same]
  constructor
  · intro other
    by_cases same : other = s
    · subst other
      simpa only [turn, Parking.setSem, Function.update_self] using stands
    · simpa only [turn, Parking.setSem, Function.update_of_ne same] using follows.stands other
  · intro t
    simp only [kept]
    exact follows.asleep t
  · intro other
    rw [kept]
    exact follows.distinct other
  · intro first second t
    rw [kept, kept]
    exact follows.once first second t

theorem step_follows (call : SemCall S T) (turnstiles : S → Turnstile T)
    (state next : Parking S T) (follows : Follows turnstiles state) (room : Roomy call state)
    (stepped : semStep call state = some next) : Follows (turn turnstiles call) next := by
  cases call with
  | wait s cur => exact wait_follows follows room stepped
  | signal s =>
      cases queued : (turnstiles s).waiting with
      | nil => exact signal_releases follows room queued stepped
      | cons first rest =>
          rcases signal_wakes follows queued with ⟨after, step, -, -, later⟩
          rw [step] at stepped
          cases stepped
          exact later

end Refinement

section Soundness

variable {S T : Type} [DecidableEq S] [DecidableEq T]

/-- What the calls so far have made of the semaphores and of the tasks' sleep flags. -/
structure SemSound (values : S → Int) (calls : List (SemCall S T)) (state : Parking S T) :
    Prop where
  value : ∀ s, (state.sems s).value = values s + signals s calls - waits s calls
  count : ∀ s, ((parked values calls s).length : Int) = max 0 (-(state.sems s).value)
  ring : ∀ s, window (state.sems s).pool poolLen (state.sems s).head
      (parked values calls s).length = (parked values calls s).map some ∧
    (state.sems s).tail = ((state.sems s).head + (parked values calls s).length) % poolLen
  distinct : ∀ s, (parked values calls s).Nodup
  once : ∀ s other t, t ∈ parked values calls s → t ∈ parked values calls other → s = other
  asleep : ∀ t, state.asleep t = true ↔ ∃ s, t ∈ parked values calls s
  wakes : ∀ s first rest, parked values calls s = first :: rest →
    ∃ next, semStep (.signal s) state = some next ∧
      next.asleep = Function.update state.asleep first false ∧
      parked values (calls ++ [.signal s]) s = rest

/-- Semaphores are sound in every run in which no task parks on a full ring. -/
theorem semaphores_sound (values : S → Int) (start : ∀ s, 0 ≤ values s ∧ values s < 2 ^ 31)
    (calls : List (SemCall S T)) (final : Parking S T)
    (room : GuardedRun semStep Roomy calls (initialised values))
    (ran : runSteps semStep calls (initialised values) = some final) :
    SemSound values calls final := by
  have first : Follows (fun s => ⟨(values s).toNat, []⟩) (initialised values : Parking S T) := by
    constructor
    · intro s
      exact init_stands (start s)
    · intro t
      simp [initialised]
    · intro s
      exact List.nodup_nil
    · intro s other t listed
      cases listed
  have follows : Follows (turnstiles values calls) final :=
    run_refines semStep step_follows calls _ _ final first room ran
  constructor
  · intro s
    rw [(follows.stands s).value, turnstiles, turnstiles_value, Turnstile.value]
    have positive := (start s).1
    simp only [List.length_nil]
    omega
  · intro s
    unfold parked
    rcases (follows.stands s).cases with ⟨alone, value⟩ | ⟨-, value⟩
    · rw [alone, value, List.length_nil]
      omega
    · rw [value]
      omega
  · intro s
    exact ⟨(follows.stands s).ring, (follows.stands s).tail⟩
  · exact follows.distinct
  · exact follows.once
  · exact follows.asleep
  · intro s longest rest queued
    rcases signal_wakes follows queued with ⟨next, stepped, woken, waiting, -⟩
    refine ⟨next, stepped, woken, ?_⟩
    rw [parked, turnstiles, List.foldl_append]
    exact waiting

instance (call : SemCall S T) : DecidablePred (Roomy call : Parking S T → Prop) := fun _ =>
  match call with
  | .wait _ _ => inferInstanceAs (Decidable (_ < _))
  | .signal _ => inferInstanceAs (Decidable (_ < _))

/-- Two tasks wait for one place. -/
theorem semaphores_sound_twice : ∃ final, SemSound (fun _ : Unit => 0)
    [.wait () 1, .wait () 2, .signal ()] final ∧ final.asleep (2 : Fin 64) = true ∧
      runSteps semStep [.wait () 1, .wait () 2, .signal ()] (initialised fun _ : Unit => 0) =
        some final := by
  have flags : (runSteps semStep [.wait () (1 : Fin 64), .wait () 2, .signal ()]
      (initialised fun _ : Unit => 0)).map (fun state => state.asleep 2) = some true := by
    decide
  rcases Option.map_eq_some_iff.mp flags with ⟨final, ran, asleep⟩
  refine ⟨final, ?_, asleep, ran⟩
  exact semaphores_sound (fun _ : Unit => 0) (fun _ => by decide) _ final (by decide) ran

/-- With all slots of the task table in use, 21 tasks wait. -/
def crowd : List (SemCall Unit (Fin 64)) := ((List.finRange 64).take 21).map (.wait ())

/-- The last one has been stored in the place of the first. -/
theorem full_ring_loses_task : ¬ ∀ (calls : List (SemCall Unit (Fin 64)))
    (final : Parking Unit (Fin 64)), runSteps semStep calls (initialised fun _ => 0) = some final →
      SemSound (fun _ => 0) calls final := by
  intro sound
  have facts : (runSteps semStep crowd (initialised fun _ => 0)).map
      (fun state => ((state.sems ()).head, (state.sems ()).pool 0)) = some (0, some 20) := by
    decide +kernel
  rcases Option.map_eq_some_iff.mp facts with ⟨final, ran, known⟩
  simp only [Prod.mk.injEq] at known
  have queue : parked (fun _ => 0) crowd () = (List.finRange 64).take 21 := by
    decide +kernel
  have ring := ((sound crowd final ran).ring ()).1
  rw [queue, known.1] at ring
  have first := congrArg List.head? ring
  change some ((final.sems ()).pool 0) = some (some 0) at first
  rw [known.2] at first
  cases first

end Soundness

end OsWorkbench.Kernel
