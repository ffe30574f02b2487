import Mathlib.Data.List.Basic
import Mathlib.Order.Lattice.Nat

/-!
# Programs that may die between two writes

A program reads a store as often as it likes and changes it by single atomic
writes. Its run is the list of writes it performs, so the stores a crash can
leave behind are exactly those reached by a prefix of that list. `Does` is the
statement that a program performs a given list of writes and returns a given
value; `Returns` is the same for a program whose loops are cut off by a fuel
argument, for every sufficiently large amount of fuel.
-/

namespace OsWorkbench.WriteTrace

/-- A store that is changed by single writes. -/
class Store (Stored : Type) (Write : outParam Type) where
  apply : Stored → Write → Stored

inductive Prog (Stored Write Reason Value : Type) : Type where
  | ret (value : Value)
  | stop (reason : Reason)
  | look (next : Stored → Prog Stored Write Reason Value)
  | edit (write : Write) (next : Prog Stored Write Reason Value)

section Programs

variable {Stored Write Reason Value Result : Type}

namespace Prog

def bind (program : Prog Stored Write Reason Value)
    (next : Value → Prog Stored Write Reason Result) : Prog Stored Write Reason Result :=
  match program with
  | .ret value => next value
  | .stop reason => .stop reason
  | .look view => .look fun store => (view store).bind next
  | .edit write rest => .edit write (rest.bind next)

instance : Monad (Prog Stored Write Reason) where
  pure := .ret
  bind := bind

/-- One atomic write that returns nothing. -/
def write (change : Write) : Prog Stored Write Reason Unit := .edit change (.ret ())

/-- The value of a function of the store, taken in one atomic read. -/
def read (view : Stored → Value) : Prog Stored Write Reason Value :=
  .look fun store => .ret (view store)

variable [Store Stored Write]

/-- The writes a program performs from a store, and how it ends. -/
def trace (program : Prog Stored Write Reason Value) (store : Stored) :
    List Write × Except Reason Value :=
  match program with
  | .ret value => ([], .ok value)
  | .stop reason => ([], .error reason)
  | .look view => (view store).trace store
  | .edit write rest =>
      let later := rest.trace (Store.apply store write)
      (write :: later.1, later.2)

end Prog

variable [Store Stored Write]

/-- The store after a list of writes. -/
def applyAll (writes : List Write) (store : Stored) : Stored :=
  writes.foldl Store.apply store

namespace Prog

/-- The store a program leaves behind when it runs to its end. -/
def final (program : Prog Stored Write Reason Value) (store : Stored) : Stored :=
  applyAll (program.trace store).1 store

/-- How a program ends. -/
def outcome (program : Prog Stored Write Reason Value) (store : Stored) : Except Reason Value :=
  (program.trace store).2

/-- The store left behind when a program dies after `count` writes. -/
def crashed (program : Prog Stored Write Reason Value) (store : Stored) (count : Nat) : Stored :=
  applyAll ((program.trace store).1.take count) store

end Prog

@[simp] theorem applyAll_nil (store : Stored) : applyAll ([] : List Write) store = store := rfl

@[simp] theorem applyAll_cons (write : Write) (writes : List Write) (store : Stored) :
    applyAll (write :: writes) store = applyAll writes (Store.apply store write) := rfl

theorem applyAll_append (first second : List Write) (store : Stored) :
    applyAll (first ++ second) store = applyAll second (applyAll first store) := by
  simp [applyAll]

/-- A property kept by every single write of a list is kept by the list. -/
theorem applyAll_preserves {Holds : Stored → Prop} (writes : List Write)
    (step : ∀ write ∈ writes, ∀ store, Holds store → Holds (Store.apply store write))
    (store : Stored) (start : Holds store) : Holds (applyAll writes store) := by
  induction writes generalizing store with
  | nil => exact start
  | cons write rest ih =>
      apply ih
      · intro later member
        exact step later (by simp [member])
      · exact step write (by simp) store start

/-- A property of every store that a list of writes goes through, the first one
and the last one included. -/
def Throughout (Holds : Stored → Prop) (writes : List Write) (store : Stored) : Prop :=
  ∀ count, Holds (applyAll (writes.take count) store)

section Prefixes

variable {Holds : Stored → Prop} {store : Stored}

theorem throughout_nil (start : Holds store) : Throughout Holds ([] : List Write) store := by
  intro count
  simpa using start

theorem throughout_cons {write : Write} {rest : List Write} (start : Holds store)
    (later : Throughout Holds rest (Store.apply store write)) :
    Throughout Holds (write :: rest) store := by
  intro count
  cases count with
  | zero => simpa using start
  | succ count => exact later count

theorem throughout_append {first second : List Write} (before : Throughout Holds first store)
    (after : Throughout Holds second (applyAll first store)) :
    Throughout Holds (first ++ second) store := by
  intro count
  by_cases inside : count ≤ first.length
  · rw [List.take_append_of_le_length inside]
    exact before count
  · rw [List.take_append, List.take_of_length_le (by omega), applyAll_append]
    exact after _

theorem Throughout.last {writes : List Write} (along : Throughout Holds writes store) :
    Holds (applyAll writes store) := by
  have ended := along writes.length
  rwa [List.take_length] at ended

theorem Throughout.before {first second : List Write}
    (along : Throughout Holds (first ++ second) store) : Holds (applyAll first store) := by
  have reached := along first.length
  rwa [List.take_left] at reached

/-- What holds after any of the writes alone holds throughout. -/
theorem throughout_of_subset {writes : List Write}
    (each : ∀ done ⊆ writes, Holds (applyAll done store)) : Throughout Holds writes store :=
  fun count => each _ (List.take_subset count writes)

end Prefixes

/-- The program performs exactly `writes` from `store` and returns `value`. -/
def Does (program : Prog Stored Write Reason Value) (store : Stored) (writes : List Write)
    (value : Value) : Prop :=
  program.trace store = (writes, .ok value)

theorem does_ret (value : Value) (store : Stored) :
    Does (pure value : Prog Stored Write Reason Value) store [] value := rfl

theorem does_read (view : Stored → Value) (store : Stored) :
    Does (Prog.read view : Prog Stored Write Reason Value) store [] (view store) := rfl

/-- Sequencing concatenates the writes; the second part runs on the store the
first part left behind. -/
theorem does_bind {program : Prog Stored Write Reason Value}
    {next : Value → Prog Stored Write Reason Result} {store : Stored}
    {first second : List Write} {value : Value} {result : Result}
    (head : Does program store first value)
    (tail : Does (next value) (applyAll first store) second result) :
    Does (program >>= next) store (first ++ second) result := by
  change (program.bind next).trace store = (first ++ second, .ok result)
  induction program generalizing store first with
  | ret value' =>
      simp only [Does, Prog.trace, Prod.mk.injEq, Except.ok.injEq] at head
      obtain ⟨rfl, rfl⟩ := head
      exact tail
  | stop reason => simp [Does, Prog.trace] at head
  | look view ih => exact ih store head tail
  | edit write rest ih =>
      cases later : rest.trace (Store.apply store write) with
      | mk writes ending =>
          simp only [Does, Prog.trace, later, Prod.mk.injEq] at head
          obtain ⟨rfl, rfl⟩ := head
          have followed := ih later tail
          simp only [Prog.bind, Prog.trace, followed, List.cons_append]

/-- A first part that only reads. -/
theorem does_bind_read {program : Prog Stored Write Reason Value}
    {next : Value → Prog Stored Write Reason Result} {store : Stored}
    {writes : List Write} {value : Value} {result : Result}
    (head : Does program store [] value) (tail : Does (next value) store writes result) :
    Does (program >>= next) store writes result := by
  have joined := does_bind head tail
  exact joined

/-- A last part that only computes. -/
theorem does_bind_pure {program : Prog Stored Write Reason Value} {convert : Value → Result}
    {store : Stored} {writes : List Write} {value : Value}
    (head : Does program store writes value) :
    Does (program >>= fun value => pure (convert value)) store writes (convert value) := by
  have joined : Does (program >>= fun value => pure (convert value)) store (writes ++ [])
      (convert value) := does_bind head (does_ret _ _)
  rwa [List.append_nil] at joined

theorem Does.outcome {program : Prog Stored Write Reason Value} {store : Stored}
    {writes : List Write} {value : Value} (done : Does program store writes value) :
    program.outcome store = .ok value := by
  simp only [Prog.outcome, show program.trace store = _ from done]

theorem Does.final {program : Prog Stored Write Reason Value} {store : Stored}
    {writes : List Write} {value : Value} (done : Does program store writes value) :
    program.final store = applyAll writes store := by
  simp only [Prog.final, show program.trace store = _ from done]

theorem Does.crashed {program : Prog Stored Write Reason Value} {store : Stored}
    {writes : List Write} {value : Value} (done : Does program store writes value) (count : Nat) :
    program.crashed store count = applyAll (writes.take count) store := by
  simp only [Prog.crashed, show program.trace store = _ from done]

/-- A fuelled program performs exactly `writes` and returns `value`, whatever
sufficiently large amount of fuel it is given. -/
def Returns (program : Nat → Prog Stored Write Reason Value) (store : Stored)
    (writes : List Write) (value : Value) : Prop :=
  ∃ enough, ∀ fuel, enough ≤ fuel → Does (program fuel) store writes value

theorem Does.returns {program : Prog Stored Write Reason Value} {store : Stored}
    {writes : List Write} {value : Value} (done : Does program store writes value) :
    Returns (fun _ => program) store writes value :=
  ⟨0, fun _ _ => done⟩

theorem returns_bind {program : Nat → Prog Stored Write Reason Value}
    {next : Nat → Value → Prog Stored Write Reason Result} {store : Stored}
    {first second : List Write} {value : Value} {result : Result}
    (head : Returns program store first value)
    (tail : Returns (fun fuel => next fuel value) (applyAll first store) second result) :
    Returns (fun fuel => program fuel >>= next fuel) store (first ++ second) result := by
  obtain ⟨headFuel, headDone⟩ := head
  obtain ⟨tailFuel, tailDone⟩ := tail
  refine ⟨max headFuel tailFuel, fun fuel enough => ?_⟩
  exact does_bind (headDone fuel (le_trans (Nat.le_max_left _ _) enough))
    (tailDone fuel (le_trans (Nat.le_max_right _ _) enough))

theorem returns_bind_read {program : Nat → Prog Stored Write Reason Value}
    {next : Nat → Value → Prog Stored Write Reason Result} {store : Stored}
    {writes : List Write} {value : Value} {result : Result}
    (head : Returns program store [] value)
    (tail : Returns (fun fuel => next fuel value) store writes result) :
    Returns (fun fuel => program fuel >>= next fuel) store writes result := by
  have joined := returns_bind head tail
  exact joined

theorem returns_bind_pure {program : Nat → Prog Stored Write Reason Value}
    {convert : Value → Result} {store : Stored} {writes : List Write} {value : Value}
    (head : Returns program store writes value) :
    Returns (fun fuel => program fuel >>= fun value => pure (convert value)) store writes
      (convert value) := by
  obtain ⟨enough, done⟩ := head
  exact ⟨enough, fun fuel bound => does_bind_pure (done fuel bound)⟩

/-- One unit of fuel spent on the outermost round of a loop. -/
theorem returns_of_succ {program : Nat → Prog Stored Write Reason Value} {store : Stored}
    {writes : List Write} {value : Value}
    (done : Returns (fun fuel => program (fuel + 1)) store writes value) :
    Returns program store writes value := by
  obtain ⟨enough, done⟩ := done
  refine ⟨enough + 1, fun fuel bound => ?_⟩
  obtain ⟨rest, rfl⟩ : ∃ rest, fuel = rest + 1 := ⟨fuel - 1, by omega⟩
  exact done rest (by omega)

/-- A fuelled program has one result only. -/
theorem Returns.unique {program : Nat → Prog Stored Write Reason Value} {store : Stored}
    {first second : List Write} {value other : Value}
    (left : Returns program store first value) (right : Returns program store second other) :
    first = second ∧ value = other := by
  obtain ⟨leftFuel, leftDone⟩ := left
  obtain ⟨rightFuel, rightDone⟩ := right
  have one := leftDone (max leftFuel rightFuel) (Nat.le_max_left _ _)
  have two := rightDone (max leftFuel rightFuel) (Nat.le_max_right _ _)
  rw [Does, one] at two
  simpa using two

/-- The writes of a sequence, and how it ends. -/
theorem trace_bind (program : Prog Stored Write Reason Value)
    (next : Value → Prog Stored Write Reason Result) (store : Stored) :
    (program >>= next).trace store = match program.trace store with
      | (writes, .ok value) =>
          (writes ++ ((next value).trace (applyAll writes store)).1,
            ((next value).trace (applyAll writes store)).2)
      | (writes, .error reason) => (writes, .error reason) := by
  change (program.bind next).trace store = _
  induction program generalizing store with
  | ret value => rfl
  | stop reason => rfl
  | look view ih => exact ih store store
  | edit write rest ih =>
      simp only [Prog.bind, Prog.trace, ih]
      rcases rest.trace (Store.apply store write) with ⟨writes, reason | value⟩ <;> rfl

/-- The second program does what the first one does, unless that one ends for `reason`: the same
program with more fuel, when `reason` is that it ran out. -/
def Outlasts (reason : Reason) (program longer : Prog Stored Write Reason Value) : Prop :=
  ∀ store, (program.trace store).2 = .error reason ∨ program.trace store = longer.trace store

section Fuel

variable {reason : Reason} {program longer : Prog Stored Write Reason Value}

theorem outlasts_refl (reason : Reason) (program : Prog Stored Write Reason Value) :
    Outlasts reason program program :=
  fun _ => Or.inr rfl

theorem outlasts_stop (reason : Reason) (longer : Prog Stored Write Reason Value) :
    Outlasts reason (.stop reason) longer :=
  fun _ => Or.inl rfl

theorem Outlasts.trans {longest : Prog Stored Write Reason Value}
    (first : Outlasts reason program longer) (second : Outlasts reason longer longest) :
    Outlasts reason program longest := by
  intro store
  rcases first store with stopped | same
  · left
    exact stopped
  · rw [same]
    exact second store

theorem Outlasts.bind {next further : Value → Prog Stored Write Reason Result}
    (first : Outlasts reason program longer)
    (second : ∀ value, Outlasts reason (next value) (further value)) :
    Outlasts reason (program >>= next) (longer >>= further) := by
  intro store
  rw [trace_bind, trace_bind]
  rcases first store with stopped | same
  · left
    rcases traced : program.trace store with ⟨writes, other | value⟩
    · rw [traced] at stopped
      cases stopped
      rfl
    · rw [traced] at stopped
      cases stopped
  · rw [← same]
    rcases program.trace store with ⟨writes, other | value⟩
    · right; rfl
    · rcases second value (applyAll writes store) with stopped | same
      · left
        exact stopped
      · right
        simp only [same]

/-- A fuelled program that more fuel does not change. -/
theorem outlasts_of_le {program : Nat → Prog Stored Write Reason Value}
    (step : ∀ fuel, Outlasts reason (program fuel) (program (fuel + 1))) {fuel more : Nat}
    (less : fuel ≤ more) : Outlasts reason (program fuel) (program more) := by
  induction less with
  | refl => exact outlasts_refl _ _
  | step _ ih => exact ih.trans (step _)

/-- If it does not run out of fuel, it does what it does with enough. -/
theorem Returns.trace_of_ended {program : Nat → Prog Stored Write Reason Value} {store : Stored}
    {writes : List Write} {value : Value} (returns : Returns program store writes value)
    (step : ∀ fuel, Outlasts reason (program fuel) (program (fuel + 1))) {fuel : Nat}
    (ended : (program fuel).outcome store ≠ .error reason) : Does (program fuel) store writes value := by
  obtain ⟨enough, done⟩ := returns
  have later := done (max fuel enough) (Nat.le_max_right _ _)
  rcases outlasts_of_le step (Nat.le_max_left fuel enough) store with stopped | same
  · exact absurd stopped ended
  · exact same.trans later

end Fuel

end Programs

end OsWorkbench.WriteTrace
