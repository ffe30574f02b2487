import OsWorkbench.Kernel.Semaphore

/-!
# `pool.c`

The ring behind `ctx_queue`, as its code has it and as the queue it stands for.
-/

namespace OsWorkbench.Kernel

open OsWorkbench.Library

/-- `pool`, without its lock: `dequeue` and `enqueue` hold it from their first access to the last. -/
structure Pool (T : Type) where
  mem : Nat → Option T
  head : Nat
  tail : Nat

section Ring

variable {T : Type}

def Pool.next (index : Nat) : Nat := if index + 1 = poolLen then 0 else index + 1

def Pool.empty : Pool T where
  mem := fun _ => none
  head := 0
  tail := 0

def dequeue (p : Pool T) : Option T × Pool T :=
  if p.head ≠ p.tail then (p.mem p.head, { p with head := Pool.next p.head })
  else (none, p)

/-- `enqueue` waits as long as the pool is full. -/
def enqueue (p : Pool T) (mem : T) : Option (Pool T) :=
  if (p.tail + 1) % poolLen = p.head then none
  else some { p with mem := Function.update p.mem p.tail (some mem), tail := Pool.next p.tail }

/-- What is in the pool, in order of arrival. -/
def Pool.entries (p : Pool T) : List (Option T) :=
  window p.mem poolLen p.head ((p.tail + poolLen - p.head) % poolLen)

/-- The indexes stay in the ring. -/
structure Pool.Sound (p : Pool T) : Prop where
  head : p.head < poolLen
  tail : p.tail < poolLen

theorem pool_next_lt {index : Nat} (inside : index < poolLen) : Pool.next index < poolLen := by
  unfold Pool.next
  split
  · exact Nat.zero_lt_succ _
  · omega

theorem pool_next_mod {index : Nat} (inside : index < poolLen) :
    Pool.next index = (index + 1) % poolLen := by
  unfold Pool.next
  split
  next ends => rw [ends, Nat.mod_self]
  next further => exact (Nat.mod_eq_of_lt (by omega)).symm

theorem Pool.empty_sound : (Pool.empty : Pool T).Sound where
  head := Nat.zero_lt_succ _
  tail := Nat.zero_lt_succ _

theorem Pool.empty_entries : (Pool.empty : Pool T).entries = [] := by
  simp [Pool.entries, Pool.empty, window]

/-- `dequeue` takes the entry that came first. -/
theorem dequeue_entries {p : Pool T} (sound : p.Sound) :
    (p.entries = [] ∧ dequeue p = (none, p)) ∨
      ∃ entry rest, p.entries = entry :: rest ∧ (dequeue p).1 = entry ∧
        (dequeue p).2.entries = rest ∧ (dequeue p).2.Sound := by
  have head := sound.head
  have tail := sound.tail
  unfold dequeue
  by_cases same : p.head = p.tail
  · left
    constructor
    · unfold Pool.entries
      rw [same, Nat.add_sub_cancel_left, Nat.mod_self]
      rfl
    · rw [if_neg (not_not.mpr same)]
  · right
    rw [if_pos same]
    have size : (p.tail + poolLen - p.head) % poolLen =
        (p.tail + poolLen - Pool.next p.head) % poolLen + 1 := by
      unfold Pool.next poolLen at *
      split <;> omega
    refine ⟨p.mem p.head, _, ?_, rfl, rfl, pool_next_lt head, tail⟩
    unfold Pool.entries
    rw [size, window, Nat.mod_eq_of_lt head]
    congr 1
    apply window_congr
    rw [pool_next_mod head, Nat.mod_mod]

/-- `enqueue` adds behind the others. -/
theorem enqueue_entries {p q : Pool T} {mem : T} (sound : p.Sound) (added : enqueue p mem = some q) :
    q.entries = p.entries ++ [some mem] ∧ q.Sound := by
  have head := sound.head
  have tail := sound.tail
  unfold enqueue at added
  split at added
  next => cases added
  next room =>
    cases added
    constructor
    · have size : (Pool.next p.tail + poolLen - p.head) % poolLen =
          (p.tail + poolLen - p.head) % poolLen + 1 := by
        unfold Pool.next poolLen at *
        split <;> omega
      have place : (p.head + (p.tail + poolLen - p.head) % poolLen) % poolLen = p.tail := by
        unfold poolLen at *
        omega
      have room : (p.tail + poolLen - p.head) % poolLen < poolLen := Nat.mod_lt _ (by decide)
      unfold Pool.entries
      rw [size, ← window_push p.mem room (some mem), place]
    · exact ⟨head, pool_next_lt tail⟩

end Ring

end OsWorkbench.Kernel
