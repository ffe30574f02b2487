import Mathlib.Logic.Function.Basic
import Mathlib.Data.List.Basic

/-!
# Ring buffers

What a ring of `cap` cells holds from some index on, as a list: what adding at the end and removing
at the front do to it.
-/

namespace OsWorkbench.Library

section Ring

variable {α : Type*}

/-- The `count` cells from `head` on. -/
def window (cells : Nat → α) (cap head : Nat) : Nat → List α
  | 0 => []
  | count + 1 => cells (head % cap) :: window cells cap (head + 1) count

theorem window_length (cells : Nat → α) (cap head count : Nat) :
    (window cells cap head count).length = count := by
  induction count generalizing head with
  | zero => rfl
  | succ count hypothesis => rw [window, List.length_cons, hypothesis]

/-- Only the cell that an index stands for matters. -/
theorem window_congr (cells : Nat → α) {cap head other : Nat} (same : head % cap = other % cap)
    (count : Nat) : window cells cap head count = window cells cap other count := by
  induction count generalizing head other with
  | zero => rfl
  | succ count hypothesis =>
      have further : (head + 1) % cap = (other + 1) % cap := by
        rw [Nat.add_mod, same, ← Nat.add_mod]
      rw [window, window, same, hypothesis further]

theorem window_concat (cells : Nat → α) (cap head count : Nat) :
    window cells cap head (count + 1) =
      window cells cap head count ++ [cells ((head + count) % cap)] := by
  induction count generalizing head with
  | zero => rfl
  | succ count hypothesis =>
      rw [window, hypothesis, window, List.cons_append, Nat.add_assoc, Nat.add_comm 1 count]

theorem window_eq_of_cells {cells others : Nat → α} {cap head count : Nat}
    (same : ∀ index, index < count → cells ((head + index) % cap) = others ((head + index) % cap)) :
    window cells cap head count = window others cap head count := by
  induction count generalizing head with
  | zero => rfl
  | succ count hypothesis =>
      have later : ∀ index, index < count →
          cells ((head + 1 + index) % cap) = others ((head + 1 + index) % cap) := by
        intro index below
        have further := same (index + 1) (Nat.succ_lt_succ below)
        rwa [Nat.add_comm index 1, ← Nat.add_assoc] at further
      have first := same 0 (Nat.zero_lt_succ count)
      rw [Nat.add_zero] at first
      rw [window, window, hypothesis later, first]

theorem window_append (cells : Nat → α) (cap head first second : Nat) :
    window cells cap head (first + second) =
      window cells cap head first ++ window cells cap (head + first) second := by
  induction first generalizing head with
  | zero => simp [window]
  | succ first hypothesis =>
      rw [Nat.succ_add, window, hypothesis, window, List.cons_append, Nat.add_assoc,
        Nat.add_comm 1 first]

theorem window_take (cells : Nat → α) {cap head first count : Nat} (fits : first ≤ count) :
    (window cells cap head count).take first = window cells cap head first := by
  have split := window_append cells cap head first (count - first)
  rw [Nat.add_sub_of_le fits] at split
  rw [split, List.take_left' (window_length cells cap head first)]

theorem window_drop (cells : Nat → α) {cap head first count : Nat} (fits : first ≤ count) :
    (window cells cap head count).drop first = window cells cap (head + first) (count - first) := by
  have split := window_append cells cap head first (count - first)
  rw [Nat.add_sub_of_le fits] at split
  rw [split, List.drop_left' (window_length cells cap head first)]

/-- Two indexes less than `cap` apart stand for different cells. -/
theorem ring_index_ne {cap head first second : Nat} (before : first < second)
    (near : second - first < cap) : (head + first) % cap ≠ (head + second) % cap := by
  intro same
  have difference := Nat.sub_mod_eq_zero_of_mod_eq same.symm
  rw [Nat.add_sub_add_left, Nat.mod_eq_of_lt near] at difference
  omega

/-- Storing behind the last entry keeps the entries. -/
theorem window_update_end (cells : Nat → α) {cap head count : Nat} (room : count < cap) (entry : α) :
    window (Function.update cells ((head + count) % cap) entry) cap head count =
      window cells cap head count := by
  apply window_eq_of_cells
  intro index below
  apply Function.update_of_ne
  exact ring_index_ne below (by omega)

/-- Storing behind the last entry adds one. -/
theorem window_push (cells : Nat → α) {cap head count : Nat} (room : count < cap) (entry : α) :
    window (Function.update cells ((head + count) % cap) entry) cap head (count + 1) =
      window cells cap head count ++ [entry] := by
  rw [window_concat, window_update_end cells room, Function.update_self]

end Ring

end OsWorkbench.Library
