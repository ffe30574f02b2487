import Mathlib.Data.List.TakeWhile
import Mathlib.Data.List.Basic

/-!
# Inserting into an ordered list

A new element goes behind the longest front part that satisfies a test. The list stays ordered if the
elements that pass the test come before it, those that do not come after it, and behind an element
that does not pass none does.
-/

namespace OsWorkbench.Library

variable {α : Type*} {r : α → α → Prop} {p : α → Bool} {list : List α} {x : α}

theorem insert_pairwise (sorted : list.Pairwise r) (below : ∀ a ∈ list, p a = true → r a x)
    (above : ∀ a ∈ list, p a = false → r x a)
    (closed : ∀ a ∈ list, ∀ b ∈ list, r a b → p a = false → p b = false) :
    (list.takeWhile p ++ x :: list.dropWhile p).Pairwise r := by
  induction list with
  | nil => exact List.pairwise_singleton r x
  | cons a rest hypothesis =>
      obtain ⟨first, later⟩ := List.pairwise_cons.mp sorted
      cases test : p a with
      | true =>
          rw [List.takeWhile_cons_of_pos test, List.dropWhile_cons_of_pos test, List.cons_append,
            List.pairwise_cons]
          refine ⟨fun b member => ?_, hypothesis later
            (fun b member => below b (List.mem_cons_of_mem a member))
            (fun b member => above b (List.mem_cons_of_mem a member))
            fun b one c two => closed b (List.mem_cons_of_mem a one) c (List.mem_cons_of_mem a two)⟩
          rcases List.mem_append.mp member with front | back
          · exact first b ((List.takeWhile_prefix p).subset front)
          · rcases List.mem_cons.mp back with rfl | back
            · exact below a List.mem_cons_self test
            · exact first b ((List.dropWhile_suffix p).subset back)
      | false =>
          have off : ¬p a = true := by rw [test]; exact Bool.false_ne_true
          rw [List.takeWhile_cons_of_neg off, List.dropWhile_cons_of_neg off, List.nil_append,
            List.pairwise_cons]
          refine ⟨fun b member => above b member ?_, sorted⟩
          rcases List.mem_cons.mp member with rfl | later
          · exact test
          · exact closed a List.mem_cons_self b member (first b later) test

/-- The new element is added, whatever the test is. -/
theorem insert_perm (p : α → Bool) (list : List α) (x : α) :
    (list.takeWhile p ++ x :: list.dropWhile p).Perm (x :: list) := by
  refine List.perm_middle.trans ?_
  rw [List.takeWhile_append_dropWhile]

end OsWorkbench.Library
