import Mathlib.Data.List.Nodup
import Mathlib.Logic.Function.Basic

/-!
# Linked lists in a store

A store gives every node its successor. `Path next a nodes b` says that the successors lead from `a`
through `nodes` to `b`; a circular list through a sentinel is a path from the sentinel to itself.
The edits of such a list change one or two successors.
-/

namespace OsWorkbench.LinkedList

variable {α : Type*} {next other : α → α} {a b c : α} {left right : List α}

def Path (next : α → α) : α → List α → α → Prop
  | a, [], b => next a = b
  | a, c :: rest, b => next a = c ∧ Path next c rest b

@[simp] theorem path_nil : Path next a [] b ↔ next a = b := Iff.rfl

@[simp] theorem path_cons : Path next a (c :: right) b ↔ next a = c ∧ Path next c right b := Iff.rfl

theorem path_append : Path next a (left ++ c :: right) b ↔
    Path next a left c ∧ Path next c right b := by
  induction left generalizing a with
  | nil => rfl
  | cons first rest hypothesis =>
      simp only [List.cons_append, path_cons, hypothesis, and_assoc]

/-- The successor of the last node. -/
theorem Path.last (path : Path next a left b) : next (left.getLastD a) = b := by
  induction left generalizing a with
  | nil => exact path
  | cons first rest hypothesis =>
      rw [List.getLastD_cons]
      exact hypothesis path.2

/-- The successor of the first node. -/
theorem Path.first (path : Path next a left b) : next a = left.headD b := by
  cases left with
  | nil => exact path
  | cons first rest => exact path.1

/-- A path depends on the successors of its nodes, the last place aside. -/
theorem Path.congr (path : Path next a left b) (same : ∀ node ∈ a :: left, other node = next node) :
    Path other a left b := by
  induction left generalizing a with
  | nil => exact (same a (by simp)).trans path
  | cons first rest hypothesis =>
      refine ⟨(same a (by simp)).trans path.1, ?_⟩
      exact hypothesis path.2 fun node member => same node (List.mem_cons_of_mem a member)

section Edits

variable [DecidableEq α]

theorem Path.update (path : Path next a left b) {node value : α} (outside : node ∉ a :: left) :
    Path (Function.update next node value) a left b := by
  apply path.congr
  intro visited member
  apply Function.update_of_ne
  rintro rfl
  exact outside member

/-- Leading the last node elsewhere. -/
theorem Path.divert (path : Path next a left b) (distinct : (a :: left).Nodup) (target : α) :
    Path (Function.update next (left.getLastD a) target) a left target := by
  induction left generalizing a with
  | nil => exact Function.update_self _ _ _
  | cons first rest hypothesis =>
      have further := hypothesis path.2 (List.nodup_cons.mp distinct).2
      rw [List.getLastD_cons]
      refine ⟨?_, further⟩
      rw [Function.update_of_ne, path.1]
      intro same
      exact (List.nodup_cons.mp distinct).1 (same ▸ @List.getLastD_mem_cons _ rest first)

/-- The node after `left` is taken out. -/
theorem Path.remove (path : Path next a (left ++ c :: right) b)
    (distinct : (a :: (left ++ c :: right)).Nodup) :
    Path (Function.update next (left.getLastD a) (next c)) a (left ++ right) b := by
  obtain ⟨before, after⟩ := path_append.mp path
  have split : (a :: left ++ c :: right).Nodup := distinct
  obtain ⟨front, -, apart⟩ := List.nodup_append.mp split
  have diverted := before.divert front (next c)
  cases right with
  | nil =>
      rw [List.append_nil]
      rw [after] at diverted ⊢
      exact diverted
  | cons second rest =>
      rw [after.1] at diverted ⊢
      refine path_append.mpr ⟨diverted, after.2.update ?_⟩
      intro member
      exact apart _ (@List.getLastD_mem_cons _ left a) _ (List.mem_cons_of_mem c member) rfl

/-- A new node is put in after `left`. -/
theorem Path.insert (path : Path next a (left ++ right) b)
    (distinct : (a :: (left ++ right)).Nodup) (new : c ∉ a :: (left ++ right)) :
    Path (Function.update (Function.update next c (next (left.getLastD a))) (left.getLastD a) c)
      a (left ++ c :: right) b := by
  have split : (a :: left ++ right).Nodup := distinct
  obtain ⟨front, -, apart⟩ := List.nodup_append.mp split
  have outside : c ∉ a :: left := fun member => new (List.mem_append_left right member)
  have unlike : c ≠ left.getLastD a := fun same => outside (same ▸ @List.getLastD_mem_cons _ left a)
  have parts : Path next a left (right.headD b) ∧ (Path next (left.getLastD a) right b) := by
    cases right with
    | nil =>
        rw [List.append_nil] at path
        exact ⟨path, path.last⟩
    | cons second rest =>
        obtain ⟨before, after⟩ := path_append.mp path
        exact ⟨before, before.last, after⟩
  obtain ⟨before, after⟩ := parts
  refine path_append.mpr ⟨(before.update outside).divert front c, ?_⟩
  have onward : Function.update (Function.update next c (next (left.getLastD a)))
      (left.getLastD a) c c = next (left.getLastD a) := by
    rw [Function.update_of_ne unlike, Function.update_self]
  cases right with
  | nil => exact onward.trans after
  | cons second rest =>
      refine ⟨onward.trans after.1, ?_⟩
      refine (after.2.update fun member => ?_).update fun member => ?_
      · exact new (List.mem_append_right (a :: left) member)
      · exact apart _ (@List.getLastD_mem_cons _ left a) _ member rfl

end Edits

end OsWorkbench.LinkedList
