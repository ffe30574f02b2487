import Mathlib.Data.List.Perm.Basic
import Mathlib.Logic.Function.Basic

/-!
# Cells and their backups

Cells are overwritten, each time with a backup of what was there, and backups are put back in some
order. Every cell has its first content again when nothing is left to put back, if each time the
newest backup of a cell was taken.
-/

namespace OsWorkbench.Library

section Removing

variable {α β : Type*} {l : List α} {i : Nat}

/-- Takes out an element and moves the last one to its place. -/
def swapRemove (l : List α) (i : Nat) : List α :=
  match l.getLast? with
  | none => []
  | some last => (l.set i last).dropLast

theorem swap_remove_concat (front : List α) (last : α) (i : Nat) :
    swapRemove (front ++ [last]) i = if i < front.length then front.set i last else front := by
  rw [swapRemove, List.getLast?_concat]
  dsimp only
  split
  next inside => rw [List.set_append_left _ _ inside, List.dropLast_concat]
  next outside =>
    rw [List.set_append_right _ _ (Nat.le_of_not_lt outside)]
    cases i - front.length with
    | zero => exact List.dropLast_concat
    | succ k => exact List.dropLast_concat

theorem swap_remove_perm (inside : i < l.length) : l.Perm (l[i] :: swapRemove l i) := by
  rcases List.eq_nil_or_concat' l with rfl | ⟨front, last, rfl⟩
  · exact absurd inside (Nat.not_lt_zero i)
  rw [swap_remove_concat]
  split
  next before =>
    rw [List.getElem_append_left before, List.set_eq_take_append_cons_drop, if_pos before]
    have parts : front = front.take i ++ front[i] :: front.drop (i + 1) := by
      rw [← List.drop_eq_getElem_cons before, List.take_append_drop]
    have whole := congrArg (fun part => part ++ [last]) parts
    refine (List.Perm.of_eq whole).trans ?_
    rw [List.append_assoc, List.cons_append]
    refine List.perm_middle.trans (List.Perm.cons _ ?_)
    exact List.Perm.append_left _ (List.perm_append_singleton last _)
  next behind =>
    have ending : i = front.length := by
      rw [List.length_append, List.length_singleton] at inside
      omega
    subst ending
    rw [List.getElem_concat_length rfl]
    exact List.perm_append_singleton last front

theorem swap_remove_map (f : α → β) (l : List α) (i : Nat) :
    (swapRemove l i).map f = swapRemove (l.map f) i := by
  rcases List.eq_nil_or_concat' l with rfl | ⟨front, last, rfl⟩
  · rfl
  · rw [swap_remove_concat, List.map_append, List.map_singleton, swap_remove_concat, List.length_map]
    split
    · rw [List.map_set]
    · rfl

end Removing

/-- What a cell held before it was overwritten. -/
structure Backup (C V : Type*) where
  cell : C
  old : V
  time : Nat

section Covering

variable {C V : Type*} {base store : C → V} {kept rest : List (Backup C V)} {b : Backup C V} {c : C}

/-- The backup is the newest one of its cell. -/
def Newest (kept : List (Backup C V)) (b : Backup C V) : Prop :=
  ∀ other ∈ kept, other.cell = b.cell → other.time ≤ b.time

/-- The oldest backup of a cell holds its first content, and a cell without one holds it itself. -/
structure Covers (base store : C → V) (kept : List (Backup C V)) : Prop where
  bare : ∀ c, (∀ b ∈ kept, b.cell ≠ c) → store c = base c
  oldest : ∀ b ∈ kept, (∀ other ∈ kept, other.cell = b.cell → b.time ≤ other.time) →
    b.old = base b.cell

theorem covers_nothing : Covers base base ([] : List (Backup C V)) :=
  ⟨fun _ _ => rfl, fun _ member => absurd member List.not_mem_nil⟩

theorem Covers.ended (covers : Covers base store []) : store = base :=
  funext fun c => covers.bare c fun _ member => absurd member List.not_mem_nil

theorem Covers.perm (covers : Covers base store kept) (same : kept.Perm rest) :
    Covers base store rest := by
  constructor
  case bare => exact fun c none => covers.bare c fun b member => none b (same.subset member)
  case oldest =>
    intro b member first
    exact covers.oldest b (same.symm.subset member) fun other also => first other (same.subset also)

variable [DecidableEq C]

/-- A cell is overwritten with a backup. -/
theorem Covers.overwrite (covers : Covers base store kept) {time : Nat}
    (later : ∀ b ∈ kept, b.time < time) (c : C) (value : V) :
    Covers base (Function.update store c value) (⟨c, store c, time⟩ :: kept) := by
  constructor
  case bare =>
    intro other none
    rw [Function.update_of_ne (none _ List.mem_cons_self).symm]
    exact covers.bare other fun b member => none b (List.mem_cons_of_mem _ member)
  case oldest =>
    intro b member first
    rcases List.mem_cons.mp member with rfl | before
    · -- the first backup of the cell
      refine covers.bare c fun other also same => ?_
      exact absurd (first other (List.mem_cons_of_mem _ also) same) (Nat.not_le_of_lt (later other also))
    · exact covers.oldest b before fun other also => first other (List.mem_cons_of_mem _ also)

/-- The newest backup of a cell is put back. -/
theorem Covers.put_back (covers : Covers base store (b :: rest)) (newest : Newest (b :: rest) b) :
    Covers base (Function.update store b.cell b.old) rest := by
  constructor
  case bare =>
    intro c none
    by_cases same : c = b.cell
    · subst same
      rw [Function.update_self]
      refine covers.oldest b List.mem_cons_self fun other member also => ?_
      rcases List.mem_cons.mp member with rfl | behind
      · exact Nat.le_refl _
      · exact absurd also (none other behind)
    · rw [Function.update_of_ne same]
      refine covers.bare c fun other member => ?_
      rcases List.mem_cons.mp member with rfl | behind
      · exact Ne.symm same
      · exact none other behind
  case oldest =>
    intro other member first
    refine covers.oldest other (List.mem_cons_of_mem _ member) fun earlier also same => ?_
    rcases List.mem_cons.mp also with rfl | behind
    · exact newest other (List.mem_cons_of_mem _ member) same.symm
    · exact first earlier behind same

end Covering

end OsWorkbench.Library
