import Mathlib.Data.List.Basic
import Mathlib.Algebra.GroupWithZero.Nat

/-!
# References from tables of slots

How many slots of a family of tables refer to an object, and how this number changes with a slot,
with a table and with the family.
-/

namespace OsWorkbench.Library

section References

variable {α : Type*} [DecidableEq α]

def references (tables : List (List (Option α))) (object : α) : Nat :=
  (tables.map (List.count (some object))).sum

/-- 1 or 0. -/
def indicator (p : Prop) [Decidable p] : Nat := if p then 1 else 0

variable {tables : List (List (Option α))} {object : α}

theorem references_append (more : List (List (Option α))) :
    references (tables ++ more) object = references tables object + references more object := by
  unfold references
  rw [List.map_append, List.sum_append]

theorem references_single (table : List (Option α)) :
    references [table] object = table.count (some object) := by
  unfold references
  simp

theorem references_set {i : Nat} {old : List (Option α)} (listed : tables[i]? = some old)
    (new : List (Option α)) :
    references (tables.set i new) object + old.count (some object) =
      references tables object + new.count (some object) := by
  induction tables generalizing i with
  | nil => cases listed
  | cons table rest hypothesis =>
      cases i with
      | zero =>
          cases listed
          simp only [references, List.set_cons_zero, List.map_cons, List.sum_cons]
          omega
      | succ i =>
          have behind := hypothesis listed
          simp only [references, List.set_cons_succ, List.map_cons, List.sum_cons] at behind ⊢
          omega

theorem count_set {table : List (Option α)} {i : Nat} (inside : i < table.length)
    (slot : Option α) :
    (table.set i slot).count (some object) + indicator (table.getD i none = some object) =
      table.count (some object) + indicator (slot = some object) := by
  unfold indicator
  induction table generalizing i with
  | nil => cases inside
  | cons first rest hypothesis =>
      cases i with
      | zero =>
          simp only [List.set_cons_zero, List.count_cons, List.getD_cons_zero, beq_iff_eq]
          omega
      | succ i =>
          have behind := hypothesis (Nat.lt_of_succ_lt_succ inside)
          simp only [List.set_cons_succ, List.count_cons, List.getD_cons_succ]
          omega

theorem references_pos {i j : Nat} {table : List (Option α)} (listed : tables[i]? = some table)
    (points : table.getD j none = some object) : 0 < references tables object := by
  have member : some object ∈ table := by
    rw [List.getD_eq_getElem?_getD] at points
    cases known : table[j]? with
    | none =>
        rw [known] at points
        cases points
    | some slot =>
        rw [known] at points
        cases points
        exact List.mem_of_getElem? known
  have positive : 0 < table.count (some object) := List.count_pos_iff.mpr member
  have emptied := @references_set _ _ tables object i table listed []
  rw [List.count_nil] at emptied
  omega

end References

end OsWorkbench.Library
