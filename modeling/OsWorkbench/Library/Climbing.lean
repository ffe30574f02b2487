import Mathlib.Data.List.Basic

/-!
# Names and positions in a hierarchy

A position is where names lead from a root; what can be found from it depends on its content only, so
that one content may stand at several positions. Going up from a position takes the last name away if
it leads to the content of the parent.
-/

namespace OsWorkbench.Library

section Climbing

variable {N C V : Type*} (content : N → V) (child : V → C → Option N) (root : N)

/-- The names lead from the root to the content of the position. -/
inductive Leads : List C → N → Prop
  | root {n : N} (same : content n = content root) : Leads [] n
  | child {names : List C} {p b n : N} {c : C} (leads : Leads names p)
      (found : child (content p) c = some b) (same : content n = content b) : Leads (names ++ [c]) n

/-- From the positions that the guard admits, up is where names are taken from. -/
structure Upward (guard : N → Prop) (parent : N → Option N) : Prop where
  top : ∀ n q, content n = content root → guard n → parent n = some q → content q = content root
  back : ∀ p c b n q, child (content p) c = some b → content n = content b → guard n →
    parent n = some q → content q = content p

variable {content child root} {guard : N → Prop} {parent : N → Option N} {names : List C} {n m : N}
  {c : C}

theorem Leads.same (leads : Leads content child root names n) (same : content m = content n) :
    Leads content child root names m := by
  cases leads with
  | root first => exact .root (same.trans first)
  | child leads found first => exact .child leads found (same.trans first)

theorem Leads.down (leads : Leads content child root names n)
    (found : child (content n) c = some m) : Leads content child root (names ++ [c]) m :=
  .child leads found rfl

theorem Leads.up (leads : Leads content child root names n)
    (upward : Upward content child root guard parent) (admitted : guard n)
    (rose : parent n = some m) : Leads content child root names.dropLast m := by
  cases leads with
  | root same => exact .root (upward.top n m same admitted rose)
  | child leads found same =>
      rw [List.dropLast_concat]
      exact leads.same (upward.back _ _ _ n m found same admitted rose)

/-- A walk along the names ends at a position of the same content. -/
theorem Leads.walk (leads : Leads content child root names n) :
    ∃ m, names.foldlM (fun p c => child (content p) c) root = some m ∧ content m = content n := by
  induction leads with
  | root same => exact ⟨root, rfl, same.symm⟩
  | child leads found same hypothesis =>
      obtain ⟨m, walked, reached⟩ := hypothesis
      refine ⟨_, ?_, same.symm⟩
      rw [List.foldlM_append, walked, Option.bind_eq_bind, Option.bind_some, List.foldlM_cons,
        reached, found]
      rfl

end Climbing

end OsWorkbench.Library
