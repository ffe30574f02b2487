import Mathlib.Logic.Basic

/-!
# Exclusive holders

Resources with locks, and who holds them: a holder's resource is locked, and has no other holder.
-/

namespace OsWorkbench.Library

section Exclusion

variable {H R : Type*}

structure Exclusive (locked : R → Prop) (holds : H → R → Prop) : Prop where
  locked : ∀ holder resource, holds holder resource → locked resource
  unique : ∀ holder other resource, holds holder resource → holds other resource → holder = other

variable {locked locked' : R → Prop} {holds holds' : H → R → Prop}

/-- Nobody takes a resource that is locked, and one that is free goes to one holder only. -/
theorem Exclusive.evolve (exclusive : Exclusive locked holds)
    (still : ∀ holder resource, holds' holder resource → locked' resource)
    (taken : ∀ holder resource, holds' holder resource →
      holds holder resource ∨
        ¬locked resource ∧ ∀ other, holds' other resource → other = holder) :
    Exclusive locked' holds' where
  locked := still
  unique := by
    intro holder other resource first second
    cases taken holder resource first with
    | inr alone => exact (alone.2 other second).symm
    | inl before =>
        cases taken other resource second with
        | inr alone => exact alone.2 holder first
        | inl also => exact exclusive.unique holder other resource before also

/-- Holders may give up what they hold; a lock may be opened when nobody is left. -/
theorem Exclusive.shrink (exclusive : Exclusive locked holds)
    (fewer : ∀ holder resource, holds' holder resource → holds holder resource)
    (still : ∀ holder resource, holds' holder resource → locked resource → locked' resource) :
    Exclusive locked' holds' := by
  apply exclusive.evolve
  · intro holder resource held
    exact still holder resource held (exclusive.locked holder resource (fewer _ _ held))
  · intro holder resource held
    exact Or.inl (fewer holder resource held)

theorem Exclusive.free (exclusive : Exclusive locked holds) {resource : R}
    (unlocked : ¬locked resource) (holder : H) : ¬holds holder resource :=
  fun held => unlocked (exclusive.locked holder resource held)

end Exclusion

end OsWorkbench.Library
