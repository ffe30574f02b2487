import Mathlib.Order.Defs.LinearOrder
import Mathlib.Tactic.Basic

/-!
# Programs with fuel

A loop whose end is not seen from its text runs with fuel. What it ends with is what it gives with
enough fuel, however much more there is.
-/

namespace OsWorkbench.Library

section Fuel

variable {α β : Type*}

/-- With enough fuel, `run` gives `a`. -/
def Ends (run : Nat → Option α) (a : α) : Prop :=
  ∃ enough, ∀ fuel, enough ≤ fuel → run fuel = some a

variable {run other : Nat → Option α} {next : Nat → α → Option β} {a : α} {b : β}

theorem Ends.both {program : Nat → Option β} (first : Ends run a) (second : Ends program b) :
    ∃ enough, ∀ fuel, enough ≤ fuel → run fuel = some a ∧ program fuel = some b := by
  obtain ⟨enough, ends⟩ := first
  obtain ⟨more, later⟩ := second
  refine ⟨max enough more, fun fuel many => ?_⟩
  have both := Nat.max_le.mp many
  exact ⟨ends fuel both.1, later fuel both.2⟩

/-- A part of a program after another one. -/
theorem Ends.bind (first : Ends run a) (second : Ends (fun fuel => next fuel a) b) :
    Ends (fun fuel => (run fuel).bind (next fuel)) b := by
  obtain ⟨enough, both⟩ := first.both second
  refine ⟨enough, fun fuel many => ?_⟩
  obtain ⟨ended, later⟩ := both fuel many
  dsimp only
  rw [ended, Option.bind_some]
  exact later

theorem Ends.map (first : Ends run a) (f : α → β) : Ends (fun fuel => (run fuel).map f) (f a) := by
  obtain ⟨enough, ends⟩ := first
  refine ⟨enough, fun fuel many => ?_⟩
  dsimp only
  rw [ends fuel many, Option.map_some]

/-- One turn of a loop that has fuel enough for what it calls. -/
theorem Ends.turn {least : Nat} (first : Ends other a)
    (same : ∀ fuel, least ≤ fuel → run (fuel + 1) = other fuel) : Ends run a := by
  obtain ⟨enough, ends⟩ := first
  refine ⟨max enough least + 1, fun fuel many => ?_⟩
  cases fuel with
  | zero => exact absurd many (Nat.not_succ_le_zero _)
  | succ fuel =>
      have both := Nat.max_le.mp (Nat.le_of_succ_le_succ many)
      rw [same fuel both.2]
      exact ends fuel both.1

/-- The last turn of a loop. -/
theorem Ends.last {least : Nat} (here : ∀ fuel, least ≤ fuel → run (fuel + 1) = some a) :
    Ends run a := by
  have ended : Ends (fun _ : Nat => some a) a := ⟨0, fun _ _ => rfl⟩
  exact ended.turn here

end Fuel

end OsWorkbench.Library
