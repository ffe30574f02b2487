import OsWorkbench.Am.StartOrder
import Mathlib.Algebra.Order.BigOperators.Group.Finset

/-!
# The processors start

Whatever the order of their steps, with as many idle polls as there may be.
-/

namespace OsWorkbench.Am

open OsWorkbench.Library

section Progress

variable {ncpu p : Nat} {m after first final : Boot}

/-- A poll of `apboot_done` that finds nothing. -/
def idlePoll (p : Nat) (m : Boot) : Bool :=
  match m.places p with
  | .polling _ => m.apbootDone != 1
  | _ => false

/-- How many steps a processor can still take until `user_entry`. -/
def Place.rank (ncpu p : Nat) : Place → Nat
  | .waiting => 6
  | .loader => if p = 0 then 4 * ncpu else 5
  | .calling => 4
  | .loading => 4 * ncpu - 1
  | .entered bootstrap => if bootstrap then 3 else 4 * ncpu - 2
  | .announcing cpu => 4 * (ncpu - cpu) + 1
  | .pointing cpu => 4 * (ncpu - cpu)
  | .sending cpu => 4 * (ncpu - cpu) - 1
  | .polling cpu => 4 * (ncpu - cpu) - 2
  | .initialising => 2
  | .ready => 1
  | _ => 0

def Boot.rank (ncpu : Nat) (m : Boot) : Nat := ∑ p ∈ Finset.range ncpu, (m.places p).rank ncpu p

/-- Nobody has called `_halt`. -/
def Boot.calm (m : Boot) : Prop :=
  m.entry ≠ .thiscpuHalt ∧ ∀ p, m.places p ≠ .haltAnnouncing ∧ m.places p ≠ .haltPointing

theorem rank_move {place : Place} (inside : p < ncpu) (moved : after.places = (m.move p place).places)
    (less : place.rank ncpu p < (m.places p).rank ncpu p) : after.rank ncpu < m.rank ncpu := by
  apply Finset.sum_lt_sum
  · intro q _
    rw [moved]
    by_cases same : q = p
    · rw [same, move_here]
      exact less.le
    · rw [move_other same]
  · refine ⟨p, Finset.mem_range.mpr inside, ?_⟩
    rw [moved, move_here]
    exact less

/-- What a processor that is not stopped finds where it is. -/
def Place.finds (ncpu p : Nat) (m : Boot) : Place → Prop
  | .loader => if p = 0 then m.isAp ≠ 1 else m.isAp = 1
  | .calling => m.entry = .percpuEntry
  | .entered bootstrap => bootstrap = decide (p ≠ 0)
  | .pointing cpu => cpu < ncpu
  | .sending cpu => cpu < ncpu ∧ 1 ≤ cpu ∧ cpu ≠ p ∧ m.places cpu = .waiting
  | .polling cpu => cpu < ncpu
  | .haltAnnouncing | .haltPointing | .haltSending _ | .exiting | .stopped | .astray => False
  | _ => True

theorem Split.finds {cpu next : Nat} (split : Split m cpu next) (inside : p ≠ 0)
    (outside : p < cpu ∨ next ≤ p) : (m.places p).finds ncpu p m := by
  rcases outside with low | high
  · rcases split.before p (Nat.one_le_iff_ne_zero.mpr inside) low with here | here <;> rw [here] <;>
      trivial
  · rw [split.behind p high]
    trivial

theorem Phase.finds (phase : Phase ncpu m) (calm : m.calm) (inside : p < ncpu) :
    (m.places p).finds ncpu p m := by
  cases phase with
  | alone alone =>
      by_cases zero : p = 0
      · subst zero
        rcases alone.first with ⟨here, unset⟩ | here | here
        · rw [here]
          exact unset
        · rw [here]
          trivial
        · rw [here]
          rfl
      · rw [alone.others p zero]
        trivial
  | starting cpu starting =>
      have positive := starting.positive
      by_cases zero : p = 0
      · subst zero
        rcases starting.first with ⟨here, -⟩ | ⟨⟨here, -⟩ | ⟨here, -⟩, bound⟩
        · rw [here]
          trivial
        · rw [here]
          exact bound
        · rw [here]
          exact ⟨bound, positive, by omega, starting.split.behind cpu (le_refl cpu)⟩
      · exact starting.split.finds zero (Nat.lt_or_ge p cpu)
  | polling cpu polling =>
      have positive := polling.positive
      by_cases zero : p = 0
      · rw [zero, polling.first]
        exact polling.present
      · by_cases here : p = cpu
        · rw [here]
          rcases polling.this with ⟨-, booting⟩ | ⟨-, started | started⟩
          · cases place : m.places cpu with
            | loader =>
                show if cpu = 0 then m.isAp ≠ 1 else m.isAp = 1
                rw [if_neg (by omega)]
                exact polling.isAp
            | calling => exact polling.entry
            | entered bootstrap =>
                rw [place] at booting
                cases bootstrap with
                | false => exact absurd booting Bool.false_ne_true
                | true => exact (decide_eq_true (by omega : cpu ≠ 0)).symm
            | initialising => trivial
            | _ =>
                rw [place] at booting
                exact absurd booting Bool.false_ne_true
          · rw [started]
            trivial
          · rw [started]
            trivial
        · exact polling.split.finds zero (by omega)
  | up up =>
      have safe := up.safe p inside
      cases place : m.places p with
      | ready => trivial
      | running => trivial
      | haltAnnouncing => exact absurd place (calm.2 p).1
      | haltPointing => exact absurd place (calm.2 p).2
      | _ =>
          rw [place] at safe
          first
          | exact absurd safe id
          | exact absurd safe.2 calm.1

theorem calm_move {place : Place} (calm : m.calm) (one : place ≠ .haltAnnouncing)
    (two : place ≠ .haltPointing) : (m.move p place).calm := by
  refine ⟨calm.1, fun q => ?_⟩
  by_cases same : q = p
  · rw [same, move_here]
    exact ⟨one, two⟩
  · rw [move_other same]
    exact calm.2 q

theorem calm_step (calm : m.calm) (finds : (m.places p).finds ncpu p m)
    (stepped : processorStep ncpu p m = some after) : after.calm := by
  rw [processorStep] at stepped
  cases here : m.places p with
  | loader =>
      rw [here] at stepped
      obtain rfl := Option.some.inj stepped
      split <;> exact calm_move calm Place.noConfusion Place.noConfusion
  | calling =>
      rw [here] at stepped finds
      obtain rfl := Option.some.inj stepped
      rw [show m.entry = .percpuEntry from finds]
      exact calm_move calm Place.noConfusion Place.noConfusion
  | entered _ =>
      rw [here] at stepped
      obtain rfl := Option.some.inj stepped
      split <;> exact calm_move calm Place.noConfusion Place.noConfusion
  | announcing cpu =>
      rw [here] at stepped
      dsimp only at stepped
      split at stepped <;> obtain rfl := Option.some.inj stepped <;>
        exact calm_move calm Place.noConfusion Place.noConfusion
  | pointing cpu =>
      rw [here] at stepped
      obtain rfl := Option.some.inj stepped
      exact calm_move ⟨Code.noConfusion, calm.2⟩ Place.noConfusion Place.noConfusion
  | sending cpu =>
      rw [here] at stepped
      obtain rfl := Option.some.inj stepped
      exact calm_move (calm_move calm Place.noConfusion Place.noConfusion) Place.noConfusion
        Place.noConfusion
  | polling cpu =>
      rw [here] at stepped
      obtain rfl := Option.some.inj stepped
      split <;> exact calm_move calm Place.noConfusion Place.noConfusion
  | _ =>
      rw [here] at stepped finds
      first
      | exact absurd finds id
      | exact absurd stepped.symm (Option.some_ne_none after)
      | obtain rfl := Option.some.inj stepped
        exact calm_move calm Place.noConfusion Place.noConfusion

/-- Every step but an idle one brings its processor nearer to `user_entry`. -/
theorem step_falls (inside : p < ncpu) (finds : (m.places p).finds ncpu p m)
    (stepped : processorStep ncpu p m = some after) :
    (if idlePoll p m then 0 else 1) + after.rank ncpu ≤ m.rank ncpu := by
  have onward {place : Place} (moved : after.places = (m.move p place).places)
      (less : place.rank ncpu p < (m.places p).rank ncpu p) :
      (if idlePoll p m then 0 else 1) + after.rank ncpu ≤ m.rank ncpu := by
    have fell := rank_move inside moved less
    split <;> omega
  rw [processorStep] at stepped
  cases here : m.places p with
  | loader =>
      rw [here] at stepped finds
      obtain rfl := Option.some.inj stepped
      apply onward rfl
      rw [here]
      by_cases zero : p = 0
      · have unset : m.isAp ≠ 1 := (if_pos zero).mp finds
        rw [if_neg unset, Place.rank, Place.rank, if_pos zero]
        omega
      · have set : m.isAp = 1 := (if_neg zero).mp finds
        rw [if_pos set, Place.rank, Place.rank, if_neg zero]
        decide
  | calling =>
      rw [here] at stepped finds
      obtain rfl := Option.some.inj stepped
      apply onward rfl
      rw [here, show m.entry = .percpuEntry from finds]
      exact Nat.lt_succ_self 3
  | loading =>
      rw [here] at stepped
      obtain rfl := Option.some.inj stepped
      apply onward rfl
      rw [here, Place.rank, Place.rank, if_neg Bool.false_ne_true]
      omega
  | entered bootstrap =>
      rw [here] at stepped finds
      obtain rfl := Option.some.inj stepped
      apply onward rfl
      rw [here, show bootstrap = decide (p ≠ 0) from finds]
      by_cases zero : p = 0
      · rw [if_pos zero, decide_eq_false (not_not.mpr zero), Place.rank, Place.rank,
          if_neg Bool.false_ne_true]
        omega
      · rw [if_neg zero, decide_eq_true zero]
        exact Nat.lt_succ_self 2
  | announcing cpu =>
      rw [here] at stepped
      dsimp only at stepped
      by_cases more : cpu < ncpu
      · rw [if_pos more] at stepped
        obtain rfl := Option.some.inj stepped
        apply onward rfl
        rw [here]
        exact Nat.lt_succ_self _
      · rw [if_neg more] at stepped
        obtain rfl := Option.some.inj stepped
        apply onward rfl
        rw [here]
        exact Nat.succ_pos _
  | pointing cpu =>
      rw [here] at stepped finds
      obtain rfl := Option.some.inj stepped
      apply onward rfl
      rw [here, Place.rank, Place.rank]
      have bound : cpu < ncpu := finds
      omega
  | sending cpu =>
      rw [here] at stepped finds
      obtain rfl := Option.some.inj stepped
      obtain ⟨bound, positive, other, waiting⟩ := finds
      -- The processor that is started comes nearer too.
      have woken : (lapicBootap cpu m).rank ncpu < m.rank ncpu := by
        apply rank_move bound rfl
        rw [waiting, Place.rank, Place.rank, if_neg (by omega)]
        decide
      have still : (lapicBootap cpu m).places p = .sending cpu :=
        (move_other (Ne.symm other)).trans here
      have fell : ((lapicBootap cpu m).move p (.polling cpu)).rank ncpu <
          (lapicBootap cpu m).rank ncpu := by
        apply rank_move inside rfl
        rw [still, Place.rank, Place.rank]
        omega
      split <;> omega
  | polling cpu =>
      rw [here] at stepped finds
      obtain rfl := Option.some.inj stepped
      have bound : cpu < ncpu := finds
      by_cases one : m.apbootDone = 1
      · apply onward rfl
        rw [here, if_pos one, Place.rank, Place.rank]
        omega
      · have idle : idlePoll p m = true := by
          rw [idlePoll, here]
          exact bne_iff_ne.mpr one
        rw [idle, if_pos rfl, if_neg one, Nat.zero_add, Boot.rank, Boot.rank, Boot.move]
        dsimp only
        rw [← here, Function.update_eq_self]
  | initialising =>
      rw [here] at stepped
      obtain rfl := Option.some.inj stepped
      apply onward rfl
      rw [here]
      exact Nat.lt_succ_self 1
  | ready =>
      rw [here] at stepped
      obtain rfl := Option.some.inj stepped
      apply onward rfl
      rw [here]
      exact Nat.zero_lt_one
  | _ =>
      rw [here] at stepped finds
      first
      | exact absurd finds id
      | exact absurd stepped.symm (Option.some_ne_none after)

/-- While not all processors are in `user_entry`, one of them has something to do. -/
theorem Phase.goes (phase : Phase ncpu m) (calm : m.calm) (any : 0 < ncpu) :
    (∀ p < ncpu, m.places p = .running) ∨
      ∃ p < ncpu, idlePoll p m = false ∧ ∃ after, goStep ncpu p m = some after := by
  have goes {p : Nat} (inside : p < ncpu) (busy : idlePoll p m = false)
      (steps : (processorStep ncpu p m).isSome) : ∃ p < ncpu, idlePoll p m = false ∧
        ∃ after, goStep ncpu p m = some after := by
    refine ⟨p, inside, busy, ?_⟩
    rw [goStep, if_pos inside]
    exact Option.isSome_iff_exists.mp steps
  cases phase with
  | alone alone =>
      refine Or.inr (goes any ?_ ?_)
      · rcases alone.first with ⟨here, -⟩ | here | here <;> rw [idlePoll, here]
      · rcases alone.first with ⟨here, -⟩ | here | here <;> rw [processorStep, here] <;> rfl
  | starting cpu starting =>
      refine Or.inr (goes any ?_ ?_)
      · rcases starting.first with ⟨here, -⟩ | ⟨⟨here, -⟩ | ⟨here, -⟩, -⟩ <;> rw [idlePoll, here]
      · rcases starting.first with ⟨here, -⟩ | ⟨⟨here, -⟩ | ⟨here, -⟩, -⟩
        · rw [processorStep, here]
          dsimp only
          split <;> rfl
        · rw [processorStep, here]
          rfl
        · rw [processorStep, here]
          rfl
  | polling cpu polling =>
      rcases polling.this with ⟨-, booting⟩ | ⟨one, -⟩
      · refine Or.inr (goes polling.present ?_ ?_)
        · rw [idlePoll]
          cases here : m.places cpu with
          | polling _ =>
              rw [here] at booting
              exact absurd booting Bool.false_ne_true
          | _ => rfl
        · rw [processorStep]
          cases here : m.places cpu with
          | loader => rfl
          | calling => rfl
          | entered _ => rfl
          | initialising => rfl
          | _ =>
              rw [here] at booting
              exact absurd booting Bool.false_ne_true
      · refine Or.inr (goes any ?_ ?_)
        · rw [idlePoll, polling.first, one]
          rfl
        · rw [processorStep, polling.first]
          rfl
  | up up =>
      by_cases all : ∀ p < ncpu, m.places p = .running
      · exact Or.inl all
      · obtain ⟨p, rest⟩ := not_forall.mp all
        obtain ⟨inside, other⟩ := Classical.not_imp.mp rest
        have ready : m.places p = .ready := by
          have safe := up.safe p inside
          cases here : m.places p with
          | ready => rfl
          | running => exact absurd here other
          | haltAnnouncing => exact absurd here (calm.2 p).1
          | haltPointing => exact absurd here (calm.2 p).2
          | _ =>
              rw [here] at safe
              first
              | exact absurd safe id
              | exact absurd safe.2 calm.1
        refine Or.inr (goes inside ?_ ?_)
        · rw [idlePoll, ready]
        · rw [processorStep, ready]
          rfl

theorem powered_rank (powered : PoweredOn m) (any : 0 < ncpu) : m.rank ncpu = 10 * ncpu - 6 := by
  cases ncpu with
  | zero => exact absurd any (lt_irrefl 0)
  | succ rest =>
      have others : ∀ p ∈ Finset.range rest, (m.places (p + 1)).rank (rest + 1) (p + 1) = 6 := by
        intro p _
        rw [powered.others (p + 1) (Nat.succ_ne_zero p)]
        rfl
      rw [Boot.rank, Finset.sum_range_succ', Finset.sum_congr rfl others, powered.first, Place.rank,
        if_pos rfl, Finset.sum_const, Finset.card_range, Nat.nsmul_eq_mul]
      omega

theorem powered_calm (powered : PoweredOn m) : m.calm := by
  refine ⟨fun halt => Code.noConfusion (powered.entry.symm.trans halt), fun p => ?_⟩
  by_cases zero : p = 0
  · rw [zero, powered.first]
    exact ⟨Place.noConfusion, Place.noConfusion⟩
  · rw [powered.others p zero]
    exact ⟨Place.noConfusion, Place.noConfusion⟩

/-- However the processors are scheduled, all of them come to `user_entry` in `10 * ncpu - 6` steps
that are not idle polls, and until then one of them can take such a step. -/
theorem processors_arrive (any : 0 < ncpu) (schedule : List Nat) (powered : PoweredOn first)
    (ran : runSteps (goStep ncpu) schedule first = some final) :
    worked (goStep ncpu) idlePoll schedule first ≤ 10 * ncpu - 6 ∧
      ((∀ p < ncpu, final.places p = .running) ∨
        ∃ p < ncpu, idlePoll p final = false ∧ ∃ after, goStep ncpu p final = some after) := by
  have kept (p : Nat) (m after : Boot) (holds : Phase ncpu m ∧ m.calm)
      (stepped : goStep ncpu p m = some after) : (Phase ncpu after ∧ after.calm) ∧
        (if idlePoll p m then 0 else 1) + after.rank ncpu ≤ m.rank ncpu := by
    have phase := holds.1.go stepped
    rw [goStep] at stepped
    by_cases inside : p < ncpu
    · rw [if_pos inside] at stepped
      have finds := holds.1.finds holds.2 inside
      exact ⟨⟨phase, calm_step holds.2 finds stepped⟩, step_falls inside finds stepped⟩
    · rw [if_neg inside] at stepped
      exact absurd stepped.symm (Option.some_ne_none after)
  have begun : Phase ncpu first ∧ first.calm := ⟨powered.phase, powered_calm powered⟩
  have bound := worked_bounded (goStep ncpu) idlePoll kept begun ran
  have ended := run_preserves (goStep ncpu) (fun p m after holds stepped =>
    (kept p m after holds stepped).1) schedule first final begun ran
  rw [powered_rank powered any] at bound
  exact ⟨Nat.le_trans (Nat.le_add_right ..) bound, ended.1.goes ended.2 any⟩

theorem processors_arrive_two : worked (goStep 2) idlePoll bothStart switchedOn ≤ 10 * 2 - 6 ∧
    ∃ final, runSteps (goStep 2) bothStart switchedOn = some final ∧
      ((∀ p < 2, final.places p = .running) ∨
        ∃ p < 2, idlePoll p final = false ∧ ∃ after, goStep 2 p final = some after) :=
  have arrived := processors_arrive Nat.two_pos bothStart switched_on rfl
  ⟨arrived.1, _, rfl, arrived.2⟩

end Progress

end OsWorkbench.Am
