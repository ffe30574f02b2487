import OsWorkbench.Kernel.SpinPlaces

/-!
# The accesses of the lock code

Each access keeps what the places of the lock code say.
-/

namespace OsWorkbench.Kernel

open OsWorkbench.Library

section Calls

variable {C L : Type} [DecidableEq C] {started : C → Bool} {grip : C → Finset L}
  {m : SpinMachine C L} {c : C} {l : L}

theorem walk_sound (sound : SpinSound started grip m) {pc : SpinPc L}
    (walks : (m.cpus c).pc.Walks l)
    (next : pc.Walks l ∨ pc = .reenRead l ∧ 0 < (m.cpus c).taken l) :
    SpinSound started grip ⟨Function.update m.cpus c ((m.cpus c).goto pc), m.locks⟩ := by
  have here := sound.cpu c
  have stage := walks.stage
  have bound : (m.cpus c).taken l + 1 < reenSize := by
    have fits := here.fits
    rcases walks with place | place | place | place <;>
      · rw [place] at fits
        exact fits
  have secured : started c = true → (m.cpus c).Secured := by
    intro open'
    have calm := here.calm open'
    unfold SpinCpu.Calm at calm
    rcases walks with place | place | place | place <;>
      · rw [place] at calm
        exact calm
  have after : pc.unnamed = none ∧ pc.pending = none ∧ pc.closed = 1 ∧
      (∀ other, pc ≠ .unlockClear other) ∧ ∀ other, pc ≠ .lockSetOwner other := by
    rcases next with walks | ⟨rfl, -⟩
    · rcases walks with rfl | rfl | rfl | rfl <;>
        simp [SpinPc.unnamed, SpinPc.pending, SpinPc.closed]
    · simp [SpinPc.unnamed, SpinPc.pending, SpinPc.closed]
  apply sound.goes_on
  · rfl
  · exact after.1.trans stage.1.symm
  · exact after.2.1.trans stage.2.1.symm
  · intro other
    exact ⟨fun place => absurd place (after.2.2.2.1 other), fun place => absurd place (stage.2.2.2 other)⟩
  · exact after.2.2.2.2
  · constructor
    · have ncli := here.ncli
      rw [stage.2.2.1] at ncli
      change (m.cpus c).ncli = _ + (pc.closed : Int)
      rw [after.2.2.1]
      exact ncli
    · intro open'
      unfold SpinCpu.Calm
      rcases next with (rfl | rfl | rfl | rfl) | ⟨rfl, -⟩ <;> exact secured open'
    · rcases next with (rfl | rfl | rfl | rfl) | ⟨rfl, taken⟩
      · exact bound
      · exact bound
      · exact bound
      · exact bound
      · exact ⟨taken, bound⟩

theorem lock_call_sound (sound : SpinSound started grip m) (place : (m.cpus c).pc = .out)
    (bound : (m.cpus c).taken l + 1 < reenSize) :
    SpinSound started grip
      ⟨Function.update m.cpus c ((m.cpus c).goto (.closeRead (.test l))), m.locks⟩ := by
  have here := (sound.cpu c).at_place place
  exact sound.moves place rfl rfl rfl (by simp [SpinCpu.goto]) ⟨here.ncli, here.calm, bound⟩

end Calls

section Steps

variable {C L : Type} [DecidableEq C] [DecidableEq L] {started : C → Bool} {grip : C → Finset L}
  {m : SpinMachine C L} {c : C} {l : L}

/-- `_intr_close`. -/
theorem close_sound (sound : SpinSound started grip m) {next : AfterClose L} {cpu' : SpinCpu L}
    {locks : L → SpinLock C}
    (place : (m.cpus c).pc = .closeRead next ∨ (∃ on, (m.cpus c).pc = .closeCli next on) ∨
      (∃ on, (m.cpus c).pc = .closeIntena next on) ∨ (m.cpus c).pc = .closeNcli next)
    (went : spinGo c (m.cpus c) m.locks = some (cpu', locks)) :
    SpinSound started grip ⟨Function.update m.cpus c cpu', locks⟩ := by
  rcases place with place | ⟨on, place⟩ | ⟨on, place⟩ | place
  · have here := (sound.cpu c).at_place place
    simp only [spinGo, place] at went
    cases went
    refine sound.moves place rfl rfl rfl (by simp [SpinCpu.goto]) ⟨here.ncli, ?_, here.fits⟩
    intro open'
    have before := here.calm open'
    exact ⟨fun zero => ⟨before.1 zero, before.1 zero⟩, before.2⟩
  · have here := (sound.cpu c).at_place place
    simp only [spinGo, place] at went
    cases went
    refine sound.moves place rfl rfl rfl (by simp) ⟨here.ncli, ?_, here.fits⟩
    intro open'
    have before := here.calm open'
    constructor
    · rfl
    · by_cases zero : (m.cpus c).ncli = 0
      · exact Or.inl (before.1 zero).2
      · exact Or.inr (before.2 zero).2
  · have here := (sound.cpu c).at_place place
    simp only [spinGo, place] at went
    split at went
    next => cases went
    next =>
      cases went
      refine sound.moves place rfl rfl rfl (by simp) ⟨here.ncli, ?_, here.fits⟩
      intro open'
      have before := here.calm open'
      constructor
      · exact before.1
      · simp only [Bool.or_eq_true]
        exact before.2.symm
  · have here := (sound.cpu c).at_place place
    have ncli := here.ncli
    simp only [spinGo, place] at went
    cases went
    cases next with
    | test l =>
        refine sound.moves place rfl rfl rfl (by simp [AfterClose.pc]) ⟨?_, here.calm, here.fits⟩
        simp only [SpinPc.closed, AfterClose.pc, SpinCpu.goto] at ncli ⊢
        omega
    | settle l =>
        refine sound.moves place rfl rfl rfl (by simp [AfterClose.pc]) ⟨?_, here.calm, here.fits⟩
        simp only [SpinPc.closed, AfterClose.pc, SpinCpu.goto] at ncli ⊢
        omega

/-- `atomic_xchg` finds the lock free. -/
theorem xchg_sound (sound : SpinSound started grip m) (place : (m.cpus c).pc = .lockXchg l)
    (free : (m.locks l).locked = false) :
    SpinSound started (Function.update grip c (insert l (grip c)))
      ⟨Function.update m.cpus c ((m.cpus c).goto (.closeRead (.settle l))),
        Function.update m.locks l { m.locks l with locked := true }⟩ := by
  have here := (sound.cpu c).at_place place
  have rel := sound.rel c l
  have absent : l ∉ grip c := by
    intro held
    have locked := sound.locks.locked c l held
    rw [free] at locked
    cases locked
  have untaken : (m.cpus c).taken l = 0 := by
    by_contra some
    exact absent (rel.has.mpr (Or.inl (Nat.pos_of_ne_zero some)))
  have ncli := here.ncli
  simp only [SpinPc.closed, SpinCpu.goto] at ncli
  apply sound.lock_step
  · intro other differs
    rw [place]
    simpa [SpinPc.about] using Ne.symm differs
  · intro other differs
    simpa [SpinCpu.goto, SpinPc.about, AfterClose.lock] using Ne.symm differs
  · rfl
  · intro other differs
    simp [differs]
  · constructor
    · simp [SpinPc.grips, SpinCpu.goto, SpinPc.unnamed, AfterClose.fresh]
    · constructor
      · intro named
        exact absurd (rel.owner.mp named).1 absent
      · intro unnamed
        exact absurd rfl unnamed.2
    · intro named
      exact absurd (rel.owner.mp named).1 absent
    · intro named
      exact absurd (rel.owner.mp named).1 absent
    · simp [SpinCpu.goto]
    · exact rel.small
  · exact Or.inr free
  · exact fun _ => rfl
  · exact fun _ _ named => named
  · constructor
    · rw [Finset.card_insert_of_notMem absent]
      simp only [SpinCpu.goto, SpinPc.closed]
      push_cast
      omega
    · intro open'
      constructor
      · intro zero
        change (m.cpus c).ncli = 0 at zero
        omega
      · exact fun _ => here.calm open'
    · exact untaken

/-- The CPU changes fields of a lock that it holds, and goes on holding it. -/
theorem SpinSound.edit (sound : SpinSound started grip m) {cpu' : SpinCpu L} {lock' : SpinLock C}
    (before : (m.cpus c).pc.about = some l)
    (about : ∀ other, other ≠ l → cpu'.pc.about ≠ some other)
    (taken : cpu'.taken = (m.cpus c).taken) (mine : l ∈ grip c)
    (locked : lock'.locked = (m.locks l).locked)
    (owner : lock'.owner = (m.locks l).owner ∨ lock'.owner = some c ∨ lock'.owner = none)
    (rel : SpinRel c cpu' l lock' True)
    (here : SpinLocal (started c) cpu' (grip c).card) :
    SpinSound started grip
      ⟨Function.update m.cpus c cpu', Function.update m.locks l lock'⟩ := by
  have stepped : SpinSound started (Function.update grip c (grip c))
      ⟨Function.update m.cpus c cpu', Function.update m.locks l lock'⟩ := by
    apply sound.lock_step
    · intro other differs
      rw [before]
      simpa using Ne.symm differs
    · exact about
    · exact taken
    · exact fun _ _ => Iff.rfl
    · simp only [mine]
      exact rel
    · exact Or.inl mine
    · intro _
      rw [locked]
      exact sound.locks.locked c l mine
    · intro d differs named
      rcases owner with same | own | none
      · rw [← same]
        exact named
      · rw [own] at named
        exact absurd (Option.some.inj named).symm differs
      · rw [none] at named
        cases named
    · exact here
  rwa [Function.update_eq_self] at stepped

theorem settle_sound (sound : SpinSound started grip m) {cpu' : SpinCpu L}
    {locks : L → SpinLock C}
    (place : (m.cpus c).pc = .lockReen l ∨ (m.cpus c).pc = .lockSetOwner l)
    (went : spinGo c (m.cpus c) m.locks = some (cpu', locks)) :
    SpinSound started grip ⟨Function.update m.cpus c cpu', locks⟩ := by
  have rel := sound.rel c l
  have mine : l ∈ grip c := by
    apply rel.has.mpr
    right
    left
    rcases place with place | place <;>
      · rw [place]
        rfl
  rcases place with place | place
  · have here := (sound.cpu c).at_place place
    simp only [spinGo, place] at went
    cases went
    apply sound.edit
    · rw [place]
      rfl
    · intro other differs
      simpa [SpinCpu.goto, SpinPc.about] using Ne.symm differs
    · rfl
    · exact mine
    · rfl
    · exact Or.inl rfl
    · have unnamed : (m.locks l).owner ≠ some c := by
        intro named
        have known := (rel.owner.mp named).2
        rw [place] at known
        exact known rfl
      constructor
      · simp [SpinPc.grips, SpinCpu.goto, SpinPc.unnamed]
      · simp [unnamed, SpinCpu.goto, SpinPc.unnamed]
      · exact fun named => absurd named unnamed
      · exact fun named => absurd named unnamed
      · exact fun _ => rfl
      · exact rel.small
    · exact ⟨here.ncli, here.calm, here.fits⟩
  · have here := (sound.cpu c).at_place place
    simp only [spinGo, place] at went
    cases went
    have untaken : (m.cpus c).taken l = 0 := here.fits
    apply sound.edit
    · rw [place]
      rfl
    · intro other differs
      simpa [SpinCpu.goto, SpinPc.about] using Ne.symm differs
    · rfl
    · exact mine
    · rfl
    · exact Or.inr (Or.inl rfl)
    · constructor
      · simp [SpinPc.grips, SpinCpu.goto, SpinPc.pending]
      · simp [SpinCpu.goto, SpinPc.unnamed]
      · intro _ other
        exact absurd rfl other
      · intro _ _
        change (m.locks l).reen = (m.cpus c).taken l + 1
        rw [rel.settled place, untaken]
      · simp [SpinCpu.goto]
      · exact rel.small
    · refine ⟨here.ncli, here.calm, ?_⟩
      intro other same
      cases same
      change (m.cpus c).taken l + 1 < reenSize
      rw [untaken]
      decide

theorem reen_sound (sound : SpinSound started grip m) {cpu' : SpinCpu L}
    {locks : L → SpinLock C}
    (place : (m.cpus c).pc = .reenRead l ∨ ∃ reen, (m.cpus c).pc = .reenWrite l reen)
    (went : spinGo c (m.cpus c) m.locks = some (cpu', locks)) :
    SpinSound started grip ⟨Function.update m.cpus c cpu', locks⟩ := by
  have rel := sound.rel c l
  rcases place with place | ⟨reen, place⟩
  · have here := (sound.cpu c).at_place place
    have fits := here.fits
    simp only [spinGo, place] at went
    cases went
    have mine : l ∈ grip c := rel.has.mpr (Or.inl fits.1)
    have named : (m.locks l).owner = some c := by
      apply rel.owner.mpr
      rw [place]
      exact ⟨mine, by simp [SpinPc.unnamed]⟩
    have count := rel.reen named (by simp [place, SpinPc.pending])
    refine sound.moves place rfl rfl rfl (by simp [SpinCpu.goto])
      ⟨here.ncli, here.calm, fits.1, fits.2, ?_⟩
    change ((m.locks l).reen + 1) % reenSize = (m.cpus c).taken l + 1
    rw [count]
    exact Nat.mod_eq_of_lt fits.2
  · have here := (sound.cpu c).at_place place
    have fits := here.fits
    simp only [spinGo, place] at went
    cases went
    have mine : l ∈ grip c := rel.has.mpr (Or.inl fits.1)
    have named : (m.locks l).owner = some c := by
      apply rel.owner.mpr
      rw [place]
      exact ⟨mine, by simp [SpinPc.unnamed]⟩
    apply sound.edit
    · rw [place]
      rfl
    · intro other differs
      simpa [SpinCpu.goto, SpinPc.about] using Ne.symm differs
    · rfl
    · exact mine
    · rfl
    · exact Or.inl rfl
    · constructor
      · simp [SpinPc.grips, SpinCpu.goto, SpinPc.pending]
      · simp [SpinCpu.goto, SpinPc.unnamed, named]
      · intro _ other
        exact absurd rfl other
      · exact fun _ _ => fits.2.2
      · simp [SpinCpu.goto]
      · exact rel.small
    · refine ⟨here.ncli, here.calm, ?_⟩
      intro other same
      cases same
      exact fits.2.1

/-- A call returns; the acquisition that was under way counts from now on. -/
theorem finish_sound (sound : SpinSound started grip m) {taken : Option L}
    (place : (m.cpus c).pc = .openTest taken ∨ (m.cpus c).pc = .openIntena taken ∨
      (m.cpus c).pc = .openSti taken) {interrupts : Bool}
    (calm : started c = true → ((m.cpus c).ncli = 0 → interrupts = true) ∧
      ((m.cpus c).ncli ≠ 0 → interrupts = false ∧ (m.cpus c).intena = true)) :
    SpinSound started grip
      ⟨Function.update m.cpus c ({ m.cpus c with interrupts := interrupts }.finish taken),
        m.locks⟩ := by
  have here := sound.cpu c
  have stage : (m.cpus c).pc.unnamed = none ∧ (m.cpus c).pc.pending = taken ∧
      (m.cpus c).pc.about = taken ∧ (m.cpus c).pc.closed = 0 ∧
        ∀ other, (m.cpus c).pc ≠ .unlockClear other := by
    rcases place with place | place | place <;>
      simp [place, SpinPc.unnamed, SpinPc.pending, SpinPc.about, SpinPc.closed]
  have fits : ∀ l, taken = some l → (m.cpus c).taken l + 1 < reenSize := by
    have fits := here.fits
    rcases place with place | place | place <;>
      · rw [place] at fits
        exact fits
  have returned : ({ m.cpus c with interrupts := interrupts }.finish taken).pc = .out := by
    cases taken <;> rfl
  apply sound.cpu_step
  · intro l
    have rel := sound.rel c l
    by_cases mine : taken = some l
    · have held : l ∈ grip c := by
        apply rel.has.mpr
        right
        right
        left
        rw [stage.2.1]
        exact mine
      have count : ({ m.cpus c with interrupts := interrupts }.finish taken).taken l =
          (m.cpus c).taken l + 1 := by
        rw [mine]
        exact Function.update_self _ _ _
      constructor
      · rw [count]
        simp [held]
      · rw [rel.owner, stage.1, returned]
        simp [SpinPc.unnamed]
      · intro named _
        rw [count]
        exact rel.more named (stage.2.1.trans mine)
      · rw [returned]
        simp [SpinPc.pending]
      · rw [returned]
        simp
      · rw [count]
        exact fits l mine
    · apply rel.elsewhere
      · rw [stage.2.2.1]
        exact mine
      · rw [returned]
        simp [SpinPc.about]
      · cases taken with
        | none => rfl
        | some other =>
            have differs : l ≠ other := by
              intro same
              rw [same] at mine
              exact mine rfl
            exact Function.update_of_ne differs _ _
  · have same : ({ m.cpus c with interrupts := interrupts }.finish taken).ncli = (m.cpus c).ncli ∧
        ({ m.cpus c with interrupts := interrupts }.finish taken).interrupts = interrupts ∧
          ({ m.cpus c with interrupts := interrupts }.finish taken).intena =
            (m.cpus c).intena := by
      cases taken <;> exact ⟨rfl, rfl, rfl⟩
    constructor
    · have ncli := here.ncli
      rw [stage.2.2.2.1] at ncli
      rw [same.1, returned]
      exact ncli
    · intro open'
      unfold SpinCpu.Calm SpinCpu.Secured
      rw [returned, same.1, same.2.1, same.2.2]
      exact calm open'
    · rw [returned]
      trivial

/-- `_intr_open`. -/
theorem open_sound (sound : SpinSound started grip m) {taken : Option L} {cpu' : SpinCpu L}
    {locks : L → SpinLock C}
    (place : (m.cpus c).pc = .openNcli taken ∨ (m.cpus c).pc = .openTest taken ∨
      (m.cpus c).pc = .openIntena taken ∨ (m.cpus c).pc = .openClear taken ∨
        (m.cpus c).pc = .openSti taken)
    (went : spinGo c (m.cpus c) m.locks = some (cpu', locks)) :
    SpinSound started grip ⟨Function.update m.cpus c cpu', locks⟩ := by
  rcases place with place | place | place | place | place
  · have here := (sound.cpu c).at_place place
    have ncli := here.ncli
    simp only [spinGo, place] at went
    cases went
    refine sound.moves place rfl rfl rfl (by simp) ⟨?_, here.calm, here.fits⟩
    simp only [SpinPc.closed, SpinCpu.goto] at ncli ⊢
    omega
  · have here := (sound.cpu c).at_place place
    have calm : started c = true → (m.cpus c).Secured := here.calm
    simp only [spinGo, place] at went
    split at went
    next zero =>
      cases went
      exact sound.moves place rfl rfl rfl (by simp [SpinCpu.goto])
        ⟨here.ncli, fun open' => ⟨calm open', zero⟩, here.fits⟩
    next nonzero =>
      split at went
      next => cases went
      next =>
        cases went
        apply finish_sound sound (Or.inl place)
        intro open'
        exact ⟨fun zero => absurd zero nonzero, fun _ => calm open'⟩
  · have here := (sound.cpu c).at_place place
    have calm : started c = true → (m.cpus c).Secured ∧ (m.cpus c).ncli = 0 := here.calm
    simp only [spinGo, place] at went
    split at went
    next =>
      cases went
      exact sound.moves place rfl rfl rfl (by simp [SpinCpu.goto]) ⟨here.ncli, calm, here.fits⟩
    next clear =>
      cases went
      apply finish_sound sound (Or.inr (Or.inl place))
      intro open'
      exact absurd (calm open').1.2 clear
  · have here := (sound.cpu c).at_place place
    have calm : started c = true → (m.cpus c).ncli = 0 := fun open' => (here.calm open').2
    simp only [spinGo, place] at went
    cases went
    exact sound.moves place rfl rfl rfl (by simp) ⟨here.ncli, calm, here.fits⟩
  · have calm : started c = true → (m.cpus c).ncli = 0 := ((sound.cpu c).at_place place).calm
    simp only [spinGo, place] at went
    cases went
    apply finish_sound sound (Or.inr (Or.inr place))
    intro open'
    exact ⟨fun _ => rfl, fun nonzero => absurd (calm open') nonzero⟩

theorem unlock_sound (sound : SpinSound started grip m) {cpu' : SpinCpu L} {locks : L → SpinLock C}
    (place : (m.cpus c).pc = .unlockTest l ∨ (m.cpus c).pc = .unlockOwner l ∨
      (m.cpus c).pc = .unlockRead l)
    (went : spinGo c (m.cpus c) m.locks = some (cpu', locks)) :
    SpinSound started grip ⟨Function.update m.cpus c cpu', locks⟩ := by
  have rel := sound.rel c l
  have stage : (m.cpus c).pc.unnamed = none ∧ (m.cpus c).pc.pending = some l := by
    rcases place with place | place | place <;> simp [place, SpinPc.unnamed, SpinPc.pending]
  have named : (m.locks l).owner = some c := by
    apply rel.owner.mpr
    rw [stage.1]
    exact ⟨rel.has.mpr (Or.inr (Or.inr (Or.inl stage.2))), by simp⟩
  rcases place with place | place | place
  · have here := (sound.cpu c).at_place place
    simp only [spinGo, place] at went
    split at went
    next =>
      cases went
      exact sound.moves place rfl rfl rfl (by simp [SpinCpu.goto]) ⟨here.ncli, here.calm, here.fits⟩
    next => cases went
  · have here := (sound.cpu c).at_place place
    simp only [spinGo, place, if_pos named] at went
    cases went
    exact sound.moves place rfl rfl rfl (by simp [SpinCpu.goto]) ⟨here.ncli, here.calm, here.fits⟩
  · have here := (sound.cpu c).at_place place
    simp only [spinGo, place] at went
    cases went
    have count := rel.more named stage.2
    refine sound.moves place rfl rfl rfl (by simp [SpinCpu.goto]) ⟨here.ncli, here.calm, here.fits, ?_⟩
    change ((m.locks l).reen + (reenSize - 1)) % reenSize = (m.cpus c).taken l
    rw [count]
    have small := rel.small
    unfold reenSize at *
    omega

theorem unlock_write_sound (sound : SpinSound started grip m) {reen : Nat}
    (place : (m.cpus c).pc = .unlockWrite l reen) :
    SpinSound started grip
      ⟨Function.update m.cpus c ((m.cpus c).goto (if reen = 0 then .unlockClear l else .out)),
        Function.update m.locks l { m.locks l with reen := reen }⟩ := by
  have here := (sound.cpu c).at_place place
  have rel := sound.rel c l
  have mine : l ∈ grip c := by
    apply rel.has.mpr
    right
    right
    left
    rw [place]
    rfl
  have named : (m.locks l).owner = some c := by
    apply rel.owner.mpr
    rw [place]
    exact ⟨mine, by simp [SpinPc.unnamed]⟩
  apply sound.edit
  · rw [place]
    rfl
  · intro other differs
    change (if reen = 0 then SpinPc.unlockClear l else .out).about ≠ some other
    split
    · simpa [SpinPc.about] using Ne.symm differs
    · simp [SpinPc.about]
  · rfl
  · exact mine
  · rfl
  · exact Or.inl rfl
  · constructor
    · rw [true_iff]
      by_cases zero : reen = 0
      · right
        right
        right
        simp [SpinCpu.goto, zero]
      · left
        have count : reen = (m.cpus c).taken l := here.fits.2
        change 0 < (m.cpus c).taken l
        omega
    · simp only [SpinCpu.goto, named, true_and, true_iff]
      split <;> simp [SpinPc.unnamed]
    · exact fun _ _ => here.fits.2
    · simp only [SpinCpu.goto]
      split <;> simp [SpinPc.pending]
    · simp only [SpinCpu.goto]
      split <;> simp
    · exact rel.small
  · constructor
    · simp only [SpinCpu.goto]
      split <;> exact here.ncli
    · intro open'
      by_cases zero : reen = 0
      · rw [if_pos zero]
        exact here.calm open'
      · rw [if_neg zero]
        exact here.calm open'
    · change (if reen = 0 then SpinPc.unlockClear l else .out).fits _
      split
      next zero => exact here.fits.2.symm.trans zero
      next => trivial

theorem unlock_clear_sound (sound : SpinSound started grip m)
    (place : (m.cpus c).pc = .unlockClear l) :
    SpinSound started grip
      ⟨Function.update m.cpus c ((m.cpus c).goto (.unlockXchg l)),
        Function.update m.locks l { m.locks l with owner := none }⟩ := by
  have here := (sound.cpu c).at_place place
  have rel := sound.rel c l
  have mine : l ∈ grip c := rel.has.mpr (Or.inr (Or.inr (Or.inr place)))
  apply sound.edit
  · rw [place]
    rfl
  · intro other differs
    simpa [SpinCpu.goto, SpinPc.about] using Ne.symm differs
  · rfl
  · exact mine
  · rfl
  · exact Or.inr (Or.inr rfl)
  · constructor
    · simp [SpinPc.grips, SpinCpu.goto, SpinPc.unnamed]
    · simp [SpinCpu.goto, SpinPc.unnamed]
    · intro named
      cases named
    · intro named
      cases named
    · simp [SpinCpu.goto]
    · exact rel.small
  · exact ⟨here.ncli, here.calm, here.fits⟩

/-- `atomic_xchg` gives the lock up. -/
theorem unlock_xchg_sound (sound : SpinSound started grip m)
    (place : (m.cpus c).pc = .unlockXchg l) :
    SpinSound started (Function.update grip c ((grip c).erase l))
      ⟨Function.update m.cpus c ((m.cpus c).goto (.openNcli none)),
        Function.update m.locks l { m.locks l with locked := false }⟩ := by
  have here := (sound.cpu c).at_place place
  have rel := sound.rel c l
  have ncli := here.ncli
  have untaken : (m.cpus c).taken l = 0 := here.fits
  have mine : l ∈ grip c := by
    apply rel.has.mpr
    right
    left
    rw [place]
    rfl
  have unnamed : (m.locks l).owner ≠ some c := by
    intro named
    have known := (rel.owner.mp named).2
    rw [place] at known
    exact known rfl
  have several : (grip c).card = ((grip c).erase l).card + 1 := (Finset.card_erase_add_one mine).symm
  have opening : ∀ other, ((m.cpus c).goto (.openNcli none)).pc.about ≠ some other := by
    simp [SpinCpu.goto, SpinPc.about]
  simp only [SpinPc.closed, SpinCpu.goto] at ncli
  apply sound.lock_step
  · intro other differs
    rw [place]
    simpa [SpinPc.about] using Ne.symm differs
  · exact fun other _ => opening other
  · rfl
  · intro other differs
    simp [differs]
  · constructor
    · simp [SpinPc.grips, SpinCpu.goto, SpinPc.unnamed, SpinPc.pending, untaken]
    · simp [unnamed]
    · exact fun named => absurd named unnamed
    · exact fun named => absurd named unnamed
    · simp [SpinCpu.goto]
    · exact rel.small
  · exact Or.inl mine
  · simp
  · exact fun _ _ named => named
  · constructor
    · simp only [SpinCpu.goto, SpinPc.closed]
      push_cast
      omega
    · intro open'
      apply (here.calm open').2
      change (m.cpus c).ncli ≠ 0
      omega
    · intro other same
      cases same

theorem walk_step_sound (sound : SpinSound started grip m) {cpu' : SpinCpu L}
    {locks : L → SpinLock C} (walks : (m.cpus c).pc.Walks l)
    (went : spinGo c (m.cpus c) m.locks = some (cpu', locks)) :
    ∃ after, SpinSound started after ⟨Function.update m.cpus c cpu', locks⟩ := by
  rcases walks with place | place | place | place
  · have walks : (m.cpus c).pc.Walks l := Or.inl place
    simp only [spinGo, place] at went
    cases went
    refine ⟨grip, walk_sound sound walks (Or.inl ?_)⟩
    split
    · exact Or.inr (Or.inl rfl)
    · exact Or.inr (Or.inr (Or.inr rfl))
  · have walks : (m.cpus c).pc.Walks l := Or.inr (Or.inl place)
    simp only [spinGo, place] at went
    cases went
    refine ⟨grip, walk_sound sound walks ?_⟩
    split
    next named =>
      have rel := sound.rel c l
      have mine := (rel.owner.mp named).1
      right
      constructor
      · rfl
      · rcases rel.has.mp mine with taken | grips
        · exact taken
        · rw [place] at grips
          simp [SpinPc.grips, SpinPc.unnamed, SpinPc.pending] at grips
    next => exact Or.inl (Or.inr (Or.inr (Or.inl rfl)))
  · have walks : (m.cpus c).pc.Walks l := Or.inr (Or.inr (Or.inl place))
    simp only [spinGo, place] at went
    cases went
    refine ⟨grip, walk_sound sound walks (Or.inl ?_)⟩
    split
    · exact Or.inr (Or.inr (Or.inl rfl))
    · exact Or.inr (Or.inr (Or.inr rfl))
  · simp only [spinGo, place] at went
    split at went
    next =>
      cases went
      rw [Function.update_eq_self]
      exact ⟨grip, sound⟩
    next free =>
      cases went
      exact ⟨_, xchg_sound sound place (Bool.not_eq_true _ ▸ free)⟩

/-- One access of one CPU. -/
theorem go_sound (sound : SpinSound started grip m) {cpu' : SpinCpu L} {locks : L → SpinLock C}
    (went : spinGo c (m.cpus c) m.locks = some (cpu', locks)) :
    ∃ after, SpinSound started after ⟨Function.update m.cpus c cpu', locks⟩ := by
  cases place : (m.cpus c).pc with
  | out => simp [spinGo, place] at went
  | closeRead next => exact ⟨grip, close_sound sound (Or.inl place) went⟩
  | closeCli next on => exact ⟨grip, close_sound sound (Or.inr (Or.inl ⟨on, place⟩)) went⟩
  | closeIntena next on =>
      exact ⟨grip, close_sound sound (Or.inr (Or.inr (Or.inl ⟨on, place⟩))) went⟩
  | closeNcli next => exact ⟨grip, close_sound sound (Or.inr (Or.inr (Or.inr place))) went⟩
  | lockTest l => exact walk_step_sound sound (Or.inl place) went
  | lockOwner l => exact walk_step_sound sound (Or.inr (Or.inl place)) went
  | lockSpin l => exact walk_step_sound sound (Or.inr (Or.inr (Or.inl place))) went
  | lockXchg l => exact walk_step_sound sound (Or.inr (Or.inr (Or.inr place))) went
  | lockReen l => exact ⟨grip, settle_sound sound (Or.inl place) went⟩
  | lockSetOwner l => exact ⟨grip, settle_sound sound (Or.inr place) went⟩
  | reenRead l => exact ⟨grip, reen_sound sound (Or.inl place) went⟩
  | reenWrite l reen => exact ⟨grip, reen_sound sound (Or.inr ⟨reen, place⟩) went⟩
  | openNcli taken => exact ⟨grip, open_sound sound (Or.inl place) went⟩
  | openTest taken => exact ⟨grip, open_sound sound (Or.inr (Or.inl place)) went⟩
  | openIntena taken => exact ⟨grip, open_sound sound (Or.inr (Or.inr (Or.inl place))) went⟩
  | openClear taken =>
      exact ⟨grip, open_sound sound (Or.inr (Or.inr (Or.inr (Or.inl place)))) went⟩
  | openSti taken =>
      exact ⟨grip, open_sound sound (Or.inr (Or.inr (Or.inr (Or.inr place)))) went⟩
  | unlockTest l => exact ⟨grip, unlock_sound sound (Or.inl place) went⟩
  | unlockOwner l => exact ⟨grip, unlock_sound sound (Or.inr (Or.inl place)) went⟩
  | unlockRead l => exact ⟨grip, unlock_sound sound (Or.inr (Or.inr place)) went⟩
  | unlockWrite l reen =>
      simp only [spinGo, place] at went
      cases went
      exact ⟨grip, unlock_write_sound sound place⟩
  | unlockClear l =>
      simp only [spinGo, place] at went
      cases went
      exact ⟨grip, unlock_clear_sound sound place⟩
  | unlockXchg l =>
      simp only [spinGo, place] at went
      cases went
      exact ⟨_, unlock_xchg_sound sound place⟩

theorem unlock_call_sound (sound : SpinSound started grip m) (place : (m.cpus c).pc = .out)
    (taken : 0 < (m.cpus c).taken l) :
    SpinSound started grip
      ⟨Function.update m.cpus c { m.cpus c with
        pc := .unlockTest l
        taken := Function.update (m.cpus c).taken l ((m.cpus c).taken l - 1) }, m.locks⟩ := by
  have here := (sound.cpu c).at_place place
  apply sound.cpu_step
  · intro other
    have rel := sound.rel c other
    by_cases same : other = l
    · rw [same] at rel ⊢
      have small := rel.small
      have named : (m.locks l).owner = some c ↔ l ∈ grip c := by
        rw [rel.owner, place]
        simp [SpinPc.unnamed]
      constructor
      · simp [SpinPc.grips, SpinPc.pending, rel.has.mpr (Or.inl taken)]
      · rw [named]
        simp [SpinPc.unnamed]
      · intro _ other
        exact absurd rfl other
      · intro owner _
        have count := rel.reen owner (by simp [place, SpinPc.pending])
        change _ = Function.update (m.cpus c).taken l ((m.cpus c).taken l - 1) l + 1
        rw [Function.update_self]
        omega
      · simp
      · change Function.update (m.cpus c).taken l ((m.cpus c).taken l - 1) l < reenSize
        rw [Function.update_self]
        omega
    · apply rel.elsewhere
      · rw [place]
        simp [SpinPc.about]
      · simpa [SpinPc.about] using Ne.symm same
      · exact Function.update_of_ne same _ _
  · refine ⟨here.ncli, here.calm, ?_⟩
    change Function.update (m.cpus c).taken l ((m.cpus c).taken l - 1) l + 1 < reenSize
    have small := (sound.rel c l).small
    rw [Function.update_self]
    omega

end Steps

end OsWorkbench.Kernel
