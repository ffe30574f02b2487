import OsWorkbench.Kernel.Spinlock
import OsWorkbench.Library.Exclusion
import Mathlib.Data.Finset.Card

/-!
# What spin locks and CPUs say about each other

For each place in the lock code: which locks the CPU holds, what their fields are, and what its
interrupt count is. A step of a CPU concerns that CPU and one lock.
-/

namespace OsWorkbench.Kernel

open OsWorkbench.Library

section Places

variable {C L : Type}

def AfterClose.lock : AfterClose L → L
  | .test l | .settle l => l

/-- The lock that the code is about. -/
def SpinPc.about : SpinPc L → Option L
  | .out => none
  | .closeRead next | .closeCli next _ | .closeIntena next _ | .closeNcli next => some next.lock
  | .lockTest l | .lockOwner l | .lockSpin l | .lockXchg l => some l
  | .lockReen l | .lockSetOwner l | .reenRead l | .reenWrite l _ => some l
  | .openNcli taken | .openTest taken | .openIntena taken | .openClear taken | .openSti taken =>
      taken
  | .unlockTest l | .unlockOwner l | .unlockRead l | .unlockWrite l _ => some l
  | .unlockClear l | .unlockXchg l => some l

def AfterClose.fresh : AfterClose L → Option L
  | .test _ => none
  | .settle l => some l

/-- The lock that was taken and does not name its owner yet, or no longer. -/
def SpinPc.unnamed : SpinPc L → Option L
  | .closeRead next | .closeCli next _ | .closeIntena next _ | .closeNcli next => next.fresh
  | .lockReen l | .lockSetOwner l | .unlockXchg l => some l
  | _ => none

/-- The lock of which an acquisition is under way or being undone. -/
def SpinPc.pending : SpinPc L → Option L
  | .openNcli taken | .openTest taken | .openIntena taken | .openClear taken | .openSti taken =>
      taken
  | .unlockTest l | .unlockOwner l | .unlockRead l | .unlockWrite l _ => some l
  | _ => none

/-- The lock is taken by the code itself, whatever was taken before. -/
def SpinPc.grips (pc : SpinPc L) (l : L) : Prop :=
  pc.unnamed = some l ∨ pc.pending = some l ∨ pc = .unlockClear l

def AfterClose.fits (next : AfterClose L) (taken : L → Nat) : Prop :=
  match next with
  | .test l => taken l + 1 < reenSize
  | .settle l => taken l = 0

/-- What the code knows about the acquisitions of its lock. -/
def SpinPc.fits (pc : SpinPc L) (taken : L → Nat) : Prop :=
  match pc with
  | .out => True
  | .closeRead next | .closeCli next _ | .closeIntena next _ | .closeNcli next => next.fits taken
  | .lockTest l | .lockOwner l | .lockSpin l | .lockXchg l => taken l + 1 < reenSize
  | .lockReen l | .lockSetOwner l => taken l = 0
  | .reenRead l => 0 < taken l ∧ taken l + 1 < reenSize
  | .reenWrite l reen => 0 < taken l ∧ taken l + 1 < reenSize ∧ reen = taken l + 1
  | .openNcli done | .openTest done | .openIntena done | .openClear done | .openSti done =>
      ∀ l, done = some l → taken l + 1 < reenSize
  | .unlockTest l | .unlockOwner l | .unlockRead l => taken l + 1 < reenSize
  | .unlockWrite l reen => taken l + 1 < reenSize ∧ reen = taken l
  | .unlockClear l | .unlockXchg l => taken l = 0

/-- What a CPU and a lock say about each other. -/
structure SpinRel (c : C) (cpu : SpinCpu L) (l : L) (lock : SpinLock C) (holding : Prop) : Prop where
  has : holding ↔ 0 < cpu.taken l ∨ cpu.pc.grips l
  owner : lock.owner = some c ↔ holding ∧ cpu.pc.unnamed ≠ some l
  reen : lock.owner = some c → cpu.pc.pending ≠ some l → lock.reen = cpu.taken l
  more : lock.owner = some c → cpu.pc.pending = some l → lock.reen = cpu.taken l + 1
  settled : cpu.pc = .lockSetOwner l → lock.reen = 1
  small : cpu.taken l < reenSize

/-- Interrupts are closed, and will be opened again. -/
def SpinCpu.Secured (cpu : SpinCpu L) : Prop := cpu.interrupts = false ∧ cpu.intena = true

/-- The interrupt flag of a CPU that started with interrupts open. -/
def SpinCpu.Calm (cpu : SpinCpu L) : Prop :=
  match cpu.pc with
  | .closeCli _ intOn =>
      (cpu.ncli = 0 → cpu.interrupts = true ∧ intOn = true) ∧ (cpu.ncli ≠ 0 → cpu.Secured)
  | .closeIntena _ intOn => cpu.interrupts = false ∧ (intOn = true ∨ cpu.intena = true)
  | .closeNcli _ => cpu.Secured
  | .lockTest _ | .lockOwner _ | .lockSpin _ | .lockXchg _ | .lockReen _ | .lockSetOwner _ =>
      cpu.Secured
  | .reenRead _ | .reenWrite _ _ | .openNcli _ | .openTest _ => cpu.Secured
  | .openIntena _ | .openClear _ => cpu.Secured ∧ cpu.ncli = 0
  | .openSti _ => cpu.ncli = 0
  | .out | .closeRead _ | .unlockTest _ | .unlockOwner _ | .unlockRead _ | .unlockWrite _ _
  | .unlockClear _ | .unlockXchg _ =>
      (cpu.ncli = 0 → cpu.interrupts = true) ∧ (cpu.ncli ≠ 0 → cpu.Secured)

/-- `_intr_close` was called once more than there are locks. -/
def SpinPc.closed : SpinPc L → Nat
  | .lockTest _ | .lockOwner _ | .lockSpin _ | .lockXchg _ | .lockReen _ | .lockSetOwner _ => 1
  | .reenRead _ | .reenWrite _ _ | .openNcli _ => 1
  | _ => 0

/-- A CPU that holds `count` locks. -/
structure SpinLocal (started : Bool) (cpu : SpinCpu L) (count : Nat) : Prop where
  ncli : cpu.ncli = count + cpu.pc.closed
  calm : started = true → cpu.Calm
  fits : cpu.pc.fits cpu.taken

/-- `grip` has the locks that each CPU holds. -/
structure SpinSound (started : C → Bool) (grip : C → Finset L) (m : SpinMachine C L) : Prop where
  locks : Exclusive (fun l => (m.locks l).locked = true) (fun c l => l ∈ grip c)
  rel : ∀ c l, SpinRel c (m.cpus c) l (m.locks l) (l ∈ grip c)
  cpu : ∀ c, SpinLocal (started c) (m.cpus c) (grip c).card

variable {started : C → Bool} {grip : C → Finset L} {m : SpinMachine C L} {c : C} {l : L}

theorem SpinPc.unnamed_about {pc : SpinPc L} (unnamed : pc.unnamed = some l) :
    pc.about = some l := by
  cases pc with
  | closeRead next => cases next <;> simp_all [SpinPc.unnamed, SpinPc.about, AfterClose.fresh, AfterClose.lock]
  | closeCli next intOn => cases next <;> simp_all [SpinPc.unnamed, SpinPc.about, AfterClose.fresh, AfterClose.lock]
  | closeIntena next intOn => cases next <;> simp_all [SpinPc.unnamed, SpinPc.about, AfterClose.fresh, AfterClose.lock]
  | closeNcli next => cases next <;> simp_all [SpinPc.unnamed, SpinPc.about, AfterClose.fresh, AfterClose.lock]
  | _ => simp_all [SpinPc.unnamed, SpinPc.about]

theorem SpinPc.pending_about {pc : SpinPc L} (pending : pc.pending = some l) :
    pc.about = some l := by
  cases pc <;> simp_all [SpinPc.pending, SpinPc.about]

theorem SpinPc.grips_about {pc : SpinPc L} (grips : pc.grips l) : pc.about = some l := by
  rcases grips with unnamed | pending | clearing
  · exact SpinPc.unnamed_about unnamed
  · exact SpinPc.pending_about pending
  · rw [clearing]
    rfl

/-- A lock that the code is not about. -/
theorem SpinRel.elsewhere {cpu cpu' : SpinCpu L} {lock : SpinLock C} {holding : Prop}
    (rel : SpinRel c cpu l lock holding) (before : cpu.pc.about ≠ some l)
    (after : cpu'.pc.about ≠ some l) (taken : cpu'.taken l = cpu.taken l) :
    SpinRel c cpu' l lock holding := by
  have grips : ¬cpu.pc.grips l := fun grips => before (SpinPc.grips_about grips)
  have grips' : ¬cpu'.pc.grips l := fun grips => after (SpinPc.grips_about grips)
  have unnamed : cpu.pc.unnamed ≠ some l := fun known => before (SpinPc.unnamed_about known)
  have unnamed' : cpu'.pc.unnamed ≠ some l := fun known => after (SpinPc.unnamed_about known)
  have pending : cpu.pc.pending ≠ some l := fun known => before (SpinPc.pending_about known)
  have pending' : cpu'.pc.pending ≠ some l := fun known => after (SpinPc.pending_about known)
  constructor
  · rw [taken, rel.has]
    simp only [grips, grips']
  · rw [rel.owner]
    simp only [ne_eq, unnamed, unnamed']
  · intro owner _
    rw [taken]
    exact rel.reen owner pending
  · exact fun _ known => absurd known pending'
  · intro place
    rw [place] at after
    exact absurd rfl after
  · rw [taken]
    exact rel.small

/-- The code goes on without a change in what it says about locks. -/
theorem SpinRel.goes_on {cpu cpu' : SpinCpu L} {lock : SpinLock C} {holding : Prop}
    (rel : SpinRel c cpu l lock holding) (taken : cpu'.taken = cpu.taken)
    (unnamed : cpu'.pc.unnamed = cpu.pc.unnamed) (pending : cpu'.pc.pending = cpu.pc.pending)
    (clearing : cpu'.pc = .unlockClear l ↔ cpu.pc = .unlockClear l)
    (settling : cpu'.pc ≠ .lockSetOwner l) : SpinRel c cpu' l lock holding where
  has := by
    unfold SpinPc.grips
    rw [taken, unnamed, pending, clearing]
    exact rel.has
  owner := by
    rw [unnamed]
    exact rel.owner
  reen := by
    rw [taken, pending]
    exact rel.reen
  more := by
    rw [taken, pending]
    exact rel.more
  settled := fun place => absurd place settling
  small := by
    rw [taken]
    exact rel.small

/-- A CPU that does not hold a lock does not mind what its holder does with it. -/
theorem SpinRel.foreign {cpu : SpinCpu L} {lock lock' : SpinLock C} {holding : Prop}
    (rel : SpinRel c cpu l lock holding) (free : ¬holding) (owner : lock'.owner ≠ some c) :
    SpinRel c cpu l lock' holding where
  has := rel.has
  owner := by simp [free, owner]
  reen := fun known => absurd known owner
  more := fun known => absurd known owner
  settled := by
    intro place
    have grips : cpu.pc.grips l := by
      left
      rw [place]
      rfl
    exact absurd (rel.has.mpr (Or.inr grips)) free
  small := rel.small

/-- The code has not taken the lock yet, and looks for it. -/
def SpinPc.Walks (pc : SpinPc L) (l : L) : Prop :=
  pc = .lockTest l ∨ pc = .lockOwner l ∨ pc = .lockSpin l ∨ pc = .lockXchg l

theorem SpinPc.Walks.stage {pc : SpinPc L} (walks : pc.Walks l) :
    pc.unnamed = none ∧ pc.pending = none ∧ pc.closed = 1 ∧ ∀ other, pc ≠ .unlockClear other := by
  rcases walks with rfl | rfl | rfl | rfl <;> simp [SpinPc.unnamed, SpinPc.pending, SpinPc.closed]

variable [DecidableEq C]

/-- What a CPU says, with the place in the code that it is at. -/
theorem SpinLocal.at_place {begun : Bool} {cpu : SpinCpu L} {count : Nat} {pc : SpinPc L}
    (here : SpinLocal begun cpu count) (place : cpu.pc = pc) : SpinLocal begun (cpu.goto pc) count := by
  subst place
  exact here

/-- A step that changes only the CPU that makes it. -/
theorem SpinSound.cpu_step (sound : SpinSound started grip m) {cpu' : SpinCpu L}
    (rel : ∀ l, SpinRel c cpu' l (m.locks l) (l ∈ grip c))
    (here : SpinLocal (started c) cpu' (grip c).card) :
    SpinSound started grip ⟨Function.update m.cpus c cpu', m.locks⟩ where
  locks := sound.locks
  rel := by
    intro d l
    change SpinRel d (Function.update m.cpus c cpu' d) l (m.locks l) (l ∈ grip d)
    by_cases same : d = c
    · rw [same, Function.update_self]
      exact rel l
    · rw [Function.update_of_ne same]
      exact sound.rel d l
  cpu := by
    intro d
    change SpinLocal (started d) (Function.update m.cpus c cpu' d) (grip d).card
    by_cases same : d = c
    · rw [same, Function.update_self]
      exact here
    · rw [Function.update_of_ne same]
      exact sound.cpu d

/-- The code goes on without a change in what it says about locks. -/
theorem SpinSound.goes_on (sound : SpinSound started grip m) {cpu' : SpinCpu L}
    (taken : cpu'.taken = (m.cpus c).taken) (unnamed : cpu'.pc.unnamed = (m.cpus c).pc.unnamed)
    (pending : cpu'.pc.pending = (m.cpus c).pc.pending)
    (clearing : ∀ l, cpu'.pc = .unlockClear l ↔ (m.cpus c).pc = .unlockClear l)
    (settling : ∀ l, cpu'.pc ≠ .lockSetOwner l)
    (here : SpinLocal (started c) cpu' (grip c).card) :
    SpinSound started grip ⟨Function.update m.cpus c cpu', m.locks⟩ := by
  apply sound.cpu_step
  · intro l
    exact (sound.rel c l).goes_on taken unnamed pending (clearing l) (settling l)
  · exact here

/-- The code goes on from a place, to one that is neither of the two at which a field is written. -/
theorem SpinSound.moves (sound : SpinSound started grip m) {pc : SpinPc L} {cpu' : SpinCpu L}
    (place : (m.cpus c).pc = pc) (taken : cpu'.taken = (m.cpus c).taken)
    (unnamed : cpu'.pc.unnamed = pc.unnamed) (pending : cpu'.pc.pending = pc.pending)
    (plain : ∀ l, pc ≠ .unlockClear l ∧ cpu'.pc ≠ .unlockClear l ∧ cpu'.pc ≠ .lockSetOwner l)
    (here : SpinLocal (started c) cpu' (grip c).card) :
    SpinSound started grip ⟨Function.update m.cpus c cpu', m.locks⟩ := by
  subst place
  refine sound.goes_on taken unnamed pending (fun l => ?_) (fun l => (plain l).2.2) here
  exact iff_of_false (plain l).2.1 (plain l).1

variable [DecidableEq L]

/-- A step on the lock that the code is about. -/
theorem SpinSound.lock_step (sound : SpinSound started grip m) {cpu' : SpinCpu L}
    {lock' : SpinLock C} {after : Finset L}
    (before : ∀ other, other ≠ l → (m.cpus c).pc.about ≠ some other)
    (about : ∀ other, other ≠ l → cpu'.pc.about ≠ some other)
    (taken : cpu'.taken = (m.cpus c).taken)
    (others : ∀ other, other ≠ l → (other ∈ after ↔ other ∈ grip c))
    (rel : SpinRel c cpu' l lock' (l ∈ after))
    (mine : l ∈ grip c ∨ (m.locks l).locked = false)
    (locked : l ∈ after → lock'.locked = true)
    (owner : ∀ d, d ≠ c → lock'.owner = some d → (m.locks l).owner = some d)
    (here : SpinLocal (started c) cpu' after.card) :
    SpinSound started (Function.update grip c after)
      ⟨Function.update m.cpus c cpu', Function.update m.locks l lock'⟩ := by
  -- nobody else holds the lock
  have alone : ∀ d, d ≠ c → l ∉ grip d := by
    intro d other held
    rcases mine with own | free
    · exact other (sound.locks.unique d c l held own)
    · have known := sound.locks.locked d l held
      rw [free] at known
      cases known
  constructor
  · apply sound.locks.evolve
    · intro d place held
      change (Function.update m.locks l lock' place).locked = true
      by_cases here : place = l
      · rw [here, Function.update_self]
        by_cases same : d = c
        · rw [here, same, Function.update_self] at held
          exact locked held
        · rw [here, Function.update_of_ne same] at held
          exact absurd held (alone d same)
      · rw [Function.update_of_ne here]
        by_cases same : d = c
        · rw [same, Function.update_self] at held
          exact sound.locks.locked c place ((others place here).mp held)
        · rw [Function.update_of_ne same] at held
          exact sound.locks.locked d place held
    · intro d place held
      by_cases same : d = c
      · rw [same] at held ⊢
        rw [Function.update_self] at held
        by_cases here : place = l
        · rw [here]
          rcases mine with own | free
          · exact Or.inl own
          · right
            constructor
            · rw [free]
              simp
            · intro other also
              by_contra differs
              rw [Function.update_of_ne differs] at also
              exact alone other differs also
        · exact Or.inl ((others place here).mp held)
      · rw [Function.update_of_ne same] at held
        exact Or.inl held
  · intro d place
    change SpinRel d (Function.update m.cpus c cpu' d) place (Function.update m.locks l lock' place)
      (place ∈ Function.update grip c after d)
    by_cases same : d = c
    · rw [same, Function.update_self, Function.update_self]
      by_cases here : place = l
      · rw [here, Function.update_self]
        exact rel
      · rw [Function.update_of_ne here, others place here]
        exact (sound.rel c place).elsewhere (before place here) (about place here)
          (congrFun taken place)
    · rw [Function.update_of_ne same, Function.update_of_ne same]
      by_cases here : place = l
      · rw [here, Function.update_self]
        have known := sound.rel d l
        apply known.foreign (alone d same)
        intro named
        exact alone d same (known.owner.mp (owner d same named)).1
      · rw [Function.update_of_ne here]
        exact sound.rel d place
  · intro d
    change SpinLocal (started d) (Function.update m.cpus c cpu' d)
      (Function.update grip c after d).card
    by_cases same : d = c
    · rw [same, Function.update_self, Function.update_self]
      exact here
    · rw [Function.update_of_ne same, Function.update_of_ne same]
      exact sound.cpu d

end Places

end OsWorkbench.Kernel
