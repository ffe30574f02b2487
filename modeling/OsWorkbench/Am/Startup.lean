import OsWorkbench.Library.Runs
import Mathlib.Logic.Function.Basic

/-!
# Starting and stopping the processors

The first processor starts the others one after the other: it writes the boot record, sends a startup
message and polls `apboot_done`. A processor that gets the message runs the boot loader, on the one
stack that all processors boot on, and finds in the record that the kernel has been loaded. `_halt`
sends the same message to all others with another record.
-/

namespace OsWorkbench.Am

open OsWorkbench.Library

section Source

/-- What `bootrec->entry` points to. -/
inductive Code
  | percpuEntry
  | thiscpuHalt
  | other
  deriving DecidableEq

/-- What a processor is about to do. -/
inductive Place
  | waiting
  /-- `bootmain`, which is to read `is_ap`. -/
  | loader
  /-- `boot->entry()`. -/
  | calling
  /-- The rest of `bootmain`, `_start`, `main` and `_mpe_init` up to `jump_to`. -/
  | loading
  /-- `percpu_entry`, on the stack of the boot loader or on its own. -/
  | entered (bootstrap : Bool)
  /-- The head of the loop in `percpu_entry`. -/
  | announcing (cpu : Nat)
  | pointing (cpu : Nat)
  | sending (cpu : Nat)
  | polling (cpu : Nat)
  /-- `ap_entry`. -/
  | initialising
  | ready
  /-- `user_entry`. -/
  | running
  /-- `othercpu_halt`. -/
  | haltAnnouncing
  | haltPointing
  | haltSending (cpu : Nat)
  /-- The rest of `_halt`: the message, and `thiscpu_halt`. -/
  | exiting
  /-- `thiscpu_halt`, called by the boot loader. -/
  | stopped
  /-- Some code that is not of the kernel, called by the boot loader. -/
  | astray
  deriving DecidableEq

/-- What the processors share, and where they are. -/
structure Boot where
  isAp : UInt32
  entry : Code
  apbootDone : UInt32
  places : Nat → Place

def Boot.move (m : Boot) (p : Nat) (place : Place) : Boot :=
  { m with places := Function.update m.places p place }

/-- The processor is reset, whatever it does. It is assumed to begin at 0x7c00, the address that
`lapic_bootap` is called with, though the startup message carries the page 7. -/
def lapicBootap (cpu : Nat) (m : Boot) : Boot := m.move cpu .loader

/-- What the boot loader calls. -/
def Code.place : Code → Place
  | .percpuEntry => .entered true
  | .thiscpuHalt => .stopped
  | .other => .astray

/-- The next access of processor `p` of `ncpu` to what is shared. -/
def processorStep (ncpu p : Nat) (m : Boot) : Option Boot :=
  match m.places p with
  | .loader => some (m.move p (if m.isAp = 1 then .calling else .loading))
  | .calling => some (m.move p m.entry.place)
  | .loading => some (m.move p (.entered false))
  | .entered _ => some (m.move p (if p = 0 then .announcing 1 else .initialising))
  | .announcing cpu =>
      if cpu < ncpu then some ({ m with isAp := 1 }.move p (.pointing cpu))
      else some (m.move p .running)
  | .pointing cpu => some ({ m with entry := .percpuEntry }.move p (.sending cpu))
  | .sending cpu => some ((lapicBootap cpu m).move p (.polling cpu))
  | .polling cpu =>
      some ({ m with apbootDone := 0 }.move p
        (if m.apbootDone = 1 then .announcing (cpu + 1) else .polling cpu))
  | .initialising => some ({ m with apbootDone := 1 }.move p .ready)
  | .ready => some (m.move p .running)
  | .haltAnnouncing => some ({ m with isAp := 1 }.move p .haltPointing)
  | .haltPointing => some ({ m with entry := .thiscpuHalt }.move p (.haltSending 0))
  | .haltSending cpu =>
      if cpu < ncpu then
        some ((if cpu ≠ p then lapicBootap cpu m else m).move p (.haltSending (cpu + 1)))
      else some (m.move p .exiting)
  | .waiting | .running | .exiting | .stopped | .astray => none

def goStep (ncpu p : Nat) (m : Boot) : Option Boot :=
  if p < ncpu then processorStep ncpu p m else none

inductive BootAct
  | go (p : Nat)
  /-- The kernel calls `_halt`. -/
  | halt (p : Nat)

def bootStep (ncpu : Nat) : BootAct → Boot → Option Boot
  | .go p, m => goStep ncpu p m
  | .halt p, m =>
      if p < ncpu ∧ m.places p = .running then some (m.move p .haltAnnouncing) else none

/-- In the loop of `percpu_entry`. -/
def Place.starting : Place → Bool
  | .announcing _ | .pointing _ | .sending _ | .polling _ => true
  | _ => false

/-- The kernel does not call `_halt` while the first processor still starts others. -/
def calledLate : BootAct → Boot → Prop
  | .go _, _ => True
  | .halt _, m => (m.places 0).starting = false

/-- The machine is switched on: there is no boot record yet. -/
structure PoweredOn (m : Boot) : Prop where
  first : m.places 0 = .loader
  others : ∀ p, p ≠ 0 → m.places p = .waiting
  isAp : m.isAp ≠ 1
  entry : m.entry = .other
  done : m.apbootDone = 0

end Source

section Places

/-- On the stack below 0x7000. -/
def Place.bootstrap : Place → Bool
  | .loader | .calling | .loading | .entered true | .stopped | .astray => true
  | _ => false

/-- On the way to `thiscpu_halt`, where the boot record leads there. -/
def Place.leaving : Place → Bool
  | .loader | .calling | .stopped => true
  | _ => false

/-- Behind `ap_entry`. -/
def Place.initialised : Place → Bool
  | .ready | .running | .haltAnnouncing | .haltPointing | .haltSending _ | .exiting => true
  | _ => false

/-- Up to which processor `othercpu_halt` has got. -/
def Place.reach (ncpu : Nat) : Place → Nat
  | .haltSending cpu => cpu
  | .exiting => ncpu
  | _ => 0

/-- What a processor finds in the boot record, once all have been started. -/
def Place.safe (m : Boot) : Place → Prop
  | .ready | .running | .haltAnnouncing => True
  | .haltPointing => m.isAp = 1
  | .haltSending _ | .exiting | .loader | .calling | .stopped =>
      m.isAp = 1 ∧ m.entry = .thiscpuHalt
  | _ => False

end Places

section Phases

/-- The first processor alone. -/
structure Alone (m : Boot) : Prop where
  first : m.places 0 = .loader ∧ m.isAp ≠ 1 ∨ m.places 0 = .loading ∨ m.places 0 = .entered false
  others : ∀ p, p ≠ 0 → m.places p = .waiting
  done : m.apbootDone = 0

/-- The processors before `cpu` have been started, those from `next` on have not. -/
structure Split (m : Boot) (cpu next : Nat) : Prop where
  before : ∀ p, 1 ≤ p → p < cpu → m.places p = .ready ∨ m.places p = .running
  behind : ∀ p, next ≤ p → m.places p = .waiting

/-- The processor `cpu` is to be started. -/
structure Starting (ncpu : Nat) (m : Boot) (cpu : Nat) : Prop where
  first : m.places 0 = .announcing cpu ∧ cpu ≤ ncpu ∨
    (m.places 0 = .pointing cpu ∧ m.isAp = 1 ∨
      m.places 0 = .sending cpu ∧ m.isAp = 1 ∧ m.entry = .percpuEntry) ∧ cpu < ncpu
  positive : 1 ≤ cpu
  split : Split m cpu cpu
  done : m.apbootDone = 0

/-- Between its startup message and `apboot_done`. -/
def Place.booting : Place → Bool
  | .loader | .calling | .entered true | .initialising => true
  | _ => false

/-- The processor `cpu` starts. -/
structure Polling (ncpu : Nat) (m : Boot) (cpu : Nat) : Prop where
  first : m.places 0 = .polling cpu
  positive : 1 ≤ cpu
  present : cpu < ncpu
  split : Split m cpu (cpu + 1)
  isAp : m.isAp = 1
  entry : m.entry = .percpuEntry
  this : m.apbootDone = 0 ∧ (m.places cpu).booting ∨
    m.apbootDone = 1 ∧ (m.places cpu = .ready ∨ m.places cpu = .running)

/-- All processors have been started. -/
structure Up (ncpu : Nat) (m : Boot) : Prop where
  safe : ∀ p < ncpu, (m.places p).safe m
  halted : ∀ p < ncpu, ∀ q < ncpu, q < (m.places p).reach ncpu → q ≠ p → (m.places q).leaving

inductive Phase (ncpu : Nat) (m : Boot) : Prop
  | alone (alone : Alone m)
  | starting (cpu : Nat) (starting : Starting ncpu m cpu)
  | polling (cpu : Nat) (polling : Polling ncpu m cpu)
  | up (up : Up ncpu m)

end Phases

section Steps

variable {ncpu p cpu next : Nat} {m after : Boot} {place : Place}

@[simp] theorem move_here : (m.move p place).places p = place := Function.update_self ..

theorem move_other {q : Nat} (other : q ≠ p) : (m.move p place).places q = m.places q :=
  Function.update_of_ne other ..

@[simp] theorem move_is_ap : (m.move p place).isAp = m.isAp := rfl

@[simp] theorem move_entry : (m.move p place).entry = m.entry := rfl

@[simp] theorem move_done : (m.move p place).apbootDone = m.apbootDone := rfl

/-- The others do not notice what the first processor does, nor does a processor outside. -/
theorem Split.frame (split : Split m cpu next)
    (same : ∀ q, 1 ≤ q → q < cpu ∨ next ≤ q → after.places q = m.places q) (positive : 1 ≤ next) :
    Split after cpu next where
  before q low high := by
    rw [same q low (Or.inl high)]
    exact split.before q low high
  behind q low := by
    rw [same q (Nat.le_trans positive low) (Or.inr low)]
    exact split.behind q low

/-- A processor that has been started goes on to `user_entry`. -/
theorem Split.step (split : Split m cpu next) (inside : p ≠ 0) (order : cpu ≤ next)
    (outside : p < cpu ∨ next ≤ p) (stepped : processorStep ncpu p m = some after) :
    after = m.move p .running ∧ p < cpu ∧ Split after cpu next := by
  rcases outside with low | high
  · rcases split.before p (Nat.one_le_iff_ne_zero.mpr inside) low with ready | running
    · rw [processorStep, ready] at stepped
      obtain rfl := Option.some.inj stepped
      refine ⟨rfl, low, ?_, ?_⟩
      · intro q first last
        by_cases here : q = p
        · rw [here, move_here]
          exact Or.inr rfl
        · rw [move_other here]
          exact split.before q first last
      · intro q high
        rw [move_other (by omega)]
        exact split.behind q high
    · rw [processorStep, running] at stepped
      exact absurd stepped.symm (Option.some_ne_none after)
  · rw [processorStep, split.behind p high] at stepped
    exact absurd stepped.symm (Option.some_ne_none after)

theorem Alone.step (alone : Alone m) (any : 0 < ncpu)
    (stepped : processorStep ncpu p m = some after) : Phase ncpu after := by
  by_cases zero : p = 0
  · subst zero
    rcases alone.first with ⟨loader, unset⟩ | loading | entered
    · rw [processorStep, loader] at stepped
      dsimp only at stepped
      rw [if_neg unset] at stepped
      obtain rfl := Option.some.inj stepped
      refine .alone ⟨Or.inr (Or.inl move_here), fun q other => ?_, alone.done⟩
      rw [move_other other]
      exact alone.others q other
    · rw [processorStep, loading] at stepped
      obtain rfl := Option.some.inj stepped
      refine .alone ⟨Or.inr (Or.inr move_here), fun q other => ?_, alone.done⟩
      rw [move_other other]
      exact alone.others q other
    · rw [processorStep, entered] at stepped
      obtain rfl := Option.some.inj stepped
      refine .starting 1 ⟨Or.inl ⟨move_here, any⟩, Nat.le_refl 1, ⟨fun q low high => by omega, ?_⟩,
        alone.done⟩
      intro q low
      rw [move_other (by omega)]
      exact alone.others q (by omega)
  · rw [processorStep, alone.others p zero] at stepped
    exact absurd stepped.symm (Option.some_ne_none after)

theorem Starting.step (starting : Starting ncpu m cpu)
    (stepped : processorStep ncpu p m = some after) : Phase ncpu after := by
  have positive := starting.positive
  by_cases zero : p = 0
  · subst zero
    rcases starting.first with
      ⟨announcing, bound⟩ | ⟨⟨pointing, isAp⟩ | ⟨sending, isAp, entry⟩, bound⟩
    · rw [processorStep, announcing] at stepped
      dsimp only at stepped
      by_cases more : cpu < ncpu
      · rw [if_pos more] at stepped
        obtain rfl := Option.some.inj stepped
        refine .starting cpu ⟨Or.inr ⟨Or.inl ⟨move_here, rfl⟩, more⟩, positive, ?_, starting.done⟩
        exact starting.split.frame (fun q low _ => move_other (by omega)) positive
      · rw [if_neg more] at stepped
        obtain rfl := Option.some.inj stepped
        have run (q : Nat) (inside : q < ncpu) : (m.move 0 .running).places q = .ready ∨
            (m.move 0 .running).places q = .running := by
          by_cases zero : q = 0
          · rw [zero]
            exact Or.inr move_here
          · rw [move_other zero]
            exact starting.split.before q (by omega) (by omega)
        refine .up ⟨fun q inside => ?_, fun q inside r _ far => ?_⟩
        · rcases run q inside with here | here <;> rw [here] <;> trivial
        · rcases run q inside with here | here <;> rw [here] at far <;>
            exact absurd far (Nat.not_lt_zero r)
    · rw [processorStep, pointing] at stepped
      obtain rfl := Option.some.inj stepped
      refine .starting cpu ⟨Or.inr ⟨Or.inr ⟨move_here, isAp, rfl⟩, bound⟩, positive, ?_,
        starting.done⟩
      exact starting.split.frame (fun q low _ => move_other (by omega)) positive
    · rw [processorStep, sending] at stepped
      obtain rfl := Option.some.inj stepped
      have other : cpu ≠ 0 := by omega
      refine .polling cpu ⟨move_here, positive, bound, ⟨fun q low high => ?_, fun q low => ?_⟩, isAp,
        entry, Or.inl ⟨starting.done, ?_⟩⟩
      · rw [move_other (by omega), lapicBootap, move_other (by omega)]
        exact starting.split.before q low high
      · rw [move_other (by omega), lapicBootap, move_other (by omega)]
        exact starting.split.behind q (by omega)
      · rw [move_other other, lapicBootap, move_here]
        rfl
  · obtain ⟨rfl, -, split⟩ :=
      starting.split.step zero (Nat.le_refl cpu) (Nat.lt_or_ge p cpu) stepped
    refine .starting cpu ⟨?_, positive, split, starting.done⟩
    rw [move_other (Ne.symm zero)]
    exact starting.first

/-- The processor that starts. -/
theorem Polling.booting (polling : Polling ncpu m cpu) (booting : (m.places cpu).booting)
    (zero : m.apbootDone = 0) (stepped : processorStep ncpu cpu m = some after) :
    Polling ncpu after cpu := by
  have positive := polling.positive
  have other : cpu ≠ 0 := by omega
  have split (m' : Boot) (place : Place) (same : m'.places = m.places) :
      Split (m'.move cpu place) cpu (cpu + 1) := by
    apply polling.split.frame
    · intro q _ outside
      rw [move_other (by omega), same]
    · exact Nat.le_add_left 1 cpu
  have first (m' : Boot) (place : Place) (same : m'.places = m.places) :
      (m'.move cpu place).places 0 = .polling cpu := by
    rw [move_other (Ne.symm other), same]
    exact polling.first
  rw [processorStep] at stepped
  cases here : m.places cpu with
  | loader =>
      rw [here] at stepped
      dsimp only at stepped
      rw [if_pos polling.isAp] at stepped
      obtain rfl := Option.some.inj stepped
      exact ⟨first m _ rfl, positive, polling.present, split m _ rfl, polling.isAp, polling.entry,
        Or.inl ⟨zero, by rw [move_here]; rfl⟩⟩
  | calling =>
      rw [here] at stepped
      dsimp only at stepped
      rw [polling.entry] at stepped
      obtain rfl := Option.some.inj stepped
      exact ⟨first m _ rfl, positive, polling.present, split m _ rfl, polling.isAp, polling.entry,
        Or.inl ⟨zero, by rw [move_here]; rfl⟩⟩
  | entered bootstrap =>
      rw [here] at stepped
      dsimp only at stepped
      rw [if_neg other] at stepped
      obtain rfl := Option.some.inj stepped
      exact ⟨first m _ rfl, positive, polling.present, split m _ rfl, polling.isAp, polling.entry,
        Or.inl ⟨zero, by rw [move_here]; rfl⟩⟩
  | initialising =>
      rw [here] at stepped
      obtain rfl := Option.some.inj stepped
      exact ⟨first _ _ rfl, positive, polling.present, split _ _ rfl, polling.isAp, polling.entry,
        Or.inr ⟨rfl, Or.inl move_here⟩⟩
  | _ =>
      rw [here] at booting
      exact absurd booting Bool.false_ne_true

theorem Polling.step (polling : Polling ncpu m cpu)
    (stepped : processorStep ncpu p m = some after) : Phase ncpu after := by
  have positive := polling.positive
  by_cases zero : p = 0
  · subst zero
    rw [processorStep, polling.first] at stepped
    obtain rfl := Option.some.inj stepped
    rcases polling.this with ⟨none, booting⟩ | ⟨one, started⟩
    · have same : ({ m with apbootDone := 0 } : Boot).move 0
          (if m.apbootDone = 1 then .announcing (cpu + 1) else .polling cpu) = m := by
        rw [if_neg (by rw [none]; decide), Boot.move, ← polling.first, Function.update_eq_self,
          ← none]
      rw [same]
      exact .polling cpu polling
    · rw [if_pos one]
      refine .starting (cpu + 1) ⟨Or.inl ⟨move_here, polling.present⟩, Nat.le_add_left 1 cpu,
        ⟨fun q low high => ?_, fun q low => ?_⟩, rfl⟩
      · rw [move_other (by omega)]
        rcases Nat.lt_succ_iff_lt_or_eq.mp high with less | rfl
        · exact polling.split.before q low less
        · exact started
      · rw [move_other (by omega)]
        exact polling.split.behind q low
  · by_cases here : p = cpu
    · subst here
      rcases polling.this with ⟨none, booting⟩ | ⟨one, ready | running⟩
      · exact .polling p (polling.booting booting none stepped)
      · rw [processorStep, ready] at stepped
        obtain rfl := Option.some.inj stepped
        refine .polling p ⟨?_, positive, polling.present, ?_, polling.isAp, polling.entry,
          Or.inr ⟨one, Or.inr move_here⟩⟩
        · rw [move_other (Ne.symm zero)]
          exact polling.first
        · apply polling.split.frame
          · exact fun q _ outside => move_other (by omega)
          · exact Nat.le_add_left 1 p
      · rw [processorStep, running] at stepped
        exact absurd stepped.symm (Option.some_ne_none after)
    · obtain ⟨rfl, low, split⟩ :=
        polling.split.step zero (Nat.le_succ cpu) (by omega) stepped
      refine .polling cpu ⟨?_, positive, polling.present, split, polling.isAp, polling.entry, ?_⟩
      · rw [move_other (Ne.symm zero)]
        exact polling.first
      · rw [move_other (Ne.symm here)]
        exact polling.this

theorem safe_mono (isAp : m.isAp = 1 → after.isAp = 1)
    (entry : m.entry = .thiscpuHalt → after.entry = .thiscpuHalt) (safe : place.safe m) :
    place.safe after := by
  cases place with
  | haltPointing => exact isAp safe
  | haltSending _ => exact ⟨isAp safe.1, entry safe.2⟩
  | exiting => exact ⟨isAp safe.1, entry safe.2⟩
  | loader => exact ⟨isAp safe.1, entry safe.2⟩
  | calling => exact ⟨isAp safe.1, entry safe.2⟩
  | stopped => exact ⟨isAp safe.1, entry safe.2⟩
  | _ => exact safe

/-- One processor goes somewhere else, and the boot record may get nearer to `thiscpu_halt`. -/
theorem Up.moved (up : Up ncpu m) (places : after.places = Function.update m.places p place)
    (isAp : m.isAp = 1 → after.isAp = 1)
    (entry : m.entry = .thiscpuHalt → after.entry = .thiscpuHalt) (safe : place.safe after)
    (keeps : (m.places p).leaving → place.leaving)
    (halted : ∀ q < ncpu, q < place.reach ncpu → q ≠ p → (m.places q).leaving) : Up ncpu after := by
  have here : after.places p = place := by rw [places, Function.update_self]
  have there (q : Nat) (other : q ≠ p) : after.places q = m.places q := by
    rw [places, Function.update_of_ne other]
  constructor
  · intro q inside
    by_cases same : q = p
    · rw [same, here]
      exact safe
    · rw [there q same]
      exact safe_mono isAp entry (up.safe q inside)
  · intro q inside r present far other
    have left : (m.places r).leaving → (after.places r).leaving := by
      intro left
      by_cases same : r = p
      · rw [same, here]
        exact keeps (same ▸ left)
      · rw [there r same]
        exact left
    apply left
    by_cases same : q = p
    · rw [same, here] at far
      exact halted r present far (same ▸ other)
    · rw [there q same] at far
      exact up.halted q inside r present far other

theorem Up.step (up : Up ncpu m) (inside : p < ncpu)
    (stepped : processorStep ncpu p m = some after) : Up ncpu after := by
  have safe := up.safe p inside
  have halted := up.halted p inside
  rw [processorStep] at stepped
  cases here : m.places p with
  | loader =>
      rw [here] at stepped safe
      dsimp only at stepped
      rw [if_pos safe.1] at stepped
      obtain rfl := Option.some.inj stepped
      exact up.moved rfl id id safe (fun _ => rfl) fun q _ far => absurd far (Nat.not_lt_zero q)
  | calling =>
      rw [here] at stepped safe
      dsimp only at stepped
      rw [safe.2] at stepped
      obtain rfl := Option.some.inj stepped
      exact up.moved rfl id id safe (fun _ => rfl) fun q _ far => absurd far (Nat.not_lt_zero q)
  | ready =>
      rw [here] at stepped
      obtain rfl := Option.some.inj stepped
      exact up.moved rfl id id trivial (fun left => by rw [here] at left; exact left)
        fun q _ far => absurd far (Nat.not_lt_zero q)
  | haltAnnouncing =>
      rw [here] at stepped
      obtain rfl := Option.some.inj stepped
      exact up.moved rfl (fun _ => rfl) id rfl (fun left => by rw [here] at left; exact left)
        fun q _ far => absurd far (Nat.not_lt_zero q)
  | haltPointing =>
      rw [here] at stepped safe
      obtain rfl := Option.some.inj stepped
      exact up.moved rfl id (fun _ => rfl) ⟨safe, rfl⟩
        (fun left => by rw [here] at left; exact left) fun q _ far => absurd far (Nat.not_lt_zero q)
  | haltSending cpu =>
      rw [here] at stepped safe halted
      dsimp only at stepped
      by_cases more : cpu < ncpu
      · rw [if_pos more] at stepped
        obtain rfl := Option.some.inj stepped
        by_cases other : cpu ≠ p
        · rw [if_pos other]
          -- First the other processor is reset, then the loop goes on.
          have reset : Up ncpu (lapicBootap cpu m) := up.moved rfl id id safe (fun _ => rfl)
            fun q _ far => absurd far (Nat.not_lt_zero q)
          have still : (lapicBootap cpu m).places p = .haltSending cpu :=
            (move_other (Ne.symm other)).trans here
          refine reset.moved rfl id id safe (fun left => by rw [still] at left; exact left) ?_
          intro q present far apart
          rcases Nat.lt_succ_iff_lt_or_eq.mp far with less | rfl
          · exact reset.halted p inside q present (by rw [still]; exact less) apart
          · rw [lapicBootap, move_here]
            rfl
        · rw [if_neg other]
          refine up.moved rfl id id safe (fun left => by rw [here] at left; exact left) ?_
          intro q present far apart
          rcases Nat.lt_succ_iff_lt_or_eq.mp far with less | rfl
          · exact halted q present less apart
          · exact absurd (not_not.mp other) apart
      · rw [if_neg more] at stepped
        obtain rfl := Option.some.inj stepped
        refine up.moved rfl id id safe (fun left => by rw [here] at left; exact left) ?_
        intro q present _ apart
        exact halted q present (Nat.lt_of_lt_of_le present (Nat.le_of_not_lt more)) apart
  | running =>
      rw [here] at stepped
      exact absurd stepped.symm (Option.some_ne_none after)
  | exiting =>
      rw [here] at stepped
      exact absurd stepped.symm (Option.some_ne_none after)
  | stopped =>
      rw [here] at stepped
      exact absurd stepped.symm (Option.some_ne_none after)
  | _ =>
      rw [here] at safe
      exact absurd safe id

theorem Up.halt (up : Up ncpu m) (running : m.places p = .running) :
    Up ncpu (m.move p .haltAnnouncing) :=
  up.moved rfl id id trivial (fun left => by rw [running] at left; exact left)
    fun q _ far => absurd far (Nat.not_lt_zero q)

theorem Phase.go (phase : Phase ncpu m) (stepped : goStep ncpu p m = some after) :
    Phase ncpu after := by
  rw [goStep] at stepped
  by_cases inside : p < ncpu
  · rw [if_pos inside] at stepped
    cases phase with
    | alone alone => exact alone.step (Nat.zero_lt_of_lt inside) stepped
    | starting cpu starting => exact starting.step stepped
    | polling cpu polling => exact polling.step stepped
    | up up => exact .up (up.step inside stepped)
  · rw [if_neg inside] at stepped
    exact absurd stepped.symm (Option.some_ne_none after)

/-- Before all processors are started only those that have been started run the kernel. -/
theorem Phase.run (phase : Phase ncpu m) (late : (m.places 0).starting = false)
    (running : m.places p = .running) : Up ncpu m := by
  cases phase with
  | alone alone =>
      by_cases zero : p = 0
      · subst zero
        rcases alone.first with ⟨here, -⟩ | here | here <;>
          exact Place.noConfusion (running.symm.trans here)
      · rw [alone.others p zero] at running
        exact Place.noConfusion running
  | starting cpu starting =>
      rcases starting.first with ⟨here, -⟩ | ⟨⟨here, -⟩ | ⟨here, -⟩, -⟩ <;> rw [here] at late <;>
        exact absurd late.symm Bool.false_ne_true
  | polling cpu polling =>
      rw [polling.first] at late
      exact absurd late.symm Bool.false_ne_true
  | up up => exact up

theorem Phase.step {act : BootAct} (phase : Phase ncpu m) (late : calledLate act m)
    (stepped : bootStep ncpu act m = some after) : Phase ncpu after := by
  cases act with
  | go p => exact phase.go stepped
  | halt p =>
      rw [bootStep] at stepped
      by_cases both : p < ncpu ∧ m.places p = .running
      · rw [if_pos both] at stepped
        obtain rfl := Option.some.inj stepped
        exact .up ((phase.run late both.2).halt both.2)
      · rw [if_neg both] at stepped
        exact absurd stepped.symm (Option.some_ne_none after)

theorem PoweredOn.phase (powered : PoweredOn m) : Phase ncpu m :=
  .alone ⟨Or.inl ⟨powered.first, powered.isAp⟩, powered.others, powered.done⟩

end Steps

end OsWorkbench.Am
