import OsWorkbench.Am.Traps
import OsWorkbench.Kernel.Scheduler

/-!
# A processor for every task

The tasks of `kmt.c` on the CPUs of the abstract machine. A CPU runs the code of a task, takes an
interrupt, runs the handlers on the stack of the task it has stopped, and returns to another one; the
other CPUs go on in between. To the tasks it looks as if each of them had its own CPU.
-/

namespace OsWorkbench.Kernel

open OsWorkbench.Library OsWorkbench.Am

section Source

/-- Whose stack: that of a task, or those on which a CPU boots and idles. -/
abbrev Owner (T : Type) := T ⊕ Nat

/-- All tasks, and the CPUs that there are. -/
def Owner.exists (ncpu : Nat) {T : Type} : Owner T → Prop
  | .inl _ => True
  | .inr cpu => cpu < ncpu

/-- Where the stacks are, and the addresses of the code that the kernel itself starts. -/
structure Layout (T : Type) where
  ncpu : Nat
  owner : BitVec 32 → Option (Owner T)
  low : Owner T → BitVec 32
  high : Owner T → BitVec 32
  inside : ∀ o x, Owner.exists ncpu o → low o ≤ x → x < high o → owner x = some o
  room : ∀ o, Owner.exists ncpu o → (low o).toNat + 136 ≤ (high o).toNat
  idle : BitVec 32
  panicOnReturn : BitVec 32
  ptr : BitVec 32 → BitVec 32

/-- `inside` has the trap frame of a CPU that is in `irq_handle`. -/
structure Computer (T : Type) where
  kmt : Machine T
  cpus : Nat → Cpu
  ram : Ram
  contexts : T → Context
  inside : Nat → Option (BitVec 32)

/-- An instruction leaves registers and writes words, whatever it is; `handle` is what the handlers
write while they run. -/
inductive CpuAct (T : Type) where
  | instr (cpu : Nat) (task : Option T) (regs : Regs) (writes : List (BitVec 32 × BitVec 32))
  | enter (cpu : Nat) (err irq : BitVec 32)
  | handle (cpu : Nat) (writes : List (BitVec 32 × BitVec 32))
  | leave (cpu : Nat) (rand : Nat → Nat)
  | create (cpu : Nat) (new : T) (duty : Duty) (entry arg : BitVec 32)
  | kmt (act : TaskAct T)

variable {T : Type} [DecidableEq T]

/-- The owner of the stack on which a CPU stands. -/
def Computer.standing (s : Computer T) (cpu : Nat) : Owner T :=
  match s.kmt.currents cpu with
  | some a => .inl a
  | none => .inr cpu

/-- A handler writes what the kernel shares, and below the trap frame on the stack it stands on. -/
def Computer.mayWrite (layout : Layout T) (s : Computer T) (cpu : Nat) (tf x : BitVec 32) : Bool :=
  match layout.owner x with
  | none => true
  | some o => decide (o = s.standing cpu) && decide (x < tf)

/-- The part of `kmt_context_save` that `kmtContextSave` leaves out: `current->context=*c`. -/
def Computer.saved (s : Computer T) (cpu : Nat) (c : Context) : T → Context :=
  match s.kmt.currents cpu with
  | some a => Function.update s.contexts a c
  | none => s.contexts

/-- The context that `kmt_context_switch` returns. -/
def Computer.next (layout : Layout T) (s : Computer T) (switched : Machine T) (cpu : Nat) : Context :=
  match switched.currents cpu with
  | some a => s.contexts a
  | none => kcontext (layout.high (.inr cpu)) layout.idle

/-- What tasks do with each other, on CPUs that are not in `irq_handle`. -/
def Computer.free (s : Computer T) : TaskAct T → Bool
  | .trap _ _ => false
  | .create _ _ _ => false
  | .count _ _ _ => true
  | .sleep cpu => (s.inside cpu).isNone
  | .wake _ => true
  | .exit cpu => (s.inside cpu).isNone
  | .serve cpu _ => (s.inside cpu).isNone

def computerStep (layout : Layout T) (act : CpuAct T) (s : Computer T) : Option (Computer T) :=
  match act with
  | .instr cpu task regs writes =>
      if cpu < layout.ncpu ∧ s.inside cpu = none ∧ s.kmt.currents cpu = task then
        some { s with
          cpus := Function.update s.cpus cpu { s.cpus cpu with regs := regs }
          ram := storeAll writes s.ram }
      else none
  | .enter cpu err irq =>
      if cpu < layout.ncpu ∧ s.inside cpu = none ∧ s.kmt.trapped cpu then
        let entered := interrupt err irq (s.cpus cpu) s.ram
        some { s with
          kmt := kmtContextSave cpu s.kmt
          ram := entered.1
          contexts := s.saved cpu (irqContext (s.cpus cpu) entered.1 entered.2)
          inside := Function.update s.inside cpu (some entered.2) }
      else none
  | .handle cpu writes =>
      (s.inside cpu).bind fun tf =>
        if writes.all fun write => s.mayWrite layout cpu tf write.1 then
          some { s with ram := storeAll writes s.ram }
        else none
  | .leave cpu rand =>
      ((s.inside cpu).filter fun _ => cpu < layout.ncpu).bind fun _ =>
        let switched := kmtContextSwitch cpu rand s.kmt
        (kmtContextClean switched).map fun kmt =>
          let left := irqReturn layout.ptr (s.next layout switched cpu) (s.cpus cpu) s.ram
          { s with
            kmt := kmt
            cpus := Function.update s.cpus cpu left.1
            ram := left.2
            inside := Function.update s.inside cpu none }
  | .create cpu new duty entry arg =>
      if s.inside cpu = none then
        (taskStep (.create cpu new duty) s.kmt).map fun kmt =>
          { s with
            kmt := kmt
            ram := storeAll (kcontextWrites (layout.low (.inl new)) (layout.high (.inl new)) entry
              layout.panicOnReturn arg) s.ram
            contexts := Function.update s.contexts new (kcontext (layout.high (.inl new)) entry) }
      else none
  | .kmt act =>
      if s.free act then (taskStep act s.kmt).map fun kmt => { s with kmt := kmt } else none

end Source

section Purpose

variable {T : Type} [DecidableEq T]

/-- A CPU for each task, and a common memory, with nothing in the words that are free: those below the
stack pointers, and the stacks of the CPUs themselves. -/
structure Virtual (T : Type) where
  regs : T → Regs
  memory : BitVec 32 → Option (BitVec 32)

def hide (layout : Layout T) (live : T → Bool) (regs : T → Regs)
    (memory : BitVec 32 → Option (BitVec 32)) (x : BitVec 32) : Option (BitVec 32) :=
  match layout.owner x with
  | none => memory x
  | some (.inl a) => if live a = true ∧ x < (regs a).esp then none else memory x
  | some (.inr _) => none

def note (writes : List (BitVec 32 × BitVec 32)) (memory : BitVec 32 → Option (BitVec 32)) :
    BitVec 32 → Option (BitVec 32) :=
  writes.foldl (fun memory write => Function.update memory write.1 (some write.2)) memory

/-- The instructions of the tasks, their creation, and what the handlers write outside of stacks: no
interrupt is seen. -/
def virtualStep (layout : Layout T) (live : T → Bool) (act : CpuAct T) (v : Virtual T) : Virtual T :=
  match act with
  | .instr _ none _ writes => { v with memory := hide layout live v.regs (note writes v.memory) }
  | .instr _ (some a) regs writes =>
      let regs := Function.update v.regs a regs
      ⟨regs, hide layout live regs (note writes v.memory)⟩
  | .handle _ writes =>
      { v with memory := note (writes.filter fun write => (layout.owner write.1).isNone) v.memory }
  | .create _ new _ entry arg =>
      let regs := Function.update v.regs new (kcontext (layout.high (.inl new)) entry).regs
      let writes := kcontextWrites (layout.low (.inl new)) (layout.high (.inl new)) entry
        layout.panicOnReturn arg
      ⟨regs, hide layout live regs (note writes v.memory)⟩
  | .enter _ _ _ => v
  | .leave _ _ => v
  | .kmt _ => v

/-- Both machines, step by step. -/
def together (layout : Layout T) (act : CpuAct T) (both : Computer T × Virtual T) :
    Option (Computer T × Virtual T) :=
  (computerStep layout act both.1).map fun s =>
    (s, virtualStep layout s.kmt.allocated act both.2)

/-- Room for a trap frame. -/
def Room (layout : Layout T) (o : Owner T) (esp : BitVec 32) : Prop :=
  ∀ count < 15, layout.owner (pushPlace esp count) = some o ∧ pushPlace esp count < esp

/-- Kernel code, with room on its stack. -/
structure Steady (layout : Layout T) (o : Owner T) (regs : Regs) : Prop where
  kernel : isUser (regs.cs.setWidth 32) = false
  room : Room layout o regs.esp

/-- An instruction leaves room on the stack of its task. -/
def LeavesRoom (layout : Layout T) : CpuAct T → Prop
  | .instr cpu none regs _ => Steady layout (.inr cpu) regs
  | .instr _ (some a) regs _ => Steady layout (.inl a) regs
  | .enter _ _ _ => True
  | .handle _ _ => True
  | .leave _ _ => True
  | .create _ _ _ _ _ => True
  | .kmt _ => True

end Purpose

section Writing

variable {T : Type} {layout : Layout T} {ram : Ram} {memory : BitVec 32 → Option (BitVec 32)}
  {writes : List (BitVec 32 × BitVec 32)}

/-- What is known of the memory. -/
def Known (memory : BitVec 32 → Option (BitVec 32)) (ram : Ram) : Prop :=
  ∀ x word, memory x = some word → ram x = word

theorem Known.write (known : Known memory ram) (x word : BitVec 32) :
    Known (Function.update memory x (some word)) (Function.update ram x word) := by
  intro y value stands
  by_cases same : y = x
  · subst same
    rw [Function.update_self] at stands ⊢
    exact Option.some.inj stands
  · rw [Function.update_of_ne same] at stands ⊢
    exact known y value stands

theorem Known.stored (known : Known memory ram) :
    Known (note writes memory) (storeAll writes ram) := by
  induction writes generalizing memory ram with
  | nil => exact known
  | cons write writes hypothesis => exact hypothesis (known.write write.1 write.2)

/-- Nothing is known of a word that is written and not told. -/
theorem Known.overwritten (known : Known memory ram) {x : BitVec 32} (unknown : memory x = none)
    (word : BitVec 32) : Known memory (Function.update ram x word) := by
  intro y value stands
  have other : y ≠ x := by
    intro same
    rw [same, unknown] at stands
    exact nomatch stands
  rw [Function.update_of_ne other]
  exact known y value stands

/-- The writes outside of stacks are told, and the others are where nothing is known. -/
theorem Known.handled (known : Known memory ram)
    (hidden : ∀ write ∈ writes, layout.owner write.1 ≠ none → memory write.1 = none) :
    Known (note (writes.filter fun write => (layout.owner write.1).isNone) memory)
      (storeAll writes ram) := by
  induction writes generalizing memory ram with
  | nil => exact known
  | cons write writes hypothesis =>
      cases owned : layout.owner write.1 with
      | none =>
          rw [List.filter_cons_of_pos (by rw [owned]; rfl)]
          apply hypothesis (known.write write.1 write.2)
          intro later listed stack
          have other : later.1 ≠ write.1 := by
            intro same
            rw [same] at stack
            exact stack owned
          rw [Function.update_of_ne other]
          exact hidden later (List.mem_cons_of_mem _ listed) stack
      | some o =>
          rw [List.filter_cons_of_neg (by rw [owned]; exact Bool.false_ne_true)]
          have unknown := hidden write List.mem_cons_self (by rw [owned]; exact Option.some_ne_none o)
          apply hypothesis (known.overwritten unknown write.2)
          exact fun later listed => hidden later (List.mem_cons_of_mem _ listed)

theorem note_outside {x : BitVec 32} (outside : ∀ write ∈ writes, write.1 ≠ x) :
    note writes memory x = memory x := by
  induction writes generalizing memory with
  | nil => rfl
  | cons write writes hypothesis =>
      refine (hypothesis fun later listed => outside later (List.mem_cons_of_mem _ listed)).trans ?_
      exact Function.update_of_ne (outside write List.mem_cons_self).symm _ _

variable {live : T → Bool} {regs : T → Regs}

theorem Known.hide (known : Known memory ram) : Known (hide layout live regs memory) ram := by
  intro x word stands
  unfold Kernel.hide at stands
  split at stands
  next => exact known x word stands
  next =>
    split at stands
    next => exact nomatch stands
    next => exact known x word stands
  next => exact nomatch stands

/-- Nothing is known of the words that are free. -/
structure Hidden (layout : Layout T) (live : T → Bool) (regs : T → Regs)
    (memory : BitVec 32 → Option (BitVec 32)) : Prop where
  task : ∀ a x, layout.owner x = some (.inl a) → live a = true → x < (regs a).esp → memory x = none
  cpu : ∀ i x, layout.owner x = some (.inr i) → memory x = none

theorem hide_hides : Hidden layout live regs (hide layout live regs memory) where
  task := by
    intro a x owned used below
    unfold hide
    rw [owned]
    exact if_pos ⟨used, below⟩
  cpu := by
    intro i x owned
    unfold hide
    rw [owned]

/-- Where there is room, nothing is known. -/
theorem Hidden.frame (hidden : Hidden layout live regs memory) {a : T} (used : live a = true)
    (room : Room layout (.inl a) (regs a).esp) {count : Nat} (inside : count < 15) :
    memory (pushPlace (regs a).esp count) = none :=
  hidden.task a _ (room count inside).1 used (room count inside).2

end Writing

section Kmt

variable {T : Type} {m m' : Machine T} {a : T} {rand : Nat → Nat}

/-- A step that neither starts tasks nor moves CPUs between them. -/
structure Stays (m m' : Machine T) : Prop where
  currents : m'.currents = m.currents
  allocated : ∀ a, m'.allocated a = true → m.allocated a = true
  exits : ∀ a, m'.exits a = .zombie → m.exits a = .zombie

theorem Stays.trans {m'' : Machine T} (first : Stays m m') (second : Stays m' m'') : Stays m m'' where
  currents := second.currents.trans first.currents
  allocated := fun a used => first.allocated a (second.allocated a used)
  exits := fun a zombie => first.exits a (second.exits a zombie)

theorem stays_same (currents : m'.currents = m.currents) (allocated : m'.allocated = m.allocated)
    (exits : m'.exits = m.exits) : Stays m m' where
  currents := currents
  allocated := by
    rw [allocated]
    exact fun _ used => used
  exits := by
    rw [exits]
    exact fun _ zombie => zombie

/-- The task that is drawn is in use, and no CPU runs it. -/
theorem drawn_idle (ordered : Ordered m) (drawn : drawTask m rand 10000 = some a) :
    m.allocated a = true ∧ ∀ cpu, m.currents cpu ≠ some a := by
  obtain ⟨slot, stands, -, unlocked⟩ := draw_task_runnable drawn
  refine ⟨((ordered.settled a).listed slot stands).1, ?_⟩
  intro cpu current
  have locked := (ordered.locks.locked (.cpu cpu) a (.inl current)).2
  exact nomatch locked.symm.trans unlocked

variable [DecidableEq T]

theorem save_stays (cpu : Nat) (m : Machine T) : Stays m (kmtContextSave cpu m) := by
  rw [save_frame]
  exact stays_same rfl rfl rfl

theorem free_stays (a : T) (m : Machine T) : Stays m (freeTask a m) where
  currents := rfl
  allocated := by
    intro b used
    change Function.update m.allocated a false b = true at used
    by_cases same : b = a
    · rw [same, Function.update_self] at used
      exact nomatch used
    · rwa [Function.update_of_ne same] at used
  exits := fun _ zombie => zombie

theorem clean_stays (cleaned : kmtContextClean m = some m') : Stays m m' := by
  unfold kmtContextClean at cleaned
  split at cleaned
  next =>
    cases cleaned
    exact stays_same rfl rfl rfl
  next a queue taken =>
    split at cleaned
    next =>
      obtain ⟨queue, -, rfl⟩ := Option.map_eq_some_iff.mp cleaned
      exact stays_same rfl rfl rfl
    next =>
      cases cleaned
      have torn : Stays m (kmtTeardown a { m.modify a lockRunning with ctxQueue := queue }) :=
        stays_same rfl rfl rfl
      exact torn.trans (free_stays a _)

theorem back_stays {next : Back} (ran : runBackCmd a next m = some m') : Stays m m' := by
  cases next with
  | lock =>
      simp only [runBackCmd, Machine.seize] at ran
      split at ran
      next => exact absurd ran.symm (Option.some_ne_none m')
      next =>
        cases ran
        exact stays_same rfl rfl rfl
  | test =>
      simp only [runBackCmd] at ran
      split at ran
      next =>
        cases ran
        exact stays_same rfl rfl rfl
      next =>
        cases ran
        exact stays_same rfl rfl rfl
  | mark =>
      cases ran
      exact stays_same rfl rfl rfl
  | unlock =>
      cases ran
      exact stays_same rfl rfl rfl
  | teardown =>
      cases ran
      exact stays_same rfl rfl rfl
  | free =>
      cases ran
      exact (free_stays a m).trans (stays_same rfl rfl rfl)
  | returned => exact absurd ran.symm (Option.some_ne_none m')

theorem wait_stays {next : Wait} (ran : kmtWait a next m = some m') : Stays m m' := by
  cases next with
  | test =>
      simp only [kmtWait] at ran
      split at ran
      next =>
        cases ran
        exact stays_same rfl rfl rfl
      next =>
        cases ran
        exact stays_same rfl rfl rfl
  | lock =>
      simp only [kmtWait, Machine.seize] at ran
      split at ran
      next => exact absurd ran.symm (Option.some_ne_none m')
      next =>
        cases ran
        exact stays_same rfl rfl rfl
  | teardown =>
      cases ran
      exact stays_same rfl rfl rfl
  | free =>
      cases ran
      exact (free_stays a m).trans (stays_same rfl rfl rfl)

/-- A step of `exit` concerns the task that takes it. -/
structure Leaves (a : T) (m m' : Machine T) : Prop where
  currents : m'.currents = m.currents
  allocated : m'.allocated = m.allocated
  exits : ∀ b, b ≠ a → m'.exits b = m.exits b

theorem exit_leaves (ran : exitStep a m = some m') : Leaves a m m' := by
  have others (exit : Exit) (b : T) (other : b ≠ a) :
      Function.update m.exits a exit b = m.exits b := Function.update_of_ne other _ _
  unfold exitStep at ran
  split at ran
  next =>
    cases ran
    exact ⟨rfl, rfl, others _⟩
  next =>
    cases ran
    exact ⟨rfl, rfl, others _⟩
  next =>
    split at ran
    next =>
      obtain ⟨queue, -, rfl⟩ := Option.map_eq_some_iff.mp ran
      exact ⟨rfl, rfl, others _⟩
    next =>
      cases ran
      exact ⟨rfl, rfl, others _⟩
  next => exact nomatch ran

theorem switch_frame (cpu : Nat) (rand : Nat → Nat) (m : Machine T) :
    (kmtContextSwitch cpu rand m).allocated = m.allocated ∧
      (kmtContextSwitch cpu rand m).exits = m.exits := by
  unfold kmtContextSwitch
  split
  next => exact ⟨rfl, rfl⟩
  next => exact ⟨rfl, rfl⟩

end Kmt

end OsWorkbench.Kernel
