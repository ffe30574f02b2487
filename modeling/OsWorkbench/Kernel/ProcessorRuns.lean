import OsWorkbench.Kernel.Processors

/-!
# Runs of the tasks on the CPUs

Every step of the computer is a step of the tasks on processors of their own, or none.
-/

namespace OsWorkbench.Kernel

open OsWorkbench.Library OsWorkbench.Am

section Agreeing

variable {T : Type} {layout : Layout T} {s s' : Computer T} {v v' : Virtual T}

/-- A CPU outside of `irq_handle` has the registers of its task, the other tasks have theirs in their
contexts, and the memory has what is known of it. -/
structure Agrees (layout : Layout T) (s : Computer T) (v : Virtual T) : Prop where
  ordered : Ordered s.kmt
  runs : ∀ cpu a, s.kmt.currents cpu = some a → s.inside cpu = none → (s.cpus cpu).regs = v.regs a
  idles : ∀ cpu < layout.ncpu, s.kmt.currents cpu = none → s.inside cpu = none →
    Steady layout (.inr cpu) (s.cpus cpu).regs
  stopped : ∀ a, s.kmt.allocated a = true →
    (∀ cpu, s.kmt.currents cpu = some a → s.inside cpu ≠ none) → (s.contexts a).regs = v.regs a
  steady : ∀ a, s.kmt.allocated a = true → Steady layout (.inl a) (v.regs a)
  known : Known v.memory s.ram
  hidden : Hidden layout s.kmt.allocated v.regs v.memory
  standing : ∀ cpu tf a, s.inside cpu = some tf → s.kmt.currents cpu = some a →
    tf < (v.regs a).esp ∧ s.kmt.exits a ≠ .zombie

/-- A task that a CPU runs is in use, and no other CPU runs it. -/
theorem Agrees.current (agrees : Agrees layout s v) {cpu : Nat} {a : T}
    (current : s.kmt.currents cpu = some a) : s.kmt.allocated a = true ∧
      ∀ other, s.kmt.currents other = some a → other = cpu := by
  constructor
  · exact (agrees.ordered.locks.locked (.cpu cpu) a (.inl current)).1
  · intro other runs
    cases agrees.ordered.locks.unique (.cpu other) (.cpu cpu) a (.inl runs) (.inl current)
    rfl

variable [DecidableEq T]

theorem instr_agrees (agrees : Agrees layout s v) {cpu : Nat} {task : Option T} {regs : Regs}
    {writes : List (BitVec 32 × BitVec 32)}
    (leaves : LeavesRoom layout (.instr cpu task regs writes))
    (stepped : computerStep layout (.instr cpu task regs writes) s = some s') :
    Agrees layout s' (virtualStep layout s'.kmt.allocated (.instr cpu task regs writes) v) := by
  rw [computerStep] at stepped
  split at stepped
  next enabled =>
    obtain ⟨-, outside, current⟩ := enabled
    cases stepped
    cases task with
    | none =>
        refine ⟨agrees.ordered, ?_, ?_, agrees.stopped, agrees.steady, agrees.known.stored.hide,
          hide_hides, agrees.standing⟩
        · intro other a runs out
          have differs : other ≠ cpu := by
            rintro rfl
            exact nomatch current.symm.trans runs
          dsimp only
          rw [Function.update_of_ne differs]
          exact agrees.runs other a runs out
        · intro other there none out
          by_cases same : other = cpu
          · subst same
            dsimp only
            rw [Function.update_self]
            exact leaves
          · dsimp only
            rw [Function.update_of_ne same]
            exact agrees.idles other there none out
    | some a =>
        have alone := agrees.current current
        refine ⟨agrees.ordered, ?_, ?_, ?_, ?_, agrees.known.stored.hide, hide_hides, ?_⟩
        · intro other b runs out
          by_cases same : other = cpu
          · subst same
            cases current.symm.trans runs
            dsimp only [virtualStep]
            rw [Function.update_self, Function.update_self]
          · have differs : b ≠ a := by
              rintro rfl
              exact same (alone.2 other runs)
            dsimp only [virtualStep]
            rw [Function.update_of_ne same, Function.update_of_ne differs]
            exact agrees.runs other b runs out
        · intro other there none out
          have differs : other ≠ cpu := by
            rintro rfl
            exact nomatch current.symm.trans none
          dsimp only
          rw [Function.update_of_ne differs]
          exact agrees.idles other there none out
        · intro b used stopped
          have differs : b ≠ a := by
            rintro rfl
            exact stopped cpu current outside
          dsimp only [virtualStep]
          rw [Function.update_of_ne differs]
          exact agrees.stopped b used stopped
        · intro b used
          by_cases same : b = a
          · subst same
            dsimp only [virtualStep]
            rw [Function.update_self]
            exact leaves
          · dsimp only [virtualStep]
            rw [Function.update_of_ne same]
            exact agrees.steady b used
        · intro other tf b inside runs
          have differs : b ≠ a := by
            rintro rfl
            rw [alone.2 other runs, outside] at inside
            exact nomatch inside
          dsimp only [virtualStep]
          rw [Function.update_of_ne differs]
          exact agrees.standing other tf b inside runs
  next => exact nomatch stepped

omit [DecidableEq T] in
/-- The CPUs that run code when one of them has entered `irq_handle`. -/
theorem outside_others {inside : Nat → Option (BitVec 32)} {cpu other : Nat} {tf : BitVec 32}
    (out : Function.update inside cpu (some tf) other = none) :
    other ≠ cpu ∧ inside other = none := by
  by_cases same : other = cpu
  · rw [same, Function.update_self] at out
    exact nomatch out
  · rw [Function.update_of_ne same] at out
    exact ⟨same, out⟩

omit [DecidableEq T] in
/-- The code that a CPU runs is kernel code, and nothing is known of the words of a trap frame. -/
theorem Agrees.below (agrees : Agrees layout s v) {cpu : Nat} (there : cpu < layout.ncpu)
    (outside : s.inside cpu = none) :
    isUser ((s.cpus cpu).regs.cs.setWidth 32) = false ∧
      ∀ count < 15, v.memory (pushPlace (s.cpus cpu).regs.esp count) = none := by
  cases current : s.kmt.currents cpu with
  | none =>
      have steady := agrees.idles cpu there current outside
      exact ⟨steady.kernel, fun count inside => agrees.hidden.cpu cpu _ (steady.room count inside).1⟩
  | some a =>
      have used := (agrees.current current).1
      have steady := agrees.steady a used
      rw [agrees.runs cpu a current outside]
      exact ⟨steady.kernel, fun count inside => agrees.hidden.frame used steady.room inside⟩

theorem saved_current {cpu : Nat} {a : T} {c : Context} (current : s.kmt.currents cpu = some a) :
    s.saved cpu c a = c := by
  unfold Computer.saved
  rw [current]
  exact Function.update_self _ _ _

theorem saved_other {cpu : Nat} {a : T} {c : Context} (other : s.kmt.currents cpu ≠ some a) :
    s.saved cpu c a = s.contexts a := by
  unfold Computer.saved
  cases current : s.kmt.currents cpu with
  | none => rfl
  | some b =>
      have differs : a ≠ b := by
        rintro rfl
        exact other current
      exact Function.update_of_ne differs _ _

/-- What an interrupt does. -/
structure Entered (layout : Layout T) (s s' : Computer T) (cpu : Nat) : Prop where
  there : cpu < layout.ncpu
  outside : s.inside cpu = none
  trapped : s.kmt.trapped cpu = true
  kmt : s'.kmt = kmtContextSave cpu s.kmt
  cpus : s'.cpus = s.cpus
  contexts : ∃ c : Context, c.regs = (s.cpus cpu).regs ∧ s'.contexts = s.saved cpu c
  inside : s'.inside = Function.update s.inside cpu (some ((s.cpus cpu).regs.esp - 60))
  ram : ∀ x, (∀ count < 15, x ≠ pushPlace (s.cpus cpu).regs.esp count) → s'.ram x = s.ram x

theorem enter_does (agrees : Agrees layout s v) {cpu : Nat} {err irq : BitVec 32}
    (stepped : computerStep layout (.enter cpu err irq) s = some s') : Entered layout s s' cpu := by
  rw [computerStep] at stepped
  split at stepped
  next enabled =>
    have kernel := (agrees.below enabled.1 enabled.2.1).1
    have saves := interrupt_saves err irq (s.cpus cpu) s.ram
    have pointer := @interrupt_pointer s.ram err irq (s.cpus cpu) kernel
    have frame := fun x => @interrupt_frame s.ram err irq (s.cpus cpu) x kernel
    generalize interrupt err irq (s.cpus cpu) s.ram = entered at stepped saves pointer frame
    cases stepped
    exact ⟨enabled.1, enabled.2.1, enabled.2.2, rfl, rfl, ⟨_, saves, rfl⟩, pointer ▸ rfl, frame⟩
  next => exact nomatch stepped

/-- An interrupt writes where nothing is known, and saves the registers of the task that it stops. -/
theorem enter_agrees (agrees : Agrees layout s v) {cpu : Nat} (entered : Entered layout s s' cpu) :
    Agrees layout s' v := by
  have outside := entered.outside
  have stays : Stays s.kmt s'.kmt := entered.kmt ▸ save_stays cpu s.kmt
  have used : s'.kmt.allocated = s.kmt.allocated := by
    rw [entered.kmt, save_frame]
  have unknown := (agrees.below entered.there outside).2
  constructor
  case ordered =>
    rw [entered.kmt]
    exact kmt_context_save_ordered agrees.ordered cpu
  case runs =>
    intro other a runs out
    rw [stays.currents] at runs
    rw [entered.inside] at out
    rw [entered.cpus]
    exact agrees.runs other a runs (outside_others out).2
  case idles =>
    intro other there none out
    rw [stays.currents] at none
    rw [entered.inside] at out
    rw [entered.cpus]
    exact agrees.idles other there none (outside_others out).2
  case stopped =>
    intro a used stopped
    rw [stays.currents, entered.inside] at stopped
    obtain ⟨c, saves, contexts⟩ := entered.contexts
    rw [contexts]
    by_cases current : s.kmt.currents cpu = some a
    · rw [saved_current current, saves]
      exact agrees.runs cpu a current outside
    · rw [saved_other current]
      apply agrees.stopped a (stays.allocated a used)
      intro other runs out
      have differs : other ≠ cpu := by
        rintro rfl
        exact current runs
      exact stopped other runs ((Function.update_of_ne differs _ _).trans out)
  case steady => exact fun a used => agrees.steady a (stays.allocated a used)
  case known =>
    intro x word stands
    rw [entered.ram, agrees.known x word stands]
    intro count inside at_place
    rw [at_place, unknown count inside] at stands
    exact nomatch stands
  case hidden =>
    rw [used]
    exact agrees.hidden
  case standing =>
    intro other tf a inside runs
    rw [stays.currents] at runs
    rw [entered.inside] at inside
    by_cases differs : other = cpu
    · subst differs
      rw [Function.update_self] at inside
      cases inside
      have room := (agrees.steady a (agrees.current runs).1).room 14 (by decide)
      constructor
      · rw [agrees.runs other a runs outside]
        exact room.2
      · intro zombie
        have early := stays.exits a zombie
        have trapped := entered.trapped
        unfold Machine.trapped at trapped
        rw [runs] at trapped
        simp only [early] at trapped
        exact nomatch trapped
    · rw [Function.update_of_ne differs] at inside
      have stood := agrees.standing other tf a inside runs
      exact ⟨stood.1, fun zombie => stood.2 (stays.exits a zombie)⟩

/-- What a handler writes on the stack of the task that it has stopped is free. -/
theorem handle_agrees (agrees : Agrees layout s v) {cpu : Nat}
    {writes : List (BitVec 32 × BitVec 32)}
    (stepped : computerStep layout (.handle cpu writes) s = some s') :
    Agrees layout s' (virtualStep layout s'.kmt.allocated (.handle cpu writes) v) := by
  obtain ⟨tf, inside, stepped⟩ := Option.bind_eq_some_iff.mp stepped
  split at stepped
  next allowed =>
    cases stepped
    have hidden : ∀ write ∈ writes, layout.owner write.1 ≠ none → v.memory write.1 = none := by
      intro write listed stack
      have may := List.all_eq_true.mp allowed write listed
      unfold Computer.mayWrite at may
      split at may
      next none => exact absurd none stack
      next o owned =>
        rw [Bool.and_eq_true, decide_eq_true_iff, decide_eq_true_iff] at may
        obtain ⟨same, below⟩ := may
        rw [same] at owned
        unfold Computer.standing at owned
        split at owned
        next a current =>
          have stood := agrees.standing cpu tf a inside current
          exact agrees.hidden.task a _ owned (agrees.current current).1
            (BitVec.lt_trans below stood.1)
        next => exact agrees.hidden.cpu cpu _ owned
    have outside {x : BitVec 32} {o : Owner T} (owned : layout.owner x = some o) :
        note (writes.filter fun write => (layout.owner write.1).isNone) v.memory x = v.memory x := by
      apply note_outside
      intro write listed same
      have shared := (List.mem_filter.mp listed).2
      rw [same, owned] at shared
      exact nomatch shared
    refine ⟨agrees.ordered, agrees.runs, agrees.idles, agrees.stopped, agrees.steady,
      agrees.known.handled hidden, ⟨?_, ?_⟩, agrees.standing⟩
    · intro a x owned used below
      exact (outside owned).trans (agrees.hidden.task a x owned used below)
    · intro i x owned
      exact (outside owned).trans (agrees.hidden.cpu i x owned)
  next => exact nomatch stepped

omit [DecidableEq T] in
theorem kcontext_steady (layout : Layout T) (o : Owner T) (there : Owner.exists layout.ncpu o)
    (entry : BitVec 32) : Steady layout o (kcontext (layout.high o) entry).regs := by
  have room := layout.room o there
  have kernel : isUser ((kselKcode.setWidth 16).setWidth 32) = false := by decide
  refine ⟨kernel, ?_⟩
  intro count inside
  have pointer : (kcontext (layout.high o) entry).regs.esp = layout.high o - 8 :=
    if_neg (show ¬isUser kselKcode = true by decide)
  rw [pointer]
  unfold pushPlace
  constructor
  · apply layout.inside o _ there
    · bv_omega
    · bv_omega
  · bv_omega

/-- Kernel code has its stack pointer in `esp0`. -/
theorem context_kernel {c : Context} (kernel : isUser (c.regs.cs.setWidth 32) = false) :
    isUser c.cs = false ∧ c.regs.esp = c.esp0 := by
  have same : isUser (c.regs.cs.setWidth 32) = isUser c.cs := by
    have bits : (c.cs.setWidth 16).setWidth 32 &&& dplUser = c.cs &&& dplUser := by
      apply BitVec.eq_of_toNat_eq
      rw [BitVec.toNat_and, BitVec.toNat_and, BitVec.toNat_setWidth, BitVec.toNat_setWidth]
      rw [show dplUser.toNat = 2 ^ 2 - 1 from rfl, Nat.and_two_pow_sub_one_eq_mod,
        Nat.and_two_pow_sub_one_eq_mod]
      omega
    unfold isUser
    rw [show c.regs.cs = c.cs.setWidth 16 from rfl, bits]
  rw [same] at kernel
  exact ⟨kernel, if_neg (Bool.eq_false_iff.mp kernel)⟩

/-- What a return from an interrupt does. -/
structure Left (layout : Layout T) (s s' : Computer T) (cpu : Nat) (rand : Nat → Nat) (c : Context) :
    Prop where
  there : cpu < layout.ncpu
  inside : ∃ tf, s.inside cpu = some tf
  next : c = s.next layout (kmtContextSwitch cpu rand s.kmt) cpu
  kmt : kmtContextClean (kmtContextSwitch cpu rand s.kmt) = some s'.kmt
  regs : (s'.cpus cpu).regs = c.regs
  cpus : ∀ other, other ≠ cpu → s'.cpus other = s.cpus other
  contexts : s'.contexts = s.contexts
  outside : s'.inside = Function.update s.inside cpu none
  ram : isUser c.cs = false → ∀ x, (∀ count < 13, x ≠ pushPlace c.esp0 count) → s'.ram x = s.ram x

theorem leave_does {cpu : Nat} {rand : Nat → Nat}
    (stepped : computerStep layout (.leave cpu rand) s = some s') :
    ∃ c, Left layout s s' cpu rand c := by
  obtain ⟨tf, inside, stepped⟩ := Option.bind_eq_some_iff.mp stepped
  obtain ⟨inside, there⟩ := Option.filter_eq_some_iff.mp inside
  obtain ⟨kmt, cleaned, stepped⟩ := Option.map_eq_some_iff.mp stepped
  generalize known : s.next layout (kmtContextSwitch cpu rand s.kmt) cpu = c at stepped
  have loads := return_loads layout.ptr c (s.cpus cpu) s.ram
  have frame := fun kernel x => @return_frame s.ram (s.cpus cpu) c x layout.ptr kernel
  generalize irqReturn layout.ptr c (s.cpus cpu) s.ram = left at stepped loads frame
  subst stepped
  refine ⟨c, of_decide_eq_true there, ⟨tf, inside⟩, known.symm, cleaned, ?_, ?_, rfl, rfl, frame⟩
  · exact (congrArg Cpu.regs (Function.update_self _ _ _)).trans loads
  · exact fun other differs => Function.update_of_ne differs _ _

/-- The code that a CPU returns to is kernel code with room on its stack, the code of the task that
was drawn if there is one, and nothing is known of the words of a trap frame. -/
theorem Agrees.next (agrees : Agrees layout s v) {cpu : Nat} (there : cpu < layout.ncpu)
    {rand : Nat → Nat} {c : Context}
    (next : c = s.next layout (kmtContextSwitch cpu rand s.kmt) cpu) :
    isUser c.cs = false ∧ (∀ count < 15, v.memory (pushPlace c.esp0 count) = none) ∧
      (drawTask s.kmt rand 10000 = none → Steady layout (.inr cpu) c.regs) ∧
      ∀ a, drawTask s.kmt rand 10000 = some a → c.regs = v.regs a := by
  have current : (kmtContextSwitch cpu rand s.kmt).currents cpu = drawTask s.kmt rand 10000 := by
    rw [switch_currents, Function.update_self]
  unfold Computer.next at next
  rw [current] at next
  cases drawn : drawTask s.kmt rand 10000 with
  | none =>
      rw [drawn] at next
      have steady := kcontext_steady layout (.inr cpu) there layout.idle
      rw [← show c = kcontext (layout.high (.inr cpu)) layout.idle from next] at steady
      obtain ⟨kernel, pointer⟩ := context_kernel steady.kernel
      refine ⟨kernel, ?_, fun _ => steady, fun a drawn => nomatch drawn⟩
      intro count inside
      rw [← pointer]
      exact agrees.hidden.cpu cpu _ (steady.room count inside).1
  | some a =>
      rw [drawn] at next
      obtain ⟨used, idle⟩ := drawn_idle agrees.ordered drawn
      have regs : c.regs = v.regs a := by
        rw [show c = s.contexts a from next]
        exact agrees.stopped a used fun cpu runs => absurd runs (idle cpu)
      have steady := agrees.steady a used
      rw [← regs] at steady
      obtain ⟨kernel, pointer⟩ := context_kernel steady.kernel
      refine ⟨kernel, ?_, (fun nobody => nomatch nobody), ?_⟩
      · intro count inside
        rw [← pointer, regs]
        exact agrees.hidden.frame used (agrees.steady a used).room inside
      · intro b same
        cases same
        exact regs

/-- A return gives the CPU to the task that was drawn, with the registers that it was stopped with. -/
theorem leave_agrees (agrees : Agrees layout s v) {cpu : Nat} {rand : Nat → Nat} {c : Context}
    (left : Left layout s s' cpu rand c) : Agrees layout s' v := by
  obtain ⟨tf, inside⟩ := left.inside
  obtain ⟨kernel, unknown, idle, code⟩ := agrees.next left.there left.next
  have stays := clean_stays left.kmt
  have frame := switch_frame cpu rand s.kmt
  have currents : s'.kmt.currents =
      Function.update s.kmt.currents cpu (drawTask s.kmt rand 10000) := by
    rw [stays.currents, switch_currents]
  have used : ∀ a, s'.kmt.allocated a = true → s.kmt.allocated a = true := by
    intro a used
    rw [← frame.1]
    exact stays.allocated a used
  have others : ∀ {other}, other ≠ cpu → s'.inside other = s.inside other := by
    intro other differs
    rw [left.outside, Function.update_of_ne differs]
  have outside : s'.inside cpu = none := by
    rw [left.outside, Function.update_self]
  constructor
  case ordered =>
    refine kmt_context_clean_ordered (switch_ordered agrees.ordered cpu rand ?_) left.kmt
    exact fun a current => (agrees.standing cpu tf a inside current).2
  case runs =>
    intro other a runs out
    rw [currents] at runs
    by_cases differs : other = cpu
    · subst differs
      rw [Function.update_self] at runs
      rw [left.regs]
      exact code a runs
    · rw [Function.update_of_ne differs] at runs
      rw [others differs] at out
      rw [left.cpus other differs]
      exact agrees.runs other a runs out
  case idles =>
    intro other there none out
    rw [currents] at none
    by_cases differs : other = cpu
    · subst differs
      rw [Function.update_self] at none
      rw [left.regs]
      exact idle none
    · rw [Function.update_of_ne differs] at none
      rw [others differs] at out
      rw [left.cpus other differs]
      exact agrees.idles other there none out
  case stopped =>
    intro a still stopped
    rw [left.contexts]
    apply agrees.stopped a (used a still)
    intro other runs out
    by_cases differs : other = cpu
    · rw [differs, inside] at out
      exact nomatch out
    · apply stopped other
      · rw [currents, Function.update_of_ne differs]
        exact runs
      · rw [others differs]
        exact out
  case steady => exact fun a still => agrees.steady a (used a still)
  case known =>
    intro x word stands
    rw [left.ram kernel, agrees.known x word stands]
    intro count few at_place
    rw [at_place, unknown count (by omega)] at stands
    exact nomatch stands
  case hidden =>
    exact ⟨fun a x owned still below => agrees.hidden.task a x owned (used a still) below,
      agrees.hidden.cpu⟩
  case standing =>
    intro other tf a stands runs
    by_cases differs : other = cpu
    · rw [differs, outside] at stands
      exact nomatch stands
    · rw [others differs] at stands
      rw [currents, Function.update_of_ne differs] at runs
      have stood := agrees.standing other tf a stands runs
      refine ⟨stood.1, fun zombie => stood.2 ?_⟩
      rw [← frame.2]
      exact stays.exits a zombie

/-- What `kmt_create` does to the table of tasks. -/
theorem create_does {m m' : Machine T} {cpu : Nat} {new : T} {duty : Duty}
    (stepped : taskStep (.create cpu new duty) m = some m') :
    m.allocated new = false ∧ m'.currents = m.currents ∧
      m'.allocated = Function.update m.allocated new true ∧
      m'.exits = Function.update m.exits new .before := by
  simp only [taskStep] at stepped
  split at stepped
  next =>
    unfold kmtCreate at stepped
    split at stepped
    next => exact absurd stepped.symm (Option.some_ne_none m')
    next unused =>
      obtain ⟨pid, found, rfl⟩ := Option.map_eq_some_iff.mp stepped
      exact ⟨Bool.eq_false_iff.mpr unused, rfl, rfl, rfl⟩
  next => exact absurd stepped.symm (Option.some_ne_none m')

/-- A new task stands at its entry. -/
theorem create_agrees (agrees : Agrees layout s v) {cpu : Nat} {new : T} {duty : Duty}
    {entry arg : BitVec 32}
    (stepped : computerStep layout (.create cpu new duty entry arg) s = some s') :
    Agrees layout s' (virtualStep layout s'.kmt.allocated (.create cpu new duty entry arg) v) := by
  rw [computerStep] at stepped
  split at stepped
  next outside =>
    obtain ⟨kmt, created, rfl⟩ := Option.map_eq_some_iff.mp stepped
    obtain ⟨unused, currents, allocated, exits⟩ := create_does created
    have others : ∀ {other a}, s.kmt.currents other = some a → a ≠ new := by
      intro other a runs same
      rw [← same, (agrees.current runs).1] at unused
      exact nomatch unused
    have before : ∀ {a}, a ≠ new → kmt.allocated a = true → s.kmt.allocated a = true := by
      intro a differs used
      rwa [allocated, Function.update_of_ne differs] at used
    constructor
    case ordered => exact step_ordered _ _ _ agrees.ordered created
    case runs =>
      intro other a runs out
      rw [currents] at runs
      exact (agrees.runs other a runs out).trans (Function.update_of_ne (others runs) _ _).symm
    case idles =>
      intro other there none out
      rw [currents] at none
      exact agrees.idles other there none out
    case stopped =>
      intro a used stopped
      rw [currents] at stopped
      dsimp only [virtualStep]
      by_cases same : a = new
      · rw [same, Function.update_self, Function.update_self]
      · rw [Function.update_of_ne same, Function.update_of_ne same]
        exact agrees.stopped a (before same used) stopped
    case steady =>
      intro a used
      dsimp only [virtualStep]
      by_cases same : a = new
      · rw [same, Function.update_self]
        exact kcontext_steady layout (.inl new) trivial entry
      · rw [Function.update_of_ne same]
        exact agrees.steady a (before same used)
    case known => exact agrees.known.stored.hide
    case hidden => exact hide_hides
    case standing =>
      intro other tf a inside runs
      rw [currents] at runs
      have stood := agrees.standing other tf a inside runs
      dsimp only [virtualStep]
      rw [exits, Function.update_of_ne (others runs), Function.update_of_ne (others runs)]
      exact stood
  next => exact nomatch stepped

/-- What a step between tasks leaves as it was, as far as the CPUs are concerned. -/
structure Undisturbed (s : Computer T) (kmt : Machine T) : Prop where
  currents : kmt.currents = s.kmt.currents
  allocated : ∀ a, kmt.allocated a = true → s.kmt.allocated a = true
  exits : ∀ cpu tf a, s.inside cpu = some tf → s.kmt.currents cpu = some a →
    kmt.exits a = .zombie → s.kmt.exits a = .zombie

omit [DecidableEq T] in
theorem Stays.undisturbed {kmt : Machine T} (stays : Stays s.kmt kmt) : Undisturbed s kmt :=
  ⟨stays.currents, stays.allocated, fun _ _ a _ _ => stays.exits a⟩

/-- Only a task that exits comes nearer to its end, and it is not stopped. -/
theorem kmt_undisturbed (agrees : Agrees layout s v) {act : TaskAct T} (free : s.free act = true)
    {kmt : Machine T} (done : taskStep act s.kmt = some kmt) : Undisturbed s kmt := by
  cases act with
  | trap cpu rand => exact absurd free Bool.false_ne_true
  | create cpu new duty => exact absurd free Bool.false_ne_true
  | count cpu ncli intena =>
      cases done
      apply Stays.undisturbed
      exact stays_same rfl rfl rfl
  | sleep cpu =>
      obtain ⟨a, acting, rfl⟩ := Option.map_eq_some_iff.mp done
      apply Stays.undisturbed
      exact stays_same rfl rfl rfl
  | wake a =>
      simp only [taskStep] at done
      split at done
      next =>
        cases done
        apply Stays.undisturbed
        exact stays_same rfl rfl rfl
      next => exact absurd done.symm (Option.some_ne_none kmt)
  | exit cpu =>
      obtain ⟨a, current, done⟩ := Option.bind_eq_some_iff.mp done
      have leaves := exit_leaves done
      refine ⟨leaves.currents, fun b used => leaves.allocated ▸ used, ?_⟩
      intro other tf b inside runs zombie
      have differs : b ≠ a := by
        rintro rfl
        have out := Option.isNone_iff_eq_none.mp free
        rw [← (agrees.current current).2 other runs, inside] at out
        exact absurd out (Option.some_ne_none tf)
      rw [← leaves.exits b differs]
      exact zombie
  | serve cpu a =>
      simp only [taskStep] at done
      split at done
      next =>
        split at done
        next => exact absurd done.symm (Option.some_ne_none kmt)
        next => exact (back_stays done).undisturbed
        next => exact (wait_stays done).undisturbed
      next => exact absurd done.symm (Option.some_ne_none kmt)

/-- What the tasks do with each other leaves the CPUs alone. -/
theorem kmt_agrees (agrees : Agrees layout s v) {act : TaskAct T}
    (stepped : computerStep layout (.kmt act) s = some s') : Agrees layout s' v := by
  rw [computerStep] at stepped
  split at stepped
  next free =>
    obtain ⟨kmt, done, rfl⟩ := Option.map_eq_some_iff.mp stepped
    obtain ⟨currents, used, exits⟩ := kmt_undisturbed agrees free done
    constructor
    case ordered => exact step_ordered _ _ _ agrees.ordered done
    case runs =>
      rw [currents]
      exact agrees.runs
    case idles =>
      rw [currents]
      exact agrees.idles
    case stopped =>
      rw [currents]
      exact fun a still => agrees.stopped a (used a still)
    case steady => exact fun a still => agrees.steady a (used a still)
    case known => exact agrees.known
    case hidden =>
      exact ⟨fun a x owned still below => agrees.hidden.task a x owned (used a still) below,
        agrees.hidden.cpu⟩
    case standing =>
      rw [currents]
      intro cpu tf a inside runs
      have stood := agrees.standing cpu tf a inside runs
      exact ⟨stood.1, fun zombie => stood.2 (exits cpu tf a inside runs zombie)⟩
  next => exact nomatch stepped

/-- Every step keeps the two machines together. -/
theorem step_agrees (agrees : Agrees layout s v) {act : CpuAct T} (leaves : LeavesRoom layout act)
    (stepped : computerStep layout act s = some s') :
    Agrees layout s' (virtualStep layout s'.kmt.allocated act v) := by
  cases act with
  | instr cpu task regs writes => exact instr_agrees agrees leaves stepped
  | enter cpu err irq => exact enter_agrees agrees (enter_does agrees stepped)
  | handle cpu writes => exact handle_agrees agrees stepped
  | leave cpu rand =>
      obtain ⟨c, left⟩ := leave_does stepped
      exact leave_agrees agrees left
  | create cpu new duty entry arg => exact create_agrees agrees stepped
  | kmt act => exact kmt_agrees agrees stepped

theorem run_agrees {acts : List (CpuAct T)} (leaves : ∀ act ∈ acts, LeavesRoom layout act)
    (agrees : Agrees layout s v) (ran : runSteps (together layout) acts (s, v) = some (s', v')) :
    Agrees layout s' v' := by
  induction acts generalizing s v with
  | nil =>
      cases ran
      exact agrees
  | cons act acts hypothesis =>
      obtain ⟨⟨next, after⟩, stepped, ran⟩ := run_steps_cons _ ran
      obtain ⟨computer, went, same⟩ := Option.map_eq_some_iff.mp stepped
      cases same
      apply hypothesis (fun later listed => leaves later (List.mem_cons_of_mem _ listed)) ?_ ran
      exact step_agrees agrees (leaves act List.mem_cons_self) went

end Agreeing

section Runs

variable {T : Type} [DecidableEq T]

/-- Before `os_init`, with the CPUs on the stacks on which they boot. -/
def Computer.boot (memory : T → Task) (ncli intena : Nat → BitVec 32) (cpus : Nat → Cpu) (ram : Ram)
    (contexts : T → Context) : Computer T :=
  ⟨powered memory ncli intena, cpus, ram, contexts, fun _ => none⟩

def Virtual.boot (layout : Layout T) (regs : T → Regs) (ram : Ram) : Virtual T :=
  ⟨regs, hide layout (fun _ => false) regs fun x => some (ram x)⟩

omit [DecidableEq T] in
theorem boot_agrees {layout : Layout T} (memory : T → Task) (ncli intena : Nat → BitVec 32)
    (cpus : Nat → Cpu) (ram : Ram) (contexts : T → Context) (regs : T → Regs)
    (booted : ∀ cpu < layout.ncpu, Steady layout (.inr cpu) (cpus cpu).regs) :
    Agrees layout (.boot memory ncli intena cpus ram contexts) (.boot layout regs ram) where
  ordered := powered_ordered memory ncli intena
  runs := fun _ _ current => nomatch current
  idles := fun cpu there _ _ => booted cpu there
  stopped := fun _ used => nomatch used
  steady := fun _ used => nomatch used
  known := by
    apply Known.hide
    exact fun x word same => Option.some.inj same
  hidden := hide_hides
  standing := fun _ _ _ inside => nomatch inside

/-- In every run on any number of CPUs: the code of a task finds the registers that its own last
instruction left, the memory has what the tasks and the handlers wrote, except for words that were
free since then, and no two CPUs stand on one stack. -/
theorem tasks_have_processors (layout : Layout T) (memory : T → Task) (ncli intena : Nat → BitVec 32)
    (cpus : Nat → Cpu) (ram : Ram) (contexts : T → Context) (regs : T → Regs)
    (acts : List (CpuAct T)) (s : Computer T) (v : Virtual T)
    (booted : ∀ cpu < layout.ncpu, Steady layout (.inr cpu) (cpus cpu).regs)
    (leaves : ∀ act ∈ acts, LeavesRoom layout act)
    (ran : runSteps (together layout) acts
      (.boot memory ncli intena cpus ram contexts, .boot layout regs ram) = some (s, v)) :
    (∀ cpu a, s.kmt.currents cpu = some a → s.inside cpu = none → (s.cpus cpu).regs = v.regs a) ∧
      (∀ a, s.kmt.allocated a = true →
        (∀ cpu, s.kmt.currents cpu = some a → s.inside cpu ≠ none) →
          (s.contexts a).regs = v.regs a) ∧
      (∀ x word, v.memory x = some word → s.ram x = word) ∧
      ∀ cpu other, s.standing cpu = s.standing other → cpu = other := by
  have agrees := run_agrees leaves (boot_agrees memory ncli intena cpus ram contexts regs booted) ran
  refine ⟨agrees.runs, agrees.stopped, agrees.known, ?_⟩
  intro cpu other same
  unfold Computer.standing at same
  split at same
  next a current =>
    split at same
    next b runs =>
      cases same
      exact (agrees.current runs).2 cpu current
    next => exact nomatch same
  next =>
    split at same
    next => exact nomatch same
    next =>
      cases same
      rfl

end Runs

section Moving

/-- Two tasks with a page of stack each, and two CPUs with another one. -/
def pageStack : Owner Bool → Nat
  | .inl false => 1
  | .inl true => 2
  | .inr cpu => 3 + cpu

def pageOwner (x : BitVec 32) : Option (Owner Bool) :=
  match x.toNat / 4096 with
  | 1 => some (.inl false)
  | 2 => some (.inl true)
  | 3 => some (.inr 0)
  | 4 => some (.inr 1)
  | _ => none

theorem page_owner {x : BitVec 32} {page : Nat} (few : page < 8)
    (low : BitVec.ofNat 32 (4096 * page) ≤ x) (high : x < BitVec.ofNat 32 (4096 * page + 4096)) :
    x.toNat / 4096 = page := by
  rw [BitVec.le_def, BitVec.toNat_ofNat] at low
  rw [BitVec.lt_def, BitVec.toNat_ofNat] at high
  omega

def twoStacks : Layout Bool where
  ncpu := 2
  owner := pageOwner
  low := fun o => BitVec.ofNat 32 (4096 * pageStack o)
  high := fun o => BitVec.ofNat 32 (4096 * pageStack o + 4096)
  inside := by
    intro o x there low high
    have few : pageStack o < 8 := by
      rcases o with (_ | _) | cpu
      · decide
      · decide
      · exact Nat.add_lt_of_lt_sub' (Nat.lt_of_lt_of_le there (by decide))
    unfold pageOwner
    rw [page_owner few low high]
    rcases o with (_ | _) | cpu
    · rfl
    · rfl
    · cases cpu with
      | zero => rfl
      | succ cpu =>
          obtain rfl : cpu = 0 := Nat.lt_one_iff.mp (Nat.lt_of_succ_lt_succ there)
          rfl
  room := by
    rintro ((_ | _) | cpu) there
    · decide
    · decide
    · have few : cpu < 2 := there
      rw [BitVec.toNat_ofNat, BitVec.toNat_ofNat, pageStack]
      omega
  idle := 0x100
  panicOnReturn := 0x200
  ptr := id

def pageRegs (esp : BitVec 32) : Regs := ⟨1, 2, 3, 4, 5, 6, 7, esp, 0x300, 0x200, 8, 16, 16⟩

def bootCpu (cpu : Nat) : Cpu := ⟨pageRegs (BitVec.ofNat 32 (4096 * (4 + cpu))), 16, 0, 0, 0, 0⟩

/-- A task starts on the first CPU, and another one after it; the second CPU goes on with the first
task while the first CPU is in `irq_handle`. -/
def moves : List (CpuAct Bool) :=
  [.create 0 false .none 0x300 0, .create 0 true .none 0x300 0, .enter 0 0 32, .leave 0 fun _ => 1,
    .instr 0 (some false) (pageRegs 0x1ff0) [(0x1ff0, 9)], .enter 0 0 32, .leave 0 fun _ => 2,
    .enter 0 0 32, .enter 1 0 32, .leave 1 fun _ => 1]

def movedStates : Option (Computer Bool × Virtual Bool) :=
  runSteps (together twoStacks) moves
    (.boot (fun _ => blankTask 0) (fun _ => 0) (fun _ => 0) bootCpu (fun _ => 0)
      fun _ => kcontext 0 0,
      .boot twoStacks (fun _ => pageRegs 0) fun _ => 0)

theorem tasks_have_processors_moved : ∃ s v, movedStates = some (s, v) ∧
    (s.cpus 1).regs = pageRegs 0x1ff0 ∧ s.ram 0x1ff0 = 9 := by
  obtain ⟨⟨s, v⟩, ran, facts⟩ : ∃ both, movedStates = some both ∧
      (both.1.kmt.currents 1, both.1.inside 1, both.2.regs false, both.2.memory 0x1ff0) =
        (some false, none, pageRegs 0x1ff0, some 9) :=
    Option.map_eq_some_iff.mp (by decide)
  obtain ⟨current, facts⟩ := Prod.mk.inj facts
  obtain ⟨outside, facts⟩ := Prod.mk.inj facts
  obtain ⟨regs, word⟩ := Prod.mk.inj facts
  have booted : ∀ cpu < twoStacks.ncpu, Steady twoStacks (.inr cpu) (bootCpu cpu).regs := by
    intro cpu there
    have both : cpu = 0 ∨ cpu = 1 := Nat.le_one_iff_eq_zero_or_eq_one.mp (Nat.le_of_lt_succ there)
    rcases both with rfl | rfl
    · refine ⟨by decide, ?_⟩
      unfold Room
      decide
    · refine ⟨by decide, ?_⟩
      unfold Room
      decide
  have steady : Steady twoStacks (.inl false) (pageRegs 0x1ff0) := by
    refine ⟨by decide, ?_⟩
    unfold Room
    decide
  have leaves : ∀ act ∈ moves, LeavesRoom twoStacks act := by
    simpa [moves, LeavesRoom] using steady
  have result := tasks_have_processors twoStacks _ _ _ _ _ _ _ moves s v booted leaves ran
  exact ⟨s, v, ran, (result.1 1 false current outside).trans regs, result.2.2.1 _ _ word⟩

end Moving

end OsWorkbench.Kernel
