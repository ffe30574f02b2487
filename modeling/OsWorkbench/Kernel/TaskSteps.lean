import OsWorkbench.Kernel.TaskLife

/-!
# Steps keep the order of tasks

One lemma for each step of the machine; a trap is taken apart into its three handlers.
-/

namespace OsWorkbench.Kernel

open OsWorkbench.Library

section Acts

variable {T : Type} [DecidableEq T] {m m' : Machine T} {a : T}

theorem run_back_cmd_ordered (ordered : Ordered m) {next : Back} (known : m.duties a = .back next)
    (ran : runBackCmd a next m = some m') : Ordered m' := by
  cases next with
  | lock =>
      have alive := ordered.child known rfl
      apply ordered.seize ran
      · rw [known]
        rfl
      · apply alive.serves <;> simp [Duty.marked, Duty.early, Duty.late]
  | test =>
      have alive := ordered.child known rfl
      simp only [runBackCmd] at ran
      split at ran
      next dead =>
        cases ran
        apply ordered.serves
        · rw [known]
          rfl
        · intro _
          rw [known]
          rfl
        · exact alive.serves_dead (alive.zombie.mp dead) rfl rfl (by simp) (by simp)
      next lives =>
        cases ran
        have early : m.exits a = .before := by
          by_contra dead
          exact lives (alive.zombie.mpr dead)
        apply ordered.serves
        · rw [known]
          rfl
        · intro _
          rw [known]
          rfl
        · apply alive.serves
          · rfl
          · exact fun _ => early
          · simp [Duty.late]
          · simp
          · simp
  | mark =>
      have alive := ordered.child known rfl
      cases ran
      have busy : (m.duties a).done = false := by
        rw [known]
        rfl
      have touches := (touches_modify m a (setFlag taskNowait)).trans
        (touches_duty _ a (.back .unlock))
      have self : ((m.modify a (setFlag taskNowait)).setDuty a (.back .unlock)).memory a =
          setFlag taskNowait (m.memory a) := Function.update_self _ _ _
      have own : ((m.modify a (setFlag taskNowait)).setDuty a (.back .unlock)).duties a =
          .back .unlock := Function.update_self _ _ _
      apply ordered.touched touches
      · apply touches.same_locks ordered.locks
        · intro held
          unfold Machine.held
          rw [self]
          exact held
        · intro _
          rw [known]
          rfl
      · have still : ((m.modify a (setFlag taskNowait)).setDuty a (.back .unlock)).allocated a =
            true := ordered.used busy
        apply (ordered.settled a).kept still
        · unfold Machine.living
          rw [self, own]
          exact alive.marks
        · rfl
        · rw [self]
          rfl
        · exact Or.inl
        · exact id
      · rfl
  | unlock =>
      have alive := ordered.child known rfl
      cases ran
      have busy : (m.duties a).done = false := by
        rw [known]
        rfl
      have touches := (touches_modify m a unlockRunning).trans (touches_duty _ a (.back .returned))
      have self : ((m.modify a unlockRunning).setDuty a (.back .returned)).memory a =
          unlockRunning (m.memory a) := Function.update_self _ _ _
      have own : ((m.modify a unlockRunning).setDuty a (.back .returned)).duties a =
          .back .returned := Function.update_self _ _ _
      apply ordered.touched touches
      · apply touches.released ordered.locks
        · rw [known]
          rfl
        · rw [own]
          rfl
      · have still : ((m.modify a unlockRunning).setDuty a (.back .returned)).allocated a =
            true := ordered.used busy
        apply (ordered.settled a).kept still
        · unfold Machine.living
          rw [self, own]
          exact alive.returns.congr rfl rfl
        · rfl
        · rw [self]
          rfl
        · exact Or.inl
        · exact id
      · rfl
  | teardown =>
      have alive := ordered.child known rfl
      cases ran
      have torn : Ordered (kmtTeardown a m) := ordered.teardown a
      apply torn.serves
      · change (m.duties a).done = false
        rw [known]
        rfl
      · intro _
        change (m.duties a).holds = true
        rw [known]
        rfl
      · exact alive.serves_dead (alive.late rfl) rfl rfl (by simp) (by simp)
  | free =>
      cases ran
      apply ordered.frees
      · rw [known]
        rfl
      · rw [known]
        rfl
  | returned => cases ran

theorem kmt_wait_ordered (ordered : Ordered m) {next : Wait} (known : m.duties a = .wait next)
    (ran : kmtWait a next m = some m') : Ordered m' := by
  have busy : (m.duties a).done = false := by
    rw [known]
    cases next <;> rfl
  cases next with
  | test =>
      have alive := ordered.child known rfl
      simp only [kmtWait] at ran
      split at ran
      next dead =>
        cases ran
        apply ordered.serves busy
        · intro holds
          cases holds
        · exact alive.serves_dead (alive.zombie.mp dead) rfl rfl (by simp) (by simp)
      next =>
        cases ran
        exact ordered
  | lock =>
      have alive := ordered.child known rfl
      apply ordered.seize ran busy
      exact alive.serves_dead (alive.late rfl) rfl rfl (by simp) (by simp)
  | teardown =>
      have alive := ordered.child known rfl
      cases ran
      have torn : Ordered (kmtTeardown a m) := ordered.teardown a
      apply torn.serves busy
      · intro _
        change (m.duties a).holds = true
        rw [known]
        rfl
      · exact alive.serves_dead (alive.late rfl) rfl rfl (by simp) (by simp)
  | free =>
      cases ran
      apply ordered.frees
      · rw [known]
        rfl
      · rw [known]
        rfl

/-- The task that calls `exit` is current, so its creator does not hold it. -/
theorem exit_ordered (ordered : Ordered m) {cpu : Nat} (current : m.currents cpu = some a)
    (ran : exitStep a m = some m') : Ordered m' := by
  have used := ordered.of_holds (show m.holds (.cpu cpu) a from Or.inl current)
  have alive := (ordered.settled a).living used
  have unheld : (m.duties a).holds = false := by
    cases known : (m.duties a).holds with
    | false => rfl
    | true => exact absurd current (ordered.apart known cpu).1
  unfold exitStep at ran
  unfold Machine.living at alive
  split at ran
  next before =>
    cases ran
    have touches := (touches_modify m a (setFlag taskZombie)).trans (touches_exit _ a .zombie)
    have late : (m.duties a).early = false := by
      cases known : (m.duties a).early with
      | false => rfl
      | true =>
          unfold Duty.early at known
          split at known
          next mark =>
            rw [mark] at unheld
            cases unheld
          next unlock =>
            rw [unlock] at unheld
            cases unheld
          next => cases known
    rw [before] at alive
    apply ordered.touched touches
    · apply touches.same_locks ordered.locks
      · intro held
        unfold Machine.held
        simp only [Machine.modify, Function.update_self]
        exact held
      · exact id
    · apply (ordered.settled a).kept
      · exact used
      · unfold Machine.living
        simp only [Machine.modify, Function.update_self]
        exact alive.dies ⟨cpu, current⟩ late
      · rfl
      · simp only [Machine.modify, Function.update_self]
        rfl
      · simp
      · simp
    · rfl
  next zombie =>
    cases ran
    have touches : Touches m { m with
        tasks := Function.update m.tasks (m.memory a).pid none
        exits := Function.update m.exits a .unlisted } a := by
      constructor
      · exact fun _ _ => rfl
      · exact fun _ _ => rfl
      · exact fun _ other => Function.update_of_ne other _ _
      · exact fun _ _ => rfl
      · rfl
      · rfl
      · exact fun _ _ _ stands => of_update stands (by simp)
      · exact fun _ _ => Iff.rfl
    rw [zombie] at alive
    apply ordered.touched touches
    · apply touches.same_locks ordered.locks
      · exact id
      · exact id
    · apply settled_used
      · exact used
      · unfold Machine.living
        simp only [Function.update_self]
        exact alive.unlists
      · intro slot stands
        by_cases same : slot = (m.memory a).pid
        · simp [same] at stands
        · simp only [Function.update_of_ne same] at stands
          exact absurd ((ordered.settled a).listed slot stands).2.1.symm same
    · rfl
  next unlisted =>
    rw [unlisted] at alive
    have leaves := alive.leaves
    have unlist : ∀ slot, m.tasks slot ≠ some a := by
      intro slot stands
      have listed := ((ordered.settled a).listed slot stands).2.2
      rw [unlisted] at listed
      rcases listed with early | late
      · cases early
      · cases late
    split at ran
    next marked =>
      rcases Option.map_eq_some_iff.mp ran with ⟨queue, added, rfl⟩
      have after := enqueue_entries ordered.ring added
      have touches : Touches m { m with
          ctxQueue := queue
          exits := Function.update m.exits a .left } a := by
        constructor
        · exact fun _ _ => rfl
        · exact fun _ _ => rfl
        · exact fun _ other => Function.update_of_ne other _ _
        · exact fun _ _ => rfl
        · rfl
        · rfl
        · exact fun _ _ _ stands => stands
        · intro b other
          change some b ∈ queue.entries ↔ _
          rw [after.1]
          simp [other]
      constructor
      · apply touches.same_locks ordered.locks
        · exact id
        · exact id
      · apply touches.settled ordered.settled
        apply settled_used
        · exact used
        · unfold Machine.living
          simp only [Function.update_self]
          apply alive.left
          rw [after.1]
          simp [leaves.1.mp marked]
        · exact fun slot stands => absurd stands (unlist slot)
      · exact after.2
      · change queue.entries.Nodup
        rw [after.1, List.nodup_append]
        simp only [List.nodup_cons, List.not_mem_nil, not_false_eq_true, List.nodup_nil, and_self,
          List.mem_singleton, forall_eq, true_and, ne_eq]
        constructor
        · exact ordered.once
        · intro entry queued same
          rw [same] at queued
          exact leaves.2 queued
      · change none ∉ queue.entries
        rw [after.1]
        simp [ordered.real]
    next unmarked =>
      cases ran
      have touches := touches_exit m a .left
      apply ordered.touched touches
      · apply touches.same_locks ordered.locks
        · exact id
        · exact id
      · apply settled_used
        · exact used
        · unfold Machine.living
          simp only [Function.update_self]
          apply alive.left
          constructor
          · exact fun queued => absurd queued leaves.2
          · exact fun returned => absurd (leaves.1.mpr returned) unmarked
        · exact fun slot stands => absurd stands (unlist slot)
      · rfl
  next => cases ran

theorem kmt_create_ordered (ordered : Ordered m) {cpu : Nat} {duty : Duty}
    (starts : m.starts cpu duty = true) (ran : kmtCreate cpu a duty m = some m') : Ordered m' := by
  have start : duty = .none ∨ duty = .back .lock ∨ duty = .wait .test := by
    unfold Machine.starts at starts
    simp only [Bool.or_eq_true, decide_eq_true_eq, Bool.and_eq_true] at starts
    rcases starts with none | ⟨-, back | wait⟩
    · exact Or.inl none
    · exact Or.inr (Or.inl back)
    · exact Or.inr (Or.inr wait)
  unfold kmtCreate at ran
  split at ran
  next => cases ran
  next unused =>
    rcases Option.map_eq_some_iff.mp ran with ⟨pid, found, rfl⟩
    have free := add_task_free found
    have gone := (ordered.settled a).gone (Bool.eq_false_iff.mpr unused)
    have unheld : ¬m.held a := fun held => unused held.1
    have touches : Touches m { m with
        memory := Function.update m.memory a (blankTask pid)
        allocated := Function.update m.allocated a true
        tasks := Function.update m.tasks pid (some a)
        pid := pid
        exits := Function.update m.exits a .before
        duties := Function.update m.duties a duty
        creators := Function.update m.creators a (m.currents cpu)
        log := .created a :: m.log } a := by
      constructor
      · exact fun _ other => Function.update_of_ne other _ _
      · exact fun _ other => Function.update_of_ne other _ _
      · exact fun _ other => Function.update_of_ne other _ _
      · exact fun _ other => Function.update_of_ne other _ _
      · rfl
      · rfl
      · exact fun _ _ other stands => of_update stands (by simp [Ne.symm other])
      · exact fun _ _ => Iff.rfl
    apply ordered.touched touches
    · apply touches.unheld ordered.locks unheld
      simp only [Function.update_self]
      rcases start with rfl | rfl | rfl <;> rfl
    · apply settled_used
      · exact Function.update_self a true m.allocated
      · unfold Machine.living
        simp only [Function.update_self]
        constructor
        · simp [Task.has, blankTask]
        · rcases start with rfl | rfl | rfl <;> simp [Task.has, blankTask, Duty.marked]
        · simp
        · simp
        · rcases start with rfl | rfl | rfl <;> simp [Duty.late]
        · simp [gone.2]
      · intro slot stands
        simp only [Function.update_self]
        by_cases same : slot = pid
        · simp [same, blankTask]
        · simp only [Function.update_of_ne same] at stands
          exact absurd ((ordered.settled a).listed slot stands).1 unused
    · rfl

end Acts

section Traps

variable {T : Type} [DecidableEq T] {m m' : Machine T} {a : T}

theorem unlock_last_memory (cpu : Nat) (m : Machine T) (b : T) :
    (unlockLast cpu m).memory b = m.memory b ∨
      (unlockLast cpu m).memory b = unlockRunning (m.memory b) ∧
        m.lasts cpu = some b ∧ m.currents cpu ≠ some b := by
  unfold unlockLast
  cases known : m.lasts cpu with
  | none => exact Or.inl rfl
  | some last =>
      by_cases differs : m.currents cpu ≠ some last
      · simp only [if_pos differs]
        by_cases same : b = last
        · right
          rw [same]
          exact ⟨Function.update_self _ _ _, rfl, differs⟩
        · left
          exact Function.update_of_ne same _ _
      · simp only [if_neg differs]
        exact Or.inl trivial

/-- Nothing but memory changes. -/
theorem unlock_last_frame (cpu : Nat) (m : Machine T) :
    unlockLast cpu m = { m with memory := (unlockLast cpu m).memory } := by
  unfold unlockLast
  split
  next => split <;> rfl
  next => rfl

/-- The CPU gives up the task it had left before, and holds the one it leaves now. -/
theorem save_last_ordered (ordered : Ordered m) (cpu : Nat) :
    Ordered (setLast cpu (unlockLast cpu m)) := by
  rw [unlock_last_frame]
  have memory := unlock_last_memory cpu m
  have fewer : ∀ holder b, (setLast cpu { m with memory := (unlockLast cpu m).memory }).holds holder b →
      m.holds holder b := by
    intro holder b holds
    cases holder with
    | creator => exact holds
    | cpu other =>
        rcases holds with current | last
        · exact Or.inl current
        · by_cases same : other = cpu
          · rw [same] at last ⊢
            exact Or.inl ((Function.update_self cpu _ _).symm.trans last)
          · exact Or.inr ((Function.update_of_ne same _ _).symm.trans last)
  constructor
  · apply ordered.locks.shrink fewer
    intro holder b holds held
    rcases memory b with kept | ⟨opened, last, left⟩
    · constructor
      · exact held.1
      · change ((unlockLast cpu m).memory b).running = true
        rw [kept]
        exact held.2
    · have same := ordered.locks.unique holder (.cpu cpu) b (fewer holder b holds) (Or.inr last)
      rw [same] at holds
      rcases holds with current | now
      · exact absurd current left
      · simp only [setLast, Function.update_self] at now
        exact absurd now left
  · intro b
    have settled := ordered.settled b
    apply settled.congr
    · rfl
    · rfl
    · rfl
    · rfl
    · rfl
    · change ((unlockLast cpu m).memory b).pid = _
      rcases memory b with kept | ⟨opened, -⟩
      · rw [kept]
      · rw [opened]
        rfl
    · change ((unlockLast cpu m).memory b).attr = _
      rcases memory b with kept | ⟨opened, -⟩
      · rw [kept]
      · rw [opened]
        rfl
    · exact fun _ runs => runs
  · exact ordered.ring
  · exact ordered.once
  · exact ordered.real

theorem kmt_context_save_ordered (ordered : Ordered m) (cpu : Nat) :
    Ordered (kmtContextSave cpu m) := by
  have saved := save_last_ordered ordered cpu
  unfold kmtContextSave saveContext
  split
  next => exact saved.modify rfl rfl rfl rfl
  next => exact saved

theorem unlock_last_attr (cpu : Nat) : ((unlockLast cpu m).memory a).attr = (m.memory a).attr := by
  rcases unlock_last_memory cpu m a with kept | ⟨opened, -⟩
  · rw [kept]
  · rw [opened]
    rfl

/-- `kmt_context_save` changes memory and what is last on its CPU. -/
theorem save_frame (cpu : Nat) (m : Machine T) :
    kmtContextSave cpu m = { m with
      memory := (kmtContextSave cpu m).memory
      lasts := Function.update m.lasts cpu (m.currents cpu) } := by
  unfold kmtContextSave saveContext
  rw [unlock_last_frame]
  split <;> rfl

theorem save_attr (cpu : Nat) (m : Machine T) (a : T) :
    ((kmtContextSave cpu m).memory a).attr = (m.memory a).attr := by
  unfold kmtContextSave saveContext
  split
  next current known =>
    by_cases same : a = current
    · rw [← same]
      simp only [Machine.modify, Function.update_self]
      exact unlock_last_attr cpu
    · simp only [Machine.modify, Function.update_of_ne same]
      exact unlock_last_attr cpu
  next => exact unlock_last_attr cpu

theorem save_trapped (cpu : Nat) (m : Machine T) :
    (kmtContextSave cpu m).trapped cpu = m.trapped cpu := by
  have attr := save_attr cpu m
  unfold Machine.trapped Task.has
  simp only [attr]
  rw [save_frame]

theorem switch_ordered (ordered : Ordered m) (cpu : Nat) (rand : Nat → Nat)
    (alive : ∀ b, m.currents cpu = some b → m.exits b ≠ .zombie) :
    Ordered (kmtContextSwitch cpu rand m) := by
  -- a task that has just become a zombie is current on another CPU
  have runs : ∀ b next, m.exits b = .zombie →
      (∃ other, m.currents other = some b) →
        ∃ other, Function.update m.currents cpu next other = some b := by
    intro b next exiting current
    rcases current with ⟨other, current⟩
    by_cases same : other = cpu
    · rw [same] at current
      exact absurd exiting (alive b current)
    · exact ⟨other, by rw [Function.update_of_ne same, current]⟩
  unfold kmtContextSwitch
  split
  next =>
    constructor
    · apply ordered.locks.shrink
      · intro holder b holds
        cases holder with
        | creator => exact holds
        | cpu other =>
            rcases holds with current | last
            · exact Or.inl (of_update current (by simp))
            · exact Or.inr last
      · exact fun _ _ _ held => held
    · intro b
      apply (ordered.settled b).congr
      · rfl
      · rfl
      · rfl
      · rfl
      · rfl
      · rfl
      · rfl
      · exact runs b none
    · exact ordered.ring
    · exact ordered.once
    · exact ordered.real
  next chosen drawn =>
    rcases draw_task_runnable drawn with ⟨slot, stands, -, unlocked⟩
    have used := ((ordered.settled chosen).listed slot stands).1
    have free : ¬m.held chosen := by
      intro held
      rw [held.2] at unlocked
      cases unlocked
    have taken : (m.modify chosen lockRunning).memory chosen = lockRunning (m.memory chosen) :=
      Function.update_self _ _ _
    have others : ∀ b, b ≠ chosen → (m.modify chosen lockRunning).memory b = m.memory b :=
      fun b other => Function.update_of_ne other _ _
    constructor
    · apply ordered.locks.evolve
      · intro holder b holds
        by_cases same : b = chosen
        · rw [same]
          constructor
          · exact used
          · change ((m.modify chosen lockRunning).memory chosen).running = true
            rw [taken]
            rfl
        · have before : m.holds holder b := by
            cases holder with
            | creator => exact holds
            | cpu other =>
                rcases holds with current | last
                · exact Or.inl (of_update current (by simp [Ne.symm same]))
                · exact Or.inr last
          have held := ordered.locks.locked holder b before
          constructor
          · exact held.1
          · change ((m.modify chosen lockRunning).memory b).running = true
            rw [others b same]
            exact held.2
      · intro holder b holds
        by_cases same : b = chosen
        · right
          rw [same] at holds ⊢
          have only : ∀ other, Machine.holds { m.modify chosen lockRunning with
              currents := Function.update m.currents cpu (some chosen)
              ncli := Function.update m.ncli cpu (m.memory chosen).ncli
              intena := Function.update m.intena cpu (m.memory chosen).intena } other chosen →
              other = .cpu cpu := by
            intro other holding
            cases other with
            | creator => exact absurd holding (ordered.locks.free free .creator)
            | cpu other =>
                by_cases here : other = cpu
                · rw [here]
                · have before : m.holds (.cpu other) chosen := by
                    rcases holding with current | last
                    · left
                      simpa [here] using current
                    · exact Or.inr last
                  exact absurd before (ordered.locks.free free (.cpu other))
          constructor
          · exact free
          · intro other also
            rw [only other also, only holder holds]
        · left
          cases holder with
          | creator => exact holds
          | cpu other =>
              rcases holds with current | last
              · exact Or.inl (of_update current (by simp [Ne.symm same]))
              · exact Or.inr last
    · intro b
      have settled := ordered.settled b
      apply settled.congr
      · rfl
      · rfl
      · rfl
      · rfl
      · rfl
      · change ((m.modify chosen lockRunning).memory b).pid = _
        by_cases same : b = chosen
        · rw [same, taken]
          rfl
        · rw [others b same]
      · change ((m.modify chosen lockRunning).memory b).attr = _
        by_cases same : b = chosen
        · rw [same, taken]
          rfl
        · rw [others b same]
      · exact runs b (some chosen)
    · exact ordered.ring
    · exact ordered.once
    · exact ordered.real

theorem kmt_context_switch_ordered (ordered : Ordered m) (cpu : Nat) (rand : Nat → Nat)
    (trapped : m.trapped cpu = true) : Ordered (kmtContextSwitch cpu rand m) := by
  apply switch_ordered ordered
  intro b current exiting
  unfold Machine.trapped at trapped
  simp [current, exiting] at trapped

/-- A task in `ctx_queue` whose lock is free is reclaimed; else it goes to the end. -/
theorem kmt_context_clean_ordered (ordered : Ordered m) (ran : kmtContextClean m = some m') :
    Ordered m' := by
  unfold kmtContextClean at ran
  rcases dequeue_entries ordered.ring with ⟨-, empty⟩ | ⟨entry, rest, entries, first, left, sound⟩
  · rw [empty] at ran
    cases ran
    exact ordered
  · have real := ordered.real
    have once := ordered.once
    rw [entries] at real once
    cases entry with
    | none => exact absurd List.mem_cons_self real
    | some b =>
        have queued : some b ∈ m.ctxQueue.entries := by
          rw [entries]
          exact List.mem_cons_self
        have absent : some b ∉ rest := (List.nodup_cons.mp once).1
        have taken : dequeue m.ctxQueue = (some b, (dequeue m.ctxQueue).2) := by
          rw [← first]
        rw [taken] at ran
        simp only at ran
        split at ran
        next busy =>
          rcases Option.map_eq_some_iff.mp ran with ⟨queue, added, rfl⟩
          have after := enqueue_entries sound added
          rw [left] at after
          have same : ∀ entry, entry ∈ queue.entries ↔ entry ∈ m.ctxQueue.entries := by
            intro entry
            rw [after.1, entries, List.mem_append, List.mem_singleton, List.mem_cons]
            exact or_comm
          constructor
          · exact ordered.locks
          · intro c
            have settled := ordered.settled c
            constructor
            · exact settled.listed
            · intro used
              unfold Machine.living
              rw [same]
              exact settled.living used
            · rw [same]
              exact settled.gone
          · exact after.2
          · change queue.entries.Nodup
            rw [after.1]
            exact (List.perm_append_singleton (some b) rest).nodup_iff.mpr once
          · change none ∉ queue.entries
            rw [same]
            exact ordered.real
        next free =>
          cases ran
          have settled := ordered.settled b
          have used : m.allocated b = true := by
            cases known : m.allocated b with
            | true => rfl
            | false => exact absurd queued (settled.gone known).2
          have place := (settled.living used).queued.mp queued
          have unheld : ¬m.held b := fun held => free held.2
          have touches : Touches m (freeTask b (kmtTeardown b { m.modify b lockRunning with
              ctxQueue := (dequeue m.ctxQueue).2 })) b := by
            constructor
            · exact fun _ other => Function.update_of_ne other _ _
            · exact fun _ other => Function.update_of_ne other _ _
            · exact fun _ _ => rfl
            · exact fun _ _ => rfl
            · rfl
            · rfl
            · exact fun _ _ _ stands => stands
            · intro c other
              change some c ∈ (dequeue m.ctxQueue).2.entries ↔ _
              rw [left, entries]
              simp [other]
          constructor
          · apply touches.unheld ordered.locks unheld
            change (m.duties b).holds = false
            rw [place.2]
            rfl
          · apply touches.settled ordered.settled
            constructor
            · intro slot stands
              have listed := (settled.listed slot stands).2.2
              rw [place.1] at listed
              rcases listed with early | late
              · cases early
              · cases late
            · intro still
              have unused := Function.update_self b false m.allocated
              cases unused.symm.trans still
            · intro _
              constructor
              · change (m.duties b).done = true
                rw [place.2]
                rfl
              · change some b ∉ (dequeue m.ctxQueue).2.entries
                rw [left]
                exact absent
          · exact sound
          · change (dequeue m.ctxQueue).2.entries.Nodup
            rw [left]
            exact (List.nodup_cons.mp once).2
          · change none ∉ (dequeue m.ctxQueue).2.entries
            rw [left]
            exact fun listed => real (List.mem_cons_of_mem _ listed)

theorem step_ordered (act : TaskAct T) (m next : Machine T) (ordered : Ordered m)
    (stepped : taskStep act m = some next) : Ordered next := by
  cases act with
  | trap cpu rand =>
      simp only [taskStep] at stepped
      split at stepped
      next trapped =>
        have saved := kmt_context_save_ordered ordered cpu
        have still := (save_trapped cpu m).trans trapped
        exact kmt_context_clean_ordered (kmt_context_switch_ordered saved cpu rand still) stepped
      next => cases stepped
  | create cpu new duty =>
      simp only [taskStep] at stepped
      split at stepped
      next starts => exact kmt_create_ordered ordered starts stepped
      next => cases stepped
  | count cpu ncli intena =>
      cases stepped
      constructor
      · exact ordered.locks
      · intro a
        have settled := ordered.settled a
        exact ⟨settled.listed, settled.living, settled.gone⟩
      · exact ordered.ring
      · exact ordered.once
      · exact ordered.real
  | sleep cpu =>
      rcases Option.map_eq_some_iff.mp stepped with ⟨a, -, rfl⟩
      apply ordered.modify
      · rfl
      · rfl
      · exact has_set_other (by decide)
      · exact has_set_other (by decide)
  | wake a =>
      simp only [taskStep] at stepped
      split at stepped
      next =>
        cases stepped
        apply ordered.modify
        · rfl
        · rfl
        · exact has_neg_other (by decide)
        · exact has_neg_other (by decide)
      next => cases stepped
  | exit cpu =>
      rcases Option.bind_eq_some_iff.mp stepped with ⟨a, current, ran⟩
      exact exit_ordered ordered current ran
  | serve cpu a =>
      simp only [taskStep] at stepped
      split at stepped
      next =>
        split at stepped
        next => cases stepped
        next known => exact run_back_cmd_ordered ordered known stepped
        next known => exact kmt_wait_ordered ordered known stepped
      next => cases stepped

/-- Every state of every run is in order. -/
theorem run_ordered {memory : T → Task} {ncli intena : Nat → BitVec 32} {acts : List (TaskAct T)}
    {final : Machine T} (ran : runSteps taskStep acts (powered memory ncli intena) = some final) :
    Ordered final :=
  run_preserves taskStep step_ordered acts _ final (powered_ordered memory ncli intena) ran

end Traps

end OsWorkbench.Kernel
