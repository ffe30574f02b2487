import OsWorkbench.Kernel.Pipeline
import OsWorkbench.Kernel.RefCounts

/-!
# Who keeps the write end

What a step on descriptors does to the tasks that have a file and to the `open` of a pipe, and the
part of the invariant of a pipeline that is about its two ends: once `open` is cleared, no task keeps
the write end.
-/

namespace OsWorkbench.Kernel

open Library

section Keepers

variable {s s' : Descriptors} {t i f : Nat} {task : FdTask}

theorem keeps_iff : task.keeps f = true ↔ some f ∈ task.fd ∨ task.backup = some (some f) := by
  unfold FdTask.keeps
  simp

theorem slot_mem (points : task.slot i = some f) : some f ∈ task.fd := by
  have inside := slot_inside points
  unfold FdTask.slot at points
  rw [← task.size] at inside
  rw [List.getD_eq_getElem _ _ inside] at points
  rw [← points]
  exact List.getElem_mem inside

theorem put_mem {slot : Option Nat} (member : some f ∈ (task.put i slot).fd) :
    some f ∈ task.fd ∨ slot = some f := by
  rcases List.mem_or_eq_of_mem_set member with old | new
  · exact Or.inl old
  · exact Or.inr new.symm

/-- What was moved from a slot into another one was there before. -/
theorem move_mem {dst src : Nat}
    (member : some f ∈ ((task.put dst (task.slot src)).put src none).fd) : some f ∈ task.fd := by
  rcases put_mem member with once | none
  · rcases put_mem once with old | moved
    · exact old
    · exact slot_mem moved
  · cases none

/-- What a step changes for the tasks that have a file: its actor gets it from nowhere, and a new
task gets it from the actor. -/
structure Hands (f : Nat) (actor : Option Nat) (s s' : Descriptors) : Prop where
  others : ∀ t, actor ≠ some t → t < s.tasks.length → s'.tasks[t]? = s.tasks[t]?
  keepers : ∀ t task', s'.tasks[t]? = some task' → task'.keeps f = true →
    (∃ task, s.tasks[t]? = some task ∧ task.keeps f = true) ∨
      (s.tasks.length ≤ t ∧ ∃ creator task, actor = some creator ∧
        s.tasks[creator]? = some task ∧ task.keeps f = true)
  tasks : s.tasks.length ≤ s'.tasks.length
  files : s.files.length ≤ s'.files.length

theorem Hands.set (listed : s.tasks[t]? = some task) {task' : FdTask}
    (kept : task'.keeps f = true → task.keeps f = true) {files : List Vfile}
    (more : s.files.length ≤ files.length) {opens : List Bool} :
    Hands f (some t) s ⟨s.tasks.set t task', files, opens⟩ where
  others := by
    intro u other _
    exact List.getElem?_set_ne fun same => other (congrArg some same)
  keepers := by
    intro u after found keeps
    change (s.tasks.set t task')[u]? = some after at found
    left
    by_cases same : t = u
    · subst same
      have inside := (List.getElem?_eq_some_iff.mp listed).1
      rw [List.getElem?_set_self inside, Option.some.injEq] at found
      rw [← found] at keeps
      exact ⟨task, listed, kept keeps⟩
    · rw [List.getElem?_set_ne same] at found
      exact ⟨after, found, keeps⟩
  tasks := by
    change _ ≤ (s.tasks.set t task').length
    rw [List.length_set]
  files := more

theorem Hands.add {actor : Option Nat} {child : FdTask}
    (kept : child.keeps f = true → ∃ creator task, actor = some creator ∧
      s.tasks[creator]? = some task ∧ task.keeps f = true) {files : List Vfile}
    (more : s.files.length ≤ files.length) {opens : List Bool} :
    Hands f actor s ⟨s.tasks ++ [child], files, opens⟩ where
  others := by
    intro u _ inside
    exact List.getElem?_append_left inside
  keepers := by
    intro u after found keeps
    change (s.tasks ++ [child])[u]? = some after at found
    rcases Nat.lt_or_ge u s.tasks.length with inside | new
    · rw [List.getElem?_append_left inside] at found
      exact Or.inl ⟨after, found, keeps⟩
    · rw [List.getElem?_append_right new] at found
      have only := List.mem_singleton.mp (List.mem_of_getElem? found)
      rw [only] at keeps
      exact Or.inr ⟨new, kept keeps⟩
  tasks := by
    change _ ≤ (s.tasks ++ [child]).length
    rw [List.length_append]
    omega
  files := more

theorem inherit_length (fd : List (Option Nat)) (files : List Vfile) :
    (inherit fd files).length = files.length := by
  induction fd generalizing files with
  | nil => rfl
  | cons slot rest hypothesis =>
      cases slot with
      | none => exact hypothesis files
      | some g => exact (hypothesis _).trans (List.length_modify ..)

theorem blank_keeps : FdTask.blank.keeps f = false := by
  unfold FdTask.keeps FdTask.blank
  simp

theorem open_hands (listed : s.tasks[t]? = some task) (old : f < s.files.length)
    {inode : Option FileSystem} (stepped : s.vfsOpen t task inode = some s') :
    Hands f (some t) s s' := by
  rcases vfs_open_cases stepped with rfl | ⟨fd, kind, -, rfl⟩
  · exact ⟨fun _ _ _ => rfl, fun u after found keeps => Or.inl ⟨after, found, keeps⟩,
      Nat.le_refl _, Nat.le_refl _⟩
  · refine Hands.set listed ?_ (by simp)
    intro keeps
    rw [keeps_iff] at keeps ⊢
    rcases keeps with slot | backup
    · rcases put_mem slot with before | new
      · exact Or.inl before
      · cases new
        exact absurd old (Nat.lt_irrefl _)
    · exact Or.inr backup

theorem pipe_hands (listed : s.tasks[t]? = some task) (old : f < s.files.length)
    (stepped : s.pipe t task = some s') : Hands f (some t) s s' := by
  obtain ⟨i, j, -, -, rfl⟩ := pipe_cases stepped
  refine Hands.set listed ?_ (by simp)
  intro keeps
  rw [keeps_iff] at keeps ⊢
  rcases keeps with slot | backup
  · rcases put_mem slot with once | new
    · rcases put_mem once with before | new
      · exact Or.inl before
      · cases new
        exact absurd old (Nat.lt_irrefl _)
    · simp only [Option.some.injEq] at new
      omega
  · exact Or.inr backup

theorem close_hands (listed : s.tasks[t]? = some task) {held : FdTask}
    (same : held.fd = task.fd) (saved : held.backup = task.backup)
    (stepped : s.vfsClose t held i = some s') : Hands f (some t) s s' := by
  obtain ⟨g, file, -, -, -, rfl⟩ := vfs_close_cases stepped
  refine Hands.set listed ?_ (by simp)
  intro keeps
  rw [keeps_iff] at keeps ⊢
  rw [← same, ← saved]
  rcases keeps with slot | backup
  · rcases put_mem slot with before | none
    · exact Or.inl before
    · cases none
  · exact Or.inr backup

theorem fd_step_hands (act : FdAct) (old : f < s.files.length)
    (stepped : fdStep act s = some s') : Hands f act.actor s s' := by
  cases act with
  | openFile t inode =>
      rcases Option.bind_eq_some_iff.mp stepped with ⟨task, running, opened⟩
      exact open_hands (running_listed running) old opened
  | close t fd =>
      rcases Option.bind_eq_some_iff.mp stepped with ⟨task, running, closed⟩
      exact close_hands (running_listed running) rfl rfl closed
  | pipe t =>
      rcases Option.bind_eq_some_iff.mp stepped with ⟨task, running, piped⟩
      exact pipe_hands (running_listed running) old piped
  | create creator =>
      cases creator with
      | none =>
          cases stepped
          refine Hands.add ?_ (Nat.le_refl _)
          intro keeps
          rw [blank_keeps] at keeps
          cases keeps
      | some t =>
          rcases Option.bind_eq_some_iff.mp stepped with ⟨task, running, created⟩
          cases created
          refine Hands.add ?_ (Nat.le_of_eq (inherit_length _ _).symm)
          intro keeps
          refine ⟨t, task, rfl, running_listed running, ?_⟩
          rw [keeps_iff] at keeps ⊢
          rcases keeps with slot | backup
          · exact Or.inl slot
          · cases backup
  | exit t =>
      rcases Option.bind_eq_some_iff.mp stepped with ⟨task, running, exited⟩
      cases exited
      refine Hands.set (running_listed running) ?_ (Nat.le_refl _)
      exact id
  | leave t =>
      rcases Option.bind_eq_some_iff.mp stepped with ⟨task, listed, left⟩
      obtain ⟨i, -, ⟨-, rfl⟩ | closed | ⟨-, rfl⟩⟩ := leave_cases left
      · refine Hands.set listed ?_ (Nat.le_refl _)
        exact id
      · have same : ({ task with life := .leaving (i + 1) } : FdTask).fd = task.fd := rfl
        have saved : ({ task with life := .leaving (i + 1) } : FdTask).backup = task.backup := rfl
        exact close_hands listed same saved closed
      · refine Hands.set listed ?_ (Nat.le_refl _)
        exact id
  | redirectOut t =>
      rcases Option.bind_eq_some_iff.mp stepped with ⟨task, running, redirected⟩
      obtain ⟨r, w, -, rfl⟩ := redirect_out_cases redirected
      refine Hands.set (running_listed running) ?_ (Nat.le_refl _)
      intro keeps
      rw [keeps_iff] at keeps ⊢
      rcases keeps with slot | backup
      · exact Or.inl (move_mem slot)
      · exact Or.inl (slot_mem (Option.some.inj backup))
  | restoreOut t =>
      rcases Option.bind_eq_some_iff.mp stepped with ⟨task, running, restored⟩
      obtain ⟨backup, saved, rfl⟩ := restore_out_cases restored
      refine Hands.set (running_listed running) ?_ (Nat.le_refl _)
      intro keeps
      rw [keeps_iff] at keeps ⊢
      rcases keeps with slot | none
      · rcases put_mem slot with before | back
        · exact Or.inl before
        · right
          rw [saved, back]
      · cases none
  | redirectIn t =>
      rcases Option.bind_eq_some_iff.mp stepped with ⟨task, running, redirected⟩
      obtain ⟨r, w, -, rfl⟩ := redirect_in_cases redirected
      refine Hands.set (running_listed running) ?_ (Nat.le_refl _)
      intro keeps
      rw [keeps_iff] at keeps ⊢
      rcases keeps with slot | backup
      · exact Or.inl (move_mem slot)
      · exact Or.inr backup

end Keepers

section Flags

variable {s s' : Descriptors} {t i id : Nat} {task : FdTask}

/-- The `open` of a pipe stays as it is, or `vfs_close` clears it for one of its ends. -/
def Flagged (id : Nat) (act : FdAct) (s s' : Descriptors) : Prop :=
  s'.opens.getD id false = s.opens.getD id false ∨
    ∃ t i task held, s.closing act = some (t, i) ∧ s.endAt id (t, i) = true ∧
      s.tasks[t]? = some task ∧ held.fd = task.fd ∧ held.backup = task.backup ∧
        s'.tasks = s.tasks.set t (FdTask.put held i none) ∧ s'.opens.getD id false = false

theorem shut_flag (file : Vfile) (opens : List Bool) (inside : id < opens.length) :
    id < (shut file opens).length ∧
      ((shut file opens).getD id false = opens.getD id false ∨
        file.ops = .pipe id ∧ (shut file opens).getD id false = false) := by
  unfold shut
  cases file.ops with
  | fs kind => exact ⟨inside, Or.inl rfl⟩
  | pipe other =>
      constructor
      · rw [List.length_set]
        exact inside
      · by_cases same : other = id
        · right
          constructor
          · rw [same]
          · rw [same, List.getD_eq_getElem?_getD, List.getElem?_set_self inside]
            rfl
        · left
          rw [List.getD_eq_getElem?_getD, List.getElem?_set_ne same, ← List.getD_eq_getElem?_getD]

theorem close_flag {act : FdAct} (inside : id < s.opens.length) (listed : s.tasks[t]? = some task)
    {held : FdTask} (same : held.fd = task.fd) (saved : held.backup = task.backup)
    (closing : s.closing act = some (t, i)) (stepped : s.vfsClose t held i = some s') :
    id < s'.opens.length ∧ Flagged id act s s' := by
  obtain ⟨f, file, points, known, -, rfl⟩ := vfs_close_cases stepped
  have flag := shut_flag file s.opens inside
  refine ⟨flag.1, ?_⟩
  rcases flag.2 with kept | ⟨ops, cleared⟩
  · exact Or.inl kept
  · refine Or.inr ⟨t, i, task, held, closing, ?_, listed, same, saved, rfl, cleared⟩
    unfold Descriptors.endAt
    rw [slot_congr same] at points
    simp [listed, points, known, ops]

theorem fd_step_flag (act : FdAct) (inside : id < s.opens.length)
    (stepped : fdStep act s = some s') : id < s'.opens.length ∧ Flagged id act s s' := by
  cases act with
  | openFile t inode =>
      rcases Option.bind_eq_some_iff.mp stepped with ⟨task, running, opened⟩
      rcases vfs_open_cases opened with rfl | ⟨fd, kind, -, rfl⟩
      · exact ⟨inside, Or.inl rfl⟩
      · exact ⟨inside, Or.inl rfl⟩
  | close t fd =>
      rcases Option.bind_eq_some_iff.mp stepped with ⟨task, running, closed⟩
      exact close_flag inside (running_listed running) rfl rfl rfl closed
  | pipe t =>
      rcases Option.bind_eq_some_iff.mp stepped with ⟨task, running, piped⟩
      obtain ⟨i, j, -, -, rfl⟩ := pipe_cases piped
      constructor
      · rw [List.length_append]
        omega
      · left
        exact List.getD_append _ _ _ _ inside
  | create creator =>
      cases creator with
      | none =>
          cases stepped
          exact ⟨inside, Or.inl rfl⟩
      | some t =>
          rcases Option.bind_eq_some_iff.mp stepped with ⟨task, running, created⟩
          cases created
          exact ⟨inside, Or.inl rfl⟩
  | exit t =>
      rcases Option.bind_eq_some_iff.mp stepped with ⟨task, running, exited⟩
      cases exited
      exact ⟨inside, Or.inl rfl⟩
  | leave t =>
      rcases Option.bind_eq_some_iff.mp stepped with ⟨task, listed, left⟩
      obtain ⟨i, life, ⟨-, rfl⟩ | closed | ⟨-, rfl⟩⟩ := leave_cases left
      · exact ⟨inside, Or.inl rfl⟩
      · have same : ({ task with life := .leaving (i + 1) } : FdTask).fd = task.fd := rfl
        have saved : ({ task with life := .leaving (i + 1) } : FdTask).backup = task.backup := rfl
        have closing : s.closing (.leave t) = some (t, i) := by
          simp [Descriptors.closing, listed, life]
        exact close_flag inside listed same saved closing closed
      · exact ⟨inside, Or.inl rfl⟩
  | redirectOut t =>
      rcases Option.bind_eq_some_iff.mp stepped with ⟨task, running, redirected⟩
      obtain ⟨r, w, -, rfl⟩ := redirect_out_cases redirected
      exact ⟨inside, Or.inl rfl⟩
  | restoreOut t =>
      rcases Option.bind_eq_some_iff.mp stepped with ⟨task, running, restored⟩
      obtain ⟨backup, -, rfl⟩ := restore_out_cases restored
      exact ⟨inside, Or.inl rfl⟩
  | redirectIn t =>
      rcases Option.bind_eq_some_iff.mp stepped with ⟨task, running, redirected⟩
      obtain ⟨r, w, -, rfl⟩ := redirect_in_cases redirected
      exact ⟨inside, Or.inl rfl⟩

end Flags

section Ends

def NoWriter (s : Pipeline) : Prop :=
  ∀ t task, s.fds.tasks[t]? = some task → s.keeps t task = false

/-- How far `run_pipe_cmd` is. Before the left side exists, the parent has the write end. -/
inductive Staged (s : Pipeline) : Prop where
  | piped (task : FdTask) (i j : Nat) (agenda : s.agenda = runPipeCmd s.parent)
      (listed : s.fds.tasks[s.parent]? = some task) (pipefd : task.pipefd = some (i, j))
      (slot : task.slot j = some s.writeEnd) (isOpen : s.pipe.isOpen = true)
  | aside (task : FdTask) (agenda : s.agenda = (runPipeCmd s.parent).drop 1)
      (listed : s.fds.tasks[s.parent]? = some task) (keeps : task.keeps s.writeEnd = true)
      (isOpen : s.pipe.isOpen = true)
  | later (n : Nat) (agenda : s.agenda = (runPipeCmd s.parent).drop (n + 2))

/-- The invariant of the ends of a pipe. -/
structure Ends (s : Pipeline) : Prop where
  fileIn : s.writeEnd < s.fds.files.length
  flagIn : s.id < s.fds.opens.length
  parentIn : s.parent < s.fds.tasks.length
  flag : s.pipe.isOpen = s.fds.opens.getD s.id false
  staged : Staged s
  shut : s.pipe.isOpen = false → NoWriter s
  writes : ∀ call ∈ s.writers, (call.1 ≠ s.parent ∨ s.agenda = []) ∧
    ∃ task, s.fds.tasks[call.1]? = some task ∧ task.keeps s.writeEnd = true

variable {s : Pipeline} {fds : Descriptors} {t : Nat} {task : FdTask}

theorem keeps_plain (plain : t ≠ s.parent ∨ s.agenda = []) :
    s.keeps t task = task.keeps s.writeEnd := by
  unfold Pipeline.keeps
  apply if_neg
  rintro ⟨same, head⟩
  rcases plain with other | done
  · exact other same
  · rw [done] at head
    cases head

theorem free_plain (free : s.free t = true) :
    (t ≠ s.parent ∨ s.agenda = []) ∧ s.reading ≠ some t ∧ s.writers.lookup t = none := by
  unfold Pipeline.free at free
  simpa [and_assoc] using free

theorem keeps_congr {held : FdTask} (fd : held.fd = task.fd) (backup : held.backup = task.backup)
    (t : Nat) : s.keeps t held = s.keeps t task := by
  have plain {held task : FdTask} (fd : held.fd = task.fd) (backup : held.backup = task.backup) :
      held.keeps s.writeEnd = task.keeps s.writeEnd := by
    unfold FdTask.keeps
    rw [fd, backup]
  have restored : held.restored.keeps s.writeEnd = task.restored.keeps s.writeEnd := by
    apply plain
    · unfold FdTask.restored
      rw [backup]
      split
      · exact fd
      · unfold FdTask.put
        simp only [fd]
    · unfold FdTask.restored
      rw [backup]
      split
      · exact backup
      · exact backup
  unfold Pipeline.keeps
  rw [restored, plain fd backup]

/-- Steps that leave the descriptors and `open` alone. -/
theorem Ends.congr {s' : Pipeline} (ends : Ends s) (fds : s'.fds = s.fds)
    (parent : s'.parent = s.parent) (agenda : s'.agenda = s.agenda) (id : s'.id = s.id)
    (writeEnd : s'.writeEnd = s.writeEnd) (isOpen : s'.pipe.isOpen = s.pipe.isOpen)
    (writes : ∀ call ∈ s'.writers, (call.1 ≠ s.parent ∨ s.agenda = []) ∧
      ∃ task, s.fds.tasks[call.1]? = some task ∧ task.keeps s.writeEnd = true) : Ends s' := by
  have keeps (t : Nat) (task : FdTask) : s'.keeps t task = s.keeps t task := by
    unfold Pipeline.keeps
    rw [parent, agenda, writeEnd]
  constructor
  · rw [fds, writeEnd]
    exact ends.fileIn
  · rw [fds, id]
    exact ends.flagIn
  · rw [fds, parent]
    exact ends.parentIn
  · rw [isOpen, fds, id]
    exact ends.flag
  · cases ends.staged with
    | piped task i j agenda' listed pipefd slot isOpen' =>
        apply Staged.piped task i j
        · rw [agenda, parent]
          exact agenda'
        · rw [fds, parent]
          exact listed
        · exact pipefd
        · rw [writeEnd]
          exact slot
        · rw [isOpen]
          exact isOpen'
    | aside task agenda' listed keeps isOpen' =>
        apply Staged.aside task
        · rw [agenda, parent]
          exact agenda'
        · rw [fds, parent]
          exact listed
        · rw [writeEnd]
          exact keeps
        · rw [isOpen]
          exact isOpen'
    | later n agenda' =>
        apply Staged.later n
        rw [agenda, parent]
        exact agenda'
  · intro closed t task listed
    rw [isOpen] at closed
    rw [fds] at listed
    rw [keeps]
    exact ends.shut closed t task listed
  · intro call member
    rw [fds, parent, agenda, writeEnd]
    exact writes call member

/-- The tasks of the next state, where none of them has a new copy of the write end. -/
theorem NoWriter.hands (none : NoWriter s) (parentIn : s.parent < s.fds.tasks.length) {actor : Option Nat}
    (hands : Hands s.writeEnd actor s.fds fds)
    (plain : ∀ t, actor = some t → t ≠ s.parent ∨ s.agenda = []) : NoWriter (s.setFds fds) := by
  intro t task' found
  change fds.tasks[t]? = some task' at found
  change s.keeps t task' = false
  by_cases waits : t = s.parent ∧ s.agenda.head? = some (.restoreOut s.parent)
  · -- the parent is in `run_pipe_cmd`, and another task acts
    have other : actor ≠ some t := by
      intro acts
      rcases plain t acts with other | done
      · exact other waits.1
      · rw [done] at waits
        cases waits.2
    rw [hands.others t other (waits.1 ▸ parentIn)] at found
    exact none t task' found
  · have own : s.keeps t task' = task'.keeps s.writeEnd := if_neg waits
    rw [own]
    by_contra keeps
    have kept : task'.keeps s.writeEnd = true := by simpa using keeps
    rcases hands.keepers t task' found kept with ⟨task, listed, before⟩ | ⟨_, c, task, acts, listed, before⟩
    · have absent := none t task listed
      rw [show s.keeps t task = task.keeps s.writeEnd from if_neg waits, before] at absent
      cases absent
    · have absent := none c task listed
      rw [keeps_plain (plain c acts), before] at absent
      cases absent

/-- The condition of a close says that nobody keeps the write end after it. -/
theorem no_writer_closed {i : Nat} {held : FdTask} (listed : s.fds.tasks[t]? = some task)
    (fd : held.fd = task.fd) (backup : held.backup = task.backup)
    (closed : fds.tasks = s.fds.tasks.set t (held.put i none))
    (last : s.noWriter (s.fds.tasks.modify t fun task => task.put i none) = true) :
    NoWriter (s.setFds fds) := by
  intro u task' found
  change fds.tasks[u]? = some task' at found
  change s.keeps u task' = false
  have entries (after : FdTask)
      (known : (s.fds.tasks.modify t fun task => task.put i none)[u]? = some after) :
      s.keeps u after = false := by
    have checked := List.all_eq_true.mp last (after, u) (List.mem_zipIdx_iff_getElem?.mpr known)
    simpa using checked
  rw [closed] at found
  by_cases same : t = u
  · subst same
    rw [List.getElem?_set_self (List.getElem?_eq_some_iff.mp listed).1, Option.some.injEq] at found
    have known := entries (task.put i none) (by rw [List.getElem?_modify, listed]; simp)
    rw [← found, ← known]
    apply keeps_congr
    · unfold FdTask.put
      simp only [fd]
    · exact backup
  · rw [List.getElem?_set_ne same] at found
    exact entries task' (by rw [List.getElem?_modify, found]; simp [same])

/-- A step of a task that is not in `run_pipe_cmd`. -/
theorem ends_fd (ends : Ends s) {act : FdAct} (free : act.actor.all s.free = true)
    (stepped : fdStep act s.fds = some fds)
    (met : disciplined (.fd act) s = true) : Ends (s.setFds fds) := by
  have hands := fd_step_hands act ends.fileIn stepped
  have flag := fd_step_flag act ends.flagIn stepped
  have plain : ∀ t, act.actor = some t →
      (t ≠ s.parent ∨ s.agenda = []) ∧ s.reading ≠ some t ∧ s.writers.lookup t = none := by
    intro t acts
    rw [acts] at free
    exact free_plain free
  have away (busy : s.agenda ≠ []) : act.actor ≠ some s.parent := by
    intro acts
    rcases (plain s.parent acts).1 with other | done
    · exact other rfl
    · exact busy done
  have parent (busy : s.agenda ≠ []) : fds.tasks[s.parent]? = s.fds.tasks[s.parent]? :=
    hands.others s.parent (away busy) ends.parentIn
  have cleared : fds.opens.getD s.id false = s.fds.opens.getD s.id false ∨
      NoWriter (s.setFds fds) := by
    rcases flag.2 with kept | ⟨t, i, task, held, closing, endAt, listed, fd, backup, closed, -⟩
    · exact Or.inl kept
    · right
      have filtered : (s.fds.closing act).filter (s.fds.endAt s.id) = some (t, i) := by
        rw [closing, Option.filter_some, if_pos endAt]
      unfold disciplined at met
      simp only [filtered, Bool.and_eq_true] at met
      exact no_writer_closed listed fd backup closed met.1
  have holds (task : FdTask) (still : fds.tasks[s.parent]? = some task)
      (keeps : task.keeps s.writeEnd = true) (isOpen : s.pipe.isOpen = true)
      (head : s.agenda.head? ≠ some (.restoreOut s.parent)) :
      fds.opens.getD s.id false = true := by
    rcases cleared with same | none
    · exact same.trans (ends.flag.symm.trans isOpen)
    · have absent : s.keeps s.parent task = false := none s.parent task still
      have kept : s.keeps s.parent task = task.keeps s.writeEnd := if_neg fun both => head both.2
      rw [kept, keeps] at absent
      cases absent
  constructor
  · exact Nat.lt_of_lt_of_le ends.fileIn hands.files
  · exact flag.1
  · exact Nat.lt_of_lt_of_le ends.parentIn hands.tasks
  · rfl
  · cases ends.staged with
    | piped task i j agenda listed pipefd slot isOpen =>
        have still := (parent (by rw [agenda]; exact List.cons_ne_nil _ _)).trans listed
        have keeps : task.keeps s.writeEnd = true := keeps_iff.mpr (Or.inl (slot_mem slot))
        have open' := holds task still keeps isOpen (by rw [agenda]; exact nofun)
        exact @Staged.piped (s.setFds fds) task i j agenda still pipefd slot open'
    | aside task agenda listed keeps isOpen =>
        have still := (parent (by rw [agenda]; exact List.cons_ne_nil _ _)).trans listed
        have open' := holds task still keeps isOpen (by rw [agenda]; exact nofun)
        exact @Staged.aside (s.setFds fds) task agenda still keeps open'
    | later n agenda => exact Staged.later n agenda
  · intro closed
    rcases cleared with same | none
    · have before : s.pipe.isOpen = false := ends.flag.trans (same.symm.trans closed)
      exact (ends.shut before).hands ends.parentIn hands fun t acts => (plain t acts).1
    · exact none
  · intro call member
    rcases ends.writes call member with ⟨outside, task, listed, keeps⟩
    refine ⟨outside, task, ?_, keeps⟩
    have other : act.actor ≠ some call.1 := by
      intro acts
      have absent := (plain call.1 acts).2.2
      rw [List.lookup_eq_none_iff] at absent
      have clash := absent call member
      simp at clash
    exact (hands.others call.1 other (List.getElem?_eq_some_iff.mp listed).1).trans listed

theorem flagged_open {act : FdAct} (ends : Ends s) (quiet : s.fds.closing act = none)
    (stepped : fdStep act s.fds = some fds) :
    s.id < fds.opens.length ∧ fds.opens.getD s.id false = s.pipe.isOpen := by
  have flag := fd_step_flag act ends.flagIn stepped
  refine ⟨flag.1, ?_⟩
  rcases flag.2 with same | ⟨t, i, task, held, closing, -⟩
  · exact same.trans ends.flag.symm
  · rw [quiet] at closing
    cases closing

theorem redirect_out_keeps (running : s.fds.running t = some task)
    {i j f : Nat} (pipefd : task.pipefd = some (i, j)) (slot : task.slot j = some f)
    (stepped : fdStep (.redirectOut t) s.fds = some fds) :
    ∃ task', fds.tasks[t]? = some task' ∧ task'.keeps f = true := by
  have listed := running_listed running
  rcases Option.bind_eq_some_iff.mp stepped with ⟨other, same, redirected⟩
  rw [running, Option.some.injEq] at same
  subst same
  obtain ⟨r, w, also, rfl⟩ := redirect_out_cases redirected
  cases pipefd.symm.trans also
  have inside := (List.getElem?_eq_some_iff.mp listed).1
  refine ⟨_, List.getElem?_set_self inside, ?_⟩
  rw [keeps_iff]
  by_cases first : j = 1
  · right
    rw [first] at slot
    exact congrArg some slot
  · left
    apply @slot_mem 1
    change ((task.put 1 (task.slot j)).put j none).slot 1 = some f
    rw [put_slot_other first, put_slot_self (by decide), slot]

/-- The parent's own copy is gone for good once `fd[1]` is put back. -/
theorem restored_no_writer (none : NoWriter s) {rest : List FdAct}
    (agenda : s.agenda = .restoreOut s.parent :: rest)
    (onward : rest.head? ≠ some (.restoreOut s.parent))
    (stepped : fdStep (.restoreOut s.parent) s.fds = some fds) :
    NoWriter (({ s with agenda := rest } : Pipeline).setFds fds) := by
  rcases Option.bind_eq_some_iff.mp stepped with ⟨task, running, restored⟩
  have listed := running_listed running
  obtain ⟨backup, saved, rfl⟩ := restore_out_cases restored
  intro t task' found
  change (s.fds.tasks.set s.parent _)[t]? = some task' at found
  have keeps : (({ s with agenda := rest } : Pipeline).setFds
      (s.fds.setTask s.parent { task.put 1 backup with backup := Option.none })).keeps t task' =
      task'.keeps s.writeEnd := if_neg fun both => onward both.2
  rw [keeps]
  by_cases same : s.parent = t
  · subst same
    rw [List.getElem?_set_self (List.getElem?_eq_some_iff.mp listed).1, Option.some.injEq] at found
    have before := none s.parent task listed
    have waits : s.keeps s.parent task = task.restored.keeps s.writeEnd := by
      apply if_pos
      rw [agenda]
      exact ⟨rfl, rfl⟩
    rw [waits] at before
    unfold FdTask.restored at before
    rw [saved] at before
    rw [← found]
    by_contra kept
    have kept' : ({ task.put 1 backup with backup := Option.none } : FdTask).keeps s.writeEnd =
        true := by simpa using kept
    rw [keeps_iff] at kept'
    rcases kept' with slot | impossible
    · have clash : (task.put 1 backup).keeps s.writeEnd = true := keeps_iff.mpr (Or.inl slot)
      rw [before] at clash
      cases clash
    · cases impossible
  · rw [List.getElem?_set_ne same] at found
    have before := none t task' found
    rw [keeps_plain (Or.inl fun equal => same equal.symm)] at before
    exact before

/-- The steps of `run_pipe_cmd` after that. -/
theorem ordinary_no_writer (none : NoWriter s) {rest : List FdAct} {actor : Option Nat}
    (before : s.agenda.head? ≠ some (.restoreOut s.parent))
    (onward : rest.head? ≠ some (.restoreOut s.parent))
    (hands : Hands s.writeEnd actor s.fds fds) :
    NoWriter (({ s with agenda := rest } : Pipeline).setFds fds) := by
  intro t task' found
  have after : (({ s with agenda := rest } : Pipeline).setFds fds).keeps t task' =
      task'.keeps s.writeEnd := if_neg fun both => onward both.2
  have plain (u : Nat) (task : FdTask) : s.keeps u task = task.keeps s.writeEnd :=
    if_neg fun both => before both.2
  rw [after]
  by_contra keeps
  have kept : task'.keeps s.writeEnd = true := by simpa using keeps
  rcases hands.keepers t task' found kept with ⟨task, listed, had⟩ | ⟨_, c, task, _, listed, had⟩
  · have absent := none t task listed
    rw [plain, had] at absent
    cases absent
  · have absent := none c task listed
    rw [plain, had] at absent
    cases absent

theorem parent_staged (ends : Ends s) {act : FdAct} {rest : List FdAct}
    (agenda : s.agenda = act :: rest) (stepped : fdStep act s.fds = some fds)
    (isOpen : fds.opens.getD s.id false = s.pipe.isOpen) :
    Staged (({ s with agenda := rest } : Pipeline).setFds fds) := by
  cases ends.staged with
  | piped task i j known listed pipefd slot was =>
      rw [agenda] at known
      unfold runPipeCmd at known
      rcases List.cons.inj known with ⟨rfl, rfl⟩
      rcases Option.bind_eq_some_iff.mp stepped with ⟨other, running, -⟩
      have same := (running_listed running).symm.trans listed
      rw [Option.some.injEq] at same
      subst same
      rcases redirect_out_keeps running pipefd slot stepped with ⟨task', listed', keeps⟩
      exact Staged.aside task' rfl listed' keeps (isOpen.trans was)
  | aside task known listed keeps was =>
      rw [agenda] at known
      unfold runPipeCmd at known
      rcases List.cons.inj known with ⟨rfl, rfl⟩
      exact Staged.later 0 rfl
  | later n known =>
      apply Staged.later (n + 1)
      change rest = (runPipeCmd s.parent).drop (n + 3)
      rw [show n + 3 = (n + 2) + 1 by omega, ← List.drop_drop, ← known, agenda]
      rfl

theorem parent_shut (ends : Ends s) {act : FdAct} {rest : List FdAct}
    (agenda : s.agenda = act :: rest) (stepped : fdStep act s.fds = some fds)
    (closed : s.pipe.isOpen = false) :
    NoWriter (({ s with agenda := rest } : Pipeline).setFds fds) := by
  have none := ends.shut closed
  have hands := fd_step_hands act ends.fileIn stepped
  cases ends.staged with
  | piped _ _ _ _ _ _ _ was =>
      rw [closed] at was
      cases was
  | aside _ _ _ _ was =>
      rw [closed] at was
      cases was
  | later n known =>
      rw [agenda] at known
      match n with
      | 0 =>
          rcases List.cons.inj known with ⟨rfl, rfl⟩
          exact restored_no_writer none agenda nofun stepped
      | 1 =>
          rcases List.cons.inj known with ⟨rfl, rfl⟩
          exact ordinary_no_writer none (by rw [agenda]; exact nofun) nofun hands
      | 2 =>
          rcases List.cons.inj known with ⟨rfl, rfl⟩
          exact ordinary_no_writer none (by rw [agenda]; exact nofun) nofun hands
      | n + 3 =>
          have empty : (runPipeCmd s.parent).drop (n + 3 + 2) = [] :=
            List.drop_eq_nil_of_le (Nat.le_add_left 5 n)
          rw [empty] at known
          cases known

theorem parent_own (ends : Ends s) {act : FdAct} {rest : List FdAct}
    (agenda : s.agenda = act :: rest) :
    act.actor = some s.parent ∧ s.fds.closing act = none := by
  have listed : act ∈ runPipeCmd s.parent := by
    have member : act ∈ s.agenda := by
      rw [agenda]
      exact List.mem_cons_self
    cases ends.staged with
    | piped _ _ _ known => exact known ▸ member
    | aside _ known => exact List.mem_of_mem_drop (known ▸ member)
    | later _ known => exact List.mem_of_mem_drop (known ▸ member)
  simp only [runPipeCmd, List.mem_cons, List.not_mem_nil, or_false] at listed
  rcases listed with known | known | known | known | known <;> rw [known] <;> exact ⟨rfl, rfl⟩

theorem parent_flag (ends : Ends s) {act : FdAct} {rest : List FdAct}
    (agenda : s.agenda = act :: rest) (stepped : fdStep act s.fds = some fds) :
    s.id < fds.opens.length ∧ fds.opens.getD s.id false = s.pipe.isOpen :=
  flagged_open ends (parent_own ends agenda).2 stepped

/-- The next step of `run_pipe_cmd`. -/
theorem ends_parent (ends : Ends s) {act : FdAct} {rest : List FdAct}
    (agenda : s.agenda = act :: rest) (stepped : fdStep act s.fds = some fds) :
    Ends (({ s with agenda := rest } : Pipeline).setFds fds) := by
  have own := parent_own ends agenda
  have flag := parent_flag ends agenda stepped
  have hands := fd_step_hands act ends.fileIn stepped
  constructor
  · exact Nat.lt_of_lt_of_le ends.fileIn hands.files
  · exact flag.1
  · exact Nat.lt_of_lt_of_le ends.parentIn hands.tasks
  · rfl
  · exact parent_staged ends agenda stepped flag.2
  · intro closed
    exact parent_shut ends agenda stepped (flag.2.symm.trans closed)
  · intro call member
    rcases ends.writes call member with ⟨outside, task, known, keeps⟩
    have other : call.1 ≠ s.parent := by
      rcases outside with other | done
      · exact other
      · rw [agenda] at done
        cases done
    refine ⟨Or.inl other, task, ?_, keeps⟩
    have away : act.actor ≠ some call.1 := by
      rw [own.1]
      exact fun same => other (Option.some.inj same).symm
    exact (hands.others call.1 away (List.getElem?_eq_some_iff.mp known).1).trans known

end Ends

end OsWorkbench.Kernel
