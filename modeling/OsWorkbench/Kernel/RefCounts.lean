import OsWorkbench.Kernel.Descriptors

/-!
# Reference counts

`refcnt` against the number of slots that point to a file. Opening, inheriting and closing a file of
a file system keep them equal; `pipe_iclose` does not count down, and the assignments of
`run_pipe_cmd` drop what stood in the slot that they overwrite.
-/

namespace OsWorkbench.Kernel

open Library

/-- How many pairs of a task and a slot point to a file. -/
def pointers (tasks : List FdTask) (f : Nat) : Nat := references (tasks.map FdTask.fd) f

/-- A live file counts its pointers, and a file is freed if and only if it has none. -/
structure Vfile.Counts (file : Vfile) (number : Nat) : Prop where
  live : file.freed = false → file.refcnt = number
  freed : file.freed = true ↔ number = 0

structure Counted (s : Descriptors) : Prop where
  files : ∀ f (file : Vfile), s.files[f]? = some file → file.Counts (pointers s.tasks f)
  absent : ∀ f, s.files[f]? = none → pointers s.tasks f = 0

def InodeOps.isPipe : InodeOps → Bool
  | .fs _ => false
  | .pipe _ => true

def Descriptors.isPipe (s : Descriptors) (slot : Option Nat) : Bool :=
  match slot.bind fun f => s.files[f]? with
  | none => false
  | some file => file.ops.isPipe

/-- No descriptor of a pipe is closed, and no slot that is in use is overwritten. -/
def careful (act : FdAct) (s : Descriptors) : Bool :=
  match act with
  | .close t fd => s.tasks[t]?.all fun task => !s.isPipe (task.slot fd)
  | .leave t => s.tasks[t]?.all fun task =>
      match task.life with
      | .leaving i => !s.isPipe (task.slot i)
      | _ => true
  | .redirectOut t => s.tasks[t]?.all fun task => decide (task.slot 1 = none)
  | .restoreOut t => s.tasks[t]?.all fun task =>
      task.backup.all fun backup => decide (task.slot 1 = backup)
  | .redirectIn t => s.tasks[t]?.all fun task => decide (task.slot 0 = none)
  | _ => true

section Counting

variable {tasks : List FdTask} {t f i : Nat} {task : FdTask}

theorem pointers_set (listed : tasks[t]? = some task) (task' : FdTask) :
    pointers (tasks.set t task') f + task.fd.count (some f) =
      pointers tasks f + task'.fd.count (some f) := by
  unfold pointers
  rw [List.map_set]
  apply references_set
  rw [List.getElem?_map, listed]
  rfl

theorem pointers_add (task : FdTask) :
    pointers (tasks ++ [task]) f = pointers tasks f + task.fd.count (some f) := by
  unfold pointers
  rw [List.map_append, references_append]
  exact congrArg _ (references_single task.fd)

theorem count_le_pointers (listed : tasks[t]? = some task) :
    task.fd.count (some f) ≤ pointers tasks f := by
  have emptied := @pointers_set tasks t f task listed FdTask.blank
  have none : FdTask.blank.fd.count (some f) = 0 := by
    rw [List.count_eq_zero]
    intro member
    cases (List.mem_replicate.mp member).2
  omega

theorem pointed (listed : tasks[t]? = some task) (points : task.slot i = some f) :
    0 < pointers tasks f := by
  unfold pointers
  apply references_pos
  · rw [List.getElem?_map, listed]
    rfl
  · exact points

theorem put_count (inside : i < fdNum) (slot : Option Nat) :
    (task.put i slot).fd.count (some f) + indicator (task.slot i = some f) =
      task.fd.count (some f) + indicator (slot = some f) := by
  apply count_set
  rw [task.size]
  exact inside

theorem slot_outside (outside : fdNum ≤ i) : task.slot i = none := by
  unfold FdTask.slot
  rw [List.getD_eq_getElem?_getD, List.getElem?_eq_none (by rw [task.size]; exact outside)]
  rfl

theorem slot_inside (points : task.slot i = some f) : i < fdNum := by
  rcases Nat.lt_or_ge i fdNum with inside | outside
  · exact inside
  · rw [slot_outside outside] at points
    cases points

/-- Emptying a slot, in the table or not. -/
theorem drop_count :
    (task.put i none).fd.count (some f) + indicator (task.slot i = some f) =
      task.fd.count (some f) := by
  rcases Nat.lt_or_ge i fdNum with inside | outside
  · exact put_count inside none
  · have same : (task.put i none).fd = task.fd := by
      apply List.set_eq_of_length_le
      rw [task.size]
      exact outside
    rw [same, slot_outside outside]
    rfl

theorem put_slot_self (inside : i < fdNum) (slot : Option Nat) : (task.put i slot).slot i = slot := by
  unfold FdTask.slot FdTask.put
  rw [List.getD_eq_getElem?_getD, List.getElem?_set_self (by rw [task.size]; exact inside)]
  rfl

theorem put_slot_other {j : Nat} (other : j ≠ i) (slot : Option Nat) :
    (task.put j slot).slot i = task.slot i := by
  unfold FdTask.slot FdTask.put
  rw [List.getD_eq_getElem?_getD, List.getElem?_set_ne other, ← List.getD_eq_getElem?_getD]

/-- An assignment `fd[dst]=fd[src]` with `fd[src]=NULL` after it loses what stood in `dst`. -/
theorem move_count {dst src : Nat} (inside : dst < fdNum) :
    ((task.put dst (task.slot src)).put src none).fd.count (some f) +
        indicator (task.slot dst = some f) = task.fd.count (some f) := by
  have first := @put_count f dst task inside (task.slot src)
  have second := @drop_count f src (task.put dst (task.slot src))
  have moved : (task.put dst (task.slot src)).slot src = task.slot src := by
    by_cases same : dst = src
    · rw [← same]
      exact put_slot_self inside _
    · exact put_slot_other same _
  rw [moved] at second
  omega

theorem new_fd_num_empty (found : newFdNum task = some i) : i < fdNum ∧ task.slot i = none := by
  have known := List.findIdx?_eq_some_iff_getElem.mp found
  rcases known with ⟨inside, empty, -⟩
  constructor
  · rw [← task.size]
    exact inside
  · unfold FdTask.slot
    rw [List.getD_eq_getElem?_getD, List.getElem?_eq_getElem inside]
    exact Option.isNone_iff_eq_none.mp empty

/-- A free slot gets a file. -/
theorem give_count {g : Nat} (found : newFdNum task = some i) :
    (task.put i (some g)).fd.count (some f) = task.fd.count (some f) + indicator (g = f) := by
  have empty := new_fd_num_empty found
  have put := @put_count f i task empty.1 (some g)
  have none : indicator (task.slot i = some f) = 0 := by
    rw [empty.2]
    rfl
  have same : indicator (some g = some f) = indicator (g = f) := by
    unfold indicator
    simp
  rw [none, same] at put
  exact put

theorem inherit_files (fd : List (Option Nat)) (files : List Vfile) (f : Nat) :
    (inherit fd files)[f]? =
      files[f]?.map fun file => { file with refcnt := file.refcnt + fd.count (some f) } := by
  induction fd generalizing files with
  | nil =>
      cases known : files[f]? <;> simp [inherit, known]
  | cons slot rest hypothesis =>
      cases slot with
      | none =>
          change (inherit rest files)[f]? = _
          rw [hypothesis]
          simp
      | some g =>
          change (inherit rest (files.modify g _))[f]? = _
          rw [hypothesis, List.getElem?_modify, List.count_cons]
          by_cases same : g = f
          · subst same
            cases files[g]? with
            | none => rfl
            | some file =>
                simp
                omega
          · cases files[f]? with
            | none => rfl
            | some file => simp [same]

end Counting

section Files

variable {s s' : Descriptors} {t f i : Nat} {task : FdTask} {file : Vfile}

/-- Where the files stay, the counts stay right if and only if the pointers stay. -/
theorem counted_iff_same (counted : Counted s) (files : s'.files = s.files) :
    Counted s' ↔ ∀ f, pointers s'.tasks f = pointers s.tasks f := by
  constructor
  · intro after f
    cases known : s.files[f]? with
    | none =>
        rw [counted.absent f known, after.absent f (by rw [files]; exact known)]
    | some file =>
        have before := counted.files f file known
        have later := after.files f file (by rw [files]; exact known)
        cases gone : file.freed with
        | true => rw [before.freed.mp gone, later.freed.mp gone]
        | false =>
            have equal := (before.live gone).symm.trans (later.live gone)
            exact (Int.ofNat_inj.mp equal).symm
  · intro same
    constructor
    · intro f file listed
      rw [files] at listed
      rw [same]
      exact counted.files f file listed
    · intro f missing
      rw [files] at missing
      rw [same]
      exact counted.absent f missing

theorem Counted.pointed_live (counted : Counted s) (listed : s.tasks[t]? = some task)
    (points : task.slot i = some f) :
    ∃ file, s.files[f]? = some file ∧ file.freed = false ∧ file.refcnt = pointers s.tasks f := by
  have positive := pointed listed points
  cases known : s.files[f]? with
  | none =>
      have absent := counted.absent f known
      omega
  | some file =>
      have counts := counted.files f file known
      cases gone : file.freed with
      | true =>
          have none := counts.freed.mp gone
          omega
      | false => exact ⟨file, rfl, gone, counts.live gone⟩

theorem indicator_self (f : Nat) : indicator (f = f) = 1 := if_pos rfl

theorem indicator_ne {f g : Nat} (other : g ≠ f) : indicator (g = f) = 0 := if_neg other

/-- Files that were just allocated, with one pointer each. -/
theorem Counted.allocate (counted : Counted s) {tasks : List FdTask} {new : List Vfile}
    (fresh : ∀ file ∈ new, file.refcnt = 1 ∧ file.freed = false)
    (pointed : ∀ f, pointers tasks f = pointers s.tasks f +
      indicator (s.files.length ≤ f ∧ f < s.files.length + new.length)) (opens : List Bool) :
    Counted ⟨tasks, s.files ++ new, opens⟩ := by
  constructor
  · intro f file listed
    change (s.files ++ new)[f]? = some file at listed
    change file.Counts (pointers tasks f)
    rw [pointed]
    rcases Nat.lt_or_ge f s.files.length with old | late
    · rw [List.getElem?_append_left old] at listed
      have outside : indicator (s.files.length ≤ f ∧ f < s.files.length + new.length) = 0 :=
        if_neg (by omega)
      rw [outside]
      exact counted.files f file listed
    · rw [List.getElem?_append_right late] at listed
      have inside := (List.getElem?_eq_some_iff.mp listed).1
      have counted_new : indicator (s.files.length ≤ f ∧ f < s.files.length + new.length) = 1 :=
        if_pos (by omega)
      have absent := counted.absent f (List.getElem?_eq_none late)
      have known := fresh file (List.mem_of_getElem? listed)
      rw [counted_new, absent]
      constructor
      · intro _
        exact known.1
      · rw [known.2]
        simp
  · intro f missing
    have outside := List.getElem?_eq_none_iff.mp missing
    rw [List.length_append] at outside
    change pointers tasks f = 0
    rw [pointed, counted.absent f (List.getElem?_eq_none (by omega)), Nat.zero_add]
    exact if_neg (by omega)

end Files

section Operations

variable {s s' : Descriptors} {t f i : Nat} {task : FdTask}

theorem open_counted (counted : Counted s) (listed : s.tasks[t]? = some task)
    {inode : Option FileSystem} (stepped : s.vfsOpen t task inode = some s') : Counted s' := by
  rcases vfs_open_cases stepped with rfl | ⟨fd, kind, found, rfl⟩
  · exact counted
  · apply counted.allocate
    · intro file member
      rw [List.mem_singleton.mp member]
      exact ⟨rfl, rfl⟩
    · intro f
      have set := @pointers_set s.tasks t f task listed (task.put fd (some s.files.length))
      rw [@give_count f fd task s.files.length found] at set
      have same : indicator (s.files.length = f) =
          indicator (s.files.length ≤ f ∧ f < s.files.length + 1) := by
        unfold indicator
        split <;> split <;> omega
      rw [same] at set
      change pointers (s.tasks.set t _) f = _ + indicator (_ ∧ f < s.files.length + 1)
      omega

theorem pipe_counted (counted : Counted s) (listed : s.tasks[t]? = some task)
    (stepped : s.pipe t task = some s') : Counted s' := by
  obtain ⟨i, j, found, second, rfl⟩ := pipe_cases stepped
  apply counted.allocate
  · intro file member
    simp only [List.mem_cons, List.not_mem_nil, or_false, or_self] at member
    rw [member]
    exact ⟨rfl, rfl⟩
  · intro f
    have set := @pointers_set s.tasks t f task listed
      { (task.put i (some s.files.length)).put j (some (s.files.length + 1)) with
        pipefd := some (i, j) }
    have given : ((task.put i (some s.files.length)).put j
        (some (s.files.length + 1))).fd.count (some f) = task.fd.count (some f) +
          indicator (s.files.length = f) + indicator (s.files.length + 1 = f) := by
      rw [give_count second, give_count found]
    have same : indicator (s.files.length = f) + indicator (s.files.length + 1 = f) =
        indicator (s.files.length ≤ f ∧ f < s.files.length + 2) := by
      unfold indicator
      split <;> split <;> split <;> omega
    change pointers (s.tasks.set t _) f = _ + indicator (_ ∧ f < s.files.length + 2)
    dsimp only
    simp only [given] at set
    omega

theorem create_counted (counted : Counted s) (creator : Option FdTask)
    (listed : ∀ cur, creator = some cur → s.tasks[t]? = some cur) :
    Counted (s.kmtCreate creator) := by
  cases creator with
  | none =>
      have same : (s.kmtCreate none).files = s.files := rfl
      apply (counted_iff_same counted same).mpr
      intro f
      have added := @pointers_add s.tasks f FdTask.blank
      have none : FdTask.blank.fd.count (some f) = 0 := by
        rw [List.count_eq_zero]
        intro member
        cases (List.mem_replicate.mp member).2
      rw [none] at added
      exact added
  | some cur =>
      have below (f : Nat) := @count_le_pointers s.tasks t f cur (listed cur rfl)
      have added (f : Nat) : pointers (s.kmtCreate (some cur)).tasks f =
          pointers s.tasks f + cur.fd.count (some f) := pointers_add _
      constructor
      · intro f file known
        change (inherit cur.fd s.files)[f]? = some file at known
        rw [inherit_files] at known
        rcases Option.map_eq_some_iff.mp known with ⟨old, before, same⟩
        have counts := counted.files f old before
        have bound := below f
        rw [added, ← same]
        constructor
        · intro alive
          have live := counts.live alive
          change old.refcnt + _ = _
          rw [live]
          push_cast
          rfl
        · change old.freed = true ↔ _
          rw [counts.freed]
          omega
      · intro f missing
        change (inherit cur.fd s.files)[f]? = none at missing
        rw [inherit_files, Option.map_eq_none_iff] at missing
        have bound := below f
        have absent := counted.absent f missing
        rw [added]
        omega

theorem slot_congr {held : FdTask} (same : held.fd = task.fd) (i : Nat) :
    held.slot i = task.slot i := by
  unfold FdTask.slot
  rw [same]

/-- A slot that points to `f` is emptied. -/
theorem drop_pointers (listed : s.tasks[t]? = some task) {held : FdTask}
    (same : held.fd = task.fd) (points : held.slot i = some f) (g : Nat) :
    pointers (s.tasks.set t (held.put i none)) g + indicator (f = g) = pointers s.tasks g := by
  have set := @pointers_set s.tasks t g task listed (held.put i none)
  have dropped := @drop_count g i held
  have one : indicator (held.slot i = some g) = indicator (f = g) := by
    simp only [points, indicator, Option.some.injEq]
  rw [one, same] at dropped
  omega

/-- `vfs_close` on a file of a file system. -/
theorem close_fs_counted (counted : Counted s) {tasks : List FdTask} {file : Vfile}
    (known : s.files[f]? = some file) (alive : file.freed = false)
    (dropped : ∀ g, pointers tasks g + indicator (f = g) = pointers s.tasks g) (opens : List Bool) :
    Counted ⟨tasks, s.files.set f (if file.refcnt - 1 = 0
      then ⟨file.ops, file.refcnt - 1, true⟩ else ⟨file.ops, file.refcnt - 1, file.freed⟩),
      opens⟩ := by
  have inside := (List.getElem?_eq_some_iff.mp known).1
  have refcnt := (counted.files f file known).live alive
  have own := dropped f
  rw [indicator_self] at own
  constructor
  · intro g other listed
    change (s.files.set f _)[g]? = some other at listed
    change other.Counts (pointers tasks g)
    have after := dropped g
    by_cases same : f = g
    · subst same
      rw [List.getElem?_set_self inside, Option.some.injEq] at listed
      rw [← listed]
      split
      next =>
        constructor
        · intro still
          cases still
        · simp only [true_iff]
          omega
      next =>
        constructor
        · intro _
          change file.refcnt - 1 = _
          omega
        · change file.freed = true ↔ _
          rw [alive]
          simp only [Bool.false_eq_true, false_iff]
          omega
    · rw [List.getElem?_set_ne same] at listed
      rw [indicator_ne same, Nat.add_zero] at after
      rw [after]
      exact counted.files g other listed
  · intro g missing
    have outside := List.getElem?_eq_none_iff.mp missing
    rw [List.length_set] at outside
    have absent := counted.absent g (List.getElem?_eq_none outside)
    have after := dropped g
    change pointers tasks g = 0
    omega

/-- `vfs_close` keeps the counts right if and only if the file is not an end of a pipe. -/
theorem close_counted (counted : Counted s) (listed : s.tasks[t]? = some task) {held : FdTask}
    (same : held.fd = task.fd) (stepped : s.vfsClose t held i = some s') :
    Counted s' ↔ s.isPipe (task.slot i) = false := by
  rw [← slot_congr same]
  obtain ⟨f, file, points, known, -, rfl⟩ := vfs_close_cases stepped
  have owned : task.slot i = some f := (slot_congr same i).symm.trans points
  rcases counted.pointed_live listed owned with ⟨other, listed', alive, refcnt⟩
  cases known.symm.trans listed'
  have positive := pointed listed owned
  have dropped := drop_pointers listed same points
  have isPipe : s.isPipe (held.slot i) = file.ops.isPipe := by
    unfold Descriptors.isPipe
    rw [points, Option.bind_some, known]
  rw [isPipe]
  cases ops : file.ops with
  | fs kind =>
      have counted' := close_fs_counted counted known alive dropped (shut file s.opens)
      have down : iclose file = { file with refcnt := file.refcnt - 1 } := by
        simp only [iclose, ops]
      rw [down]
      exact iff_of_true counted' rfl
  | pipe id =>
      have kept : iclose file = file := by
        simp only [iclose, ops]
      rw [kept]
      refine iff_of_false ?_ Bool.noConfusion
      intro after
      have inside := (List.getElem?_eq_some_iff.mp known).1
      have own := dropped f
      rw [indicator_self] at own
      have stays : (s.files.set f (if file.refcnt = 0 then
          { file with freed := true } else file))[f]? = some file := by
        rw [List.getElem?_set_self inside, if_neg (by omega)]
      have equal := (after.files f file stays).live alive
      change file.refcnt = (pointers (s.tasks.set t _) f : Nat) at equal
      omega

end Operations

section Steps

variable {s s' : Descriptors} {t : Nat} {task : FdTask}

theorem running_listed (running : s.running t = some task) : s.tasks[t]? = some task := by
  unfold Descriptors.running at running
  split at running
  next => cases running
  next known =>
    split at running
    · cases running
      exact known
    · cases running

/-- What a step changes of one task only, the slots apart from `lost` and `gained` unchanged. -/
theorem slots_counted (counted : Counted s) (listed : s.tasks[t]? = some task) {task' : FdTask}
    (lost gained : Option Nat)
    (moved : ∀ f, task'.fd.count (some f) + indicator (lost = some f) =
      task.fd.count (some f) + indicator (gained = some f)) :
    Counted (s.setTask t task') ↔ lost = gained := by
  have files : (s.setTask t task').files = s.files := rfl
  rw [counted_iff_same counted files]
  have set (f : Nat) := @pointers_set s.tasks t f task listed task'
  change (∀ f, pointers (s.tasks.set t task') f = _) ↔ _
  constructor
  · intro same
    apply Option.ext
    intro f
    have known := same f
    have counts := moved f
    have setf := set f
    unfold indicator at counts
    split at counts <;> split at counts <;> first | tauto | omega
  · intro equal f
    have counts := moved f
    have setf := set f
    rw [equal] at counts
    omega

theorem same_slots_counted (counted : Counted s) (listed : s.tasks[t]? = some task)
    {task' : FdTask} (same : task'.fd = task.fd) : Counted (s.setTask t task') := by
  apply (slots_counted counted listed none none ?_).mpr rfl
  intro f
  rw [same]

theorem leave_counted (counted : Counted s) (listed : s.tasks[t]? = some task)
    (stepped : s.leave t task = some s') :
    Counted s' ↔ ∀ i, task.life = .leaving i → s.isPipe (task.slot i) = false := by
  obtain ⟨i, life, left⟩ := leave_cases stepped
  have only : (∀ j, task.life = .leaving j → s.isPipe (task.slot j) = false) ↔
      s.isPipe (task.slot i) = false := by
    constructor
    · exact fun all => all i life
    · intro known j other
      rw [life] at other
      cases other
      exact known
  rw [only]
  rcases left with ⟨empty, rfl⟩ | closed | ⟨outside, rfl⟩
  · have kept := same_slots_counted counted listed
      (rfl : ({ task with life := .leaving (i + 1) } : FdTask).fd = task.fd)
    rw [empty]
    exact iff_of_true kept rfl
  · have same : ({ task with life := .leaving (i + 1) } : FdTask).fd = task.fd := rfl
    exact close_counted counted listed same closed
  · have kept := same_slots_counted counted listed
      (rfl : ({ task with life := .zombie } : FdTask).fd = task.fd)
    rw [slot_outside outside]
    exact iff_of_true kept rfl

/-- A step keeps the counts right if and only if it is careful. -/
theorem fd_step_counted (act : FdAct) (s s' : Descriptors) (counted : Counted s)
    (stepped : fdStep act s = some s') : Counted s' ↔ careful act s = true := by
  cases act with
  | openFile t inode =>
      rcases Option.bind_eq_some_iff.mp stepped with ⟨task, running, opened⟩
      exact iff_of_true (open_counted counted (running_listed running) opened) rfl
  | close t fd =>
      rcases Option.bind_eq_some_iff.mp stepped with ⟨task, running, closed⟩
      have listed := running_listed running
      rw [close_counted counted listed rfl closed]
      simp [careful, listed]
  | pipe t =>
      rcases Option.bind_eq_some_iff.mp stepped with ⟨task, running, piped⟩
      exact iff_of_true (pipe_counted counted (running_listed running) piped) rfl
  | create creator =>
      cases creator with
      | none =>
          cases stepped
          exact iff_of_true (@create_counted s 0 counted none fun _ => nofun) rfl
      | some t =>
          rcases Option.bind_eq_some_iff.mp stepped with ⟨task, running, created⟩
          cases created
          refine iff_of_true (@create_counted s t counted (some task) ?_) rfl
          intro cur same
          cases same
          exact running_listed running
  | exit t =>
      rcases Option.bind_eq_some_iff.mp stepped with ⟨task, running, exited⟩
      cases exited
      exact iff_of_true (same_slots_counted counted (running_listed running) rfl) rfl
  | leave t =>
      rcases Option.bind_eq_some_iff.mp stepped with ⟨task, listed, left⟩
      rw [leave_counted counted listed left]
      cases life : task.life <;> simp [careful, listed, life]
  | redirectOut t =>
      rcases Option.bind_eq_some_iff.mp stepped with ⟨task, running, redirected⟩
      have listed := running_listed running
      obtain ⟨r, w, -, rfl⟩ := redirect_out_cases redirected
      refine Iff.trans (slots_counted counted listed (task.slot 1) none
        fun f => @move_count f task 1 w (by decide)) ?_
      simp [careful, listed]
  | restoreOut t =>
      rcases Option.bind_eq_some_iff.mp stepped with ⟨task, running, restored⟩
      have listed := running_listed running
      obtain ⟨backup, saved, rfl⟩ := restore_out_cases restored
      refine Iff.trans (slots_counted counted listed (task.slot 1) backup
        fun f => @put_count f 1 task (by decide) backup) ?_
      simp [careful, listed, saved]
  | redirectIn t =>
      rcases Option.bind_eq_some_iff.mp stepped with ⟨task, running, redirected⟩
      have listed := running_listed running
      obtain ⟨r, w, -, rfl⟩ := redirect_in_cases redirected
      refine Iff.trans (slots_counted counted listed (task.slot 0) none
        fun f => @move_count f task 0 r (by decide)) ?_
      simp [careful, listed]

end Steps

section Runs

theorem no_tasks_counted : Counted noTasks where
  files := fun _ _ listed => nomatch listed
  absent := fun _ _ => rfl

/-- Along every run of the tasks, the reference counts are right in all states if and only if every
step is careful. -/
theorem descriptors_counted (acts : List FdAct) (final : Descriptors)
    (ran : runSteps fdStep acts noTasks = some final) :
    RunKeeps fdStep Counted acts noTasks ↔
      GuardedRun fdStep (fun act s => careful act s = true) acts noTasks :=
  run_keeps_iff_guarded fdStep fd_step_counted acts noTasks final no_tasks_counted ran

/-- A task opens the console three times, has a child, closes one descriptor and exits. -/
def childhood : List FdAct :=
  [.create none, .openFile 0 (some .devfs), .openFile 0 (some .devfs), .openFile 0 (some .devfs),
    .create (some 0), .close 0 1, .exit 1, .leave 1, .leave 1]

theorem descriptors_counted_once :
    RunKeeps fdStep Counted childhood noTasks ∧
      GuardedRun fdStep (fun act s => careful act s = true) childhood noTasks := by
  have guarded : GuardedRun fdStep (fun act s => careful act s = true) childhood noTasks := by
    decide +kernel
  have runs : (runSteps fdStep childhood noTasks).isSome = true := by
    decide +kernel
  rcases Option.isSome_iff_exists.mp runs with ⟨final, ran⟩
  exact ⟨(descriptors_counted childhood final ran).mpr guarded, guarded⟩

/-- A task makes a pipe and closes the read end: nothing points to it, and it is not freed. -/
theorem pipe_end_leaks : ∃ final,
    runSteps fdStep [.create none, .pipe 0, .close 0 0] noTasks = some final ∧
      final.files[0]? = some ⟨.pipe 0, 1, false⟩ ∧ pointers final.tasks 0 = 0 ∧
        ¬ Counted final := by
  have results : (runSteps fdStep [.create none, .pipe 0, .close 0 0] noTasks).map
      (fun final => (final.files[0]?, pointers final.tasks 0)) =
        some (some ⟨.pipe 0, 1, false⟩, 0) := by
    decide +kernel
  rcases Option.map_eq_some_iff.mp results with ⟨final, ran, known⟩
  simp only [Prod.mk.injEq] at known
  refine ⟨final, ran, known.1, known.2, ?_⟩
  intro counted
  have counts := counted.files 0 _ known.1
  rw [known.2] at counts
  cases counts.freed.mpr rfl

end Runs

end OsWorkbench.Kernel
