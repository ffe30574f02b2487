import OsWorkbench.Shell.Run
import OsWorkbench.Shell.Simple

/-!
# Redirections

`run_redir_cmd` runs from the outside in: the last redirection on the line is done first, and each
further one of the same descriptor closes what the one before it opened. `vfs_open` takes the lowest
free descriptor, which is the one just closed.
-/

namespace OsWorkbench.Shell

open Kernel (slash toAbsolute Text)

section Redirecting

variable {World Inode : Type} {ops : FileOps World Inode}

/-- Descriptors 0 and 1 are open, and nothing else points to their files. -/
structure StdOpen (task : Task World Inode) : Prop where
  std : ∃ f g rest, task.fd = some f :: some g :: rest
  live : ∀ (i f : Nat), i < 2 → task.fd[i]? = some (some f) →
    ∃ file, task.files[f]? = some file ∧ 1 ≤ file.refcnt
  unshared : ∀ (i j f : Nat), i < 2 → task.fd[i]? = some (some f) → task.fd[j]? = some (some f) → i = j
  allocated : ∀ (i f : Nat), task.fd[i]? = some (some f) → f < task.files.length

/-- A file can be opened, and stays so when files are opened and closed: the states of the file
systems in which it can are `good`. -/
structure Openable (ops : FileOps World Inode) (good : World → Prop) (pwd : List UInt8)
    (inode : Inode) (file : List UInt8) (mode : Nat) : Prop where
  found : ∃ dest, toAbsolute pwd file = some dest ∧ dest.reach ≤ destSize ∧
    ∀ world, good world → (ops.lookup world dest.chars mode).2 = some inode ∧
      good (ops.opened (ops.lookup world dest.chars mode).1 inode mode)

/-- The descriptor is bound to an open file with this inode. -/
def Bound (task : Task World Inode) (fd : Nat) (inode : Inode) : Prop :=
  ∃ f file, task.fd[fd]? = some (some f) ∧ task.files[f]? = some file ∧ file.inode = inode ∧
    file.freed = false

/-- The descriptor and its file are as before. -/
def Unchanged (before after : Task World Inode) (fd : Nat) : Prop :=
  after.fd[fd]? = before.fd[fd]? ∧
    ∀ f, before.fd[fd]? = some (some f) → after.files[f]? = before.files[f]?

variable {task : Task World Inode} {fd : Nat}

theorem close_done (ready : StdOpen task) (low : fd < 2) :
    ∃ f old file, task.fd[fd]? = some (some f) ∧ vfsClose ops task fd = some
      { task with
        world := ops.closed task.world old
        fd := task.fd.set fd none
        files := task.files.set f file } := by
  rcases ready.std with ⟨f, g, rest, slots⟩
  have slot : ∃ f, task.fd[fd]? = some (some f) := by
    rw [slots]
    rcases Nat.le_one_iff_eq_zero_or_eq_one.mp (Nat.le_of_lt_succ low) with same | same
    · exact ⟨f, by rw [same]; rfl⟩
    · exact ⟨g, by rw [same]; rfl⟩
  rcases slot with ⟨f, slot⟩
  rcases ready.live fd f low slot with ⟨file, found, counted⟩
  have value : task.fd.getD fd none = some f := by
    rw [List.getD_eq_getElem?_getD, slot]
    rfl
  have counts : ¬(if ops.isPipe file.inode then file.refcnt else file.refcnt - 1) < 0 := by
    split
    · omega
    · omega
  refine ⟨f, file.inode, { file with
    refcnt := if ops.isPipe file.inode then file.refcnt else file.refcnt - 1
    freed := (if ops.isPipe file.inode then file.refcnt else file.refcnt - 1) == 0 }, slot, ?_⟩
  unfold vfsClose
  simp only [value, found, if_neg counts]

/-- The lowest free descriptor is the one that was closed. -/
theorem closed_is_free (ready : StdOpen task) (low : fd < 2) :
    (task.fd.set fd none).findIdx? Option.isNone = some fd := by
  rcases ready.std with ⟨f, g, rest, slots⟩
  rw [slots]
  rcases Nat.le_one_iff_eq_zero_or_eq_one.mp (Nat.le_of_lt_succ low) with same | same
  · rw [same]
    rfl
  · rw [same]
    rfl

theorem slot_set {slots : List (Option Nat)} {n i g : Nat}
    (held : (slots.set fd (some n))[i]? = some (some g)) :
    i = fd ∧ g = n ∨ i ≠ fd ∧ slots[i]? = some (some g) := by
  rcases Nat.decEq i fd with apart | same
  · rw [List.getElem?_set_ne (Ne.symm apart)] at held
    exact Or.inr ⟨apart, held⟩
  · rw [same, List.getElem?_set] at held
    split at held
    · split at held
      · cases held
        exact Or.inl ⟨same, rfl⟩
      · cases held
    · contradiction

theorem StdOpen.reopened (ready : StdOpen task) (low : fd < 2) {next : Task World Inode}
    {file : OpenFile Inode} (slots : next.fd = task.fd.set fd (some task.files.length))
    (size : task.files.length < next.files.length)
    (opened : next.files[task.files.length]? = some file) (counted : 1 ≤ file.refcnt)
    (kept : ∀ i f : Nat, i ≠ fd → task.fd[i]? = some (some f) →
      next.files[f]? = task.files[f]?) : StdOpen next where
  std := by
    rcases ready.std with ⟨f, g, rest, same⟩
    rw [slots, same]
    rcases Nat.le_one_iff_eq_zero_or_eq_one.mp (Nat.le_of_lt_succ low) with zero | one
    · exact ⟨_, _, _, by rw [zero]; rfl⟩
    · exact ⟨_, _, _, by rw [one]; rfl⟩
  live := by
    intro i f within held
    rw [slots] at held
    rcases slot_set held with ⟨_, new⟩ | ⟨apart, old⟩
    · exact ⟨file, new ▸ opened, counted⟩
    · rw [kept i f apart old]
      exact ready.live i f within old
  unshared := by
    intro i j f within first second
    rw [slots] at first second
    rcases slot_set first with ⟨same, new⟩ | ⟨_, old⟩
    · rcases slot_set second with ⟨also, _⟩ | ⟨_, known⟩
      · rw [same, also]
      · exact absurd (ready.allocated j f known) (by omega)
    · rcases slot_set second with ⟨_, new⟩ | ⟨_, known⟩
      · exact absurd (ready.allocated i f old) (by omega)
      · exact ready.unshared i j f within old known
  allocated := by
    intro i f held
    rw [slots] at held
    rcases slot_set held with ⟨_, new⟩ | ⟨_, old⟩
    · omega
    · exact Nat.lt_trans (ready.allocated i f old) size

/-- What a redirection leaves: the descriptor on the file, all others as they were. -/
theorem redirect_done {good : World → Prop} {inode : Inode} {file : List UInt8} {mode : Nat}
    (ready : StdOpen task) (low : fd < 2) (world : good task.world)
    (closes : ∀ world inode, good world → good (ops.closed world inode))
    (opens : Openable ops good task.pwd inode file mode) :
    ∃ next, redirect ops task file mode fd = some (next, false) ∧ StdOpen next ∧
      good next.world ∧ next.pwd = task.pwd ∧ Bound next fd inode ∧
        ∀ other, other ≠ fd → Unchanged task next other := by
  rcases @close_done _ _ ops _ _ ready low with ⟨f, old, replaced, slot, closed⟩
  rcases opens.found with ⟨dest, absolute, fits, found⟩
  rcases found _ (closes task.world old world) with ⟨looked, still⟩
  have size : (task.files.set f replaced).length = task.files.length := List.length_set
  have place : fd < task.fd.length := (List.getElem?_eq_some_iff.mp slot).1
  let next : Task World Inode :=
    { task with
      world := ops.opened (ops.lookup (ops.closed task.world old) dest.chars mode).1 inode mode
      fd := task.fd.set fd (some task.files.length)
      files := task.files.set f replaced ++ [⟨inode, mode, 1, false⟩] }
  have opened : next.files[task.files.length]? = some ⟨inode, mode, 1, false⟩ := by
    change (task.files.set f replaced ++ [_])[task.files.length]? = _
    rw [← size, List.getElem?_concat_length]
  have kept : ∀ i g : Nat, i ≠ fd → task.fd[i]? = some (some g) →
      next.files[g]? = task.files[g]? := by
    intro i g apart held
    have inside := ready.allocated i g held
    have distinct : f ≠ g := by
      intro same
      rw [same] at slot
      exact apart (ready.unshared fd i g low slot held).symm
    change (task.files.set f replaced ++ [_])[g]? = _
    rw [List.getElem?_append_left (by rw [size]; exact inside), List.getElem?_set_ne distinct]
  refine ⟨next, ?_, ready.reopened low rfl ?_ opened (Int.le_refl 1) kept, still, rfl, ?_, ?_⟩
  · unfold redirect vfsOpen newFdNum
    simp only [closed, absolute, if_neg (Nat.not_lt_of_le fits), closed_is_free ready low, looked,
      Option.map_some, List.set_set, size]
    simp [next]
  · change _ < (task.files.set f replaced ++ [_]).length
    rw [List.length_append, size]
    exact Nat.lt_succ_self _
  · exact ⟨task.files.length, _, List.getElem?_set_self place, opened, rfl, rfl⟩
  · intro other apart
    exact ⟨List.getElem?_set_ne (Ne.symm apart), fun g held => kept other g apart held⟩

theorem Unchanged.trans {before middle after : Task World Inode}
    (first : Unchanged before middle fd) (second : Unchanged middle after fd) :
    Unchanged before after fd := by
  refine ⟨second.1.trans first.1, ?_⟩
  intro f held
  exact (second.2 f (first.1.trans held)).trans (first.2 f held)

theorem Bound.kept {before after : Task World Inode} {inode : Inode} (bound : Bound before fd inode)
    (same : Unchanged before after fd) : Bound after fd inode := by
  rcases bound with ⟨f, file, slot, found, known⟩
  exact ⟨f, file, same.1.trans slot, (same.2 f slot).trans found, known⟩

theorem runcmd_redirected {file : List UInt8} {mode : Nat} {next : Task World Inode}
    (cmd : Cmd (List UInt8)) (done : redirect ops task file mode fd = some (next, false)) :
    runcmd ops (.redir cmd file mode fd) task = runcmd ops cmd next := by
  rw [runcmd, done]

/-- The redirections run from the last to the first, so the first one of a descriptor stays. -/
theorem runcmd_wrap {good : World → Prop} {argv : List (List UInt8)} (command : argv ≠ [])
    (closes : ∀ world inode, good world → good (ops.closed world inode))
    (inode : List UInt8 → Inode) (pwd : List UInt8) (redirs : List (Redirection (List UInt8)))
    (opens : ∀ redir ∈ redirs, redir.fd < 2 ∧
      Openable ops good pwd (inode redir.file) redir.file redir.mode)
    (ready : StdOpen task) (world : good task.world) (here : task.pwd = pwd) :
    ∃ next, runcmd ops (wrap (.exec argv) redirs) task = .execs argv next ∧
      (∀ fd, (∀ redir ∈ redirs, redir.fd ≠ fd) → Unchanged task next fd) ∧
        ∀ fd redir, redirs.find? (fun redir => redir.fd == fd) = some redir →
          Bound next fd (inode redir.file) := by
  induction redirs using List.reverseRecOn generalizing task with
  | nil =>
      refine ⟨task, if_neg command, fun fd _ => ⟨rfl, fun _ _ => rfl⟩, ?_⟩
      intro fd redir found
      cases found
  | append_singleton redirs last hypothesis =>
      rcases opens last (List.mem_append_right _ (List.mem_singleton_self last)) with ⟨low, file⟩
      rcases redirect_done ready low world closes (here ▸ file) with
        ⟨middle, done, still, good', there, bound, others⟩
      rcases hypothesis (fun redir listed => opens redir (List.mem_append_left _ listed)) still good'
        (there.trans here) with ⟨next, ran, unchanged, firsts⟩
      refine ⟨next, ?_, ?_, ?_⟩
      · rw [wrap_append]
        exact (runcmd_redirected _ done).trans ran
      · intro fd none
        have apart := none last (List.mem_append_right _ (List.mem_singleton_self last))
        exact (others fd (Ne.symm apart)).trans
          (unchanged fd fun redir listed => none redir (List.mem_append_left _ listed))
      · intro fd redir found
        rw [List.find?_append] at found
        cases earlier : redirs.find? (fun redir => redir.fd == fd) with
        | some first =>
            rw [earlier] at found
            cases found
            exact firsts fd redir earlier
        | none =>
            rw [earlier, Option.none_or, List.find?_singleton] at found
            split at found
            next same =>
              cases found
              have here : last.fd = fd := beq_iff_eq.mp same
              subst here
              refine bound.kept (unchanged last.fd ?_)
              intro other listed clash
              have absent := List.find?_eq_none.mp earlier other listed
              exact absent (beq_iff_eq.mpr clash)
            next => cases found

theorem redirection_low (items : List Item) :
    ∀ redir ∈ redirections items, redir.fd < 2 := by
  induction items with
  | nil => exact nofun
  | cons item rest hypothesis =>
      cases item with
      | arg tok => exact hypothesis
      | redir op file =>
          intro redir listed
          rcases List.mem_cons.mp listed with same | later
          · rw [same]
            unfold redirection
            split
            · exact Nat.zero_lt_two
            · split
              · exact Nat.one_lt_two
              · exact Nat.one_lt_two
          · exact hypothesis redir later

end Redirecting

section Commands

variable {World Inode : Type}

/-- A simple command runs with each descriptor bound to the file of the first redirection of that
descriptor on its line, and all others as they were. -/
theorem first_redirection_wins (ops : FileOps World Inode) (line : List UInt8) (items : List Item)
    (visible : ∀ c ∈ line, c ≠ 0) (spelled : Spelled line 0 items) (command : arguments items ≠ [])
    (few : (arguments items).length < maxArgs) (task : Task World Inode) (ready : StdOpen task)
    (good : World → Prop) (world : good task.world)
    (closes : ∀ world inode, good world → good (ops.closed world inode))
    (inode : List UInt8 → Inode)
    (opens : ∀ redir ∈ redirections items, Openable ops good task.pwd
      (inode (redir.file.text line)) (redir.file.text line) redir.mode) :
    ∃ least, ∀ fuel, least ≤ fuel →
      ∃ cmd buf next, parsecmd fuel (line ++ [0]) = .ok (cmd, buf) ∧
        runcmd ops (cmd.map fun span => cString buf span.q) task =
          .execs ((arguments items).map (Span.text line)) next ∧
        (∀ fd, (∀ redir ∈ redirections items, redir.fd ≠ fd) → Unchanged task next fd) ∧
        ∀ fd redir, (redirections items).find? (fun redir => redir.fd == fd) = some redir →
          Bound next fd (inode (redir.file.text line)) := by
  rcases parsecmd_simple visible spelled few with ⟨least, parsed⟩
  refine ⟨least, ?_⟩
  intro fuel enough
  rcases parsed fuel enough with ⟨cmd, buf, ran, meaning⟩
  have named : (arguments items).map (Span.text line) ≠ [] := by
    intro empty
    exact command (List.map_eq_nil_iff.mp empty)
  have files : ∀ redir ∈ (redirections items).map (Redirection.map (Span.text line)),
      redir.fd < 2 ∧ Openable ops good task.pwd (inode redir.file) redir.file redir.mode := by
    intro redir listed
    rcases List.mem_map.mp listed with ⟨source, member, same⟩
    subst same
    exact ⟨redirection_low items source member, opens source member⟩
  rcases runcmd_wrap named closes inode task.pwd _ files ready world rfl with
    ⟨next, runs, unchanged, firsts⟩
  refine ⟨cmd, buf, next, ran, meaning ▸ runs, ?_, ?_⟩
  · intro fd absent
    apply unchanged
    intro redir listed
    rcases List.mem_map.mp listed with ⟨source, member, same⟩
    rw [← same]
    exact absent source member
  · intro fd redir found
    apply firsts fd (redir.map (Span.text line))
    rw [List.find?_map]
    change (((redirections items).find? fun redir => redir.fd == fd).map _) = _
    rw [found]
    rfl

end Commands

section Runs

/-- A file system in which every path is the inode of its file. -/
def plainOps : FileOps Unit (List UInt8) where
  lookup _ path _ := ((), some path)
  opened _ _ _ := ()
  closed _ _ := ()
  isPipe _ := false

/-- Three descriptors on the terminal. -/
def freshTask : Task Unit (List UInt8) where
  world := ()
  pwd := [slash]
  fd := some 0 :: some 1 :: some 2 :: List.replicate 13 none
  files := List.replicate 3 ⟨[0x74], 1, 1, false⟩

/-- `c<a<b>d`. -/
def twoInputs : List UInt8 := [0x63, less, 0x61, less, 0x62, greater, 0x64]

def twoInputsItems : List Item :=
  [.arg ⟨letter, 0, 1, 1⟩, .redir ⟨less, 1, 2, 2⟩ ⟨letter, 2, 3, 3⟩,
    .redir ⟨less, 3, 4, 4⟩ ⟨letter, 4, 5, 5⟩, .redir ⟨greater, 5, 6, 6⟩ ⟨letter, 6, 7, 7⟩]

theorem two_inputs_spelled : Spelled twoInputs 0 twoInputsItems := by
  refine ⟨rfl, by decide, rfl, by decide, rfl, rfl, rfl, by decide, rfl, rfl, rfl, by decide, rfl,
    rfl, rfl⟩

theorem fresh_task_slot {i f : Nat} (held : freshTask.fd[i]? = some (some f)) : f = i ∧ i < 3 := by
  match i with
  | 0 =>
      cases held
      exact ⟨rfl, by decide⟩
  | 1 =>
      cases held
      exact ⟨rfl, by decide⟩
  | 2 =>
      cases held
      exact ⟨rfl, by decide⟩
  | i + 3 =>
      have free : (List.replicate 13 (none : Option Nat))[i]? = some (some f) := held
      rw [List.getElem?_replicate] at free
      split at free
      · cases free
      · cases free

theorem fresh_task_open : StdOpen freshTask where
  std := ⟨0, 1, some 2 :: List.replicate 13 none, rfl⟩
  live := by
    intro i f _ held
    rcases fresh_task_slot held with ⟨same, within⟩
    refine ⟨⟨[0x74], 1, 1, false⟩, ?_, Int.le_refl 1⟩
    rw [same]
    exact List.getElem?_replicate_of_lt within
  unshared := by
    intro i j f _ first second
    rw [← (fresh_task_slot first).1, ← (fresh_task_slot second).1]
  allocated := by
    intro i f held
    rcases fresh_task_slot held with ⟨same, within⟩
    rw [same]
    exact within

theorem plain_opens (file : List UInt8) (mode : Nat) (dest : Text)
    (absolute : toAbsolute [slash] file = some dest) (fits : dest.reach ≤ destSize) :
    Openable plainOps (fun _ => True) [slash] dest.chars file mode :=
  ⟨dest, absolute, fits, fun _ _ => ⟨rfl, trivial⟩⟩

/-- The absolute path of a file in the root directory. -/
def inRoot (file : List UInt8) : List UInt8 := slash :: file

theorem two_inputs_open : ∀ redir ∈ redirections twoInputsItems,
    Openable plainOps (fun _ => True) freshTask.pwd (inRoot (redir.file.text twoInputs))
      (redir.file.text twoInputs) redir.mode := by
  intro redir listed
  have known : redir.file = ⟨2, 3⟩ ∨ redir.file = ⟨4, 5⟩ ∨ redir.file = ⟨6, 7⟩ := by
    have files : redir.file ∈ [(⟨2, 3⟩ : Span), ⟨4, 5⟩, ⟨6, 7⟩] :=
      List.mem_map_of_mem (f := Redirection.file) listed
    simpa using files
  rcases known with same | same | same <;> rw [same] <;>
    exact plain_opens _ _ ⟨_, 3, by decide⟩ rfl (by decide)

theorem first_redirection_wins_twice :
    Spelled twoInputs 0 twoInputsItems ∧ StdOpen freshTask ∧
      ∃ least, ∀ fuel, least ≤ fuel →
        ∃ cmd buf next, parsecmd fuel (twoInputs ++ [0]) = .ok (cmd, buf) ∧
          runcmd plainOps (cmd.map fun span => cString buf span.q) freshTask =
            .execs [[0x63]] next ∧ Bound next 0 [slash, 0x61] ∧ Bound next 1 [slash, 0x64] ∧
              Unchanged freshTask next 2 := by
  refine ⟨two_inputs_spelled, fresh_task_open, ?_⟩
  rcases first_redirection_wins plainOps twoInputs twoInputsItems (by simp [twoInputs, less, greater])
    two_inputs_spelled nofun (by decide) freshTask fresh_task_open (fun _ => True) trivial
    (fun _ _ _ => trivial) inRoot two_inputs_open with ⟨least, ran⟩
  refine ⟨least, ?_⟩
  intro fuel enough
  rcases ran fuel enough with ⟨cmd, buf, next, parsed, runs, unchanged, firsts⟩
  refine ⟨cmd, buf, next, parsed, runs, firsts 0 _ rfl, firsts 1 _ rfl, unchanged 2 ?_⟩
  intro redir listed same
  have low := redirection_low _ redir listed
  omega

/-- With `c<a<b>d` the command reads `a`, the file of the first `<`, and not `b`. -/
theorem last_redirection_loses :
    ∃ fuel cmd buf next, parsecmd fuel (twoInputs ++ [0]) = .ok (cmd, buf) ∧
      runcmd plainOps (cmd.map fun span => cString buf span.q) freshTask =
        .execs [[0x63]] next ∧ Bound next 0 [slash, 0x61] ∧ ¬Bound next 0 [slash, 0x62] := by
  rcases parsecmd_spelled (by simp [twoInputs, less, greater]) two_inputs_spelled (by decide) with
    ⟨least, ran⟩
  refine ⟨least, _, _, _, ran least (Nat.le_refl _), rfl, ⟨_, _, rfl, rfl, rfl, rfl⟩, ?_⟩
  rintro ⟨f, file, slot, found, same, _⟩
  cases slot
  cases found
  exact absurd same (by decide)

end Runs

end OsWorkbench.Shell
