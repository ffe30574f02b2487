import OsWorkbench.Kernel.DirNormal
import OsWorkbench.Library.Runs
import Mathlib.Algebra.GroupWithZero.Nat

/-!
# The working directory

`task->pwd` over any sequence of `vfs_mkdir` and `vfs_chdir`. The file system is a parameter: what
`vfs_mkdir` makes of it, and what `vfs_lookup` finds in it from the current directory. No length is
checked before `dir_cat` writes into the 0x100 bytes of `pwd`.
-/

namespace OsWorkbench.Kernel

open Library

section Strings

/-- The number of characters of a directory with a slash behind each component. -/
def width (stack : List Component) : Nat := 1 + (stack.map fun c => c.text.length + 1).sum

/-- The directories on the way fit in `size` bytes with a slash at their end and a NUL, the last
one without the slash if the path ends with a component. -/
def Fits (size : Nat) (stack : List Component) : List (List UInt8) → Prop
  | [] => True
  | [name] => component name = none ∨ width stack + name.length < size
  | name :: next :: rest =>
      width (climb stack name) < size ∧ Fits size (climb stack name) (next :: rest)

theorem joined_length (stack : List Component) :
    (joined stack).length = (stack.map fun c => c.text.length + 1).sum := by
  induction stack with
  | nil => rfl
  | cons c rest hypothesis =>
      change (slash :: c.text ++ joined rest).length = _
      rw [List.length_append, hypothesis, List.map_cons, List.sum_cons, List.length_cons]

theorem opened_length (stack : List Component) : (opened stack).length = width stack := by
  rw [opened, List.length_append, joined_length, List.length_singleton, width, Nat.add_comm]

theorem width_climb {stack : List Component} {name : List UInt8} (other : component name = none) :
    width (climb stack name) ≤ width stack := by
  unfold climb
  split
  next =>
    rcases dropLast_append stack with root | ⟨front, c, same, rest⟩
    · subst root
      exact Nat.le_refl _
    · rw [rest, same, width, width, List.map_append, List.sum_append]
      omega
  next => exact Nat.le_of_eq (by rw [other])

/-- Every string that `dest` holds on the way fits if and only if the directories do. -/
theorem passed_fit {size : Nat} {stack : List Component} {names : List (List UInt8)}
    (start : width stack < size) :
    (∀ chars ∈ passed stack names, chars.length < size) ↔ Fits size stack names := by
  induction names generalizing stack with
  | nil => exact ⟨fun _ => trivial, fun _ => nofun⟩
  | cons name rest hypothesis =>
      cases rest with
      | nil =>
          simp only [passed, List.mem_singleton, forall_eq, Fits, lastly]
          cases known : component name with
          | none =>
              simp only [true_or, iff_true, opened_length]
              exact Nat.lt_of_le_of_lt (width_climb known) start
          | some c =>
              simp only [joined_push, List.length_append, opened_length, component_text known,
                reduceCtorEq, false_or]
      | cons next rest =>
          rw [passed, List.forall_mem_cons, opened_length, Fits]
          exact and_congr_right fun fits => hypothesis fits

theorem becomes_reach (dest : Text) (chars : List UInt8) (size : Nat) :
    (dest.becomes chars).reach ≤ size ↔ dest.reach ≤ size ∧ chars.length < size := by
  change max dest.reach (chars.length + 1) ≤ size ↔ _
  omega

theorem holds_reach (dest : Text) (strings : List (List UInt8)) (size : Nat) :
    (dest.holds strings).reach ≤ size ↔
      dest.reach ≤ size ∧ ∀ chars ∈ strings, chars.length < size := by
  induction strings generalizing dest with
  | nil => simp [Text.holds]
  | cons chars rest hypothesis =>
      change ((dest.becomes chars).holds rest).reach ≤ size ↔ _
      rw [hypothesis, becomes_reach, List.forall_mem_cons, and_assoc]

theorem normal_shorter {chars : List UInt8} {stack : List Component}
    (ends : chars = opened stack ∨ stack ≠ [] ∧ chars = joined stack) :
    (normal stack).length ≤ chars.length := by
  unfold normal
  rcases ends with same | ⟨some, same⟩
  · rw [same, opened, List.length_append, List.length_singleton]
    split
    · exact Nat.le_add_left _ _
    · exact Nat.le_succ _
  · exact Nat.le_of_eq (by rw [same, if_neg some])

/-- `dir_cat` stays within `size` bytes if and only if the directories on the way do. -/
theorem dir_cat_reach {dest : Text} {stack : List Component} {size : Nat}
    (leads : LeadsTo dest.chars stack) (src : List UInt8) :
    ∃ final, dirCat dest src = some final ∧
      final.chars = normal (resolve (origin stack src) src) ∧
        (final.reach ≤ size ↔ dest.reach ≤ size ∧ width (origin stack src) < size ∧
          Fits size (origin stack src) (src.splitOn slash)) := by
  refine ⟨_, dir_cat_holds leads src, rfl, ?_⟩
  generalize origin stack src = start
  have short := normal_shorter (@holds_chars (dest.becomes (opened start)) start _
    (List.splitOn_ne_nil slash src))
  have kept := ((dest.becomes (opened start)).holds (passed start (src.splitOn slash))).held
  rw [becomes_reach, holds_reach, becomes_reach, opened_length]
  constructor
  · rintro ⟨⟨⟨before, wide⟩, strings⟩, _⟩
    exact ⟨before, wide, (passed_fit wide).mp strings⟩
  · rintro ⟨before, wide, fits⟩
    have strings := (passed_fit wide).mpr fits
    have reach : ((dest.becomes (opened start)).holds (passed start (src.splitOn slash))).reach ≤
        size := by
      rw [holds_reach, becomes_reach, opened_length]
      exact ⟨⟨before, wide⟩, strings⟩
    refine ⟨⟨⟨before, wide⟩, strings⟩, ?_⟩
    unfold resolve
    omega

end Strings

section NormalForms

theorem component_of (c : Component) : component c.text = some c := by
  unfold component
  rw [dif_pos ⟨c.nonempty, c.whole, c.named⟩]

theorem split_joined (stack : List Component) :
    (joined stack).splitOn slash = [] :: stack.map Component.text := by
  induction stack with
  | nil => rfl
  | cons c rest hypothesis =>
      cases rest with
      | nil =>
          rw [joined_single, List.splitOn_cons_eq_if_modifyHead, if_pos (beq_self_eq_true _),
            List.splitOn_eq_singleton c.whole]
          rfl
      | cons next rest =>
          change (slash :: (c.text ++ slash :: (next.text ++ joined rest))).splitOn slash = _
          rw [List.splitOn_cons_eq_if_modifyHead, if_pos (beq_self_eq_true _),
            List.splitOn_append_cons_self_of_not_mem c.whole]
          have front := hypothesis
          change (slash :: (next.text ++ joined rest)).splitOn slash = _ at front
          rw [List.splitOn_cons_eq_if_modifyHead, if_pos (beq_self_eq_true _), List.cons.injEq]
            at front
          rw [front.2]
          rfl

theorem climb_all (stack more : List Component) :
    (more.map Component.text).foldl climb stack = stack ++ more := by
  induction more generalizing stack with
  | nil => exact (List.append_nil stack).symm
  | cons c rest hypothesis =>
      rw [List.map_cons, List.foldl_cons, climb_named (component_of c), hypothesis,
        List.append_assoc]
      rfl

/-- A normal form leads to the directory that it is made from. -/
theorem resolve_normal (stack : List Component) : resolve [] (normal stack) = stack := by
  unfold normal
  split
  next root =>
    rw [root]
    decide
  next =>
    unfold resolve
    rw [split_joined, List.foldl_cons]
    exact climb_all [] stack

end NormalForms

section Tasks

/-- `sizeof(task->pwd)`. -/
def pwdSize : Nat := 0x100

inductive DirAct where
  | mkdir (path : List UInt8)
  | chdir (path : List UInt8)
  deriving DecidableEq

/-- A file system, and what a task has of directories. -/
structure Cwd (Fs Inode : Type) where
  fs : Fs
  curDir : Inode
  pwd : Text

variable {Fs Inode : Type} (mkdir : Fs → Inode → List UInt8 → Fs)
  (lookup : Fs → Inode → List UInt8 → Option Inode)

def vfsChdir (s : Cwd Fs Inode) (path : List UInt8) : Option (Cwd Fs Inode) :=
  match lookup s.fs s.curDir path with
  | none => some s
  | some next => (dirCat s.pwd path).map fun pwd => { s with curDir := next, pwd := pwd }

def dirStep : DirAct → Cwd Fs Inode → Option (Cwd Fs Inode)
  | .mkdir path, s => some { s with fs := mkdir s.fs s.curDir path }
  | .chdir path, s => vfsChdir lookup s path

/-- What was written to `pwd` so far is within its bytes. -/
def PwdFits (s : Cwd Fs Inode) : Prop := s.pwd.reach ≤ pwdSize

/-- The directories on the way from the working directory fit, for a path that is found. -/
def RoomFor : DirAct → Cwd Fs Inode → Prop
  | .mkdir _, _ => True
  | .chdir path, s =>
      (lookup s.fs s.curDir path).isSome →
        width (origin (resolve [] s.pwd.chars) path) < pwdSize ∧
          Fits pwdSize (origin (resolve [] s.pwd.chars) path) (path.splitOn slash)

/-- The working directory is in its normal form. -/
def PwdNormal (s : Cwd Fs Inode) : Prop := ∃ stack, s.pwd.chars = normal stack

/-- A step writes behind the bytes of `pwd` if and only if there is no room for it. -/
theorem dir_step_exact {act : DirAct} {s : Cwd Fs Inode} (normal : PwdNormal s) :
    ∃ next, dirStep mkdir lookup act s = some next ∧ PwdNormal next ∧
      (PwdFits next ↔ PwdFits s ∧ RoomFor lookup act s) := by
  rcases normal with ⟨stack, same⟩
  cases act with
  | mkdir path => exact ⟨_, rfl, ⟨stack, same⟩, iff_of_eq (and_true _).symm⟩
  | chdir path =>
      cases found : lookup s.fs s.curDir path with
      | none =>
          have room : RoomFor lookup (.chdir path) s := by
            intro some
            rw [found] at some
            cases some
          refine ⟨s, ?_, ⟨stack, same⟩, ⟨fun fits => ⟨fits, room⟩, And.left⟩⟩
          simp only [dirStep, vfsChdir, found]
      | some inode =>
          rcases @dir_cat_reach s.pwd stack pwdSize (Or.inl same) path with
            ⟨final, ran, chars, reach⟩
          refine ⟨{ s with curDir := inode, pwd := final }, ?_, ⟨_, chars⟩, ?_⟩
          · simp only [dirStep, vfsChdir, found, ran, Option.map_some]
          · simp only [RoomFor, same, resolve_normal, found, Option.isSome_some, forall_const]
            exact reach

theorem dir_run_ends {acts : List DirAct} {s : Cwd Fs Inode} (normal : PwdNormal s) :
    ∃ final, runSteps (dirStep mkdir lookup) acts s = some final ∧ PwdNormal final := by
  induction acts generalizing s with
  | nil => exact ⟨s, rfl, normal⟩
  | cons act rest hypothesis =>
      rcases @dir_step_exact _ _ mkdir lookup act s normal with ⟨next, stepped, kept, _⟩
      rcases hypothesis kept with ⟨final, ran, ends⟩
      refine ⟨final, ?_, ends⟩
      rw [runSteps, stepped, Option.bind_some, ran]

/-- A run stays within the bytes of `pwd` if and only if the directories on the way of each
`vfs_chdir` in it do. -/
theorem working_directory_fits (fs : Fs) (root : Inode) (acts : List DirAct) :
    RunKeeps (dirStep mkdir lookup) PwdFits acts ⟨fs, root, .copy [slash]⟩ ↔
      GuardedRun (dirStep mkdir lookup) (RoomFor lookup) acts ⟨fs, root, .copy [slash]⟩ := by
  have start : PwdNormal (⟨fs, root, .copy [slash]⟩ : Cwd Fs Inode) := ⟨[], rfl⟩
  have fits : PwdFits (⟨fs, root, .copy [slash]⟩ : Cwd Fs Inode) :=
    (by decide : (Text.copy [slash]).reach ≤ pwdSize)
  have exactly : ∀ act s next, PwdNormal s ∧ PwdFits s → dirStep mkdir lookup act s = some next →
      (PwdNormal next ∧ PwdFits next ↔ RoomFor lookup act s) := by
    intro act s next kept stepped
    rcases @dir_step_exact _ _ mkdir lookup act s kept.1 with ⟨other, also, normal, room⟩
    rw [stepped] at also
    cases also
    rw [room, and_iff_right kept.2, and_iff_right normal]
  rcases @dir_run_ends _ _ mkdir lookup acts _ start with ⟨final, ran, _⟩
  rw [← run_keeps_iff_guarded (dirStep mkdir lookup) exactly acts _ final ⟨start, fits⟩ ran]
  constructor
  · intro keeps count middle reached
    rcases @dir_run_ends _ _ mkdir lookup (acts.take count) _ start with ⟨other, also, normal⟩
    rw [reached] at also
    cases also
    exact ⟨normal, keeps count middle reached⟩
  · intro keeps count middle reached
    exact (keeps count middle reached).2

end Tasks

section Overflow

/-- A tree of directories, each given by the names on the way to it. -/
abbrev Dirs := List (List (List UInt8))

def findDir (fs : Dirs) (cur : List (List UInt8)) (path : List UInt8) :
    Option (List (List UInt8)) :=
  (path.splitOn slash).foldl (fun found name => found.bind fun dir =>
    if name = [] ∨ name = [dot] then some dir
    else if name = [dot, dot] then some dir.dropLast
    else if dir ++ [name] ∈ fs then some (dir ++ [name])
    else none) (some (if path.headD 0 = slash then [] else cur))

/-- A directory in the current one. -/
def makeDir (fs : Dirs) (cur : List (List UInt8)) (path : List UInt8) : Dirs :=
  fs ++ [cur ++ [path]]

/-- A name of 63 characters. -/
def longName : List UInt8 := List.replicate 63 0x61

/-- Four directories, each made in the one before. -/
def nestedDirs : List DirAct :=
  [.mkdir longName, .chdir longName, .mkdir longName, .chdir longName, .mkdir longName,
    .chdir longName, .mkdir longName, .chdir [slash]]

/-- The path to the last of them from the root: 255 characters. -/
def longPath : List UInt8 := [slash].intercalate [longName, longName, longName, longName]

/-- With the slash of the root before it and the NUL behind it the path takes 257 bytes. -/
theorem working_directory_overflows : longPath.length = 255 ∧
    ¬RunKeeps (dirStep makeDir findDir) PwdFits (nestedDirs ++ [.chdir longPath])
      ⟨[], [], .copy [slash]⟩ := by
  have written : (runSteps (dirStep makeDir findDir)
      ((nestedDirs ++ [DirAct.chdir longPath]).take 9) ⟨[], [], .copy [slash]⟩).map (fun s => s.pwd.reach) = some 257 := by
    decide +kernel
  refine ⟨by decide +kernel, ?_⟩
  intro keeps
  rcases Option.map_eq_some_iff.mp written with ⟨final, ran, reach⟩
  have fits := keeps 9 final ran
  rw [PwdFits, reach] at fits
  exact absurd fits (by decide)

end Overflow

end OsWorkbench.Kernel
