import OsWorkbench.Blkfs.Initrd
import OsWorkbench.Kernel.Hierarchy
import OsWorkbench.Kernel.WorkingDirectory

/-!
# `vfs_chdir` and `pwd`

`cur_dir` is what `find` makes of the paths, `pwd` is what `dir_cat` makes of them. They stay together
as long as `find` takes every component as `dir_cat` does, and goes up from where a name leads.
-/

namespace OsWorkbench.Kernel

open Library
open Blkfs (Has oRdonly oDirectory Directory parentOf slotCount)

section Mounting

/-- What `vfs_init` leaves behind. -/
structure Booted (vol : Volumes) (vfs : Vfs) : Prop where
  mounted : Mounted vol vfs.toNodes
  root : vfs.vfsRoot = inodePlace ramdisk0 0
  parents : ∀ fs < 4, vfs.rootParent fs = some (inodePlace ramdisk0 0)

variable {vol : Volumes} {stack : Nat → List UInt8} {s next : Vfs} {fs b : Nat} {c : Component}
  {path : List UInt8}

theorem lookup_absolute (absolute : path.headD 0 = slash) :
    lookupDirectory (fun _ => inodeFind vol stack) s path =
      directoryFind vol stack s.toNodes s.vfsRoot path := by
  rw [lookupDirectory, vfsLookup, if_pos absolute]
  rfl

theorem find_top (mounted : Mounted vol s.toNodes) :
    directoryFind vol stack s.toNodes (inodePlace ramdisk0 0) [slash] =
      some (inodePlace ramdisk0 0) := by
  have parts := @find_parts vol stack s.toNodes (inodePlace ramdisk0 0) mounted [] List.not_mem_nil []
  rw [find_root mounted, Option.bind_some, find_root mounted] at parts
  exact parts

/-- What a path of one name leads to. -/
theorem find_single (mounted : Mounted vol s.toNodes) (plain : Plain ⟨0, ramdisk0, blkfsIops⟩ c.text)
    (live : 0 ∉ c.text)
    (found : directoryFind vol stack s.toNodes (inodePlace ramdisk0 0) (slash :: c.text ++ [slash]) =
      some b) : ∃ k, b = inodePlace ramdisk0 k ∧ Directory (vol.disks ramdisk0).dev k ∧ k ≠ 0 ∧
        parentOf (vol.disks ramdisk0) k = 0 := by
  have parts := @find_parts vol stack s.toNodes (inodePlace ramdisk0 0) mounted [] List.not_mem_nil
    (c.text ++ [slash])
  have directory : DirectoryInode vol (s.inodes (inodePlace ramdisk0 0)) := by
    rw [mounted.root]
    exact .disk (by decide) mounted.disk.sound.root
  have named : Plain (s.inodes (inodePlace ramdisk0 0)) c.text := by
    rw [mounted.root]
    exact plain
  rw [find_root mounted, Option.bind_some, find_parts mounted c.whole,
    find_child mounted directory named live] at parts
  obtain ⟨a, child, ended⟩ := Option.bind_eq_some_iff.mp (parts.symm.trans found)
  rw [find_nothing mounted] at ended
  split at ended
  case isFalse => cases ended
  cases ended
  rcases child_cases mounted child with ⟨f, j, e, disk, here, rfl, inside, other, parent, -⟩ | ⟨here, -⟩
  · have place := init_injective (mounted.root.symm.trans here)
    obtain ⟨rfl, rfl⟩ : f = ramdisk0 ∧ j = 0 := by
      unfold inodePlace ramdisk0 at place
      unfold ramdisk0
      omega
    exact ⟨e, rfl, inside, other, parent⟩
  · have place := init_injective (mounted.root.symm.trans here)
    exact absurd place (by decide)

/-- The parents of the roots do not matter for what stands where. -/
theorem Mounted.parents {nodes : Nodes} (mounted : Mounted vol nodes) (parents : Nat → Option Nat) :
    Mounted vol { nodes with rootParent := parents } :=
  ⟨mounted.disk, mounted.other, mounted.enough, mounted.inodes⟩

/-- A file system is mounted on a directory in `/`. -/
theorem mount_single (mounted : Mounted vol s.toNodes) (root : s.vfsRoot = inodePlace ramdisk0 0)
    (plain : Plain ⟨0, ramdisk0, blkfsIops⟩ c.text) (live : 0 ∉ c.text) (positive : 0 < fs)
    (small : fs < 4)
    (up : (dirCat (.copy (slash :: c.text ++ [slash])) [dot, dot]).map Text.chars = some [slash])
    (did : vfsMount (fun _ => inodeFind vol stack) (fun fs => inodePlace fs 0) s
      (slash :: c.text ++ [slash]) fs = some next) :
    Mounted vol next.toNodes ∧ next.vfsRoot = inodePlace ramdisk0 0 ∧
      next.rootParent = Function.update s.rootParent fs (some (inodePlace ramdisk0 0)) := by
  have away : slash :: c.text ++ [slash] ≠ [slash] := by simp
  rw [vfsMount, if_neg away] at did
  obtain ⟨origin, found, did⟩ := Option.bind_eq_some_iff.mp did
  split at did
  case isTrue => cases did
  obtain ⟨parent, catted, did⟩ := Option.bind_eq_some_iff.mp did
  split at did
  case isTrue => cases did
  rw [catted] at up
  have chars : parent.chars = [slash] := Option.some.inj up
  rw [lookup_absolute rfl, root] at found
  obtain ⟨k, rfl, directory, other, above⟩ := find_single mounted plain live found
  have copied : s.inodes (inodePlace fs 0) = initInode (inodePlace fs 0) :=
    mounted.elsewhere (by rw [place_fs small]; omega)
  cases did
  dsimp only at *
  rw [chars, lookup_absolute rfl]
  have further : Mounted vol
      ⟨Function.update s.inodes (inodePlace ramdisk0 k) (s.inodes (inodePlace fs 0)), s.rootParent⟩ := by
    refine ⟨mounted.disk, mounted.other, mounted.enough, fun a => ?_⟩
    by_cases here : a = inodePlace ramdisk0 k
    · right
      refine ⟨k, fs, here, positive, small, directory, other, above, ?_⟩
      dsimp only
      rw [here, Function.update_self, copied]
    · dsimp only
      rw [Function.update_of_ne here]
      exact mounted.inodes a
  refine ⟨further.parents _, root, ?_⟩
  rw [root]
  exact congrArg _ (@find_top vol stack ⟨⟨_, _⟩, _, _, _⟩ further)

def mntPoint : Component := ⟨[0x6d, 0x6e, 0x74], by decide, by decide, by decide⟩

def devPoint : Component := ⟨[0x64, 0x65, 0x76], by decide, by decide, by decide⟩

def procPoint : Component := ⟨[0x70, 0x72, 0x6f, 0x63], by decide, by decide, by decide⟩

theorem vfs_init_booted {start : Vfs} (initial : start.inodes = initInode)
    (disk : Rooted (vol.disks ramdisk0)) (other : Rooted (vol.disks ramdisk1))
    (enough : slotCount < vol.fuel) (did : vfsInit vol stack start = some s) : Booted vol s := by
  have fresh : Mounted vol start.toNodes :=
    ⟨disk, other, enough, fun a => Or.inl (congrFun initial a)⟩
  unfold vfsInit at did
  dsimp only at did
  obtain ⟨first, rootDid, did⟩ := Option.bind_eq_some_iff.mp did
  rw [vfsMount, if_pos rfl] at rootDid
  cases rootDid
  obtain ⟨second, mntDid, did⟩ := Option.bind_eq_some_iff.mp did
  obtain ⟨third, devDid, procDid⟩ := Option.bind_eq_some_iff.mp did
  obtain ⟨mnt, mntRoot, mntParents⟩ :=
    @mount_single vol stack { start with
        vfsRoot := inodePlace ramdisk0 0
        rootParent := Function.update start.rootParent ramdisk0 (some (inodePlace ramdisk0 0)) }
      second ramdisk1 mntPoint (fresh.parents _) rfl (by decide) (by decide) (by decide) (by decide)
      (by decide) mntDid
  obtain ⟨dev, devRoot, devParents⟩ :=
    @mount_single vol stack _ third devfs devPoint mnt mntRoot (by decide) (by decide) (by decide)
      (by decide) (by decide) devDid
  obtain ⟨proc, procRoot, procParents⟩ :=
    @mount_single vol stack _ s procfs procPoint dev devRoot (by decide) (by decide) (by decide)
      (by decide) (by decide) procDid
  refine ⟨proc, procRoot, fun fs small => ?_⟩
  rw [procParents, devParents, mntParents]
  interval_cases fs
  · rfl
  · rfl
  · rfl
  · rfl

end Mounting

section Following

/-- `find` takes a component as `dir_cat` does: a name as one, and `..` not from a copied root. -/
def Straight (nodes : Nodes) (cur : Nat) (name : List UInt8) : Prop :=
  if name = [dot, dot] then ¬CopiedRoot nodes cur else Plain (nodes.inodes cur) name

variable (vol : Volumes) (stack : Nat → List UInt8) (nodes : Nodes) in
/-- All components on the way are taken so. -/
def Passable : Nat → List (List UInt8) → Prop
  | _, [] => True
  | cur, name :: rest =>
      Straight nodes cur name ∧ ∀ next, directoryFind vol stack nodes cur name = some next →
        Passable next rest

variable {vol : Volumes} {search : Nat → List UInt8} {vfs : Vfs} {n m : Nat}
  {stack : List Component} {name path : List UInt8} {names : List (List UInt8)}

theorem split_names (live : 0 ∉ path) : ∀ name ∈ path.splitOn slash, slash ∉ name ∧ 0 ∉ name := by
  obtain ⟨size, bound⟩ : ∃ size, path.length < size := ⟨_, Nat.lt_succ_self _⟩
  induction size generalizing path with
  | zero => omega
  | succ size hypothesis =>
      intro name member
      rcases path_cases path with whole | ⟨front, tail, whole, rfl⟩
      · rw [List.splitOn_eq_singleton whole, List.mem_singleton] at member
        exact member ▸ ⟨whole, live⟩
      · rw [List.length_append, List.length_cons] at bound
        rw [List.mem_append, List.mem_cons, not_or, not_or] at live
        rw [List.splitOn_append_cons_self_of_not_mem whole, List.mem_cons] at member
        rcases member with rfl | member
        · exact ⟨whole, live.1⟩
        · exact hypothesis live.2.2 (by omega) name member

/-- A component leads to where it leads in `pwd`. -/
theorem leads_climb (booted : Booted vol vfs) (leads : PathTo vol vfs.toNodes stack n)
    (straight : Straight vfs.toNodes n name) (whole : slash ∉ name) (live : 0 ∉ name)
    (found : directoryFind vol search vfs.toNodes n name = some m) :
    PathTo vol vfs.toNodes (climb stack name) m := by
  have mounted := booted.mounted
  have directory := leads_directory mounted leads
  unfold Straight at straight
  by_cases double : name = [dot, dot]
  · subst double
    rw [if_pos rfl] at straight
    exact leads.up (directories_upward mounted booted.parents) straight found
  rw [if_neg double] at straight
  cases known : component name with
  | none =>
      have stays : climb stack name = stack := by rw [climb, if_neg double, known]
      have here : directoryFind vol search vfs.toNodes n [] = some m := by
        rcases (component_none whole).mp known with rfl | rfl | same
        · exact found
        · rwa [find_dot mounted directory List.not_mem_nil (by decide)] at found
        · exact absurd same double
      rw [find_nothing mounted] at here
      split at here
      · cases here
        rwa [stays]
      · cases here
  | some c =>
      rw [← component_text known] at straight live found
      rw [climb_named known]
      rw [find_child mounted directory straight live] at found
      exact leads.down found

theorem leads_along (booted : Booted vol vfs) (leads : PathTo vol vfs.toNodes stack n)
    (strings : ∀ name ∈ names, slash ∉ name ∧ 0 ∉ name)
    (passable : Passable vol search vfs.toNodes n names)
    (found : names.foldlM (fun inode name => directoryFind vol search vfs.toNodes inode name) n =
      some m) : PathTo vol vfs.toNodes (names.foldl climb stack) m := by
  induction names generalizing n stack with
  | nil =>
      cases found
      exact leads
  | cons name rest hypothesis =>
      obtain ⟨straight, further⟩ := passable
      obtain ⟨next, here, onward⟩ := Option.bind_eq_some_iff.mp found
      obtain ⟨whole, live⟩ := strings name List.mem_cons_self
      have later := fun other member => strings other (List.mem_cons_of_mem name member)
      exact hypothesis (leads_climb booted leads straight whole live here) later (further next here)
        onward

/-- The normal form of a directory, looked up from `/`, leads there. -/
theorem normal_found (booted : Booted vol vfs) (leads : PathTo vol vfs.toNodes stack n) :
    ∃ m, directoryFind vol search vfs.toNodes (inodePlace ramdisk0 0) (normal stack) = some m ∧
      vfs.inodes m = vfs.inodes n := by
  obtain ⟨m, walked, same⟩ := @leads_found vol search vfs.toNodes booted.mounted stack n leads
  refine ⟨m, ?_, same⟩
  rw [find_along booted.mounted]
  have root := @find_root vol search vfs.toNodes booted.mounted
  unfold normal
  split
  next empty =>
    subst empty
    cases walked
    rw [show [slash].splitOn slash = [[], []] by decide, List.foldlM_cons, root,
      Option.bind_eq_bind, Option.bind_some, List.foldlM_cons, root]
    rfl
  next =>
    rw [split_joined, List.foldlM_cons, root]
    exact walked

theorem normal_absolute (names : List Component) : (normal names).headD 0 = slash := by
  unfold normal
  split
  · rfl
  next some =>
    cases names with
    | nil => exact absurd rfl some
    | cons c rest => rfl

end Following

section Running

/-- The lookup of `vfs_chdir`. -/
def chdirLookup (vol : Volumes) (stack : Nat → List UInt8) (vfs : Vfs) (cur : Nat)
    (path : List UInt8) : Option Nat :=
  lookupDirectory (fun _ => inodeFind vol stack) { vfs with curDir := cur } path

/-- `vfs_chdir`, with what is on the stack in it. -/
def chdirStep (vol : Volumes) :
    (Nat → List UInt8) × List UInt8 → Cwd Vfs Nat → Option (Cwd Vfs Nat)
  | (stack, path), s => vfsChdir (chdirLookup vol stack) s path

/-- The inode that a lookup starts from. -/
def startOf (vfs : Vfs) (cur : Nat) (path : List UInt8) : Nat :=
  if path.headD 0 = slash then vfs.vfsRoot else cur

/-- The directory that `pwd` names has the file system, the operations and the data of `cur_dir`. -/
def Together (vol : Volumes) (s : Cwd Vfs Nat) : Prop :=
  ∀ stack, ∃ inode, chdirLookup vol stack s.fs s.curDir s.pwd.chars = some inode ∧
    s.fs.inodes inode = s.fs.inodes s.curDir

/-- The path of a `vfs_chdir` is a string, and passable from where it starts. -/
def Tracks (vol : Volumes) : (Nat → List UInt8) × List UInt8 → Cwd Vfs Nat → Prop
  | (stack, path), s =>
      0 ∉ path ∧
        Passable vol stack s.fs.toNodes (startOf s.fs s.curDir path) (path.splitOn slash)

/-- A task in a directory that `pwd` leads to. -/
structure Starts (vol : Volumes) (vfs : Vfs) (s : Cwd Vfs Nat) : Prop where
  fs : s.fs = vfs
  normal : PwdNormal s
  together : Together vol s
  passable : ∃ stack, Tracks vol (stack, s.pwd.chars) s

/-- The names in `pwd` lead to `cur_dir`. -/
structure InPlace (vol : Volumes) (vfs : Vfs) (s : Cwd Vfs Nat) : Prop where
  fs : s.fs = vfs
  place : ∃ names, s.pwd.chars = normal names ∧ PathTo vol vfs.toNodes names s.curDir

variable {vol : Volumes} {vfs : Vfs} {s next : Cwd Vfs Nat} {stack : Nat → List UInt8}
  {names : List Component} {cur inode : Nat} {path : List UInt8}

/-- What both interpreters make of a path, from a directory in which they agree. -/
theorem tracks_leads (booted : Booted vol vfs)
    (leads : path.headD 0 = slash ∨ PathTo vol vfs.toNodes names cur) (string : 0 ∉ path)
    (passable : Passable vol stack vfs.toNodes (startOf vfs cur path) (path.splitOn slash))
    (found : chdirLookup vol stack vfs cur path = some inode) :
    PathTo vol vfs.toNodes (resolve (origin names path) path) inode := by
  have start : PathTo vol vfs.toNodes (origin names path) (startOf vfs cur path) := by
    unfold origin startOf
    split
    · rw [booted.root]
      exact .root rfl
    next relative => exact leads.resolve_left relative
  have walked : directoryFind vol stack vfs.toNodes (startOf vfs cur path) path = some inode := found
  rw [find_along booted.mounted] at walked
  exact leads_along booted start (split_names string) passable walked

theorem Starts.in_place (booted : Booted vol vfs) (starts : Starts vol vfs s) : InPlace vol vfs s := by
  obtain ⟨rfl, ⟨names, chars⟩, together, stack, string, passable⟩ := starts
  obtain ⟨inode, found, same⟩ := together stack
  have absolute : s.pwd.chars.headD 0 = slash := chars ▸ normal_absolute names
  have leads := @tracks_leads vol s.fs stack names s.curDir inode s.pwd.chars booted (Or.inl absolute)
    string passable found
  rw [origin, if_pos absolute, chars, resolve_normal] at leads
  exact ⟨rfl, names, chars, leads.same same.symm⟩

theorem InPlace.together (booted : Booted vol vfs) (inPlace : InPlace vol vfs s) : Together vol s := by
  obtain ⟨rfl, names, chars, leads⟩ := inPlace
  intro stack
  obtain ⟨m, found, same⟩ := @normal_found vol stack s.fs s.curDir names booted leads
  rw [← booted.root, ← chars] at found
  exact ⟨m, (lookup_absolute (chars ▸ normal_absolute names)).trans found, same⟩

/-- A task that starts in `/`. -/
theorem root_starts (booted : Booted vol vfs) : Starts vol vfs ⟨vfs, vfs.vfsRoot, .copy [slash]⟩ := by
  have nothing (cur : Nat) : Straight vfs.toNodes cur [] := by
    unfold Straight
    rw [if_neg (by decide)]
    exact ⟨by decide, fun _ => List.not_mem_nil⟩
  refine ⟨rfl, ⟨[], rfl⟩, InPlace.together booted ⟨rfl, [], rfl, ?_⟩, fun _ => [],
    show (0 : UInt8) ∉ [slash] by decide, ?_⟩
  · rw [booted.root]
    exact .root rfl
  · exact ⟨nothing _, fun next _ => ⟨nothing next, fun _ _ => trivial⟩⟩

theorem chdir_in_place (booted : Booted vol vfs) {label : (Nat → List UInt8) × List UInt8}
    (inPlace : InPlace vol vfs s) (tracks : Tracks vol label s)
    (stepped : chdirStep vol label s = some next) : InPlace vol vfs next := by
  obtain ⟨stack, path⟩ := label
  obtain ⟨rfl, names, chars, leads⟩ := inPlace
  rw [chdirStep, vfsChdir] at stepped
  split at stepped
  · cases stepped
    exact ⟨rfl, names, chars, leads⟩
  next inode found =>
    rw [dir_cat_holds (Or.inl chars), Option.map_some] at stepped
    cases stepped
    exact ⟨rfl, resolve (origin names path) path, rfl,
      tracks_leads booted (Or.inr leads) tracks.1 tracks.2 found⟩

end Running

/-- Behind `vfs_init`, in every run of `vfs_chdir` whose paths are taken as `dir_cat` takes them,
`pwd` leads to what `cur_dir` is. -/
theorem working_directory_together (vol : Volumes) (stack : Nat → List UInt8) (boot vfs : Vfs)
    (start : Cwd Vfs Nat) (labels : List ((Nat → List UInt8) × List UInt8))
    (initial : boot.inodes = initInode) (disk : Rooted (vol.disks ramdisk0))
    (other : Rooted (vol.disks ramdisk1)) (enough : slotCount < vol.fuel)
    (did : vfsInit vol stack boot = some vfs) (starts : Starts vol vfs start)
    (guarded : GuardedRun (chdirStep vol) (Tracks vol) labels start) :
    RunKeeps (chdirStep vol) (Together vol) labels start := by
  have booted := vfs_init_booted initial disk other enough did
  intro count middle ran
  rw [← List.take_append_drop count labels] at guarded
  have front := ((guarded_run_append (chdirStep vol) _ _ start).mp guarded).1
  have kept : InPlace vol vfs middle :=
    run_invariant (chdirStep vol) (fun _ _ _ => chdir_in_place booted) (labels.take count) start middle
      (starts.in_place booted) front ran
  exact kept.together booted

section Image

/-- The names of the devices. -/
def deviceNames : List (List UInt8) :=
  [[0x72, 0x61, 0x6d, 0x64, 0x69, 0x73, 0x6b, 0x30], [0x72, 0x61, 0x6d, 0x64, 0x69, 0x73, 0x6b, 0x31],
    [0x69, 0x6e, 0x70, 0x75, 0x74], [0x66, 0x62], [0x74, 0x74, 0x79, 0x31], [0x74, 0x74, 0x79, 0x32],
    [0x74, 0x74, 0x79, 0x33], [0x74, 0x74, 0x79, 0x34], [0x6e, 0x75, 0x6c, 0x6c],
    [0x7a, 0x65, 0x72, 0x6f]]

/-- The image of `initrd.c`, a blank disk, and one process. -/
def kernelVolumes : Volumes where
  disks fs := if fs = ramdisk0 then Blkfs.initrdDisk else Blkfs.blankDisk
  devices := deviceNames
  tasks n := n == 0
  fuel := slotCount + 1

/-- The inodes before anything is mounted. -/
def bootVfs : Vfs := ⟨⟨initInode, fun _ => none⟩, 0, 0, []⟩

def kernelVfs : Vfs := (vfsInit kernelVolumes (fun _ => []) bootVfs).getD bootVfs

/-- A task in `/`. -/
def rootTask : Cwd Vfs Nat := ⟨kernelVfs, kernelVfs.vfsRoot, .copy [slash]⟩

/-- `/home/michael`, `..//../proc/0` and `.././../mnt`. -/
def homePaths : List ((Nat → List UInt8) × List UInt8) :=
  [slash :: 0x68 :: 0x6f :: 0x6d :: 0x65 :: slash :: [0x6d, 0x69, 0x63, 0x68, 0x61, 0x65, 0x6c],
    dot :: dot :: slash :: slash :: dot :: dot :: slash :: [0x70, 0x72, 0x6f, 0x63, slash, 0x30],
    dot :: dot :: slash :: dot :: slash :: dot :: dot :: slash :: [0x6d, 0x6e, 0x74]].map
      fun path => (fun _ => [], path)

/-- `/mnt` and `..`. -/
def mntPaths : List ((Nat → List UInt8) × List UInt8) :=
  [(fun _ => [], slash :: mntPoint.text), (fun _ => [], [dot, dot])]

theorem kernel_booted : vfsInit kernelVolumes (fun _ => []) bootVfs = some kernelVfs := by
  have started : (vfsInit kernelVolumes (fun _ => []) bootVfs).isSome := by decide +kernel
  obtain ⟨vfs, same⟩ := Option.isSome_iff_exists.mp started
  rw [kernelVfs, same]
  rfl

theorem initrd_rooted : Rooted Blkfs.initrdDisk :=
  ⟨Blkfs.initrd_sound, Blkfs.initrd_titles, Blkfs.initrd_parents⟩

theorem blank_rooted : Rooted Blkfs.blankDisk := by
  have lettered := Blkfs.blank_lettered
  refine ⟨lettered.sound, lettered.titles, fun d directory entry member => ?_⟩
  rw [show Blkfs.blankDisk = _ from Blkfs.blkfs_init_blank (fun _ _ => rfl) (by decide)] at directory
  obtain rfl := Blkfs.blank_directory (fun _ _ => rfl) (by decide) directory
  rw [List.map_eq_nil_iff.mp lettered.names] at member
  exact absurd member List.not_mem_nil

theorem kernel_fuel : slotCount < kernelVolumes.fuel := Nat.lt_succ_self slotCount

theorem root_task_starts : Starts kernelVolumes kernelVfs rootTask :=
  root_starts (vfs_init_booted rfl initrd_rooted blank_rooted kernel_fuel kernel_booted)

instance (nodes : Nodes) (cur : Nat) (name : List UInt8) : Decidable (Straight nodes cur name) :=
  inferInstanceAs (Decidable (if name = [dot, dot] then ¬(_ ∧ _ ∧ _) else Plain _ _))

instance decidablePassable (vol : Volumes) (stack : Nat → List UInt8) (nodes : Nodes) :
    ∀ cur names, Decidable (Passable vol stack nodes cur names)
  | _, [] => isTrue trivial
  | cur, name :: rest =>
      match found : directoryFind vol stack nodes cur name with
      | none =>
          decidable_of_iff (Straight nodes cur name)
            ⟨fun straight => ⟨straight, by simp [found]⟩, fun passable => passable.1⟩
      | some next =>
          have : Decidable (Passable vol stack nodes next rest) :=
            decidablePassable vol stack nodes next rest
          decidable_of_iff (Straight nodes cur name ∧ Passable vol stack nodes next rest)
            (by simp [Passable, found])

instance (vol : Volumes) (label : (Nat → List UInt8) × List UInt8) :
    DecidablePred (Tracks vol label) :=
  fun _ => inferInstanceAs (Decidable (_ ∧ _))

/-- From `/home/michael` to a process and on to `/mnt`. -/
theorem working_directory_together_home :
    RunKeeps (chdirStep kernelVolumes) (Together kernelVolumes) homePaths rootTask ∧
      (runSteps (chdirStep kernelVolumes) homePaths rootTask).map (fun s => s.pwd.chars) =
        some (slash :: mntPoint.text) := by
  have tracks : GuardedRun (chdirStep kernelVolumes) (Tracks kernelVolumes) homePaths rootTask := by
    decide +kernel
  refine ⟨?_, by decide +kernel⟩
  exact working_directory_together kernelVolumes (fun _ => []) bootVfs kernelVfs rootTask homePaths
    rfl initrd_rooted blank_rooted kernel_fuel kernel_booted root_task_starts tracks

/-- Up from `/mnt` is the root of the second ramdisk itself, of which the inode there is a copy. -/
theorem mounted_parent_lost : Rooted (kernelVolumes.disks ramdisk0) ∧
    Rooted (kernelVolumes.disks ramdisk1) ∧
    vfsInit kernelVolumes (fun _ => []) bootVfs = some kernelVfs ∧
    Starts kernelVolumes kernelVfs rootTask ∧
    ¬RunKeeps (chdirStep kernelVolumes) (Together kernelVolumes) mntPaths rootTask := by
  refine ⟨initrd_rooted, blank_rooted, kernel_booted, root_task_starts, fun keeps => ?_⟩
  have ends : (runSteps (chdirStep kernelVolumes) mntPaths rootTask).map (fun s =>
      ((s.fs.inodes s.curDir).fs,
        (chdirLookup kernelVolumes (fun _ => []) s.fs s.curDir s.pwd.chars).map
          fun inode => (s.fs.inodes inode).fs)) = some (ramdisk1, some ramdisk0) := by
    decide +kernel
  obtain ⟨s, ran, volumes⟩ := Option.map_eq_some_iff.mp ends
  obtain ⟨here, there⟩ := Prod.mk.inj volumes
  obtain ⟨inode, found, same⟩ := keeps 2 s ran fun _ => []
  rw [found, Option.map_some, same, here] at there
  exact absurd there (by decide)

end Image

end OsWorkbench.Kernel
