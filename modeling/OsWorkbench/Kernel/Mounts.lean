import OsWorkbench.Blkfs.Directories
import OsWorkbench.Library.Backups
import OsWorkbench.Library.Runs

/-!
# `vfs_mount` and `vfs_unmount`

An inode is overwritten in place, and a table keeps what it was. As in `vfs.c`, what `find` does is
up to the file system: it sees the inodes in memory and the `root_parent` of each file system, and
finds the address of an inode. A string in the table is the string that it is a pointer to.
-/

namespace OsWorkbench.Kernel

open Library

section Source

/-- `struct inode`, with the numbers of its file system and of its operations. -/
structure Inode where
  ptr : Nat
  fs : Nat
  ops : Nat
  deriving DecidableEq

/-- What `find` can see. -/
structure Nodes where
  inodes : Nat → Inode
  rootParent : Nat → Option Nat

structure MountEntry where
  path : List UInt8
  backup : Inode

structure Vfs extends Nodes where
  vfsRoot : Nat
  curDir : Nat
  mountTable : List MountEntry

/-- The number of entries of `mount_table`. -/
def mountTableSize : Nat := 20

/-- `sizeof(root_parent)` in `vfs_mount`. -/
def rootParentSize : Nat := 0x100

variable (find : Nat → Nodes → Nat → List UInt8 → Nat → Option Nat) (root : Nat → Nat)

/-- `vfs_lookup`; `find` is that of the inode from which it starts. -/
def vfsLookup (s : Vfs) (path : List UInt8) (flags : Nat) : Option Nat :=
  let start := if path.headD 0 = slash then s.vfsRoot else s.curDir
  find (s.inodes start).ops s.toNodes start path flags

/-- The lookups of `vfs_mount` and `vfs_unmount`. -/
def lookupDirectory (s : Vfs) (path : List UInt8) : Option Nat :=
  vfsLookup find s path (Blkfs.oRdonly ||| Blkfs.oDirectory)

/-- `vfs_mount`; without an inode at `path` it ends in `TODO`. -/
def vfsMount (s : Vfs) (path : List UInt8) (fs : Nat) : Option Vfs :=
  if path = [slash] then
    some { s with vfsRoot := root fs, rootParent := Function.update s.rootParent fs (some (root fs)) }
  else
    (lookupDirectory find s path).bind fun origin =>
      if mountTableSize ≤ s.mountTable.length then none
      else
        let mounted :=
          { s with
            inodes := Function.update s.inodes origin (s.inodes (root fs))
            mountTable := s.mountTable ++ [MountEntry.mk path (s.inodes origin)] }
        (dirCat (.copy path) [dot, dot]).bind fun parent =>
          if rootParentSize < parent.reach then none
          else
            some { mounted with
              rootParent := Function.update s.rootParent fs (lookupDirectory find mounted parent.chars) }

/-- `vfs_unmount_real`; an unmount of a path at which there is no inode dereferences `NULL`. -/
def vfsUnmount (s : Vfs) (path : List UInt8) : Option (Vfs × Int) :=
  match s.mountTable.findIdx? fun entry => entry.path == path with
  | none => some (s, -1)
  | some i =>
      (lookupDirectory find s path).bind fun origin =>
        s.mountTable[i]?.map fun entry =>
          ({ s with
            inodes := Function.update s.inodes origin entry.backup
            mountTable := swapRemove s.mountTable i }, 0)

end Source

section Tracking

inductive MountAct where
  | mount (path : List UInt8) (fs : Nat)
  | unmount (path : List UInt8)

/-- A mount that is not undone: the inode that `path` led to, and what it was. -/
structure Live extends Backup Nat Inode where
  path : List UInt8

/-- The state, and what has happened to it: the mounts that are not undone, in the order of the
table, the file systems that were mounted, and whether one was mounted on `/`. -/
structure Tracked where
  vfs : Vfs
  live : List Live
  mounted : List Nat
  rooted : Bool
  clock : Nat

/-- Nothing is mounted yet. -/
def tracked (start : Vfs) : Tracked := ⟨start, [], [], false, 0⟩

variable (find : Nat → Nodes → Nat → List UInt8 → Nat → Option Nat) (root : Nat → Nat)

def mountStep : MountAct → Tracked → Option Tracked
  | .mount path fs, t =>
      (vfsMount find root t.vfs path fs).map fun next =>
        { vfs := next
          live :=
            if path = [slash] then t.live
            else t.live ++ (lookupDirectory find t.vfs path).toList.map fun origin =>
              ⟨⟨origin, t.vfs.inodes origin, t.clock⟩, path⟩
          mounted := fs :: t.mounted
          rooted := t.rooted || path == [slash]
          clock := t.clock + 1 }
  | .unmount path, t =>
      (vfsUnmount find t.vfs path).map fun next =>
        { t with
          vfs := next.1
          live :=
            match t.live.findIdx? fun live => live.path == path with
            | none => t.live
            | some i => swapRemove t.live i }

/-- The most recent of the mounts of the path that are not undone. -/
structure Recent (t : Tracked) (path : List UInt8) (live : Live) : Prop where
  listed : live ∈ t.live
  same : live.path = path
  newest : ∀ other ∈ t.live, other.path = path → other.time ≤ live.time

/-- An unmount of a path finds its most recent mount in the table, leads to the inode that it has
overwritten, and that inode was not overwritten again. -/
def Careful : MountAct → Tracked → Prop
  | .mount _ _, _ => True
  | .unmount path, t =>
      ∀ live, t.live.find? (fun live => live.path == path) = some live →
        Recent t path live ∧ lookupDirectory find t.vfs path = some live.cell ∧
          Newest (t.live.map Live.toBackup) live.toBackup

/-- The inode that the path leads to is again what it was before the most recent mount of the path,
and no other inode has changed. -/
def PutsBack (t : Tracked) (path : List UInt8) (vfs : Vfs) : Prop :=
  ∃ live, Recent t path live ∧ lookupDirectory find t.vfs path = some live.cell ∧
    vfs.inodes = Function.update t.vfs.inodes live.cell live.old

/-- Everything that was mounted is undone. -/
def Undone (t : Tracked) : Prop := t.live = [] ∧ t.rooted = false

/-- No lookup depends on where the roots of these file systems have their parents. -/
def Detached (s : Vfs) (mounted : List Nat) : Prop :=
  ∀ parents : Nat → Option Nat, (∀ fs ∉ mounted, parents fs = s.rootParent fs) →
    ∀ path flags,
      vfsLookup find { s with rootParent := parents } path flags = vfsLookup find s path flags

/-- What tracked runs keep. -/
structure Backed (start : Vfs) (t : Tracked) : Prop where
  table : t.vfs.mountTable = t.live.map fun live => ⟨live.path, live.old⟩
  covers : Covers start.inodes t.vfs.inodes (t.live.map Live.toBackup)
  earlier : ∀ live ∈ t.live, live.time < t.clock
  place : t.vfs.curDir = start.curDir
  root : t.rooted = false → t.vfs.vfsRoot = start.vfsRoot
  parents : ∀ fs ∉ t.mounted, t.vfs.rootParent fs = start.rootParent fs

variable {find root} {start : Vfs} {t next : Tracked} {vfs : Vfs} {path : List UInt8} {fs : Nat}

theorem tracked_backed (empty : start.mountTable = []) : Backed start (tracked start) :=
  ⟨empty, covers_nothing, fun _ member => absurd member List.not_mem_nil, rfl, fun _ => rfl,
    fun _ _ => rfl⟩

/-- A path is found in the table where it is found among the mounts. -/
theorem Backed.index (backed : Backed start t) (path : List UInt8) :
    (t.vfs.mountTable.findIdx? fun entry => entry.path == path) =
      t.live.findIdx? fun live => live.path == path := by
  rw [backed.table, List.findIdx?_map]
  rfl

/-- What an unmount does that finds its path in the table. -/
theorem unmount_found (backed : Backed start t) {i : Nat} {result : Vfs × Int}
    (index : (t.live.findIdx? fun live => live.path == path) = some i)
    (unmounted : vfsUnmount find t.vfs path = some result) :
    ∃ live origin, t.live.find? (fun live => live.path == path) = some live ∧
      lookupDirectory find t.vfs path = some origin ∧ t.live.Perm (live :: swapRemove t.live i) ∧
      result = ({ t.vfs with
        inodes := Function.update t.vfs.inodes origin live.old
        mountTable := (swapRemove t.live i).map fun live => ⟨live.path, live.old⟩ }, 0) := by
  rw [vfsUnmount, backed.index, index] at unmounted
  obtain ⟨origin, found, unmounted⟩ := Option.bind_eq_some_iff.mp unmounted
  obtain ⟨entry, taken, did⟩ := Option.map_eq_some_iff.mp unmounted
  obtain ⟨inside, here, before⟩ := List.findIdx?_eq_some_iff_getElem.mp index
  have first : t.live.find? (fun live => live.path == path) = some t.live[i] := by
    refine List.find?_eq_some_iff_getElem.mpr ⟨here, i, inside, rfl, fun j less => ?_⟩
    rw [Bool.not_eq_true', Bool.eq_false_iff]
    exact before j less
  rw [backed.table, List.getElem?_map, List.getElem?_eq_getElem inside] at taken
  cases taken
  cases did
  refine ⟨t.live[i], origin, first, found, swap_remove_perm inside, ?_⟩
  rw [swap_remove_map, backed.table]

/-- What a mount does that is not on `/`. -/
theorem mount_found (away : path ≠ [slash]) (mounted : vfsMount find root t.vfs path fs = some vfs) :
    ∃ origin parent, lookupDirectory find t.vfs path = some origin ∧
      vfs = { t.vfs with
        inodes := Function.update t.vfs.inodes origin (t.vfs.inodes (root fs))
        mountTable := t.vfs.mountTable ++ [⟨path, t.vfs.inodes origin⟩]
        rootParent := Function.update t.vfs.rootParent fs parent } := by
  rw [vfsMount, if_neg away] at mounted
  obtain ⟨origin, found, mounted⟩ := Option.bind_eq_some_iff.mp mounted
  split at mounted
  · exact nomatch mounted
  obtain ⟨parent, -, mounted⟩ := Option.bind_eq_some_iff.mp mounted
  split at mounted
  · exact nomatch mounted
  cases mounted
  exact ⟨origin, _, found, rfl⟩

theorem parents_after {parents : Nat → Option Nat}
    (same : ∀ other ∉ t.mounted, t.vfs.rootParent other = parents other) (parent : Option Nat) :
    ∀ other ∉ fs :: t.mounted, Function.update t.vfs.rootParent fs parent other = parents other := by
  intro other outside
  rw [List.mem_cons, not_or] at outside
  rw [Function.update_of_ne outside.1]
  exact same other outside.2

theorem mount_backed (backed : Backed start t)
    (stepped : mountStep find root (.mount path fs) t = some next) : Backed start next := by
  obtain ⟨vfs, mounted, rfl⟩ := Option.map_eq_some_iff.mp stepped
  by_cases atRoot : path = [slash]
  · rw [vfsMount, if_pos atRoot] at mounted
    cases mounted
    constructor
    case table =>
      rw [if_pos atRoot]
      exact backed.table
    case covers =>
      rw [if_pos atRoot]
      exact backed.covers
    case earlier =>
      rw [if_pos atRoot]
      exact fun live member => Nat.lt_succ_of_lt (backed.earlier live member)
    case place => exact backed.place
    case root =>
      intro unrooted
      rw [atRoot, beq_self_eq_true, Bool.or_true] at unrooted
      exact nomatch unrooted
    case parents => exact parents_after backed.parents _
  · obtain ⟨origin, parent, found, rfl⟩ := mount_found atRoot mounted
    dsimp only
    rw [if_neg atRoot, found]
    dsimp only [Option.toList_some, List.map_cons, List.map_nil]
    constructor
    case table =>
      dsimp only
      rw [List.map_append, backed.table]
      rfl
    case covers =>
      dsimp only
      rw [List.map_append]
      have later : ∀ b ∈ t.live.map Live.toBackup, b.time < t.clock := by
        intro b member
        obtain ⟨live, listed, rfl⟩ := List.mem_map.mp member
        exact backed.earlier live listed
      exact (backed.covers.overwrite later origin (t.vfs.inodes (root fs))).perm
        (List.perm_append_singleton _ _).symm
    case earlier =>
      intro live member
      rcases List.mem_append.mp member with before | new
      · exact Nat.lt_succ_of_lt (backed.earlier live before)
      · obtain rfl := List.mem_singleton.mp new
        exact Nat.lt_succ_self t.clock
    case place => exact backed.place
    case root => exact fun unrooted => backed.root (Bool.or_eq_false_iff.mp unrooted).1
    case parents => exact parents_after backed.parents parent

theorem unmount_backed (backed : Backed start t) (careful : Careful find (.unmount path) t)
    (stepped : mountStep find root (.unmount path) t = some next) : Backed start next := by
  obtain ⟨result, unmounted, rfl⟩ := Option.map_eq_some_iff.mp stepped
  cases index : t.live.findIdx? fun live => live.path == path with
  | none =>
      rw [vfsUnmount, backed.index, index] at unmounted
      cases unmounted
      exact backed
  | some i =>
      obtain ⟨live, origin, first, found, taken, rfl⟩ := unmount_found backed index unmounted
      obtain ⟨-, leads, newest⟩ := careful live first
      cases found.symm.trans leads
      have names : (t.live.map Live.toBackup).Perm
          (live.toBackup :: (swapRemove t.live i).map Live.toBackup) := taken.map Live.toBackup
      constructor
      case table => rfl
      case covers =>
        exact (backed.covers.perm names).put_back fun other listed =>
          newest other (names.symm.subset listed)
      case earlier =>
        exact fun other listed =>
          backed.earlier other (taken.symm.subset (List.mem_cons_of_mem live listed))
      case place => exact backed.place
      case root => exact backed.root
      case parents => exact backed.parents

theorem mount_step_backed (act : MountAct) (t next : Tracked) (backed : Backed start t)
    (careful : Careful find act t) (stepped : mountStep find root act t = some next) :
    Backed start next := by
  cases act with
  | mount path fs => exact mount_backed backed stepped
  | unmount path => exact unmount_backed backed careful stepped

/-- An unmount that finds its most recent mount puts back what was there. -/
theorem unmount_puts_back (backed : Backed start t) (careful : Careful find (.unmount path) t)
    (unmounted : vfsUnmount find t.vfs path = some (vfs, 0)) : PutsBack find t path vfs := by
  cases index : t.live.findIdx? fun live => live.path == path with
  | none =>
      rw [vfsUnmount, backed.index, index] at unmounted
      cases unmounted
  | some i =>
      obtain ⟨live, origin, first, found, -, result⟩ := unmount_found backed index unmounted
      obtain ⟨recent, leads, -⟩ := careful live first
      cases found.symm.trans leads
      exact ⟨live, recent, leads, congrArg (fun next => next.1.inodes) result⟩

/-- With everything undone the inodes are what they were, and so are the lookups. -/
theorem Backed.undone (backed : Backed start t) (undone : Undone t)
    (detached : Detached find t.vfs t.mounted) :
    t.vfs.inodes = start.inodes ∧
      ∀ path flags, vfsLookup find t.vfs path flags = vfsLookup find start path flags := by
  have inodes : t.vfs.inodes = start.inodes := by
    have covers := backed.covers
    rw [undone.1] at covers
    exact covers.ended
  refine ⟨inodes, fun path flags => ?_⟩
  rw [← detached start.rootParent (fun fs outside => (backed.parents fs outside).symm) path flags]
  unfold vfsLookup
  dsimp only
  rw [inodes, backed.root undone.2, backed.place]

end Tracking

/-- In every run in which each unmount finds the most recent mount of its path, every unmount puts back
what was there, and once everything is undone the lookups are those of the start. -/
theorem mounts_undone (find : Nat → Nodes → Nat → List UInt8 → Nat → Option Nat) (root : Nat → Nat)
    (start : Vfs) (acts : List MountAct) (t : Tracked) (empty : start.mountTable = [])
    (careful : GuardedRun (mountStep find root) (Careful find) acts (tracked start))
    (ran : runSteps (mountStep find root) acts (tracked start) = some t) :
    (∀ path vfs, Careful find (.unmount path) t → vfsUnmount find t.vfs path = some (vfs, 0) →
      PutsBack find t path vfs) ∧
      (Undone t → Detached find t.vfs t.mounted → t.vfs.inodes = start.inodes ∧
        ∀ path flags, vfsLookup find t.vfs path flags = vfsLookup find start path flags) := by
  have backed : Backed start t :=
    run_invariant (mountStep find root) mount_step_backed acts (tracked start) t (tracked_backed empty)
      careful ran
  exact ⟨fun path vfs => unmount_puts_back backed, backed.undone⟩

section TwoDirectories

/-- A root with one directory, `/x`. -/
def findX : Nat → Nodes → Nat → List UInt8 → Nat → Option Nat := fun _ _ cur path _ =>
  if path = [slash] then some cur else if path = [slash, 0x78] then some 1 else none

/-- The inodes of the root and of `/x`, and those of the roots of two other file systems. -/
def startX : Vfs := ⟨⟨fun i => ⟨i, i - 1, 0⟩, fun _ => none⟩, 0, 0, []⟩

theorem careful_first {find : Nat → Nodes → Nat → List UInt8 → Nat → Option Nat} {t : Tracked}
    {path : List UInt8} {live : Live}
    (first : (t.live.find? fun live => live.path == path) = some live)
    (leads : lookupDirectory find t.vfs path = some live.cell)
    (newest : ∀ other ∈ t.live, other.path = path ∨ other.cell = live.cell → other.time ≤ live.time) :
    Careful find (.unmount path) t := by
  intro found here
  cases first.symm.trans here
  have same := List.find?_some first
  refine ⟨⟨List.mem_of_find?_eq_some first, beq_iff_eq.mp same, ?_⟩, leads, ?_⟩
  · exact fun other listed same => newest other listed (Or.inl same)
  · intro backup kept same
    obtain ⟨other, listed, rfl⟩ := List.mem_map.mp kept
    exact newest other listed (Or.inr same)

/-- A root with a directory `/x`, and `/x/y` while the file system 1 is mounted on `/x`. -/
def findXY : Nat → Nodes → Nat → List UInt8 → Nat → Option Nat := fun _ nodes cur path _ =>
  if path = [slash] then some cur
  else if path = [slash, 0x78] then some 1
  else if path = [slash, 0x78, slash, 0x79] ∧ (nodes.inodes 1).fs = 1 then some 4
  else none

/-- A mount, one inside of it, and both undone. -/
def nestedMounts : List MountAct :=
  [.mount [slash, 0x78] 1, .mount [slash, 0x78, slash, 0x79] 2, .unmount [slash, 0x78, slash, 0x79],
    .unmount [slash, 0x78]]

theorem mounts_undone_nested : ∃ t, runSteps (mountStep findXY (fun fs => fs + 1)) nestedMounts
    (tracked startX) = some t ∧ t.vfs.inodes = startX.inodes ∧
      vfsLookup findXY t.vfs [slash, 0x78, slash, 0x79] 0 = none := by
  refine ⟨_, rfl, ?_⟩
  have careful : GuardedRun (mountStep findXY (fun fs => fs + 1)) (Careful findXY) nestedMounts
      (tracked startX) := by
    refine ⟨trivial, fun outer stepped => ⟨trivial, fun inner stepped' => ?_⟩⟩
    cases stepped
    cases stepped'
    refine ⟨careful_first rfl rfl (by decide), fun next undid => ?_⟩
    cases undid
    exact ⟨careful_first rfl rfl (by decide), fun _ _ => trivial⟩
  have facts := (mounts_undone findXY (fun fs => fs + 1) startX nestedMounts _ rfl careful rfl).2 ⟨rfl, rfl⟩
    fun _ _ _ _ => rfl
  exact ⟨facts.1, (facts.2 _ _).trans rfl⟩

/-- With two mounts on `/x` the first unmount undoes the older one. -/
theorem older_mount_undone : ∃ t vfs, runSteps (mountStep findX (fun fs => fs + 1))
    [.mount [slash, 0x78] 1, .mount [slash, 0x78] 2] (tracked startX) = some t ∧
      vfsUnmount findX t.vfs [slash, 0x78] = some (vfs, 0) ∧ ¬PutsBack findX t [slash, 0x78] vfs := by
  refine ⟨_, _, rfl, rfl, ?_⟩
  rintro ⟨live, recent, -, put⟩
  have last := recent.newest _ (List.mem_cons_of_mem _ List.mem_cons_self) rfl
  rcases List.mem_cons.mp recent.listed with rfl | second
  · exact absurd last (by decide)
  · cases List.mem_singleton.mp second
    exact absurd (congrFun put 1) (by decide)

end TwoDirectories

end OsWorkbench.Kernel
