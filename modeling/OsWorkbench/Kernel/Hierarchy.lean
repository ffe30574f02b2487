import OsWorkbench.Blkfs.Paths
import OsWorkbench.Kernel.PathSteps
import OsWorkbench.Library.Climbing

/-!
# The directories behind `vfs_init`

Three inodes of the first ramdisk are overwritten with the roots of the other file systems. In this
state `find` leads from a directory to its children and to its parent.
-/

namespace OsWorkbench.Kernel

open Library
open Blkfs (Has oCreate oRdonly oDirectory ylsDir slotSearch getFirstLayer Directory Titles
  childrenOf entriesOf parentOf slotCount)

section Disks

/-- A disk whose directories know the directory that they are in. -/
structure Rooted (fs : Blkfs.Fs) : Prop where
  sound : Blkfs.Sound fs
  titles : Titles fs.dev
  parents : ∀ d, Directory fs.dev d → ∀ entry ∈ entriesOf fs d, Directory fs.dev entry.2 →
    entry.2 ≠ 0 ∧ parentOf fs entry.2 = d

variable {fs : Blkfs.Fs} {d e : Nat} {name : List UInt8}

/-- The inode of an entry is in use, and its name fits into the buffer of `block_cmp`. -/
theorem Rooted.entry (rooted : Rooted fs) (found : (childrenOf fs d).lookup name = some e) :
    Directory fs.dev d ∧ Blkfs.Kept fs.dev e ∧ name.length < 80 ∧
      (Directory fs.dev e → e ≠ 0 ∧ parentOf fs e = d) := by
  by_cases directory : Directory fs.dev d
  · rw [Blkfs.children_of_directory directory] at found
    have member := lookup_mem found
    refine ⟨directory, ?_, ?_, rooted.parents d directory _ member⟩
    all_goals
      rw [entriesOf, rooted.sound.table d directory.kept.1, Blkfs.blockEntries] at member
      obtain ⟨c, live, same⟩ := List.mem_map.mp member
      obtain ⟨k, bound, rfl, used, kept⟩ := Blkfs.live_slot live
      have filled := (rooted.sound.slots d directory).filled k bound
      have named := (filled.resolve_left used).resolve_left kept
      cases same
    · exact named.target
    · exact (rooted.titles d directory k bound named).short
  · rw [childrenOf, if_neg directory] at found
    cases found

theorem Rooted.directory_iff (rooted : Rooted fs) (kept : Blkfs.Kept fs.dev e) :
    (fs.nodes e).type = ylsDir ↔ Directory fs.dev e := by
  rw [rooted.sound.table e kept.1]
  exact ⟨fun type => ⟨kept, type⟩, Directory.type⟩

theorem Rooted.parent (rooted : Rooted fs) (directory : Directory fs.dev d) :
    Directory fs.dev (parentOf fs d) := by
  have block := (rooted.sound.slots d directory).block
  rw [parentOf, rooted.sound.table d directory.kept.1, Blkfs.read_block block]
  exact rooted.sound.parents d directory

/-- What a search in a directory comes to is the child of that name. -/
theorem Rooted.slot_next {vol : Volumes} {stack : Nat → List UInt8} {volume : Nat} {rest : List UInt8}
    (rooted : Rooted (vol.disks volume)) (enough : slotCount < vol.fuel)
    (directory : Directory (vol.disks volume).dev d) (live : 0 ∉ name) :
    slotNext vol volume rest (slotSearch stack vol.fuel (vol.disks volume).dev
      (u32 (((vol.disks volume).nodes d).info + 4)) name) =
        ((childrenOf (vol.disks volume) d).lookup name).elim .missing fun e =>
          .next (inodePlace volume e) rest := by
  have slots := rooted.sound.slots d directory
  rw [rooted.sound.start directory, Blkfs.children_of_directory directory, entriesOf,
    rooted.sound.table d directory.kept.1]
  cases @Blkfs.searched (vol.disks volume).dev (Blkfs.nodeAt (vol.disks volume).dev d).info vol.fuel
    name stack slots (rooted.titles d directory) live enough with
  | found m bound goes used kept same search =>
      have named := ((slots.filled m bound).resolve_left used).resolve_left kept
      obtain ⟨back, entries⟩ := Blkfs.found_entry bound goes used kept same
      have first : name ∉ ((Blkfs.liveOf ((List.range m).map
          (Blkfs.slotAt (vol.disks volume).dev (Blkfs.nodeAt (vol.disks volume).dev d).info))).map
            fun c => (Blkfs.nameOf (vol.disks volume).dev c,
              ByteStore.word (vol.disks volume).dev.mem c)).map Prod.fst := by
        rw [List.map_map]
        exact (Blkfs.goes_names goes).2
      rw [entries, lookup_first first, search, slotNext, Blkfs.read_block named.block, blkfsNext,
        if_pos named.target.1]
      rfl
  | missing absent search =>
      rw [lookup_none_iff.mpr absent]
      rcases search with ⟨m, search⟩ | search
      · rw [search]
        rfl
      · rw [search]
        rfl

end Disks

section Inodes

variable {fs i a : Nat}

theorem place_fs (bound : fs < 4) : inodePlace fs i % 4 = fs := by
  unfold inodePlace
  omega

theorem place_number (bound : fs < 4) : inodePlace fs i / 4 = i := by
  unfold inodePlace
  omega

theorem place_parts (a : Nat) : a = inodePlace (a % 4) (a / 4) := by
  unfold inodePlace
  omega

theorem init_disk (disk : fs < 2) :
    initInode (inodePlace fs i) = ⟨inodePlace fs i, fs, blkfsIops⟩ := by
  rw [initInode, place_fs (by omega), if_neg (by unfold devfs; omega),
    if_neg (by unfold procfs; omega)]

theorem init_devices :
    initInode (inodePlace devfs 0) = ⟨inodePlace devfs 0, devfs, devfsRootiops⟩ := rfl

theorem init_device : initInode (inodePlace devfs (i + 1)) =
    ⟨inodePlace devfs (i + 1), devfs, devfsIops⟩ := by
  rw [initInode, place_fs (by decide), place_number (by decide), if_pos rfl,
    if_neg (Nat.succ_ne_zero i)]

theorem init_processes :
    initInode (inodePlace procfs 0) = ⟨inodePlace procfs 0, procfs, procfsRootiops⟩ := rfl

theorem init_task (bound : i < 0x40) : initInode (inodePlace procfs (i * 3 + 1)) =
    ⟨inodePlace procfs (i * 3 + 1), procfs, procfsTaskiops⟩ := by
  rw [initInode, place_fs (by decide), place_number (by decide), if_neg (by decide), if_pos rfl,
    if_neg (by omega), if_pos (by omega)]

theorem init_file (other : ¬(i < 0x40 * 3 ∧ i % 3 = 0)) : initInode (inodePlace procfs (i + 1)) =
    ⟨inodePlace procfs (i + 1), procfs, procfsIops⟩ := by
  rw [initInode, place_fs (by decide), place_number (by decide), if_neg (by decide), if_pos rfl,
    if_neg (by omega), if_neg (by rwa [Nat.add_sub_cancel])]

/-- The inode at an address, and the file systems whose roots stand elsewhere. -/
theorem init_injective {b : Nat} (same : initInode a = initInode b) : a = b := congrArg Inode.ptr same

end Inodes

section Alone

variable {vol : Volumes} {stack : Nat → List UInt8} {nodes : Nodes} {i up calls flags : Nat}
  {path : List UInt8}

/-- The address of an inode of the first ramdisk. -/
def inodeOf : Blkfs.Place → Option Nat
  | .inode i => some (inodePlace ramdisk0 i)
  | .above _ => none

/-- Where nothing is mounted a lookup goes on as in a ramdisk on its own. -/
theorem blkfs_find_from (lookup : ¬Has flags oCreate)
    (content : nodes.inodes (inodePlace ramdisk0 i) = initInode (inodePlace ramdisk0 i))
    (parent : nodes.rootParent ramdisk0 = some (inodePlace ramdisk0 up)) :
    (blkfsFind vol stack nodes (inodePlace ramdisk0 i) path flags).follow (fun inode rest =>
      (Blkfs.findFrom stack (some up) vol.fuel calls (vol.disks ramdisk0) (inode / 4) rest flags).bind
        fun found => found.2.bind inodeOf) =
      (Blkfs.findFrom stack (some up) vol.fuel (calls + 1) (vol.disks ramdisk0) i path flags).bind
        fun found => found.2.bind inodeOf := by
  have number (j : Nat) : inodePlace ramdisk0 j / 4 = j := place_number (by decide)
  have same : (inodePlace ramdisk0 i = inodePlace ramdisk0 0) = (i = 0) := by
    unfold inodePlace
    exact propext (by omega)
  rw [Blkfs.findFrom, blkfsFind]
  dsimp only
  rw [content, init_disk (by decide), ylsNode, number]
  dsimp only
  simp only [same]
  have kind : ((vol.disks ramdisk0).nodes i).type ≠ ylsDir ↔
      ¬Blkfs.isDir (vol.disks ramdisk0) i := Iff.rfl
  simp only [kind]
  by_cases outside : path.headD 0 = slash ∧ ¬Blkfs.isDir (vol.disks ramdisk0) i
  · rw [if_pos outside, if_pos outside]
    rfl
  rw [if_neg outside, if_neg outside]
  by_cases ended : path.dropWhile (fun c => c == slash) = []
  · rw [if_pos ended, if_pos ended]
    split
    · rfl
    · rfl
  rw [if_neg ended, if_neg ended]
  generalize path.dropWhile (fun c => c == slash) = rest
  by_cases first : rest.headD 0 = dot
  · rw [if_pos first, if_pos first]
    by_cases second : rest.getD 1 0 = dot
    · rw [if_pos second, if_pos second]
      by_cases top : i = 0
      · rw [if_pos top, if_pos top, upStep, parent, FindStep.follow, number]
        rfl
      · rw [if_neg top, if_neg top, blkfsNext, parentOf]
        split
        · rw [FindStep.follow, number]
        · rfl
    · rw [if_neg second, if_neg second, FindStep.follow, number]
  rw [if_neg first, if_neg first]
  by_cases long : 0x100 ≤ (getFirstLayer rest).length
  · rw [if_pos long, if_pos long]
    rfl
  rw [if_neg long, if_neg long]
  generalize slotSearch stack vol.fuel _ _ _ = slot
  rcases slot with none | ⟨unused | found | ended⟩
  · rfl
  · rw [Option.bind_some]
    dsimp only
    rw [Blkfs.findLast, if_neg fun both => lookup both.1]
    rfl
  · rw [Option.bind_some, slotNext, blkfsNext]
    dsimp only
    split
    · rw [FindStep.follow, number]
    · rfl
  · rfl

end Alone

section Mounted

/-- The inodes are as they were initialised, except that roots stand in place of directories in
`/`. -/
structure Mounted (vol : Volumes) (nodes : Nodes) : Prop where
  disk : Rooted (vol.disks ramdisk0)
  other : Rooted (vol.disks ramdisk1)
  enough : slotCount < vol.fuel
  inodes : ∀ a, nodes.inodes a = initInode a ∨ ∃ k fs, a = inodePlace ramdisk0 k ∧ 0 < fs ∧ fs < 4 ∧
    Directory (vol.disks ramdisk0).dev k ∧ k ≠ 0 ∧ parentOf (vol.disks ramdisk0) k = 0 ∧
      nodes.inodes a = initInode (inodePlace fs 0)

variable {vol : Volumes} {stack : Nat → List UInt8} {nodes : Nodes} {cur fs i a : Nat}

theorem Mounted.elsewhere (mounted : Mounted vol nodes) (away : a % 4 ≠ 0) :
    nodes.inodes a = initInode a := by
  rcases mounted.inodes a with same | ⟨k, -, rfl, -⟩
  · exact same
  · exact absurd (place_fs (by decide)) away

theorem Mounted.root (mounted : Mounted vol nodes) :
    nodes.inodes (inodePlace ramdisk0 0) = initInode (inodePlace ramdisk0 0) := by
  rcases mounted.inodes (inodePlace ramdisk0 0) with same | ⟨k, -, same, -, -, -, other, -⟩
  · exact same
  · unfold inodePlace at same
    omega

/-- An inode that is anywhere is also at its own address. -/
theorem Mounted.home (mounted : Mounted vol nodes)
    (here : nodes.inodes a = initInode (inodePlace fs i)) :
    nodes.inodes (inodePlace fs i) = initInode (inodePlace fs i) := by
  rcases mounted.inodes a with same | ⟨k, other, -, -, small, -, -, -, same⟩
  · obtain rfl := init_injective (same.symm.trans here)
    exact here
  · obtain same := init_injective (same.symm.trans here)
    rw [← same]
    by_cases zero : other = 0
    · rw [zero]
      exact mounted.root
    · exact mounted.elsewhere (by rw [place_fs small]; exact zero)

/-- Only the roots are anywhere else. -/
theorem Mounted.own (mounted : Mounted vol nodes) (bound : fs < 4) (inner : fs = 0 ∨ i ≠ 0)
    (here : nodes.inodes a = initInode (inodePlace fs i)) : a = inodePlace fs i := by
  rcases mounted.inodes a with same | ⟨k, other, -, positive, small, -, -, -, same⟩
  · exact init_injective (same.symm.trans here)
  · have same := init_injective (same.symm.trans here)
    have file := congrArg (· % 4) same
    have number := congrArg (· / 4) same
    simp only [place_fs small, place_fs bound, place_number small, place_number bound] at file number
    omega

theorem Mounted.devices (mounted : Mounted vol nodes) (i : Nat) :
    (nodes.inodes (inodePlace devfs (i + 1))).ops = devfsIops := by
  rw [mounted.elsewhere (by rw [place_fs (by decide)]; decide), init_device]

theorem Mounted.rooted (mounted : Mounted vol nodes) (disk : fs < 2) : Rooted (vol.disks fs) := by
  interval_cases fs
  · exact mounted.disk
  · exact mounted.other

end Mounted

section Children

/-- The processes, by the numbers that are their names. -/
def taskPlace (tasks : Nat → Bool) (name : List UInt8) : Option Nat :=
  let scanned := scanNumber 3 name
  let id := atoi scanned.1
  if scanned.1.length ≠ 0 ∧ scanned.1.length < 3 ∧ scanned.2 = [] ∧ 0 ≤ id ∧ id < 0x40 ∧
      tasks id.toNat then
    some (inodePlace procfs (id.toNat * 3 + 1))
  else none

/-- Where a name leads from an inode. -/
def entryOf (vol : Volumes) (inode : Inode) (name : List UInt8) : Option Nat :=
  if inode.ops = blkfsIops then
    ((childrenOf (vol.disks inode.fs) (inode.ptr / 4)).lookup name).map (inodePlace inode.fs)
  else if inode.ops = procfsRootiops then taskPlace vol.tasks name
  else none

/-- A name without the dot in front of it. -/
def bare (name : List UInt8) : List UInt8 := if name.headD 0 = dot then name.tail else name

/-- A name that `find` takes as one component from an inode. -/
structure Plain (inode : Inode) (name : List UInt8) : Prop where
  single : ¬[dot, dot] <+: name
  inner : inode.fs = procfs → dot ∉ name.tail

instance (inode : Inode) (name : List UInt8) : Decidable (Plain inode name) :=
  decidable_of_iff (¬[dot, dot] <+: name ∧ (inode.fs = procfs → dot ∉ name.tail))
    ⟨fun ⟨single, inner⟩ => ⟨single, inner⟩, fun plain => ⟨plain.single, plain.inner⟩⟩

/-- The directories among the children of an inode. -/
def childOf (vol : Volumes) (nodes : Nodes) (inode : Inode) (c : Component) : Option Nat :=
  if Plain inode c.text ∧ 0 ∉ c.text then
    (entryOf vol inode (bare c.text)).filter fun a => decide (DirectoryAt vol (nodes.inodes a))
  else none

/-- What stands at the places of directories. -/
inductive DirectoryInode (vol : Volumes) : Inode → Prop
  | disk {fs i : Nat} (small : fs < 2) (directory : Directory (vol.disks fs).dev i) :
      DirectoryInode vol (initInode (inodePlace fs i))
  | devices : DirectoryInode vol (initInode (inodePlace devfs 0))
  | processes : DirectoryInode vol (initInode (inodePlace procfs 0))
  | task {id : Nat} (bound : id < 0x40) :
      DirectoryInode vol (initInode (inodePlace procfs (id * 3 + 1)))

variable {vol : Volumes} {stack : Nat → List UInt8} {nodes : Nodes} {cur fs i a id : Nat}
  {name : List UInt8}

theorem find_at (mounted : Mounted vol nodes) (name : List UInt8) :
    directoryFind vol stack nodes cur name =
      (findStep vol stack nodes cur name (oRdonly ||| oDirectory)).follow fun inode rest =>
        directoryFind vol stack nodes inode rest :=
  find_step mounted.devices (by decide)

theorem find_nothing (mounted : Mounted vol nodes) : directoryFind vol stack nodes cur [] =
    if DirectoryAt vol (nodes.inodes cur) then some cur else none :=
  find_empty mounted.devices (by decide)

theorem find_parts (mounted : Mounted vol nodes) {front : List UInt8} (flat : slash ∉ front)
    (b : List UInt8) : directoryFind vol stack nodes cur (front ++ slash :: b) =
      (directoryFind vol stack nodes cur front).bind fun inode =>
        directoryFind vol stack nodes inode b :=
  find_front mounted.devices (by decide) flat

theorem find_along (mounted : Mounted vol nodes) (path : List UInt8) :
    directoryFind vol stack nodes cur path = (path.splitOn slash).foldlM
      (fun inode name => directoryFind vol stack nodes inode name) cur :=
  find_components mounted.devices (by decide)

theorem find_disk_entry (mounted : Mounted vol nodes) (small : fs < 2)
    (directory : Directory (vol.disks fs).dev i)
    (here : nodes.inodes cur = initInode (inodePlace fs i)) (some : name ≠ []) (flat : slash ∉ name) (plain : name.headD 0 ≠ dot) (live : 0 ∉ name) :
    directoryFind vol stack nodes cur name =
      (((childrenOf (vol.disks fs) i).lookup name).map (inodePlace fs)).filter fun a =>
        decide (DirectoryAt vol (nodes.inodes a)) := by
  have rooted := mounted.rooted small
  have content := here.trans (init_disk small)
  have step : findStep vol stack nodes cur name (oRdonly ||| oDirectory) =
      blkfsFind vol stack nodes cur name (oRdonly ||| oDirectory) :=
    if_pos (congrArg Inode.ops content)
  have named := @blkfs_named vol stack nodes cur (oRdonly ||| oDirectory) name [] some flat rfl
  have slot := @Rooted.slot_next i name vol stack fs [] rooted mounted.enough directory live
  rw [List.append_nil, if_neg plain, content, ylsNode, place_number (by omega)] at named
  rw [find_at mounted, step, named]
  cases found : (childrenOf (vol.disks fs) i).lookup name with
  | none =>
      dsimp only
      rw [slot, found]
      split
      · rfl
      · rfl
  | some e =>
      have short := (rooted.entry found).2.2.1
      dsimp only
      rw [if_neg (by omega), slot, found]
      change directoryFind vol stack nodes (inodePlace fs e) [] = _
      rw [find_nothing mounted, Option.map_some, Option.filter]
      split
      next inside => rw [if_pos (decide_eq_true inside)]
      next outside => rw [if_neg (by simpa using outside)]

/-- No directory is found in a file of procfs. -/
theorem find_file (mounted : Mounted vol nodes) (other : ¬(i < 0x40 * 3 ∧ i % 3 = 0)) :
    directoryFind vol stack nodes (inodePlace procfs (i + 1)) name = none := by
  have content := mounted.elsewhere (show inodePlace procfs (i + 1) % 4 ≠ 0 by
    rw [place_fs (by decide)]
    decide)
  have step : findStep vol stack nodes (inodePlace procfs (i + 1)) name (oRdonly ||| oDirectory) =
      procfsFind nodes (inodePlace procfs (i + 1)) (inodePlace procfs (i + 1))
        (procfsIfind true .root name) := by
    unfold findStep
    dsimp only
    rw [content, init_file other]
    rfl
  rw [find_at mounted, step, procfsIfind]
  split
  · rfl
  split
  · rfl
  · rfl

/-- A process has no directories. -/
theorem find_task_entry (mounted : Mounted vol nodes) (bound : id < 0x40)
    (here : nodes.inodes cur = initInode (inodePlace procfs (id * 3 + 1))) (some : name ≠ [])
    (flat : slash ∉ name) (undotted : dot ∉ name) : directoryFind vol stack nodes cur name = none := by
  have content := here.trans (init_task bound)
  have step : findStep vol stack nodes cur name (oRdonly ||| oDirectory) =
      procfsFind nodes cur (inodePlace procfs 0) (procfsTaskifind (id * 3) name) := by
    unfold findStep
    dsimp only
    rw [content]
    dsimp only
    rw [place_number (by decide), Nat.add_sub_cancel]
    rfl
  rw [find_at mounted, step, procfsTaskifind,
    show name.dropWhile (fun c => decide (c = slash)) = name from front_alone flat]
  rw [if_neg some, if_neg (no_dot_head undotted)]
  split
  · exact find_file mounted (by omega)
  split
  · exact find_file mounted (by omega)
  · rfl

theorem find_process_entry (mounted : Mounted vol nodes)
    (here : nodes.inodes cur = initInode (inodePlace procfs 0)) (some : name ≠ [])
    (flat : slash ∉ name) (undotted : dot ∉ name) :
    directoryFind vol stack nodes cur name = taskPlace vol.tasks name := by
  have content := here.trans init_processes
  have step : findStep vol stack nodes cur name (oRdonly ||| oDirectory) =
      procfsFind nodes cur cur (procfsRootifind vol.tasks name) := by
    unfold findStep
    dsimp only
    rw [content]
    rfl
  obtain ⟨scanned, parts⟩ : ∃ scanned, scanNumber 3 name = scanned := ⟨_, rfl⟩
  have split := scan_parts 3 name
  rw [parts] at split
  rw [find_at mounted, step, procfsRootifind, taskPlace,
    show name.dropWhile (fun c => decide (c = slash)) = name from front_alone flat]
  dsimp only
  rw [if_neg some, parts]
  split
  next empty =>
    rw [if_neg fun all => all.1 empty]
    cases found : firstMatch name otherInfo with
    | none =>
        dsimp only
        rw [rootDots, if_neg (no_dot_head undotted)]
        rfl
    | some k =>
        dsimp only
        rw [rootDots, if_neg (no_dot_head fun member => undotted (List.mem_of_mem_drop member))]
        exact find_file mounted (by omega)
  next digits =>
    have within : scanned.2 ⊆ name := by
      rw [← split]
      exact List.subset_append_right _ _
    by_cases few : scanned.1.length < 3
    · rw [if_pos few]
      by_cases range : 0 ≤ atoi scanned.1 ∧ atoi scanned.1 < 0x40
      · rw [if_pos range]
        have index : (atoi scanned.1).toNat < 0x40 := by omega
        have place := @Mounted.elsewhere vol nodes (inodePlace procfs ((atoi scanned.1).toNat * 3 + 1))
          mounted (by rw [place_fs (by decide)]; decide)
        by_cases live : vol.tasks (atoi scanned.1).toNat
        · rw [if_pos live]
          change directoryFind vol stack nodes (inodePlace procfs ((atoi scanned.1).toNat * 3 + 1))
            scanned.2 = _
          by_cases ended : scanned.2 = []
          · rw [if_pos ⟨digits, few, ended, range.1, range.2, live⟩, ended, find_nothing mounted,
              place, init_task index]
            rfl
          · rw [if_neg fun all => ended all.2.2.1]
            exact find_task_entry mounted index place ended (fun member => flat (within member))
              fun member => undotted (within member)
        · rw [if_neg live, if_neg fun all => live all.2.2.2.2.2]
          rfl
      · rw [if_neg range, if_neg fun all => range ⟨all.2.2.2.1, all.2.2.2.2.1⟩]
        rfl
    · rw [if_neg few, if_neg fun all => few all.2.1]
      rfl

theorem find_device_entry (mounted : Mounted vol nodes)
    (here : nodes.inodes cur = initInode (inodePlace devfs 0)) (some : name ≠ [])
    (flat : slash ∉ name) (plain : name.headD 0 ≠ dot) :
    directoryFind vol stack nodes cur name = none := by
  have content := here.trans init_devices
  have step : findStep vol stack nodes cur name (oRdonly ||| oDirectory) =
      devfsRootifind vol nodes cur name := by
    unfold findStep
    dsimp only
    rw [content]
    rfl
  rw [find_at mounted, step, devfsRootifind, front_alone flat]
  rw [if_neg some, if_neg plain]
  exact find_halts mounted.devices (by decide) (device_halts _)

/-- The entry of a name that begins without a dot. -/
theorem find_entry (mounted : Mounted vol nodes) (directory : DirectoryInode vol (nodes.inodes cur))
    (some : name ≠ []) (flat : slash ∉ name) (plain : name.headD 0 ≠ dot) (live : 0 ∉ name)
    (undotted : (nodes.inodes cur).fs = procfs → dot ∉ name) :
    directoryFind vol stack nodes cur name = (entryOf vol (nodes.inodes cur) name).filter fun a =>
      decide (DirectoryAt vol (nodes.inodes a)) := by
  generalize here : nodes.inodes cur = inode at directory undotted
  cases directory with
  | disk small directory =>
      rw [find_disk_entry mounted small directory here some flat plain live, entryOf, init_disk small,
        if_pos rfl, place_number (by omega)]
  | devices =>
      rw [find_device_entry mounted here some flat plain]
      rfl
  | processes =>
      rw [find_process_entry mounted here some flat (undotted rfl)]
      change _ = (taskPlace vol.tasks name).filter _
      unfold taskPlace
      dsimp only
      split
      next all =>
        have index : (atoi (scanNumber 3 name).1).toNat < 0x40 := by omega
        rw [Option.filter, mounted.elsewhere (by rw [place_fs (by decide)]; decide), init_task index]
        rfl
      · rfl
  | task bound =>
      rw [find_task_entry mounted bound here some flat (undotted (by rw [init_task bound])),
        entryOf, init_task bound]
      rfl

/-- A dot in front of a name is the directory itself. -/
theorem find_dot (mounted : Mounted vol nodes) (directory : DirectoryInode vol (nodes.inodes cur))
    (flat : slash ∉ name) (plain : name.headD 0 ≠ dot) :
    directoryFind vol stack nodes cur (dot :: name) = directoryFind vol stack nodes cur name := by
  have some : dot :: name ≠ [] := List.cons_ne_nil dot name
  have whole : slash ∉ dot :: name := by
    rw [List.mem_cons, not_or]
    exact ⟨by decide, flat⟩
  have second : (dot :: name).getD 1 0 = name.headD 0 := by
    cases name with
    | nil => rfl
    | cons c name => rfl
  suffices step : findStep vol stack nodes cur (dot :: name) (oRdonly ||| oDirectory) =
      .next cur name by
    rw [find_at mounted, step]
    rfl
  generalize here : nodes.inodes cur = inode at directory
  cases directory with
  | disk small directory =>
      have named := @blkfs_named vol stack nodes cur (oRdonly ||| oDirectory) _ [] some whole rfl
      rw [List.append_nil, second, if_neg plain] at named
      unfold findStep
      rw [here, init_disk small]
      exact (if_pos rfl).trans (named.trans (congrArg _ (List.append_nil name)))
  | devices =>
      have skipped := front_alone whole
      unfold findStep
      rw [here]
      change devfsRootifind vol nodes cur (dot :: name) = _
      rw [devfsRootifind, skipped, second]
      exact if_neg plain
  | processes =>
      unfold findStep
      rw [here]
      change procfsFind nodes cur cur (rootDots none (dot :: name)) = _
      rw [rootDots, tail_head, second, if_pos (show (dot :: name).headD 0 = dot from rfl),
        if_neg plain]
      rfl
  | task bound =>
      obtain rfl := mounted.own (by decide) (Or.inr (Nat.succ_ne_zero _)) here
      unfold findStep
      dsimp only
      rw [here, init_task bound]
      dsimp only
      rw [place_number (by decide), Nat.add_sub_cancel]
      change procfsFind nodes _ _ (procfsTaskifind _ (dot :: name)) = _
      rw [procfsTaskifind,
        show (dot :: name).dropWhile (fun c => decide (c = slash)) = dot :: name from
          front_alone whole,
        if_neg some, tail_head, second, if_pos (show (dot :: name).headD 0 = dot from rfl),
        if_neg plain]
      rfl

/-- Outside the ramdisks only the root of procfs has directories. -/
theorem entry_elsewhere (outside : 2 ≤ fs) (bound : fs < 4)
    (found : entryOf vol (initInode (inodePlace fs i)) name = some a) :
    fs = procfs ∧ i = 0 ∧ taskPlace vol.tasks name = some a := by
  obtain rfl | rfl : fs = devfs ∨ fs = procfs := by
    unfold devfs procfs
    omega
  · cases i with
    | zero => cases found
    | succ i =>
        rw [init_device] at found
        cases found
  · cases i with
    | zero => exact ⟨rfl, rfl, found⟩
    | succ i =>
        by_cases task : i < 0x40 * 3 ∧ i % 3 = 0
        · obtain ⟨id, rfl⟩ : ∃ id, i = id * 3 := ⟨i / 3, by omega⟩
          rw [init_task (by omega)] at found
          cases found
        · rw [init_file task] at found
          cases found

theorem task_place {tasks : Nat → Bool} (found : taskPlace tasks name = some a) :
    ∃ id < 0x40, a = inodePlace procfs (id * 3 + 1) := by
  unfold taskPlace at found
  dsimp only at found
  split at found
  next all =>
    cases found
    exact ⟨_, by omega, rfl⟩
  · cases found

theorem directory_at_disk (disk : fs < 2) : DirectoryAt vol (initInode (inodePlace fs i)) ↔
    ((vol.disks fs).nodes i).type = ylsDir := by
  rw [DirectoryAt, init_disk disk, ylsNode, place_number (by omega)]
  simp [blkfsIops, devfsRootiops, procfsRootiops, procfsTaskiops]

/-- A component leads to the child of that name. -/
theorem find_child (mounted : Mounted vol nodes) (directory : DirectoryInode vol (nodes.inodes cur))
    {c : Component} (plain : Plain (nodes.inodes cur) c.text) (live : 0 ∉ c.text) :
    directoryFind vol stack nodes cur c.text = childOf vol nodes (nodes.inodes cur) c := by
  obtain ⟨text, nonempty, whole, named⟩ := c
  rw [childOf, if_pos ⟨plain, live⟩]
  dsimp only at plain live ⊢
  cases text with
  | nil => exact absurd rfl nonempty
  | cons first rest =>
      by_cases start : first = dot
      · subst start
        have some : rest ≠ [] := by
          rintro rfl
          exact named.1 rfl
        have second : rest.headD 0 ≠ dot := by
          cases rest with
          | nil => exact absurd rfl some
          | cons c rest =>
              rintro rfl
              exact plain.single (List.prefix_append [dot, dot] rest)
        have flat := List.not_mem_of_not_mem_cons whole
        rw [find_dot mounted directory flat second]
        exact find_entry mounted directory some flat second (List.not_mem_of_not_mem_cons live)
          plain.inner
      · rw [bare, if_neg (show ¬(first :: rest).headD 0 = dot from start)]
        refine find_entry mounted directory nonempty whole start live fun inside member => ?_
        rcases List.mem_cons.mp member with same | later
        · exact start same.symm
        · exact plain.inner inside later

/-- The children that are directories. -/
theorem child_cases (mounted : Mounted vol nodes) {p b : Nat} {c : Component}
    (found : childOf vol nodes (nodes.inodes p) c = some b) :
    (∃ f j e, f < 2 ∧ nodes.inodes p = initInode (inodePlace f j) ∧ b = inodePlace f e ∧
      Directory (vol.disks f).dev e ∧ e ≠ 0 ∧ parentOf (vol.disks f) e = j ∧
        (nodes.inodes b = initInode b ∨ j = 0 ∧ f = ramdisk0 ∧
          ∃ g, 0 < g ∧ g < 4 ∧ nodes.inodes b = initInode (inodePlace g 0))) ∨
    nodes.inodes p = initInode (inodePlace procfs 0) ∧ ∃ id < 0x40,
      nodes.inodes b = initInode (inodePlace procfs (id * 3 + 1)) := by
  obtain ⟨a, here⟩ : ∃ a, nodes.inodes p = initInode a := by
    rcases mounted.inodes p with same | ⟨-, fs, -, -, -, -, -, -, same⟩
    · exact ⟨p, same⟩
    · exact ⟨_, same⟩
  obtain ⟨f, j, bound, rfl⟩ : ∃ f j, f < 4 ∧ a = inodePlace f j :=
    ⟨a % 4, a / 4, Nat.mod_lt a (by decide), place_parts a⟩
  unfold childOf at found
  split at found
  case isFalse => cases found
  obtain ⟨led, directory⟩ := Option.filter_eq_some_iff.mp found
  rw [decide_eq_true_eq] at directory
  rw [here] at led
  by_cases disk : f < 2
  · left
    have rooted := mounted.rooted disk
    rw [entryOf, init_disk disk, if_pos rfl, place_number (by omega)] at led
    obtain ⟨e, entry, rfl⟩ := Option.map_eq_some_iff.mp led
    obtain ⟨-, kept, -, further⟩ := rooted.entry entry
    rcases mounted.inodes (inodePlace f e) with
      same | ⟨k, g, same, positive, small, inside, -, zero, root⟩
    · rw [same, directory_at_disk disk, rooted.directory_iff kept] at directory
      obtain ⟨other, parent⟩ := further directory
      exact ⟨f, j, e, disk, here, rfl, directory, other, parent, Or.inl same⟩
    · obtain ⟨rfl, rfl⟩ : f = ramdisk0 ∧ e = k := by
        unfold inodePlace ramdisk0 at same
        unfold ramdisk0
        omega
      obtain ⟨other, parent⟩ := further inside
      exact ⟨_, j, e, disk, here, rfl, inside, other, parent,
        Or.inr ⟨parent.symm.trans zero, rfl, g, positive, small, root⟩⟩
  · right
    obtain ⟨rfl, rfl, task⟩ := entry_elsewhere (by omega) bound led
    obtain ⟨id, small, rfl⟩ := task_place task
    exact ⟨here, id, small, mounted.elsewhere (by rw [place_fs (by decide)]; decide)⟩

end Children

section Parents

/-- The names lead from `/` to what stands at an address. -/
abbrev PathTo (vol : Volumes) (nodes : Nodes) : List Component → Nat → Prop :=
  Leads nodes.inodes (childOf vol nodes) (inodePlace ramdisk0 0)

/-- A mounted inode that is a copy of the root of a ramdisk. -/
def CopiedRoot (nodes : Nodes) (cur : Nat) : Prop :=
  (nodes.inodes cur).ops = blkfsIops ∧ cur ≠ inodePlace (nodes.inodes cur).fs 0 ∧
    nodes.inodes cur = nodes.inodes (inodePlace (nodes.inodes cur).fs 0)

variable {vol : Volumes} {stack : Nat → List UInt8} {nodes : Nodes} {cur fs i a id : Nat}

theorem Mounted.root_directory (mounted : Mounted vol nodes) :
    DirectoryAt vol (nodes.inodes (inodePlace ramdisk0 0)) := by
  have root := mounted.disk.sound.root
  rw [mounted.root, directory_at_disk (by decide)]
  exact (mounted.disk.directory_iff root.kept).mpr root

theorem find_root (mounted : Mounted vol nodes) :
    directoryFind vol stack nodes (inodePlace ramdisk0 0) [] = some (inodePlace ramdisk0 0) := by
  rw [find_nothing mounted, if_pos mounted.root_directory]

theorem blkfs_up (content : nodes.inodes cur = initInode (inodePlace fs i)) (small : fs < 2) :
    findStep vol stack nodes cur [dot, dot] (oRdonly ||| oDirectory) =
      if cur = inodePlace fs 0 then upStep nodes fs []
      else blkfsNext fs (parentOf (vol.disks fs) i) [] := by
  have named := @blkfs_named vol stack nodes cur (oRdonly ||| oDirectory) [dot, dot] [] (by decide)
    (by decide) rfl
  unfold findStep
  rw [content, init_disk small]
  refine (if_pos rfl).trans (named.trans ?_)
  rw [content, init_disk small, if_pos (by decide), if_pos (by decide), ylsNode,
    place_number (by omega)]
  rfl

theorem find_disk_up (mounted : Mounted vol nodes) (small : fs < 2)
    (content : nodes.inodes cur = initInode (inodePlace fs i)) (inner : i ≠ 0)
    (directory : Directory (vol.disks fs).dev i) :
    directoryFind vol stack nodes cur [dot, dot] =
      directoryFind vol stack nodes (inodePlace fs (parentOf (vol.disks fs) i)) [] := by
  obtain rfl := mounted.own (by omega) (Or.inr inner) content
  have other : inodePlace fs i ≠ inodePlace fs 0 := by
    unfold inodePlace
    omega
  rw [find_at mounted, blkfs_up content small, if_neg other, blkfsNext,
    if_pos ((mounted.rooted small).parent directory).kept.1]
  rfl

/-- Every root but a copy of one of a ramdisk has the root of all as its parent. -/
theorem find_root_up (mounted : Mounted vol nodes) (bound : fs < 4)
    (parent : nodes.rootParent fs = some (inodePlace ramdisk0 0))
    (content : nodes.inodes cur = initInode (inodePlace fs 0)) (own : ¬CopiedRoot nodes cur) :
    directoryFind vol stack nodes cur [dot, dot] = some (inodePlace ramdisk0 0) := by
  have root : (upStep nodes fs []).follow (fun inode rest =>
      directoryFind vol stack nodes inode rest) = some (inodePlace ramdisk0 0) := by
    rw [upStep, parent, FindStep.follow, find_root mounted]
  rw [find_at mounted, ← root]
  congr 1
  by_cases small : fs < 2
  · have file : (initInode (inodePlace fs 0)).fs = fs := by rw [init_disk small]
    rw [blkfs_up content small, if_pos]
    by_contra other
    refine own ⟨?_, ?_, ?_⟩
    · rw [content, init_disk small]
    · rwa [content, file]
    · rw [content, file, mounted.home content]
  · obtain rfl | rfl : fs = devfs ∨ fs = procfs := by
      unfold devfs procfs
      omega
    · unfold findStep
      rw [content]
      rfl
    · unfold findStep
      rw [content]
      rfl

theorem find_task_up (mounted : Mounted vol nodes) (bound : id < 0x40)
    (content : nodes.inodes cur = initInode (inodePlace procfs (id * 3 + 1))) :
    directoryFind vol stack nodes cur [dot, dot] = some (inodePlace procfs 0) := by
  have root := mounted.elsewhere (show inodePlace procfs 0 % 4 ≠ 0 by decide)
  have step : findStep vol stack nodes cur [dot, dot] (oRdonly ||| oDirectory) =
      .next (inodePlace procfs 0) [] := by
    unfold findStep
    rw [content, init_task bound]
    rfl
  rw [find_at mounted, step, FindStep.follow, find_nothing mounted, root, init_processes]
  rfl

/-- Up is where a name was taken from, except from a copied root. -/
theorem directories_upward (mounted : Mounted vol nodes)
    (parents : ∀ fs < 4, nodes.rootParent fs = some (inodePlace ramdisk0 0)) :
    Upward nodes.inodes (childOf vol nodes) (inodePlace ramdisk0 0) (fun n => ¬CopiedRoot nodes n)
      fun n => directoryFind vol stack nodes n [dot, dot] := by
  constructor
  case top =>
    intro n q content own rose
    rw [mounted.root] at content
    rw [find_root_up mounted (by decide) (parents _ (by decide)) content own] at rose
    cases rose
    rfl
  case back =>
    intro p c b n q found content own rose
    rcases child_cases mounted found with
      ⟨f, j, e, disk, here, rfl, directory, inner, rfl,
        there | ⟨zero, rfl, g, positive, small, there⟩⟩ | ⟨here, id, small, there⟩
    · rw [find_disk_up mounted disk (content.trans there) inner directory, find_nothing mounted]
        at rose
      split at rose
      · cases rose
        rw [mounted.home here, here]
      · cases rose
    · rw [find_root_up mounted small (parents g small) (content.trans there) own] at rose
      cases rose
      rw [mounted.root, here, zero]
    · rw [find_task_up mounted small (content.trans there)] at rose
      cases rose
      rw [mounted.elsewhere (by decide), here]

/-- Names lead to directories. -/
theorem leads_directory (mounted : Mounted vol nodes) {names : List Component} {n : Nat}
    (leads : PathTo vol nodes names n) : DirectoryInode vol (nodes.inodes n) := by
  cases leads with
  | root same =>
      rw [same, mounted.root]
      exact .disk (by decide) mounted.disk.sound.root
  | child leads found same =>
      rw [same]
      rcases child_cases mounted found with
        ⟨f, j, e, disk, -, rfl, directory, -, -, there | ⟨-, -, g, positive, small, there⟩⟩ |
          ⟨-, id, small, there⟩
      · rw [there]
        exact .disk disk directory
      · rw [there]
        interval_cases g
        · exact .disk (by decide) mounted.other.sound.root
        · exact .devices
        · exact .processes
      · rw [there]
        exact .task small

/-- Names that are looked up one after the other lead where they lead in the hierarchy. -/
theorem leads_found (mounted : Mounted vol nodes) {names : List Component} {n : Nat}
    (leads : PathTo vol nodes names n) :
    ∃ m, (names.map Component.text).foldlM
      (fun inode name => directoryFind vol stack nodes inode name) (inodePlace ramdisk0 0) = some m ∧
        nodes.inodes m = nodes.inodes n := by
  induction leads with
  | root same => exact ⟨_, rfl, same.symm⟩
  | @child names p b n c leads found same hypothesis =>
      obtain ⟨m, walked, reached⟩ := hypothesis
      have directory := leads_directory mounted leads
      have known : Plain (nodes.inodes p) c.text ∧ 0 ∉ c.text := by
        by_contra other
        rw [childOf, if_neg other] at found
        cases found
      rw [← reached] at directory known found
      refine ⟨b, ?_, same.symm⟩
      rw [List.map_append, List.foldlM_append, walked, Option.bind_eq_bind, Option.bind_some,
        List.map_singleton, List.foldlM_cons, find_child mounted directory known.1 known.2, found]
      rfl

end Parents

end OsWorkbench.Kernel
