import OsWorkbench.Blkfs.Tables
import OsWorkbench.Kernel.Mounts
import OsWorkbench.Kernel.ProcFind

/-!
# `inode->ops->find`

Each `find` takes one component or a part of one off the path and goes on in the `find` of the inode
that it has come to. The inodes are in the arrays of the four file systems that `vfs_init` mounts;
the root of devfs and that of procfs stand before theirs. Only lookups without `O_CREAT` are modelled,
which change nothing. Where the source halts or leaves an array nothing is found.
-/

namespace OsWorkbench.Kernel

open Blkfs (Has oRdonly oDirectory ylsDir inodeCount readWord slotSearch getFirstLayer)

section Source

/-- `blkfs[0]`, `blkfs[1]`, `devfs` and `procfs`. -/
def ramdisk0 : Nat := 0

def ramdisk1 : Nat := 1

def devfs : Nat := 2

def procfs : Nat := 3

/-- The address of an inode of a file system. -/
def inodePlace (fs i : Nat) : Nat := i * 4 + fs

def blkfsIops : Nat := 0

def devfsRootiops : Nat := 1

def devfsIops : Nat := 2

def procfsRootiops : Nat := 3

def procfsTaskiops : Nat := 4

def procfsIops : Nat := 5

/-- An inode as its file system initialises it. The private data is known by the inode it is for. -/
def initInode (a : Nat) : Inode where
  ptr := a
  fs := a % 4
  ops :=
    if a % 4 = devfs then if a / 4 = 0 then devfsRootiops else devfsIops
    else if a % 4 = procfs then
      if a / 4 = 0 then procfsRootiops
      else if a / 4 - 1 < 0x40 * 3 ∧ (a / 4 - 1) % 3 = 0 then procfsTaskiops
      else procfsIops
    else blkfsIops

/-- What does not change while paths are looked up. -/
structure Volumes where
  disks : Nat → Blkfs.Fs
  devices : List (List UInt8)
  tasks : Nat → Bool
  fuel : Nat

/-- How a `find` ends: with an inode, with `NULL`, or in the `find` of another inode. -/
inductive FindStep
  | found (inode : Nat)
  | missing
  | next (inode : Nat) (path : List UInt8)

/-- What is found, with the `find` that the search goes on in. -/
def FindStep.follow (find : Nat → List UInt8 → Option Nat) : FindStep → Option Nat
  | .found inode => some inode
  | .missing => none
  | .next inode path => find inode path

variable (vol : Volumes) (stack : Nat → List UInt8) (nodes : Nodes) (cur : Nat) (path : List UInt8)
  (flags : Nat)

/-- `next=fs->root_parent`. -/
def upStep (fs : Nat) (path : List UInt8) : FindStep :=
  match nodes.rootParent fs with
  | none => .missing
  | some up => .next up path

/-- The node that an inode of blkfs points to. -/
def ylsNode (inode : Inode) : Blkfs.YlsNode := (vol.disks inode.fs).nodes (inode.ptr / 4)

/-- An inode of a ramdisk, by its number. -/
def blkfsNext (fs id : Nat) (path : List UInt8) : FindStep :=
  if id < inodeCount then .next (inodePlace fs id) path else .missing

/-- The inode that a search in a directory has found. -/
def slotNext (fs : Nat) (path : List UInt8) : Option Blkfs.Slot → FindStep
  | some (.found _ blkOff) =>
      blkfsNext fs (readWord (vol.disks fs).dev blkOff 0xffffffff).1 path
  | _ => .missing

def blkfsFind : FindStep :=
  let fs := (nodes.inodes cur).fs
  let dev := (vol.disks fs).dev
  let node := ylsNode vol (nodes.inodes cur)
  let rest := path.dropWhile fun c => c == slash
  if path.headD 0 = slash ∧ node.type ≠ ylsDir then .missing
  else if rest = [] then
    if Has flags oDirectory ∧ node.type ≠ ylsDir then .missing else .found cur
  else if rest.headD 0 = dot then
    if rest.getD 1 0 = dot then
      -- the address is compared, also where the inode is a copy of the root
      if cur = inodePlace fs 0 then upStep nodes fs (rest.drop 2)
      else blkfsNext fs (readWord dev node.info 0xffffffff).1 (rest.drop 2)
    else .next cur (rest.drop 1)
  else if 0x100 ≤ (getFirstLayer rest).length then .missing
  else
    slotNext vol fs (rest.drop (getFirstLayer rest).length)
      (slotSearch stack vol.fuel dev (u32 (node.info + 4)) (getFirstLayer rest))

/-- The loop over the devices, which goes on with what is behind a name that it has found. -/
def deviceFind : List (List UInt8) → Nat → Option Nat × List UInt8 → Option Nat × List UInt8
  | [], _, found => found
  | name :: names, i, found =>
      deviceFind names (i + 1)
        (if strncmp name found.2 name.length = 0 ∧
            (found.2.getD name.length 0 = slash ∨ found.2.getD name.length 0 = 0) then
          (some i, found.2.drop name.length)
        else found)

def deviceNext : Option Nat × List UInt8 → FindStep
  | (none, _) => .missing
  | (some i, path) => .next (inodePlace devfs (i + 1)) path

def devfsRootifind : FindStep :=
  let rest := path.dropWhile fun c => c == slash
  if rest = [] then .found cur
  else if rest.headD 0 = dot then
    if rest.getD 1 0 = dot then upStep nodes devfs (rest.drop 2) else .next cur (rest.drop 1)
  else deviceNext (deviceFind vol.devices 0 (none, rest))

def devfsIfind : FindStep := if path ≠ [] ∨ Has flags oDirectory then .missing else .found cur

/-- A `find` of procfs, with the inode that stands for its root. -/
def procfsFind (root : Nat) : Lookup → FindStep
  | .found _ => .found cur
  | .missing => .missing
  | .beyond => .missing
  | .next .root path => .next root path
  | .next (.node index) path => .next (inodePlace procfs (index + 1)) path
  | .next (.outside _) _ => .missing
  | .parent path => upStep nodes procfs path

/-- The `find` of the operations of the inode. -/
def findStep : FindStep :=
  let inode := nodes.inodes cur
  if inode.ops = blkfsIops then blkfsFind vol stack nodes cur path flags
  else if inode.ops = devfsRootiops then devfsRootifind vol nodes cur path
  else if inode.ops = devfsIops then devfsIfind cur path flags
  else if inode.ops = procfsRootiops then
    procfsFind nodes cur cur (procfsRootifind vol.tasks path)
  else if inode.ops = procfsTaskiops then
    procfsFind nodes cur (inodePlace procfs 0) (procfsTaskifind (inode.ptr / 4 - 1) path)
  else procfsFind nodes cur cur (procfsIfind (decide (Has flags oDirectory)) .root path)

/-- Calls of `find`, with a bound on their number. -/
def findCalls : Nat → Nat → List UInt8 → Option Nat
  | 0, _, _ => none
  | calls + 1, cur, path => (findStep vol stack nodes cur path flags).follow (findCalls calls)

/-- Every call takes something off the path. -/
def inodeFind : Option Nat := findCalls vol stack nodes flags (path.length + 1) cur path

/-- A lookup of a directory. -/
def directoryFind : Option Nat := inodeFind vol stack nodes cur path (oRdonly ||| oDirectory)

/-- `vfs_init` behind the initialisation of the file systems. -/
def vfsInit (s : Vfs) : Option Vfs :=
  let find := fun _ => inodeFind vol stack
  let root := fun fs => inodePlace fs 0
  (vfsMount find root s [slash] ramdisk0).bind fun s =>
    (vfsMount find root s [slash, 0x6d, 0x6e, 0x74, slash] ramdisk1).bind fun s =>
      (vfsMount find root s [slash, 0x64, 0x65, 0x76, slash] devfs).bind fun s =>
        vfsMount find root s [slash, 0x70, 0x72, 0x6f, 0x63, slash] procfs

end Source

end OsWorkbench.Kernel
