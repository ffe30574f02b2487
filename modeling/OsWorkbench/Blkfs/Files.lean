import OsWorkbench.Blkfs.RoundTrip

/-!
# `blkfs.c`: files and inodes

An inode is known by its number. `fs->inodes[i].ptr` is a copy in memory of the node that the inode
table of the device holds; what changes a node writes the table as well. Where the source halts on an
assertion, and where a search of it finds no end, there is no result.
-/

namespace OsWorkbench.Blkfs

open Kernel ByteStore

/-- `yls_node`. -/
structure YlsNode where
  refcnt : Nat
  info : Nat
  size : Nat
  type : Nat
  deriving DecidableEq

def ylsDir : Nat := 0

def ylsFile : Nat := 1

def ylsWipe : Nat := 0x3f3f3f3f

def inodeStart : Nat := 0x40

def inodeEnd : Nat := 0x400

def sizeofNode : Nat := 0x10

/-- `filesystem`: the device, and the nodes by the numbers of their inodes. -/
structure Fs where
  dev : Rd
  nodes : Nat → YlsNode

/-- `vfile_t`. -/
structure VFile where
  inode : Nat
  offset : Nat
  flags : Nat
  deriving DecidableEq

def oRdonly : Nat := 0x01

def oWronly : Nat := 0x02

def oAppend : Nat := 0x10

def eisdir : Int := -1

/-- `flags&flag`. -/
def Has (flags flag : Nat) : Prop := flags &&& flag ≠ 0

instance (flags flag : Nat) : Decidable (Has flags flag) := inferInstanceAs (Decidable (_ ≠ _))

def Fs.setNode (fs : Fs) (i : Nat) (node : YlsNode) : Fs :=
  { fs with nodes := Function.update fs.nodes i node }

@[simp] theorem Fs.setNode_dev (fs : Fs) (i : Nat) (node : YlsNode) : (fs.setNode i node).dev = fs.dev :=
  rfl

@[simp] theorem Fs.setNode_self (fs : Fs) (i : Nat) (node : YlsNode) :
    (fs.setNode i node).nodes i = node :=
  Function.update_self ..

def Fs.setDev (fs : Fs) (dev : Rd) : Fs := { fs with dev := dev }

@[simp] theorem Fs.setDev_dev (fs : Fs) (dev : Rd) : (fs.setDev dev).dev = dev := rfl

@[simp] theorem Fs.setDev_nodes (fs : Fs) (dev : Rd) : (fs.setDev dev).nodes = fs.nodes := rfl

/-- Where the inode table keeps the size of a node. -/
def sizePlace (i : Nat) : Nat := inodeStart + i * sizeofNode + 8

def updateSize (fs : Fs) (file : VFile) (newsize : Nat) : Fs :=
  (fs.setNode file.inode { fs.nodes file.inode with size := newsize }).setDev
    (rdWrite fs.dev (sizePlace file.inode) (wordBytes newsize)).1

/-- A file that is opened for writing alone is truncated; its blocks stay where they are. -/
def blkfsIopen (fs : Fs) (i flags : Nat) : Fs × VFile :=
  if (fs.nodes i).type = ylsDir then (fs, ⟨i, 4, flags⟩)
  else if Has flags oWronly ∧ ¬Has flags oRdonly ∧ ¬Has flags oAppend then
    (updateSize fs ⟨i, 0, flags⟩ 0, ⟨i, 0, flags⟩)
  else (fs, ⟨i, 0, flags⟩)

/-- `blkfs_iread`: the file, the value returned and the bytes put into `buf`. -/
def blkfsIread (fuel : Nat) (fs : Fs) (file : VFile) (size : Nat) :
    Option (VFile × Int × List UInt8) :=
  let node := fs.nodes file.inode
  if node.type = ylsDir then some (file, eisdir, [])
  else if node.type = ylsFile then
    -- the offset is compared with the size of the buffer
    if file.offset > size then some (file, 0, [])
    else
      let size := if u32 (size + file.offset) > node.size then sub32 node.size file.offset else size
      (blockRead fuel fs.dev node.info file.offset size).map fun nread =>
        ({ file with offset := u32 (file.offset + nread.1) }, nread.1, nread.2)
  else none

/-- The end of `blkfs_iwrite`, from `off` and the offset in the file on. -/
def writeFile (fuel : Nat) (fs : Fs) (file : VFile) (off fsize : Nat) (buf : List UInt8) :
    Option (Fs × VFile × Int) :=
  (blockWrite fuel fs.dev off file.offset buf).map fun nwrite =>
    let offset := u32 (file.offset + nwrite.2)
    let written := { file with offset := offset }
    (if offset > fsize then updateSize (fs.setDev nwrite.1) written offset else fs.setDev nwrite.1,
      written, nwrite.2)

/-- `blkfs_iwrite`, and the value it returns. -/
def blkfsIwrite (fuel : Nat) (fs : Fs) (file : VFile) (buf : List UInt8) :
    Option (Fs × VFile × Int) :=
  let node := fs.nodes file.inode
  let moved := if Has file.flags oAppend then { file with offset := node.size } else file
  let started :=
    if node.info = 0 ∧ node.size = 0 then
      (fs.setNode file.inode { node with info := (newBlock fs.dev).2 }).setDev (newBlock fs.dev).1
    else fs
  if node.type = ylsDir then some (started, moved, eisdir)
  else if node.type = ylsFile then
    writeFile fuel started moved (started.nodes file.inode).info node.size buf
  else none

end OsWorkbench.Blkfs
