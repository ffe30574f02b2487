import OsWorkbench.Blkfs.Files
import OsWorkbench.Kernel.Dir

/-!
# `blkfs.c`: directories

A directory is one block: the number of its parent, then the offsets of the blocks that hold the
names, and the link of the block at its end. A name block holds the number of an inode and a string.
What `block_cmp` finds in the part of its buffer that it does not fill is a parameter, and so is the
inode on which `..` goes on from the root. Inodes that another file system is mounted on are not in
the model. The loops run on fuel; where the source halts, dereferences `NULL` or leaves an array there
is no result.
-/

namespace OsWorkbench.Blkfs

open Kernel ByteStore

def oCreate : Nat := 0x04

def oDirectory : Nat := 0x08

/-- The number of elements of `fs->inodes`. -/
def inodeCount : Nat := (inodeEnd - inodeStart) / sizeofNode

def nodePlace (i : Nat) : Nat := inodeStart + i * sizeofNode

def nodeBytes (node : YlsNode) : List UInt8 :=
  wordBytes node.refcnt ++ (wordBytes node.info ++ (wordBytes node.size ++ wordBytes node.type))

/-- The node that the inode table of a device holds. -/
def nodeAt (dev : Rd) (i : Nat) : YlsNode where
  refcnt := word dev.mem (nodePlace i)
  info := word dev.mem (nodePlace i + 4)
  size := word dev.mem (nodePlace i + 8)
  type := word dev.mem (nodePlace i + 12)

section Initialising

/-- The bitmap that `yls_init` writes. -/
def firstBitmap (size : Nat) : List UInt8 :=
  (List.range bitmapLen).map fun i => if i = 0 ∨ size / 0x80 / 8 ≤ i then 0xff else 0

def rootNode : YlsNode := ⟨1, 0x480, 8, ylsDir⟩

def rootName : List UInt8 := slash :: List.replicate 127 0

def ylsInit (dev : Rd) : Rd :=
  let dev := (rdWrite dev 0x040 (nodeBytes rootNode)).1
  let dev := (rdWrite dev 0x400 rootName).1
  (rdWrite dev 0 (firstBitmap dev.size)).1

def blkfsInit (dev : Rd) : Fs :=
  let check := (readWord dev 0 0).1
  let dev := if check % 0x100 < 0xff then ylsInit dev else dev
  ⟨dev, nodeAt dev⟩

/-- A ramdisk of 64 KB in its first state. -/
def blankDisk : Fs := blkfsInit ⟨0x10000, fun _ => 0, by decide⟩

end Initialising

/-- The loop of `new_inode`; nothing but a free record ends it. -/
def newInodeLoop : Nat → Rd → Nat → Nat → Option (Rd × Nat)
  | 0, _, _, _ => none
  | fuel + 1, dev, off, buf =>
      let buf := (readWord dev off buf).1
      if buf = 0 then some ((rdWrite dev off (wordBytes 1)).1, off)
      else newInodeLoop fuel dev (u32 (off + 0x10)) buf

def newInode (fuel : Nat) (dev : Rd) : Option (Rd × Nat) := newInodeLoop fuel dev inodeStart 0

/-- The loop of `find_empty`, which halts at the end of a block. -/
def findEmpty : Nat → Rd → Nat → Option Nat
  | 0, _, _ => none
  | fuel + 1, dev, off =>
      let read := (readWord dev off 0).1
      if read = 0 ∨ read = ylsWipe then some off
      else if u32 (off + 4) % blkSz = blkMem then none
      else findEmpty fuel dev (u32 (off + 4))

/-- The second loop of `block_cmp`, of which only the end matters. -/
def followName : Nat → Rd → Nat → Option Unit
  | 0, _, _ => none
  | fuel + 1, dev, off =>
      if off = 0 then some () else followName fuel dev (readWord dev (u32 (off + blkMem)) off).1

/-- `block_cmp`, whose buffer holds `stack` before. -/
def blockCmp (fuel : Nat) (stack : List UInt8) (dev : Rd) (off : Nat) (s : List UInt8) : Option Int :=
  let got := rdRead dev (u32 (off + 4)) 80
  let ret := strncmp (got ++ stack.drop got.length) s (blkSz - 8)
  if ret ≠ 0 then some ret
  else (followName fuel dev (readWord dev (u32 (off + blkMem)) off).1).map fun _ => 0

/-- How the loop over the slots of a directory ends: at a slot that is zero, at one whose name
matches, or at the end of the last block. -/
inductive Slot where
  | unused (offset : Nat)
  | found (offset blkOff : Nat)
  | ended
  deriving DecidableEq

/-- `block_cmp` on the name of a slot that is not wiped. -/
def slotCmp (fuel : Nat) (stack : List UInt8) (dev : Rd) (blkOff : Nat) (name : List UInt8) :
    Option Int :=
  if blkOff = ylsWipe then some 1 else blockCmp fuel stack dev blkOff name

/-- The place of the slot after the one at `offset`. -/
def nextSlot (dev : Rd) (offset : Nat) : Nat :=
  if u32 (offset + 4) % blkSz = blkMem then (readWord dev (u32 (offset + 4)) (u32 (offset + 4))).1
  else u32 (offset + 4)

/-- The loop of `blkfs_ifind`, `blkfs_iunlink` and `blkfs_irmdir`. The parameter `stack` gives what
is on the stack when the slot at an offset is compared. -/
def slotSearch (stack : Nat → List UInt8) : Nat → Rd → Nat → List UInt8 → Option Slot
  | 0, _, _, _ => none
  | fuel + 1, dev, offset, name =>
      if offset = 0 then some .ended
      else
        let entry := readWord dev offset 0
        if entry.2 ≠ 4 ∨ entry.1 = 0 then some (.unused offset)
        else
          (slotCmp fuel (stack offset) dev entry.1 name).bind fun ret =>
            if ret ≠ 0 then slotSearch stack fuel dev (nextSlot dev offset) name
            else some (.found offset entry.1)

/-- `blkfs_irmdir` and `blkfs_iunlink`, that wipe the slot of a directory or of any other inode. -/
def wipeEntry (stack : Nat → List UInt8) (fuel : Nat) (fs : Fs) (parent : Nat) (name : List UInt8)
    (directory : Bool) : Option (Fs × Int) :=
  if name.headD 0 = dot then some (fs, -1)
  else
    (slotSearch stack fuel fs.dev (u32 ((fs.nodes parent).info + 4)) name).map fun
      | .found offset blkOff =>
          let id := (readWord fs.dev blkOff 0).1
          let type := (readWord fs.dev (u32 (nodePlace id + 12)) 0).1
          if decide (type = ylsDir) ≠ directory then (fs, -1)
          else (fs.setDev (rdWrite fs.dev offset (wordBytes ylsWipe)).1, 0)
      | _ => (fs, -1)

def blkfsIrmdir (stack : Nat → List UInt8) (fuel : Nat) (fs : Fs) (parent : Nat) (name : List UInt8) :
    Option (Fs × Int) :=
  wipeEntry stack fuel fs parent name true

def blkfsIunlink (stack : Nat → List UInt8) (fuel : Nat) (fs : Fs) (parent : Nat)
    (name : List UInt8) : Option (Fs × Int) :=
  wipeEntry stack fuel fs parent name false

/-- The writes that fill a name block and put it into a slot. -/
def setEntry (dev : Rd) (offset off : Nat) : Rd := (rdWrite dev offset (wordBytes off)).1

def setName (dev : Rd) (off id : Nat) (filename : List UInt8) : Rd :=
  (rdWrite (rdWrite dev off (wordBytes id)).1 (u32 (off + 4)) filename).1

/-- `add_inode`, which has no place for a number from `inodeCount` on. -/
def addInode (fs : Fs) (id : Nat) (node : YlsNode) : Option Fs :=
  if id < inodeCount then
    some ((fs.setNode id node).setDev (rdWrite fs.dev (nodePlace id) (nodeBytes node)).1)
  else none

/-- What `new_direc` and `new_file` have in common: the state, the number of the new inode and its
first block. -/
def newChild (fuel : Nat) (fs : Fs) (offset type : Nat) (filename : List UInt8) :
    Option (Fs × Nat × Nat) :=
  let named := newBlock fs.dev
  (newInode fuel named.1).bind fun inode =>
    let filled := newBlock inode.1
    let file : YlsNode := ⟨1, filled.2, 0, type⟩
    let id := sub32 inode.2 inodeStart / 0x10
    (addInode (fs.setDev (setEntry filled.1 offset named.2)) id file).map fun fs =>
      (fs.setDev (setName fs.dev named.2 id filename), id, filled.2)

def newFile (fuel : Nat) (fs : Fs) (offset : Nat) (filename : List UInt8) : Option (Fs × Nat) :=
  (newChild fuel fs offset ylsFile filename).map fun made => (made.1, made.2.1)

def newDirec (fuel : Nat) (fs : Fs) (cur offset : Nat) (filename : List UInt8) : Option (Fs × Nat) :=
  (newChild fuel fs offset ylsDir filename).map fun made =>
    (made.1.setDev (rdWrite made.1.dev made.2.2 (wordBytes cur)).1, made.2.1)

def isDir (fs : Fs) (i : Nat) : Prop := (fs.nodes i).type = ylsDir

instance (fs : Fs) (i : Nat) : Decidable (isDir fs i) := inferInstanceAs (Decidable (_ = _))

/-- Where a path leads: to an inode, or up into the file system that this one is mounted in. -/
inductive Place where
  | inode (i : Nat)
  | above (path : List UInt8)
  deriving DecidableEq

/-- The parent of a directory other than the root, as its block has it. -/
def parentOf (fs : Fs) (cur : Nat) : Nat := (readWord fs.dev (fs.nodes cur).info 0xffffffff).1

def getFirstLayer (path : List UInt8) : List UInt8 := path.takeWhile fun c => c != slash

section Finding

variable (stack : Nat → List UInt8) (rootParent : Option Nat) (fuel : Nat)

/-- The end of a search for the name that the whole rest of the path is. -/
def findLast (fs : Fs) (cur offset : Nat) (path : List UInt8) (flags : Nat) :
    Option (Fs × Option Place) :=
  if Has flags oCreate ∧ getFirstLayer path = path then
    (if Has flags oDirectory then newDirec fuel fs cur offset path else newFile fuel fs offset path).map
      fun made => (made.1, some (.inode made.2))
  else some (fs, none)

/-- `blkfs_ifind`, with a bound on the number of calls: each one takes something off the path. -/
def findFrom : Nat → Fs → Nat → List UInt8 → Nat → Option (Fs × Option Place)
  | 0, _, _, _, _ => none
  | calls + 1, fs, cur, path, flags =>
      let rest := path.dropWhile fun c => c == slash
      if path.headD 0 = slash ∧ ¬isDir fs cur then some (fs, none)
      else if rest = [] then
        some (fs, if Has flags oDirectory ∧ ¬isDir fs cur then none else some (.inode cur))
      else if rest.headD 0 = dot then
        if rest.getD 1 0 = dot then
          if cur = 0 then
            rootParent.elim (some (fs, some (.above (rest.drop 2)))) fun up =>
              findFrom calls fs up (rest.drop 2) flags
          else if parentOf fs cur < inodeCount then
            findFrom calls fs (parentOf fs cur) (rest.drop 2) flags
          else none
        else findFrom calls fs cur (rest.drop 1) flags
      else if 0x100 ≤ (getFirstLayer rest).length then none
      else
        (slotSearch stack fuel fs.dev (u32 ((fs.nodes cur).info + 4)) (getFirstLayer rest)).bind fun
          | .unused offset => findLast fuel fs cur offset rest flags
          | .found _ blkOff =>
              let id := (readWord fs.dev blkOff 0xffffffff).1
              if id < inodeCount then
                findFrom calls fs id (rest.drop (getFirstLayer rest).length) flags
              else none
          | .ended => none

def blkfsIfind (fs : Fs) (cur : Nat) (path : List UInt8) (flags : Nat) :
    Option (Fs × Option Place) :=
  findFrom stack rootParent fuel (path.length + 1) fs cur path flags

/-- `findLast`, with the text in `err` of the current task afterwards. -/
def findLastErr (fs : Fs) (cur offset : Nat) (path : List UInt8) (flags : Nat) (err : String) :
    Option ((Fs × Option Place) × String) :=
  (findLast fuel fs cur offset path flags).map fun found =>
    (found, if Has flags oCreate ∧ getFirstLayer path = path then err else "No such file or directory")

/-- `findFrom`, with the text that `warn` leaves in `err` of the current task. -/
def findFromErr : Nat → Fs → Nat → List UInt8 → Nat → String → Option ((Fs × Option Place) × String)
  | 0, _, _, _, _, _ => none
  | calls + 1, fs, cur, path, flags, err =>
      let rest := path.dropWhile fun c => c == slash
      if path.headD 0 = slash ∧ ¬isDir fs cur then some ((fs, none), "Not a directory")
      else if rest = [] then
        if Has flags oDirectory ∧ ¬isDir fs cur then some ((fs, none), "Not a directory")
        else some ((fs, some (.inode cur)), err)
      else if rest.headD 0 = dot then
        if rest.getD 1 0 = dot then
          if cur = 0 then
            rootParent.elim (some ((fs, some (.above (rest.drop 2))), err)) fun up =>
              findFromErr calls fs up (rest.drop 2) flags err
          else if parentOf fs cur < inodeCount then
            findFromErr calls fs (parentOf fs cur) (rest.drop 2) flags err
          else none
        else findFromErr calls fs cur (rest.drop 1) flags err
      else if 0x100 ≤ (getFirstLayer rest).length then none
      else
        (slotSearch stack fuel fs.dev (u32 ((fs.nodes cur).info + 4)) (getFirstLayer rest)).bind fun
          | .unused offset => findLastErr fuel fs cur offset rest flags err
          | .found _ blkOff =>
              let id := (readWord fs.dev blkOff 0xffffffff).1
              if id < inodeCount then
                findFromErr calls fs id (rest.drop (getFirstLayer rest).length) flags err
              else none
          | .ended => none

/-- `blkfs_ifind`, with the text in `err` before and after it. -/
def blkfsIfindErr (fs : Fs) (cur : Nat) (path : List UInt8) (flags : Nat) (err : String) :
    Option ((Fs × Option Place) × String) :=
  findFromErr stack rootParent fuel (path.length + 1) fs cur path flags err

variable {stack : Nat → List UInt8} {rootParent : Option Nat} {fuel calls cur flags : Nat} {fs next : Fs}
  {path : List UInt8} {err text : String}

theorem find_last_err (offset : Nat) : (findLastErr fuel fs cur offset path flags err).map Prod.fst =
    findLast fuel fs cur offset path flags := by
  rw [findLastErr, Option.map_map]
  exact Option.map_id'

/-- The texts change nothing of what is found. -/
theorem find_from_err : (findFromErr stack rootParent fuel calls fs cur path flags err).map Prod.fst =
    findFrom stack rootParent fuel calls fs cur path flags := by
  induction calls generalizing cur path with
  | zero => rfl
  | succ calls hypothesis =>
      rw [findFromErr, findFrom]
      dsimp only
      by_cases file : path.headD 0 = slash ∧ ¬isDir fs cur
      · rw [if_pos file, if_pos file, Option.map_some]
      rw [if_neg file, if_neg file]
      by_cases ended : (path.dropWhile fun c => c == slash) = []
      · rw [if_pos ended, if_pos ended]
        by_cases file : Has flags oDirectory ∧ ¬isDir fs cur
        · rw [if_pos file, if_pos file, Option.map_some]
        · rw [if_neg file, if_neg file, Option.map_some]
      rw [if_neg ended, if_neg ended]
      obtain ⟨rest, restIs⟩ : ∃ rest, rest = path.dropWhile fun c => c == slash := ⟨_, rfl⟩
      rw [← restIs]
      by_cases dotted : rest.headD 0 = dot
      · rw [if_pos dotted, if_pos dotted]
        by_cases two : rest.getD 1 0 = dot
        · rw [if_pos two, if_pos two]
          by_cases root : cur = 0
          · rw [if_pos root, if_pos root]
            cases rootParent with
            | none => rfl
            | some up => exact hypothesis
          rw [if_neg root, if_neg root]
          by_cases valid : parentOf fs cur < inodeCount
          · rw [if_pos valid, if_pos valid]
            exact hypothesis
          · rw [if_neg valid, if_neg valid, Option.map_none]
        · rw [if_neg two, if_neg two]
          exact hypothesis
      rw [if_neg dotted, if_neg dotted]
      by_cases long : 0x100 ≤ (getFirstLayer rest).length
      · rw [if_pos long, if_pos long, Option.map_none]
      rw [if_neg long, if_neg long]
      obtain ⟨search, searchIs⟩ : ∃ search, search =
          slotSearch stack fuel fs.dev (u32 ((fs.nodes cur).info + 4)) (getFirstLayer rest) := ⟨_, rfl⟩
      rw [← searchIs]
      cases search with
      | none => rfl
      | some slot =>
          rw [Option.bind_some, Option.bind_some]
          cases slot with
          | unused offset => exact find_last_err offset
          | found offset blkOff =>
              dsimp only
              by_cases valid : (readWord fs.dev blkOff 0xffffffff).1 < inodeCount
              · rw [if_pos valid, if_pos valid]
                exact hypothesis
              · rw [if_neg valid, if_neg valid, Option.map_none]
          | ended => rfl

theorem blkfs_ifind_err : (blkfsIfindErr stack rootParent fuel fs cur path flags err).map Prod.fst =
    blkfsIfind stack rootParent fuel fs cur path flags :=
  find_from_err

theorem find_last_warned {offset : Nat}
    (found : findLastErr fuel fs cur offset path flags err = some ((next, none), text)) :
    text = "No such file or directory" := by
  obtain ⟨ended, last, same⟩ := Option.map_eq_some_iff.mp found
  obtain ⟨rfl, rfl⟩ := Prod.mk.inj same
  by_cases create : Has flags oCreate ∧ getFirstLayer path = path
  · rw [findLast, if_pos create] at last
    obtain ⟨made, -, same⟩ := Option.map_eq_some_iff.mp last
    exact absurd (congrArg Prod.snd same) (Option.some_ne_none _)
  · exact if_neg create

/-- `NULL` comes with a warning. -/
theorem null_warned (found : findFromErr stack rootParent fuel calls fs cur path flags err =
    some ((next, none), text)) : text = "No such file or directory" ∨ text = "Not a directory" := by
  induction calls generalizing cur path with
  | zero => exact absurd found.symm (Option.some_ne_none _)
  | succ calls hypothesis =>
      rw [findFromErr] at found
      dsimp only at found
      by_cases file : path.headD 0 = slash ∧ ¬isDir fs cur
      · rw [if_pos file] at found
        exact Or.inr (congrArg Prod.snd (Option.some.inj found)).symm
      rw [if_neg file] at found
      by_cases ended : (path.dropWhile fun c => c == slash) = []
      · rw [if_pos ended] at found
        by_cases file : Has flags oDirectory ∧ ¬isDir fs cur
        · rw [if_pos file] at found
          exact Or.inr (congrArg Prod.snd (Option.some.inj found)).symm
        · rw [if_neg file] at found
          have inode := congrArg (fun result => result.1.2) (Option.some.inj found)
          exact absurd inode (Option.some_ne_none _)
      rw [if_neg ended] at found
      obtain ⟨rest, restIs⟩ : ∃ rest, rest = path.dropWhile fun c => c == slash := ⟨_, rfl⟩
      rw [← restIs] at found
      by_cases dotted : rest.headD 0 = dot
      · rw [if_pos dotted] at found
        by_cases two : rest.getD 1 0 = dot
        · rw [if_pos two] at found
          by_cases root : cur = 0
          · rw [if_pos root] at found
            cases rootParent with
            | none =>
                have place := congrArg (fun result => result.1.2) (Option.some.inj found)
                exact absurd place (Option.some_ne_none _)
            | some up => exact hypothesis found
          rw [if_neg root] at found
          by_cases valid : parentOf fs cur < inodeCount
          · rw [if_pos valid] at found
            exact hypothesis found
          · rw [if_neg valid] at found
            exact absurd found.symm (Option.some_ne_none _)
        · rw [if_neg two] at found
          exact hypothesis found
      rw [if_neg dotted] at found
      by_cases long : 0x100 ≤ (getFirstLayer rest).length
      · rw [if_pos long] at found
        exact absurd found.symm (Option.some_ne_none _)
      rw [if_neg long] at found
      obtain ⟨slot, -, went⟩ := Option.bind_eq_some_iff.mp found
      cases slot with
      | unused offset => exact Or.inl (find_last_warned went)
      | found offset blkOff =>
          dsimp only at went
          by_cases valid : (readWord fs.dev blkOff 0xffffffff).1 < inodeCount
          · rw [if_pos valid] at went
            exact hypothesis went
          · rw [if_neg valid] at went
            exact absurd went.symm (Option.some_ne_none _)
      | ended => exact absurd went.symm (Option.some_ne_none _)

end Finding

/-- `blkfs_ilink`. -/
def blkfsIlink (fuel : Nat) (fs : Fs) (parent : Nat) (name : List UInt8) (inode : Nat) :
    Option (Fs × Int) :=
  let named := newBlock fs.dev
  (findEmpty fuel named.1 (u32 ((fs.nodes parent).info + 4))).map fun offset =>
    (fs.setDev (setName (setEntry named.1 offset named.2) named.2 inode name), 0)

/-- The loop of `blkfs_ireaddir` over wiped slots: the offset in the file, and the slot if there is
one. -/
def readSlot : Nat → Rd → Nat → Nat → Option (Nat × Option Nat)
  | 0, _, _, _ => none
  | fuel + 1, dev, off, fdOff =>
      (blockRead fuel dev off fdOff 4).bind fun got =>
        if got.1 ≠ 4 then some (fdOff, none)
        else
          let dir := wordOf got.2 0
          if dir = 0 then some (fdOff, none)
          else if dir = ylsWipe then readSlot fuel dev off (u32 (fdOff + 4))
          else some (u32 (fdOff + 4), some dir)

/-- `blkfs_ireaddir`: the file, the value returned and the bytes put into `buf`. -/
def blkfsIreaddir (fuel : Nat) (fs : Fs) (file : VFile) (size : Nat) :
    Option (VFile × Int × List UInt8) :=
  let node := fs.nodes file.inode
  if node.type = ylsDir then
    (readSlot fuel fs.dev node.info file.offset).bind fun slot =>
      match slot.2 with
      | none => some ({ file with offset := slot.1 }, 0, [])
      | some dir =>
          (blockRead fuel fs.dev dir 4 size).map fun nread =>
            ({ file with offset := slot.1 }, nread.1, nread.2)
  else none

/-- The operations of a file system. -/
inductive Op where
  | find (cur : Nat) (name : List UInt8) (flags : Nat)
  | link (parent : Nat) (name : List UInt8) (inode : Nat)
  | unlink (parent : Nat) (name : List UInt8)
  | rmdir (parent : Nat) (name : List UInt8)
  | write (file : VFile) (buf : List UInt8)

/-- An operation, with what is on the stack when it compares names. -/
def fsStep (rootParent : Option Nat) (fuel : Nat) : (Nat → List UInt8) × Op → Fs → Option Fs
  | (stack, .find cur name flags), fs =>
      (blkfsIfind stack rootParent fuel fs cur name flags).map Prod.fst
  | (_, .link parent name inode), fs => (blkfsIlink fuel fs parent name inode).map Prod.fst
  | (stack, .unlink parent name), fs => (blkfsIunlink stack fuel fs parent name).map Prod.fst
  | (stack, .rmdir parent name), fs => (blkfsIrmdir stack fuel fs parent name).map Prod.fst
  | (_, .write file buf), fs => (blkfsIwrite fuel fs file buf).map Prod.fst

/-- The number of an inode in use. -/
def Used (fs : Fs) (i : Nat) : Prop := i < inodeCount ∧ (fs.nodes i).refcnt ≠ 0

end OsWorkbench.Blkfs
