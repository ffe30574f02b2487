import OsWorkbench.Kernel.Heap
import OsWorkbench.Library.ByteStore

/-!
# The block layer: `ramdisk.c` and `string.c`

A device is a piece of memory that is read and written through offsets. Blocks have 0x80 bytes; the
last four of them are the offset of the next block. The first 0x40 bytes of the device are a bitmap
of the blocks in use. The loops that follow links have no bound of their own and run on fuel.
-/

namespace OsWorkbench.Blkfs

open Kernel ByteStore

/-- `rd_t`: the memory from `start` on, and the distance from `start` to `end`. -/
structure Rd where
  size : Nat
  mem : Bytes
  word : size < 2 ^ 32

def Rd.store (dev : Rd) (offset : Nat) (payload : List UInt8) : Rd :=
  { dev with mem := overlay dev.mem offset payload }

@[simp] theorem Rd.store_size (dev : Rd) (offset : Nat) (payload : List UInt8) :
    (dev.store offset payload).size = dev.size := rfl

@[simp] theorem Rd.store_mem (dev : Rd) (offset : Nat) (payload : List UInt8) :
    (dev.store offset payload).mem = overlay dev.mem offset payload := rfl

def boundaryCheck (dev : Rd) (offset : Nat) : Nat := sub32 dev.size offset

def rdRead (dev : Rd) (offset count : Nat) : List UInt8 :=
  slice dev.mem offset (min count (boundaryCheck dev offset))

/-- `rd_write`, and the count that it returns. -/
def rdWrite (dev : Rd) (offset : Nat) (buf : List UInt8) : Rd × Nat :=
  let count := min buf.length (boundaryCheck dev offset)
  (dev.store offset (buf.take count), count)

/-- `read(dev,offset,&value,4)`: what the variable holds afterwards, and the count. -/
def readWord (dev : Rd) (offset value : Nat) : Nat × Nat :=
  let bytes := rdRead dev offset 4
  (wordOf (bytes ++ (wordBytes value).drop bytes.length) 0, bytes.length)

def blkSz : Nat := 0x80

def blkMem : Nat := 0x80 - 4

def bitmapLen : Nat := 0x40

/-- The search of `new_block`: the first byte of the bitmap that is not full, its first clear bit. -/
def firstClear (avail : List UInt8) : Option (Nat × Nat) :=
  (List.range bitmapLen).findSome? fun i =>
    if avail.getD i 0 = 0xff then none
    else (List.range 8).findSome? fun j =>
      if (avail.getD i 0).toNat &&& 1 <<< j ≠ 0 then none else some (i, j)

/-- The end of `new_block`: the bit is set and the byte goes back to the device. -/
def takeBit (dev : Rd) (avail : List UInt8) : Option (Nat × Nat) → Rd × Nat
  | some (i, j) =>
      ((rdWrite dev i [UInt8.ofNat ((avail.getD i 0).toNat ||| 1 <<< j)]).1, (8 * i + j) * 0x80)
  | none => (dev, 0)

def newBlock (dev : Rd) : Rd × Nat :=
  takeBit dev (rdRead dev 0 bitmapLen) (firstClear (rdRead dev 0 bitmapLen))

/-- `find_block`: the offsets `fd_off` and `off` as the caller finds them, also where it failed. -/
def findBlock : Nat → Rd → Nat → Nat → Option (Nat × Nat)
  | 0, _, _, _ => none
  | fuel + 1, dev, fdOff, off =>
      if fdOff > blkMem then
        let next := readWord dev (u32 (off + blkMem)) off
        if next.2 ≠ 4 then some (fdOff, next.1)
        else findBlock fuel dev (fdOff - blkMem) next.1
      else some (fdOff, off)

/-- The loop of `block_read`. It gives what `s` was filled with and what `rest` was at the end. -/
def blockReadLoop : Nat → Rd → Nat → Nat → List UInt8 → Option (List UInt8 × Nat)
  | 0, _, _, _, _ => none
  | fuel + 1, dev, off, rest, s =>
      if rest > 0 then
        let toRead := min (sub32 blkMem (off % blkSz)) rest
        let got := rdRead dev off toRead
        if got.length ≠ toRead then some (s ++ got, rest)
        else
          -- the link is looked for at a distance from `off`, which need not be where a block starts
          let next := readWord dev (u32 (off + blkMem)) off
          if next.2 ≠ 4 ∨ next.1 = 0 then some (s ++ got, rest - toRead)
          else blockReadLoop fuel dev next.1 (rest - toRead) (s ++ got)
      else some (s, rest)

/-- `block_read`: the count it returns, and the bytes it put into `s`. -/
def blockRead (fuel : Nat) (dev : Rd) (off shift nbyte : Nat) : Option (Nat × List UInt8) :=
  (findBlock fuel dev shift off).bind fun place =>
    (blockReadLoop fuel dev (u32 (place.2 + place.1)) nbyte []).map fun ended =>
      (nbyte - ended.2, ended.1)

/-- The read of the link at `off` failed or gave no block. -/
def LacksNext (dev : Rd) (off : Nat) : Prop :=
  (readWord dev off 0).2 ≠ 4 ∨ (readWord dev off 0).1 = 0

instance (dev : Rd) (off : Nat) : Decidable (LacksNext dev off) :=
  inferInstanceAs (Decidable (_ ∨ _))

/-- A block for the place `off` of a link, taken from the bitmap. -/
def appendBlock (dev : Rd) (off : Nat) : Rd × Nat :=
  ((rdWrite (newBlock dev).1 off (wordBytes (newBlock dev).2)).1, (newBlock dev).2)

/-- The block after the link at `off`, a new one where there is none. -/
def nextBlock (dev : Rd) (off : Nat) : Rd × Nat :=
  if LacksNext dev off then appendBlock dev off else (dev, (readWord dev off 0).1)

/-- The loop of `block_write`, and what `rest` was at the end. -/
def blockWriteLoop : Nat → Rd → Nat → List UInt8 → Option (Rd × Nat)
  | 0, _, _, _ => none
  | fuel + 1, dev, off, s =>
      if s.length > 0 then
        let next := nextBlock dev off
        -- the place of the link is compared with 0, not the block that `new_block` gave
        if LacksNext dev off ∧ off = 0 then some (next.1, s.length)
        else
          let toWrite := min blkMem s.length
          let written := rdWrite next.1 next.2 (s.take toWrite)
          if written.2 ≠ toWrite then some (written.1, s.length)
          else blockWriteLoop fuel written.1 (u32 (next.2 + toWrite)) (s.drop toWrite)
      else some (dev, 0)

/-- `block_write` from the place where the first byte goes. -/
def writeFrom (fuel : Nat) (dev : Rd) (off : Nat) (s : List UInt8) : Option (Rd × Nat) :=
  let toWrite := min (sub32 blkMem (off % blkSz)) s.length
  let written := rdWrite dev off (s.take toWrite)
  if written.2 ≠ toWrite then some (written.1, 0)
  else
    (blockWriteLoop fuel written.1 (u32 (off + toWrite)) (s.drop toWrite)).map fun ended =>
      (ended.1, s.length - ended.2)

/-- `block_write`, and the count that it returns. -/
def blockWrite (fuel : Nat) (dev : Rd) (off shift : Nat) (s : List UInt8) : Option (Rd × Nat) :=
  (findBlock fuel dev shift off).bind fun place =>
    writeFrom fuel dev (u32 (place.2 + place.1)) s

end OsWorkbench.Blkfs
