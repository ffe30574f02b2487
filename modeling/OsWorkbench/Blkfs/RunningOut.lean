import OsWorkbench.Blkfs.FileRuns
import OsWorkbench.Blkfs.Owners

/-!
# Running out of blocks

`new_block` answers 0 when no bit of the bitmap is clear, and 0 is where the bitmap is. `new_file`,
`new_direc` and `blkfs_ilink` take the answer as it is, and so does `block_write`, which compares the
place of the link with 0 instead. Then what should be in the missing block goes over the bitmap and
what is behind it.
-/

namespace OsWorkbench.Blkfs

open Kernel ByteStore

section Exhaustion

variable {dev next : Rd} {fuel off left rest : Nat} {s : List UInt8}

theorem new_block_full (room : bitmapLen ≤ dev.size) (full : freeBlocks dev = []) :
    newBlock dev = (dev, 0) := by
  have none : ((List.range (8 * bitmapLen)).find? fun n => !marked dev n) = none := by
    rw [← List.head?_filter, List.map_eq_nil_iff.mp full]
    rfl
  rw [newBlock, rd_read_inside (by omega), first_clear, none]
  rfl

theorem new_block_size (dev : Rd) : (newBlock dev).1.size = dev.size := by
  rw [newBlock]
  cases firstClear (rdRead dev 0 bitmapLen) with
  | none => rfl
  | some bit => rw [takeBit, rd_write_size]

theorem next_block_size (dev : Rd) (off : Nat) : (nextBlock dev off).1.size = dev.size := by
  rw [nextBlock]
  split
  · rw [appendBlock, rd_write_size, new_block_size]
  · rfl

/-- The loop of `block_write` comes to a link that leads nowhere while the bitmap is full. The number
is that of the bytes that are still to be written there. -/
inductive Dry : Rd → Nat → List UInt8 → Nat → Prop
  | here {dev : Rd} {off : Nat} {s : List UInt8} (some : s ≠ []) (lacks : LacksNext dev off)
      (full : freeBlocks dev = []) : Dry dev off s s.length
  | later {dev : Rd} {off left : Nat} {s : List UInt8} (some : s ≠ [])
      (supplied : LacksNext dev off → freeBlocks dev ≠ [] ∧ off ≠ 0)
      (whole : (rdWrite (nextBlock dev off).1 (nextBlock dev off).2 (s.take (min blkMem s.length))).2 =
        min blkMem s.length)
      (further : Dry (rdWrite (nextBlock dev off).1 (nextBlock dev off).2
          (s.take (min blkMem s.length))).1
        (u32 ((nextBlock dev off).2 + min blkMem s.length)) (s.drop (min blkMem s.length)) left) :
      Dry dev off s left

theorem write_loop_rest (ran : blockWriteLoop fuel dev off s = some (next, rest)) :
    rest ≤ s.length := by
  induction fuel generalizing dev off s with
  | zero => cases ran
  | succ fuel hypothesis =>
      rw [blockWriteLoop] at ran
      dsimp only at ran
      split at ran
      · split at ran
        · cases ran
          exact Nat.le_refl _
        split at ran
        · cases ran
          exact Nat.le_refl _
        · have later := hypothesis ran
          rw [List.length_drop] at later
          omega
      · cases ran
        exact Nat.zero_le _

/-- Without a block the loop goes on at address 0, and counts what it writes there. Only from a link
at address 0 would it stop, after the first bits of the bitmap are cleared. -/
theorem dry_goes_on (room : blkSz ≤ dev.size) (dry : Dry dev off s left)
    (ran : blockWriteLoop fuel dev off s = some (next, rest)) : rest < left ∨ next.mem 0 = 0 := by
  induction dry generalizing fuel with
  | @here dev off s some lacks full =>
      have positive := List.length_pos_iff.mpr some
      cases fuel with
      | zero => cases ran
      | succ fuel =>
      have answer : nextBlock dev off = ((rdWrite dev off (wordBytes 0)).1, 0) := by
        have bitmap : bitmapLen ≤ dev.size := Nat.le_trans (by decide) room
        rw [nextBlock, if_pos lacks, appendBlock, new_block_full bitmap full]
      rw [blockWriteLoop, if_pos positive, answer] at ran
      dsimp only at ran
      split at ran
      next both =>
        cases ran
        right
        rw [both.2, rd_write_inside (by rw [word_bytes_length]; exact Nat.le_trans (by decide) room)]
        have first := @overlay_inside dev.mem 0 0 (wordBytes 0) (by decide)
        exact first.trans (by decide)
      · left
        have inside : 0 + (s.take (min blkMem s.length)).length ≤
            (rdWrite dev off (wordBytes 0)).1.size := by
          rw [rd_write_size, List.length_take]
          unfold blkSz blkMem at *
          omega
        rw [rd_write_inside inside] at ran
        dsimp only at ran
        rw [if_neg (fun other => other (by rw [List.length_take]; omega))] at ran
        have less := write_loop_rest ran
        rw [List.length_drop] at less
        unfold blkMem at less
        omega
  | later some supplied whole further hypothesis =>
      cases fuel with
      | zero => cases ran
      | succ fuel =>
          rw [blockWriteLoop, if_pos (List.length_pos_iff.mpr some)] at ran
          dsimp only at ran
          rw [if_neg (fun both => (supplied both.1).2 both.2), if_neg (fun other => other whole)] at ran
          refine hypothesis ?_ ran
          rw [rd_write_size, next_block_size]
          exact room

end Exhaustion

section Creations

variable (stack : Nat → List UInt8) (rootParent : Option Nat) (fuel : Nat) (fs : Fs)

/-- Where `blkfs_ifind` gets with a path whose last name is not there: the directory, the place of
its first slot that is zero, and the name. -/
def slotFor : Nat → Nat → List UInt8 → Option (Nat × Nat × List UInt8)
  | 0, _, _ => none
  | calls + 1, cur, path =>
      let rest := path.dropWhile fun c => c == slash
      if path.headD 0 = slash ∧ ¬isDir fs cur then none
      else if rest = [] then none
      else if rest.headD 0 = dot then
        if rest.getD 1 0 = dot then
          if cur = 0 then rootParent.bind fun up => slotFor calls up (rest.drop 2)
          else if parentOf fs cur < inodeCount then slotFor calls (parentOf fs cur) (rest.drop 2)
          else none
        else slotFor calls cur (rest.drop 1)
      else if 0x100 ≤ (getFirstLayer rest).length then none
      else
        (slotSearch stack fuel fs.dev (u32 ((fs.nodes cur).info + 4)) (getFirstLayer rest)).bind fun
          | .unused offset => if getFirstLayer rest = rest then some (cur, offset, rest) else none
          | .found _ blkOff =>
              let id := (readWord fs.dev blkOff 0xffffffff).1
              if id < inodeCount then slotFor calls id (rest.drop (getFirstLayer rest).length) else none
          | .ended => none

variable {stack rootParent fuel fs} {calls cur flags d offset : Nat} {path name : List UInt8}

/-- A path that leads to a new name ends in its creation, if that is asked for. -/
theorem find_slot
    (slot : slotFor stack rootParent fuel fs calls cur path = some (d, offset, name)) :
    findFrom stack rootParent fuel calls fs cur path flags = findLast fuel fs d offset name flags ∧
      getFirstLayer name = name := by
  induction calls generalizing cur path with
  | zero => cases slot
  | succ calls hypothesis =>
      rw [slotFor] at slot
      rw [findFrom]
      dsimp only at slot ⊢
      split at slot
      · cases slot
      next passes =>
      rw [if_neg passes]
      split at slot
      · cases slot
      next some =>
      rw [if_neg some]
      split at slot
      next first =>
        rw [if_pos first]
        split at slot
        next second =>
          rw [if_pos second]
          split at slot
          next root =>
            rw [if_pos root]
            obtain ⟨up, mounted, further⟩ := Option.bind_eq_some_iff.mp slot
            subst mounted
            exact hypothesis further
          next below =>
            rw [if_neg below]
            split at slot
            next inside =>
              rw [if_pos inside]
              exact hypothesis slot
            next => cases slot
        next single =>
          rw [if_neg single]
          exact hypothesis slot
      next plain =>
        rw [if_neg plain]
        split at slot
        · cases slot
        next fits =>
        rw [if_neg fits]
        obtain ⟨found, search, arrived⟩ := Option.bind_eq_some_iff.mp slot
        rw [search, Option.bind_some]
        cases found with
        | unused place =>
            dsimp only at arrived ⊢
            split at arrived
            next last =>
              cases arrived
              exact ⟨rfl, last⟩
            next => cases arrived
        | found place blkOff =>
            dsimp only at arrived ⊢
            split at arrived
            next inside =>
              rw [if_pos inside]
              exact hypothesis arrived
            next => cases arrived
        | ended => cases arrived

end Creations

/-- The requests that ask for blocks. With `O_DIRECTORY` in its flags a creation is a `mkdir`. -/
inductive Request where
  | create (cur : Nat) (path : List UInt8) (flags : Nat)
  | link (parent : Nat) (name : List UInt8) (inode : Nat)
  | write (file : VFile) (buf : List UInt8)

/-- The inode whose contents a request is about. -/
def Request.own : Request → Option Nat
  | .write file _ => some file.inode
  | _ => none

section Writing

variable (fs : Fs) (file : VFile)

/-- The file with the offset at which `blkfs_iwrite` writes. -/
def movedFile : VFile :=
  if Has file.flags oAppend then { file with offset := (fs.nodes file.inode).size } else file

/-- The state in which `blkfs_iwrite` writes. An empty file without a block has asked for one. -/
def startedFile : Fs :=
  if (fs.nodes file.inode).info = 0 ∧ (fs.nodes file.inode).size = 0 then
    (fs.setNode file.inode { fs.nodes file.inode with info := (newBlock fs.dev).2 }).setDev
      (newBlock fs.dev).1
  else fs

theorem iwrite_regular {fuel : Nat} {buf : List UInt8} (regular : (fs.nodes file.inode).type = ylsFile) :
    blkfsIwrite fuel fs file buf = writeFile fuel (startedFile fs file) (movedFile fs file)
      ((startedFile fs file).nodes file.inode).info (fs.nodes file.inode).size buf := by
  have other : ¬(fs.nodes file.inode).type = ylsDir := by
    rw [regular]
    decide
  exact (if_neg other).trans (if_pos regular)

end Writing

section Requests

variable (stack : Nat → List UInt8) (rootParent : Option Nat) (fuel : Nat) (fs : Fs)

/-- A request asks for a block when the bitmap is full, be it that the bitmap was full before or that
the request took the last free block. The number is that of the bytes that are in their place by
then. -/
inductive RunsOut : Request → Nat → Prop
  | create {cur flags d offset : Nat} {path name : List UInt8} (create : Has flags oCreate)
      (slot : slotFor stack rootParent fuel fs (path.length + 1) cur path = some (d, offset, name))
      (few : (freeBlocks fs.dev).length < 2) : RunsOut (.create cur path flags) 0
  | link {parent inode : Nat} {name : List UInt8} (full : freeBlocks fs.dev = []) :
      RunsOut (.link parent name inode) 0
  | first {file : VFile} {buf : List UInt8} (regular : (fs.nodes file.inode).type = ylsFile)
      (empty : (fs.nodes file.inode).info = 0 ∧ (fs.nodes file.inode).size = 0)
      (full : freeBlocks fs.dev = []) (some : buf ≠ []) (start : (movedFile fs file).offset = 0) :
      RunsOut (.write file buf) 0
  | later {file : VFile} {buf : List UInt8} {place : Nat × Nat} {off toWrite left : Nat}
      (regular : (fs.nodes file.inode).type = ylsFile)
      (found : findBlock fuel (startedFile fs file).dev (movedFile fs file).offset
        ((startedFile fs file).nodes file.inode).info = some place)
      (offIs : u32 (place.2 + place.1) = off)
      (toWriteIs : min (sub32 blkMem (off % blkSz)) buf.length = toWrite)
      (whole : (rdWrite (startedFile fs file).dev off (buf.take toWrite)).2 = toWrite)
      (dry : Dry (rdWrite (startedFile fs file).dev off (buf.take toWrite)).1 (u32 (off + toWrite))
        (buf.drop toWrite) left) :
      RunsOut (.write file buf) (buf.length - left)

/-- How the request ends if it reports failure, or a count of no more bytes than are in their
place. -/
def Reports : Request → Nat → Fs → Prop
  | .create cur path flags, _, next =>
      blkfsIfind stack rootParent fuel fs cur path flags = some (next, none)
  | .link parent name inode, _, next => ∃ ret ≠ 0, blkfsIlink fuel fs parent name inode = some (next, ret)
  | .write file buf, stored, next =>
      ∃ file' nwrite, blkfsIwrite fuel fs file buf = some (next, file', nwrite) ∧ nwrite ≤ stored

end Requests

/-- What is not the own file's is as before. A write that stops short may have taken blocks, so of the
bitmap only that the blocks in use stay so. -/
structure Unharmed (fs next : Fs) (own : Option Nat) : Prop where
  bitmap : ∀ n < 8 * bitmapLen, marked fs.dev n = true → marked next.dev n = true
  table : ∀ i < inodeCount, some i ≠ own → nodeAt next.dev i = nodeAt fs.dev i
  others : ∀ i, Used fs i → some i ≠ own → ∀ b, Follows fs.dev (fs.nodes i).info b →
    slice next.dev.mem b blkSz = slice fs.dev.mem b blkSz

/-- The first block, that of the bitmap, is there and in use: 0 is no free block. -/
structure Usable (fs : Fs) : Prop where
  room : blkSz ≤ fs.dev.size
  reserved : marked fs.dev 0 = true

theorem Sound.usable {fs : Fs} (sound : Sound fs) : Usable fs := by
  constructor
  · exact Nat.le_trans (Nat.le_add_left _ _) (sound.slots 0 sound.root).block.inside
  · by_contra clear
    have free : 0 ∈ freeBlocks fs.dev := by
      refine List.mem_map.mpr ⟨0, List.mem_filter.mpr ⟨List.mem_range.mpr (by decide), ?_⟩, rfl⟩
      rw [Bool.eq_false_of_not_eq_true clear]
      rfl
    exact absurd (sound.placed 0 free).2 (by decide)

section Harm

variable {stack : Nat → List UInt8} {rootParent : Option Nat} {fuel stored fsize off : Nat}
  {fs next : Fs} {file file' : VFile} {buf : List UInt8} {nwrite : Int}

theorem Dry.bound {dev : Rd} {left : Nat} (dry : Dry dev off buf left) : left ≤ buf.length := by
  induction dry with
  | here => exact Nat.le_refl _
  | later _ _ _ _ hypothesis =>
      rw [List.length_drop] at hypothesis
      omega

theorem started_size (fs : Fs) (file : VFile) : (startedFile fs file).dev.size = fs.dev.size := by
  rw [startedFile]
  split
  · rw [Fs.setDev_dev, new_block_size]
  · rfl

/-- The size that a write may put into the inode table is behind the bitmap. -/
theorem write_file_byte (ran : writeFile fuel fs file off fsize buf = some (next, file', nwrite)) :
    ∃ written, blockWrite fuel fs.dev off file.offset buf = some written ∧ nwrite = written.2 ∧
      next.dev.mem 0 = written.1.mem 0 := by
  obtain ⟨written, wrote, made⟩ := Option.map_eq_some_iff.mp ran
  cases made
  refine ⟨written, wrote, rfl, ?_⟩
  split
  · have behind : 0 < sizePlace file.inode := by
      unfold sizePlace inodeStart
      omega
    rw [updateSize, Fs.setDev_dev, rdWrite, Rd.store_mem, overlay_before behind]
    rfl
  · rfl

/-- The first chunk is counted in full, what the loop leaves is not. -/
theorem write_from_counts {dev : Rd} {toWrite : Nat} {written : Rd × Nat}
    (toWriteIs : min (sub32 blkMem (off % blkSz)) buf.length = toWrite)
    (whole : (rdWrite dev off (buf.take toWrite)).2 = toWrite)
    (ran : writeFrom fuel dev off buf = some written) : ∃ rest,
      blockWriteLoop fuel (rdWrite dev off (buf.take toWrite)).1 (u32 (off + toWrite))
        (buf.drop toWrite) = some (written.1, rest) ∧ written.2 = buf.length - rest := by
  rw [writeFrom, toWriteIs] at ran
  rw [if_neg (fun other => other whole)] at ran
  obtain ⟨ended, looped, rfl⟩ := Option.map_eq_some_iff.mp ran
  exact ⟨ended.2, looped, rfl⟩

end Harm

section Room

variable {stack : Nat → List UInt8} {rootParent : Option Nat} {fuel i b : Nat} {dev : Rd} {fs : Fs}
  {rest : List Nat} {content s buf : List UInt8} {file : VFile}

/-- Behind a block of a chain there is room for the blocks of the chain and the free ones. -/
theorem loop_dry (blocks : Nat) (formatted : Formatted dev) (chained : Chained dev b rest)
    (all : rest.length + (freeBlocks dev).length = blocks) (short : blkMem * blocks < s.length) :
    Dry dev (b + blkMem) s (s.length - blkMem * blocks) := by
  have some : s ≠ [] := List.ne_nil_of_length_pos (Nat.zero_lt_of_lt short)
  induction blocks generalizing dev b rest s with
  | zero =>
      obtain ⟨noRest, noFree⟩ := Nat.add_eq_zero_iff.mp all
      obtain rfl := List.length_eq_zero_iff.mp noRest
      obtain ⟨block, -, last⟩ := chained_nil.mp chained
      have lacks : LacksNext dev (b + blkMem) := by
        rw [LacksNext, read_word_inside block.next_inside]
        exact Or.inr last
      exact Dry.here some lacks (List.length_eq_zero_iff.mp noFree)
  | succ blocks hypothesis =>
      obtain ⟨dev₁, c, rest₁, more, found, block, -, filled, onward, shape⟩ :=
        round_stored formatted chained (by omega) s
      have long : blkMem < s.length := by
        rw [Nat.mul_succ] at short
        omega
      have whole : min blkMem s.length = blkMem := Nat.min_eq_left long.le
      have inside : c + (s.take blkMem).length ≤ dev₁.size := by
        have last := block.next_inside
        rw [List.length_take]
        omega
      have further : blkMem * blocks < (s.drop blkMem).length := by
        rw [List.length_drop]
        rw [Nat.mul_succ] at short
        omega
      have later := hypothesis filled.formatted onward (by omega) further
        (List.ne_nil_of_length_pos (Nat.zero_lt_of_lt further))
      refine Dry.later some (fun lacks => ⟨?_, ?_⟩) ?_ ?_
      · intro full
        cases rest with
        | nil =>
            rw [full] at all
            exact absurd all (Nat.succ_ne_zero blocks).symm
        | cons d rest => exact (next_block_linked chained).1 lacks
      · unfold blkMem
        omega
      · rw [found, whole, rd_write_inside inside, List.length_take]
        exact whole
      · rw [found, whole, rd_write_inside inside, block.place_word le_rfl]
        have left : s.length - blkMem * (blocks + 1) = (s.drop blkMem).length - blkMem * blocks := by
          rw [List.length_drop, Nat.mul_succ]
          omega
        rw [left]
        exact later

/-- A write into a file whose blocks are in order runs out when its blocks and the free ones are
full. -/
theorem Holding.runs_out (holding : Holding fs i rest content) (own : file.inode = i)
    (inside : (movedFile fs file).offset ≤ blkMem * (rest.length + 1))
    (fuelled : (movedFile fs file).offset < fuel)
    (short : blkMem * (rest.length + 1 + (freeBlocks fs.dev).length) <
      (movedFile fs file).offset + buf.length) :
    RunsOut stack rootParent fuel fs (.write file buf)
      (blkMem * (rest.length + 1 + (freeBlocks fs.dev).length) - (movedFile fs file).offset) := by
  subst own
  have positive := holding.chained.block.later
  have started : startedFile fs file = fs := if_neg fun empty => absurd empty.1 positive.ne'
  obtain ⟨c, after, found, ending, lengths, -, -⟩ :=
    find_block_ends fuelled holding.chained inside
  obtain ⟨skip, skipIs⟩ : ∃ skip, skipOf (movedFile fs file).offset = skip := ⟨_, rfl⟩
  have bound : skip ≤ blkMem := skipIs ▸ skip_bound _
  rw [skipIs] at found lengths
  have block := ending.block
  have place := block.place_word bound
  have room : blkMem * (rest.length + 1 + (freeBlocks fs.dev).length) =
      blkMem * rest.length + blkMem + blkMem * (freeBlocks fs.dev).length := by
    rw [Nat.mul_add, Nat.mul_succ]
  have behind : blkMem * (after.length + (freeBlocks fs.dev).length) =
      blkMem * after.length + blkMem * (freeBlocks fs.dev).length := Nat.mul_add _ _ _
  have toWriteIs : min (sub32 blkMem ((c + skip) % blkSz)) buf.length = blkMem - skip := by
    rw [block.space bound]
    omega
  have length : (buf.take (blkMem - skip)).length = blkMem - skip := by
    rw [List.length_take]
    omega
  have stops : c + skip + (buf.take (blkMem - skip)).length ≤ fs.dev.size := by
    have last := block.next_inside
    omega
  have alike := @alike_store fs.dev c block skip (buf.take (blkMem - skip)) (by omega)
  have link : u32 (c + skip + (blkMem - skip)) = c + blkMem := by
    rw [Nat.add_assoc, Nat.add_sub_cancel' bound, block.place_word le_rfl]
  have dry := @loop_dry _ _ _ (buf.drop (blkMem - skip)) _ (alike.formatted holding.formatted)
    (alike.chained ending) (by rw [alike.free]) (by rw [List.length_drop]; omega)
  have stored : blkMem * (rest.length + 1 + (freeBlocks fs.dev).length) -
      (movedFile fs file).offset = buf.length - ((buf.drop (blkMem - skip)).length -
        blkMem * (after.length + (freeBlocks fs.dev).length)) := by
    rw [List.length_drop]
    omega
  have arrived : findBlock fuel (startedFile fs file).dev (movedFile fs file).offset
      ((startedFile fs file).nodes file.inode).info = some (skip, c) := by
    rw [started]
    exact found
  rw [stored]
  refine RunsOut.later holding.regular arrived place toWriteIs ?_ ?_
  · rw [started, rd_write_inside stops, length]
  · rw [started, rd_write_inside stops, link]
    exact dry

end Room

section Running

variable {stack : Nat → List UInt8} {rootParent : Option Nat} {fuel stored : Nat} {fs : Fs}

/-- A request that runs out of blocks never ends as it should. -/
theorem running_out_harms {request : Request} (usable : Usable fs)
    (runsOut : RunsOut stack rootParent fuel fs request stored) :
    ¬∃ next, Reports stack rootParent fuel fs request stored next ∧ Unharmed fs next request.own := by
  rintro ⟨next, reports, unharmed⟩
  have room := usable.room
  cases runsOut with
  | @create cur flags d offset path name create slot few =>
      obtain ⟨last, flat⟩ := @find_slot _ _ _ _ _ _ flags _ _ _ _ slot
      have found : findLast fuel fs d offset name flags = some (next, none) := last ▸ reports
      rw [findLast, if_pos ⟨create, flat⟩] at found
      obtain ⟨made, -, same⟩ := Option.map_eq_some_iff.mp found
      exact absurd (congrArg Prod.snd same) (Option.some_ne_none _)
  | link full =>
      obtain ⟨ret, failed, ran⟩ := reports
      obtain ⟨offset, -, same⟩ := Option.map_eq_some_iff.mp ran
      exact failed (congrArg Prod.snd same).symm
  | @first file buf regular empty full some start =>
      obtain ⟨file', nwrite, ran, short⟩ := reports
      have positive := List.length_pos_iff.mpr some
      have answer := new_block_full (Nat.le_trans (by decide) room) full
      have dev : (startedFile fs file).dev = fs.dev := by
        rw [startedFile, if_pos empty, answer]
        rfl
      have info : ((startedFile fs file).nodes file.inode).info = 0 := by
        rw [startedFile, if_pos empty, answer, Fs.setDev_nodes, Fs.setNode_self]
      rw [iwrite_regular fs file regular, info] at ran
      obtain ⟨written, wrote, rfl, -⟩ := write_file_byte ran
      rw [dev, start] at wrote
      obtain ⟨place, found, wrote⟩ := Option.bind_eq_some_iff.mp wrote
      cases fuel with
      | zero => cases found
      | succ fuel =>
      rw [findBlock, if_neg (by decide)] at found
      cases found
      have toWriteIs : min (sub32 blkMem (u32 (0 + 0) % blkSz)) buf.length = min blkMem buf.length := rfl
      have inside : 0 + (buf.take (min blkMem buf.length)).length ≤ fs.dev.size := by
        rw [List.length_take]
        unfold blkSz blkMem at *
        omega
      have whole : (rdWrite fs.dev (u32 (0 + 0)) (buf.take (min blkMem buf.length))).2 =
          min blkMem buf.length := by
        rw [show u32 (0 + 0) = 0 from rfl, rd_write_inside inside, List.length_take]
        omega
      obtain ⟨rest, looped, count⟩ := write_from_counts toWriteIs whole wrote
      have less := write_loop_rest looped
      rw [List.length_drop] at less
      unfold blkMem at less
      omega
  | @later file buf place off toWrite left regular found offIs toWriteIs whole dry =>
      obtain ⟨file', nwrite, ran, short⟩ := reports
      rw [iwrite_regular fs file regular] at ran
      obtain ⟨written, wrote, rfl, byte⟩ := write_file_byte ran
      rw [blockWrite, found, Option.bind_some, offIs] at wrote
      obtain ⟨rest, looped, count⟩ := write_from_counts toWriteIs whole wrote
      have size : blkSz ≤ (rdWrite (startedFile fs file).dev off (buf.take toWrite)).1.size := by
        rw [rd_write_size, started_size]
        exact room
      have bound := dry.bound
      rw [List.length_drop] at bound
      rcases dry_goes_on size dry looped with counted | cleared
      · omega
      · have kept := unharmed.bitmap 0 (by decide) usable.reserved
        rw [marked, byte, cleared] at kept
        exact absurd kept (by decide)

theorem running_out_harms_write : ¬∃ next,
    Reports (fun _ => []) none 500 smallFiles (.write ⟨1, 0, oWronly⟩ (List.replicate 500 0)) 496 next ∧
      Unharmed smallFiles next (some 1) := by
  have length : (List.replicate 500 (0 : UInt8)).length = 500 := List.length_replicate
  have free : (freeBlocks smallFiles.dev).length = 3 := by decide +kernel
  have runsOut := @Holding.runs_out (fun _ => []) none 500 1 smallFiles [] []
    (List.replicate 500 0) ⟨1, 0, oWronly⟩ small_files_empty rfl (by decide) (by decide)
    (by rw [free, length]; decide)
  rw [free] at runsOut
  exact running_out_harms ⟨by decide, by decide⟩ runsOut

/-- A device with nothing but the root directory, and with a full bitmap. -/
def fullDisk : Fs :=
  let dev := (ylsInit twelveBlocks).store 0 (List.replicate bitmapLen 0xff)
  ⟨dev, nodeAt dev⟩

/-- A link on it succeeds, and the number of the inode goes over the bitmap. -/
theorem link_overwrites_bitmap : Usable fullDisk ∧ freeBlocks fullDisk.dev = [] ∧
    ∃ next, blkfsIlink 1 fullDisk 0 [0x61] 0 = some (next, 0) ∧ ¬Unharmed fullDisk next none := by
  have reserved : marked fullDisk.dev 0 = true := by decide +kernel
  refine ⟨⟨by decide, reserved⟩, by decide +kernel, ?_⟩
  have linked : (blkfsIlink 1 fullDisk 0 [0x61] 0).map (fun made => (made.2, marked made.1.dev 0)) =
      some (0, false) := by
    decide +kernel
  obtain ⟨⟨next, ret⟩, ran, result⟩ := Option.map_eq_some_iff.mp linked
  obtain ⟨rfl, cleared⟩ := Prod.mk.inj result
  refine ⟨next, ran, fun unharmed => ?_⟩
  rw [unharmed.bitmap 0 (by decide) reserved] at cleared
  cases cleared

end Running

end OsWorkbench.Blkfs
