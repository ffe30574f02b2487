import OsWorkbench.Blkfs.Preserving
import OsWorkbench.Library.Runs

/-!
# Runs of writes and reads

Writes through one descriptor put their bytes behind each other. Reads give them back as long as each
one starts at an offset that its buffer could hold, and stays in a block or starts the file.
-/

namespace OsWorkbench.Blkfs

open Kernel ByteStore Library

/-- A regular file of the inode table, with its blocks and what it holds. -/
structure Holding (fs : Fs) (i : Nat) (rest : List Nat) (content : List UInt8) : Prop where
  regular : (fs.nodes i).type = ylsFile
  number : i < inodeCount
  formatted : Formatted fs.dev
  chained : Chained fs.dev (fs.nodes i).info rest
  behind : ∀ b ∈ (fs.nodes i).info :: rest, inodeEnd ≤ b
  spare : ∀ b ∈ freeBlocks fs.dev, inodeEnd ≤ b
  size : (fs.nodes i).size = content.length
  bytes : (contents fs.dev ((fs.nodes i).info :: rest)).take content.length = content

section Sizes

variable {fs : Fs} {i : Nat} {rest : List Nat} {content : List UInt8}

theorem Holding.fits (holding : Holding fs i rest content) :
    content.length ≤ blkMem * (rest.length + 1) := by
  have taken := congrArg List.length holding.bytes
  rw [List.length_take, contents_length, List.length_cons] at taken
  omega

theorem Holding.small (holding : Holding fs i rest content) : content.length < 2 ^ 32 := by
  have fits := holding.fits
  have capacity := holding.chained.capacity
  have word := fs.dev.word
  omega

/-- The inode table is in front of the blocks, and a size in it is no link. -/
theorem update_size_alike {file : VFile} (number : file.inode < inodeCount)
    (reach : inodeEnd ≤ fs.dev.size) (newsize : Nat) :
    (updateSize fs file newsize).dev = fs.dev.store (sizePlace file.inode) (wordBytes newsize) ∧
      Alike fs.dev (updateSize fs file newsize).dev ∧
      ∀ a, inodeEnd ≤ a → (updateSize fs file newsize).dev.mem a = fs.dev.mem a := by
  have record := record_inside number
  have inside : sizePlace file.inode + (wordBytes newsize).length ≤ inodeEnd := by
    rw [word_bytes_length]
    unfold sizePlace nodePlace sizeofNode at *
    omega
  have written : (updateSize fs file newsize).dev =
      fs.dev.store (sizePlace file.inode) (wordBytes newsize) := by
    rw [updateSize, Fs.setDev_dev, rd_write_inside (inside.trans reach)]
  refine ⟨written, ?_, ?_⟩
  · rw [written]
    have place : sizePlace file.inode =
        blkSz * (sizePlace file.inode / blkSz) + sizePlace file.inode % blkSz :=
      (Nat.div_add_mod _ _).symm
    rw [place]
    apply alike_store_at (Dvd.intro _ rfl)
    · rw [← place]
      unfold sizePlace inodeStart sizeofNode bitmapLen
      omega
    · rw [word_bytes_length]
      unfold sizePlace inodeStart sizeofNode blkSz blkMem
      omega
  · intro a beyond
    rw [written, Rd.store_mem]
    exact overlay_after (inside.trans beyond)

theorem Holding.update_size (holding : Holding fs i rest content) (file : VFile) (same : file.inode = i)
    (newsize : Nat) :
    (updateSize fs file newsize).nodes i = { fs.nodes i with size := newsize } ∧
      Alike fs.dev (updateSize fs file newsize).dev ∧
      ∀ a, inodeEnd ≤ a → (updateSize fs file newsize).dev.mem a = fs.dev.mem a := by
  subst same
  have reach : inodeEnd ≤ fs.dev.size := by
    have block := holding.chained.block.inside
    have behind := holding.behind _ List.mem_cons_self
    omega
  obtain ⟨-, alike, beyond⟩ := update_size_alike holding.number reach newsize
  exact ⟨by rw [updateSize, Fs.setDev_nodes, Fs.setNode_self], alike, beyond⟩

end Sizes

section Transport

variable {fs fs' : Fs} {i : Nat} {rest : List Nat} {content : List UInt8}

/-- A file system that differs in the size of the node and keeps what is behind the inode table. -/
theorem Holding.resized (holding : Holding fs i rest content) {kept : List UInt8}
    (node : fs'.nodes i = { fs.nodes i with size := kept.length }) (alike : Alike fs.dev fs'.dev)
    (same : ∀ a, inodeEnd ≤ a → fs'.dev.mem a = fs.dev.mem a)
    (bytes : (contents fs.dev ((fs.nodes i).info :: rest)).take kept.length = kept) :
    Holding fs' i rest kept := by
  have info : (fs'.nodes i).info = (fs.nodes i).info := by rw [node]
  refine ⟨?_, holding.number, alike.formatted holding.formatted, ?_, ?_, ?_, ?_, ?_⟩
  · rw [node]
    exact holding.regular
  · rw [info]
    exact alike.chained holding.chained
  · rw [info]
    exact holding.behind
  · rw [alike.free]
    exact holding.spare
  · rw [node]
  · have unchanged : contents fs'.dev ((fs.nodes i).info :: rest) =
        contents fs.dev ((fs.nodes i).info :: rest) := by
      apply contents_congr
      intro b member a inside
      rw [mem_span] at inside
      exact same a ((holding.behind b member).trans inside.1)
    rw [info, unchanged]
    exact bytes

/-- Opening a file for writing alone leaves it empty, with the blocks it had. -/
theorem Holding.truncated (holding : Holding fs i rest content) :
    Holding (blkfsIopen fs i oWronly).1 i rest [] ∧
      (blkfsIopen fs i oWronly).2 = ⟨i, 0, oWronly⟩ := by
  have opened : blkfsIopen fs i oWronly =
      (updateSize fs ⟨i, 0, oWronly⟩ 0, ⟨i, 0, oWronly⟩) := by
    rw [blkfsIopen, holding.regular, if_neg (by decide), if_pos (by decide)]
  rw [opened]
  obtain ⟨node, alike, same⟩ := holding.update_size ⟨i, 0, oWronly⟩ rfl 0
  exact ⟨holding.resized node alike same rfl, rfl⟩

/-- Opening a file for reading leaves it as it is. -/
theorem Holding.reopened (holding : Holding fs i rest content) :
    blkfsIopen fs i oRdonly = (fs, ⟨i, 0, oRdonly⟩) := by
  rw [blkfsIopen, holding.regular, if_neg (by decide), if_neg (by decide)]

end Transport

section Writes

variable {fs : Fs} {i fuel : Nat} {rest : List Nat} {content s : List UInt8} {file : VFile}

/-- What the blocks hold after a write at the end of the file. -/
theorem bytes_appended {target : List UInt8} (bytes : target.take content.length = content)
    (s : List UInt8) :
    (splice target content.length s).take (content ++ s).length = content ++ s := by
  rw [splice, bytes, List.take_left' rfl]

/-- More blocks do not change what is in front. -/
theorem Holding.longer (holding : Holding fs i rest content) (more : List Nat) :
    (contents fs.dev ((fs.nodes i).info :: (rest ++ more))).take content.length = content := by
  rw [← List.cons_append, contents_append, List.take_append_of_le_length, holding.bytes]
  rw [contents_length, List.length_cons]
  exact holding.fits

/-- A write at the end of the file appends to it. -/
theorem iwrite_appends (holding : Holding fs i rest content) (own : file.inode = i)
    (last : Has file.flags oAppend ∨ file.offset = content.length)
    (fuelled : content.length + s.length < fuel)
    (room : content.length + s.length ≤ blkMem * (rest.length + 1 + (freeBlocks fs.dev).length)) :
    ∃ fs' more, blkfsIwrite fuel fs file s =
        some (fs', { file with offset := content.length + s.length }, (s.length : Int)) ∧
      Holding fs' i (rest ++ more) (content ++ s) ∧
      freeBlocks fs.dev = more ++ freeBlocks fs'.dev := by
  subst own
  obtain ⟨dev', more, written, stored⟩ :=
    block_write_ends fuelled holding.formatted holding.chained holding.fits room
  have later := holding.chained.block.later
  have moved : (if Has file.flags oAppend then { file with offset := (fs.nodes file.inode).size }
      else file) = { file with offset := content.length } := by
    by_cases append : Has file.flags oAppend
    · rw [if_pos append, holding.size]
    · rw [if_neg append, ← last.resolve_left append]
  have alike : Holding (fs.setDev dev') file.inode (rest ++ more) content := by
    refine ⟨holding.regular, holding.number, stored.formatted, stored.chained, ?_, ?_, holding.size, ?_⟩
    · intro b member
      rcases List.mem_cons.mp member with rfl | member
      · exact holding.behind _ List.mem_cons_self
      rcases List.mem_append.mp member with old | new
      · exact holding.behind b (List.mem_cons_of_mem _ old)
      · exact holding.spare b (stored.taken ▸ List.mem_append_left _ new)
    · intro b member
      exact holding.spare b (stored.taken ▸ List.mem_append_right more member)
    · rw [Fs.setDev_dev, Fs.setDev_nodes, stored.holds, splice, List.append_assoc, holding.longer more]
      exact List.take_left
  have bytes : (contents dev' ((fs.nodes file.inode).info :: (rest ++ more))).take (content ++ s).length =
      content ++ s := by
    rw [stored.holds]
    exact bytes_appended (holding.longer more) s
  have inside : content.length + s.length < 2 ^ 32 := by
    have taken := congrArg List.length bytes
    rw [List.length_take, contents_length, List.length_append, List.length_cons] at taken
    have capacity := stored.chained.capacity
    have word := dev'.word
    omega
  have offset : u32 (content.length + s.length) = content.length + s.length := Nat.mod_eq_of_lt inside
  have present : ¬((fs.nodes file.inode).info = 0 ∧ (fs.nodes file.inode).size = 0) := by
    intro none
    omega
  have ran : blkfsIwrite fuel fs file s =
      writeFile fuel fs { file with offset := content.length } (fs.nodes file.inode).info
        content.length s := by
    rw [blkfsIwrite, moved, if_neg present, holding.regular, if_neg (by decide), if_pos rfl, holding.size]
  have ended : writeFile fuel fs { file with offset := content.length } (fs.nodes file.inode).info
      content.length s = some (if content.length + s.length > content.length then
        updateSize (fs.setDev dev') { file with offset := content.length + s.length }
          (content.length + s.length) else fs.setDev dev',
        { file with offset := content.length + s.length }, (s.length : Int)) := by
    rw [writeFile, written, Option.map_some]
    dsimp only
    rw [offset]
  rw [ran, ended]
  by_cases more' : content.length + s.length > content.length
  · obtain ⟨node, same, kept⟩ := alike.update_size
      { file with offset := content.length + s.length } rfl (content.length + s.length)
    refine ⟨_, more, rfl, ?_, ?_⟩
    · rw [if_pos more']
      refine alike.resized ?_ same kept bytes
      rw [node, List.length_append]
    · rw [if_pos more', same.free]
      exact stored.taken
  · have nothing : s = [] := List.length_eq_zero_iff.mp (by omega)
    refine ⟨_, more, rfl, ?_, ?_⟩
    · rw [if_neg more', nothing, List.append_nil]
      exact alike
    · rw [if_neg more']
      exact stored.taken

end Writes

section WriteRuns

variable {fuel : Nat}

/-- A write through a descriptor. -/
def writeStep (fuel : Nat) (buf : List UInt8) (state : Fs × VFile) : Option (Fs × VFile) :=
  (blkfsIwrite fuel state.1 state.2 buf).map fun written => (written.1, written.2.1)

/-- The write returns the length of its buffer. -/
def WritesAll (fuel : Nat) (buf : List UInt8) (state : Fs × VFile) : Prop :=
  (blkfsIwrite fuel state.1 state.2 buf).map (fun written => written.2.2) = some (buf.length : Int)

/-- Writes from the end of the file on append one after the other. -/
theorem writes_append {fs : Fs} {i : Nat} {rest : List Nat} {content : List UInt8} {file : VFile}
    (bufs : List (List UInt8)) (holding : Holding fs i rest content) (own : file.inode = i)
    (last : file.offset = content.length)
    (fuelled : content.length + bufs.flatten.length < fuel)
    (room : content.length + bufs.flatten.length ≤
      blkMem * (rest.length + 1 + (freeBlocks fs.dev).length)) :
    ∃ fs' file' more, runSteps (writeStep fuel) bufs (fs, file) = some (fs', file') ∧
      GuardedRun (writeStep fuel) (WritesAll fuel) bufs (fs, file) ∧
      Holding fs' i (rest ++ more) (content ++ bufs.flatten) := by
  induction bufs generalizing fs rest content file with
  | nil =>
      refine ⟨fs, file, [], rfl, trivial, ?_⟩
      rw [List.flatten_nil, List.append_nil, List.append_nil]
      exact holding
  | cons buf bufs hypothesis =>
      rw [List.flatten_cons, List.length_append] at fuelled room
      obtain ⟨fs', more, wrote, grown, taken⟩ := iwrite_appends holding own (Or.inr last)
        (show content.length + buf.length < fuel by omega) (by omega)
      have stepped : writeStep fuel buf (fs, file) =
          some (fs', { file with offset := content.length + buf.length }) := by
        rw [writeStep, wrote]
        rfl
      have length : (content ++ buf).length = content.length + buf.length := List.length_append
      -- a block leaves the bitmap for the chain
      have shared : (rest ++ more).length + (freeBlocks fs'.dev).length =
          rest.length + (freeBlocks fs.dev).length := by
        rw [taken, List.length_append, List.length_append, Nat.add_assoc]
      have roomLeft : (content ++ buf).length + bufs.flatten.length ≤
          blkMem * ((rest ++ more).length + 1 + (freeBlocks fs'.dev).length) := by
        rw [length, Nat.add_right_comm (rest ++ more).length, shared, Nat.add_right_comm rest.length]
        omega
      obtain ⟨fs'', file'', more', ran, all, holds⟩ := @hypothesis fs' (rest ++ more) (content ++ buf)
        { file with offset := content.length + buf.length } grown own length.symm
        (by rw [length]; omega) roomLeft
      refine ⟨fs'', file'', more ++ more', ?_, ⟨?_, fun next also => ?_⟩, ?_⟩
      · rw [runSteps, stepped]
        exact ran
      · rw [WritesAll, wrote]
        rfl
      · rw [stepped] at also
        rw [← Option.some.inj also]
        exact all
      · rw [List.flatten_cons, ← List.append_assoc, ← List.append_assoc]
        exact holds

end WriteRuns

section Reads

/-- The read is at the end of the file, or its buffer could hold the offset, the sum of both does not
wrap around to a smaller size, and what is left stays in a block or starts the file. -/
def WholeRead (fsize offset size : Nat) : Prop :=
  (offset = fsize ∧ size < offset) ∨
    (offset ≤ size ∧ (fsize < u32 (size + offset) ∨ size + offset ≤ fsize) ∧
      (offset = 0 ∨ skipOf offset + min size (fsize - offset) ≤ blkMem))

instance (fsize offset size : Nat) : Decidable (WholeRead fsize offset size) :=
  inferInstanceAs (Decidable (_ ∨ _))

/-- Where the read with number `k` starts in a file whose reads give all they can. -/
def offsetAt (fsize : Nat) (sizes : Nat → Nat) : Nat → Nat
  | 0 => 0
  | k + 1 => offsetAt fsize sizes k + min (sizes k) (fsize - offsetAt fsize sizes k)

/-- The reads up to the first one at the end of the file. -/
def ReadsFit (fsize : Nat) (sizes : Nat → Nat) : Prop :=
  ∀ k, (∀ j < k, offsetAt fsize sizes j < fsize) →
    WholeRead fsize (offsetAt fsize sizes k) (sizes k)

/-- Reads from the one with number `k` on, with their buffers, until one returns zero: what they put
into the buffers is `text`. -/
inductive FileReads (fuel : Nat) (fs : Fs) (sizes : Nat → Nat) : Nat → VFile → List UInt8 → Prop
  | ends {k : Nat} {file next : VFile} {bytes : List UInt8}
      (read : blkfsIread fuel fs file (sizes k) = some (next, 0, bytes)) :
      FileReads fuel fs sizes k file []
  | more {k : Nat} {file next : VFile} {nread : Int} {bytes rest : List UInt8}
      (read : blkfsIread fuel fs file (sizes k) = some (next, nread, bytes)) (some : 0 < nread)
      (later : FileReads fuel fs sizes (k + 1) next rest) :
      FileReads fuel fs sizes k file (bytes.take nread.toNat ++ rest)

variable {fs : Fs} {i k fuel size : Nat} {rest : List Nat} {content : List UInt8} {file : VFile}
  {sizes : Nat → Nat}

/-- A read whose buffer is smaller than the offset gives nothing, wherever the file ends. -/
theorem iread_beyond (holding : Holding fs i rest content) (own : file.inode = i)
    (short : size < file.offset) : blkfsIread fuel fs file size = some (file, 0, []) := by
  subst own
  rw [blkfsIread, holding.regular, if_neg (by decide), if_pos rfl, if_pos short]

/-- A read that is whole gives what is at the offset, up to the size of the buffer. -/
theorem iread_whole (holding : Holding fs i rest content) (own : file.inode = i)
    (inside : file.offset ≤ content.length) (fuelled : content.length < fuel)
    (whole : WholeRead content.length file.offset size) {count : Nat}
    (countIs : min size (content.length - file.offset) = count) :
    blkfsIread fuel fs file size = some ({ file with offset := file.offset + count }, (count : Int),
      (content.drop file.offset).take count) := by
  subst own
  have fits := holding.fits
  have small := holding.small
  rcases whole with ⟨last, short⟩ | ⟨wide, reach, near⟩
  · have none : count = 0 := by omega
    rw [iread_beyond holding rfl short, none, Nat.add_zero, List.take_zero]
    rfl
  · have clamped : (if u32 (size + file.offset) > content.length then
        sub32 content.length file.offset else size) = count := by
      have below : u32 (size + file.offset) ≤ size + file.offset := Nat.mod_le _ _
      split
      · rw [← countIs, Nat.min_eq_right (by omega)]
        unfold sub32 u32
        omega
      · rw [← countIs, Nat.min_eq_left (by omega)]
    have stops : file.offset + count ≤ content.length := by omega
    have read := @block_read_ends fs.dev _ file.offset fuel count rest (by omega) holding.chained
      (by omega) (countIs ▸ near)
    have moved : u32 (file.offset + count) = file.offset + count := Nat.mod_eq_of_lt (by omega)
    have given : ((contents fs.dev ((fs.nodes file.inode).info :: rest)).drop file.offset).take count =
        (content.drop file.offset).take count := by
      conv_rhs => rw [← holding.bytes]
      rw [List.drop_take, List.take_take, Nat.min_eq_left (by omega)]
    rw [blkfsIread, holding.regular, if_neg (by decide), if_pos rfl, if_neg (by omega), holding.size,
      clamped]
    dsimp only
    rw [read, Option.map_some, moved, given]

theorem offset_at_bound (fsize : Nat) (sizes : Nat → Nat) (k : Nat) :
    offsetAt fsize sizes k ≤ fsize := by
  induction k with
  | zero => exact Nat.zero_le _
  | succ k hypothesis =>
      rw [offsetAt]
      omega

/-- Reads that are whole give the file from the offset on. -/
theorem reads_give (holding : Holding fs i rest content) (fuelled : content.length < fuel)
    (positive : ∀ k, 0 < sizes k) (fit : ReadsFit content.length sizes) (left : Nat) :
    ∀ k file, file.inode = i → file.offset = offsetAt content.length sizes k →
      (∀ j < k, offsetAt content.length sizes j < content.length) →
      content.length - file.offset = left →
      FileReads fuel fs sizes k file (content.drop file.offset) := by
  induction left using Nat.strong_induction_on with
  | h left hypothesis =>
      intro k file own offset before remaining
      have inside := offset_at_bound content.length sizes k
      have whole := fit k before
      rw [← offset] at inside whole
      obtain ⟨count, countIs⟩ : ∃ count, min (sizes k) (content.length - file.offset) = count :=
        ⟨_, rfl⟩
      have read := iread_whole holding own inside fuelled whole countIs
      rcases Nat.lt_or_ge file.offset content.length with present | last
      · have some := positive k
        have later := hypothesis (content.length - (file.offset + count)) (by omega) (k + 1)
          { file with offset := file.offset + count } own
          (by rw [offsetAt, ← offset, countIs]) (fun j bound => ?_) rfl
        · have step := FileReads.more read (by omega) later
          rw [Int.toNat_natCast, List.take_take, Nat.min_self, ← List.drop_drop,
            List.take_append_drop] at step
          exact step
        · rcases Nat.lt_succ_iff_lt_or_eq.mp bound with earlier | rfl
          · exact before j earlier
          · rw [← offset]
            exact present
      · have full : file.offset = content.length := Nat.le_antisymm inside last
        have none : count = 0 := by omega
        rw [full, List.drop_length]
        rw [none] at read
        exact FileReads.ends read

/-- There is one text that reads with given buffers give. -/
theorem file_reads_unique {one two : List UInt8} (first : FileReads fuel fs sizes k file one)
    (second : FileReads fuel fs sizes k file two) : one = two := by
  induction first generalizing two with
  | ends read =>
      cases second with
      | ends _ => rfl
      | more also some _ =>
          rw [read] at also
          cases also
          exact absurd some (lt_irrefl 0)
  | more read some later hypothesis =>
      cases second with
      | ends also =>
          rw [read] at also
          cases also
          exact absurd some (lt_irrefl 0)
      | more also _ rest =>
          rw [read] at also
          cases also
          rw [hypothesis rest]

end Reads

section Created

variable {dev : Rd} {fs made : Fs} {b k named n first : Nat} {name : List UInt8} {rest : List Nat}

/-- A file that was just created is empty and has one block. -/
theorem Site.holding (site : Site dev b k named n first name rest)
    (nodes : made.nodes = Function.update fs.nodes n ⟨1, first, 0, ylsFile⟩)
    (created : Made dev made.dev (slotPlace b k) named n first ylsFile (word dev.mem first) name rest) :
    Holding made n [] [] := by
  have node : made.nodes n = ⟨1, first, 0, ylsFile⟩ := by
    rw [nodes]
    exact Function.update_self ..
  obtain ⟨unlike, named', new⟩ := site.distinct
  obtain ⟨block, later⟩ := site.first_block
  have fewer : ∀ c ∈ first :: rest, c ∈ freeBlocks dev := by
    intro c member
    rw [site.free]
    exact List.mem_cons_of_mem _ member
  have ended : ∀ c ∈ first :: rest, c ≠ named → nextOf made.dev c = 0 := by
    intro c member other
    have bound := site.bound
    have word := entered_word site.spot created.toEntered
      (site.formatted.placed c (fewer c member)) (site.supply c (fewer c member)) other
      (show blkMem + 4 ≤ blkSz by decide) (Or.inl (by decide))
      (Or.inr (Or.inr (by unfold slotCount blkMem at *; omega)))
    exact word.trans (site.formatted.ended c (fewer c member))
  have free : freeBlocks made.dev = rest := created.free
  refine ⟨by rw [node], site.number, ⟨?_, ?_⟩, ?_, ?_, ?_, by rw [node]; rfl, rfl⟩
  · intro c member
    rw [free] at member
    exact (site.formatted.placed c (fewer c (List.mem_cons_of_mem _ member))).congr created.size
  · intro c member
    rw [free] at member
    exact ended c (List.mem_cons_of_mem _ member) fun same => named' (same ▸ member)
  · rw [node]
    refine chained_nil.mpr ⟨block.congr created.size, ?_, ?_⟩
    · rw [free]
      exact new
    · exact ended first List.mem_cons_self (Ne.symm unlike)
  · rw [node]
    intro c member
    rw [List.mem_singleton.mp member]
    exact later
  · intro c member
    rw [free] at member
    exact site.supply c (fewer c (List.mem_cons_of_mem _ member))

end Created

section RoundTrip

variable {fs : Fs} {i fuel : Nat} {rest : List Nat} {file : VFile}

/-- What was written into an empty file through one descriptor is what reads through a new descriptor
give, where they are all whole. -/
theorem file_round_trip (holding : Holding fs i rest []) (own : file.inode = i)
    (start : file.offset = 0) (bufs : List (List UInt8)) (fuelled : bufs.flatten.length < fuel)
    (room : bufs.flatten.length ≤ blkMem * (rest.length + 1 + (freeBlocks fs.dev).length)) :
    ∃ fs' file', runSteps (writeStep fuel) bufs (fs, file) = some (fs', file') ∧
      GuardedRun (writeStep fuel) (WritesAll fuel) bufs (fs, file) ∧
      ∀ sizes : Nat → Nat, (∀ k, 0 < sizes k) → ReadsFit bufs.flatten.length sizes →
        FileReads fuel (blkfsIopen fs' i oRdonly).1 sizes 0 (blkfsIopen fs' i oRdonly).2
          bufs.flatten := by
  obtain ⟨fs', file', more, ran, all, holds⟩ := writes_append bufs holding own start
    (by rw [List.length_nil, Nat.zero_add]; exact fuelled)
    (by rw [List.length_nil, Nat.zero_add]; exact room)
  refine ⟨fs', file', ran, all, fun sizes positive fit => ?_⟩
  rw [holds.reopened]
  exact reads_give holds fuelled positive fit bufs.flatten.length 0 ⟨i, 0, oRdonly⟩ rfl rfl
    (fun j before => absurd before (Nat.not_lt_zero j)) rfl

/-- A file system of twelve blocks with files of one block. -/
def smallFiles : Fs := ⟨twelveBlocks, fun _ => ⟨1, 0x400, 0, ylsFile⟩⟩

theorem small_files_empty : Holding smallFiles 1 [] [] where
  regular := rfl
  number := by decide
  formatted := twelve_blocks_formatted.1
  chained := twelve_blocks_formatted.2
  behind := by decide
  spare := by decide +kernel
  size := rfl
  bytes := rfl

theorem file_round_trip_small : ∃ fs' file',
    runSteps (writeStep 6) [[0x68, 0x65], [], [0x79]] (smallFiles, ⟨1, 0, oWronly⟩) = some (fs', file') ∧
      FileReads 6 (blkfsIopen fs' 1 oRdonly).1 (fun _ => 2) 0 (blkfsIopen fs' 1 oRdonly).2
        [0x68, 0x65, 0x79] := by
  obtain ⟨fs', file', ran, -, gives⟩ := @file_round_trip smallFiles 1 6 [] ⟨1, 0, oWronly⟩
    small_files_empty rfl rfl [[0x68, 0x65], [], [0x79]] (by decide) (by decide +kernel)
  refine ⟨fs', file', ran, gives (fun _ => 2) (fun _ => by decide) fun k before => ?_⟩
  match k with
  | 0 => decide
  | 1 => decide
  | 2 => decide
  | k + 3 => exact absurd (before 2 (by omega)) (by decide)

/-- The third read of four bytes in a file of ten gives nothing. -/
theorem file_read_cut : ∃ fs' file',
    runSteps (writeStep 11) [List.replicate 10 0x61] (smallFiles, ⟨1, 0, oWronly⟩) = some (fs', file') ∧
      FileReads 11 fs' (fun _ => 4) 0 (blkfsIopen fs' 1 oRdonly).2 (List.replicate 8 0x61) ∧
      ¬FileReads 11 fs' (fun _ => 4) 0 (blkfsIopen fs' 1 oRdonly).2
        [List.replicate 10 0x61].flatten := by
  obtain ⟨fs', file', more, ran, -, holds⟩ := @writes_append 11 smallFiles 1 [] [] ⟨1, 0, oWronly⟩
    [List.replicate 10 0x61] small_files_empty rfl rfl (by decide) (by decide +kernel)
  have first := @iread_whole fs' 1 11 4 _ _ ⟨1, 0, oRdonly⟩ holds rfl (by decide) (by decide)
    (by decide) 4 rfl
  have second := @iread_whole fs' 1 11 4 _ _ ⟨1, 4, oRdonly⟩ holds rfl (by decide) (by decide)
    (by decide) 4 rfl
  have third : FileReads 11 fs' (fun _ => 4) 2 ⟨1, 8, oRdonly⟩ [] := by
    refine FileReads.ends (@iread_beyond fs' 1 11 4 _ _ ⟨1, 8, oRdonly⟩ holds rfl (by decide))
  have cut : FileReads 11 fs' (fun _ => 4) 0 (blkfsIopen fs' 1 oRdonly).2 (List.replicate 8 0x61) := by
    have last := @FileReads.more 11 fs' (fun _ => 4) 1 _ _ _ _ _ second (by decide) third
    have whole := @FileReads.more 11 fs' (fun _ => 4) 0 _ _ _ _ _ first (by decide) last
    rw [holds.reopened]
    convert whole using 1
    decide
  refine ⟨fs', file', ran, cut, fun whole => ?_⟩
  exact absurd (file_reads_unique cut whole) (by decide)

end RoundTrip

end OsWorkbench.Blkfs
