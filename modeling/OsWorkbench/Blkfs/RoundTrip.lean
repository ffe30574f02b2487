import OsWorkbench.Blkfs.Writing

/-!
# Reading back what was written

`block_write` puts the bytes where they belong for every shift and every length, as long as free
blocks are left. `block_read` looks for a link 124 bytes behind the place it reads from, which is the
link of the block only where the reading started at the front of a block.
-/

namespace OsWorkbench.Blkfs

open Kernel ByteStore LinkedList

/-- The shift in the block that `find_block` stops at. A shift to the border between two blocks ends
behind the last byte of the first one. -/
def skipOf (shift : Nat) : Nat := if shift = 0 then 0 else (shift - 1) % blkMem + 1

/-- What `block_write` does to the chain from `first` on. -/
structure Stored (dev : Rd) (first : Nat) (rest : List Nat) (shift : Nat) (s : List UInt8)
    (dev' : Rd) (more : List Nat) : Prop where
  formatted : Formatted dev'
  chained : Chained dev' first (rest ++ more)
  size : dev'.size = dev.size
  taken : freeBlocks dev = more ++ freeBlocks dev'
  holds : contents dev' (first :: (rest ++ more)) =
    splice (contents dev (first :: (rest ++ more))) shift s
  frame : ∀ a, bitmapLen ≤ a → (∀ c ∈ first :: (rest ++ more), a ∉ span c blkSz) →
    dev'.mem a = dev.mem a

section Writing

variable {dev dev' : Rd} {b c first shift skip fuel : Nat} {rest more : List Nat}
  {s chunk : List UInt8}

/-- The part that goes into the first block, and the part that the loop writes. -/
theorem Written.stored (chained : Chained dev b rest) (bound : skip + chunk.length ≤ blkMem)
    (written : Written (dev.store (b + skip) chunk) b rest s dev' more)
    (full : s = [] ∨ skip + chunk.length = blkMem) :
    Stored dev b rest skip (chunk ++ s) dev' more := by
  have block := chained.block
  have alike := alike_store block bound
  have distinct := (List.nodup_cons.mp written.chained.distinct).1
  have behind : contents (dev.store (b + skip) chunk) (rest ++ more) = contents dev (rest ++ more) := by
    apply contents_congr
    intro d member a inside
    have placed := written.chained.placed d (List.mem_cons_of_mem b member)
    have unlike : d ≠ b := fun same => distinct (same ▸ member)
    have outside := outside_block placed.aligned block.aligned unlike (memory_in_block inside)
    apply overlay_frame
    intro wrong
    refine outside (memory_in_block ?_)
    rw [mem_span] at *
    omega
  have own : slice dev'.mem b blkMem = splice (slice dev.mem b blkMem) skip chunk := by
    rw [← slice_overlay_splice _ _ _ _ _ bound]
    apply slice_congr
    intro a inside
    have mine := memory_in_block inside
    refine written.frame a (above_bitmap block mine) (link_off_memory inside) fun d member => ?_
    have placed := written.chained.placed d (List.mem_cons_of_mem b member)
    exact outside_block block.aligned placed.aligned (fun same => distinct (same ▸ member)) mine
  refine ⟨written.formatted, written.chained, written.size, ?_, ?_, ?_⟩
  · rw [← alike.free]
    exact written.taken
  · rw [contents_cons, contents_cons, own, written.holds, behind, ← splice_zero]
    rcases full with none | whole
    · rw [none, List.append_nil, splice_zero, List.nil_append, List.length_nil, List.drop_zero,
        splice_append_left _ (by rw [slice_length]; exact bound)]
    · have length : skip + chunk.length = (slice dev.mem b blkMem).length := by
        rw [slice_length, whole]
      rw [splice_append_across _ length, splice, length, List.drop_length, List.append_nil]
  · intro a above outside
    have elsewhere := outside b List.mem_cons_self
    rw [written.frame a above (fun wrong => elsewhere (link_in_block wrong))
      fun d member => outside d (List.mem_cons_of_mem b member)]
    apply overlay_frame
    intro wrong
    refine elsewhere (memory_in_block ?_)
    rw [mem_span] at *
    omega

theorem write_loop_nothing (fuel : Nat) (dev : Rd) (off : Nat) :
    blockWriteLoop (fuel + 1) dev off [] = some (dev, 0) := rfl

/-- Writing from a place in the first block on. -/
theorem write_from_ends (fuelled : s.length < fuel) (formatted : Formatted dev)
    (chained : Chained dev b rest) (inside : skip ≤ blkMem)
    (room : skip + s.length ≤ blkMem * (rest.length + 1 + (freeBlocks dev).length)) :
    ∃ dev' more, writeFrom fuel dev (b + skip) s = some (dev', s.length) ∧
      Stored dev b rest skip s dev' more := by
  have block := chained.block
  have bound : skip + (s.take (blkMem - skip)).length ≤ blkMem := by
    rw [List.length_take]
    omega
  have alike := alike_store block bound
  have stops : b + skip + (s.take (min (blkMem - skip) s.length)).length ≤ dev.size := by
    have last := block.next_inside
    rw [List.length_take]
    omega
  have length : (s.take (min (blkMem - skip) s.length)).length = min (blkMem - skip) s.length := by
    rw [List.length_take]
    omega
  -- the first chunk goes into the block, whatever is left goes to the loop
  have begun : writeFrom fuel dev (b + skip) s =
      (blockWriteLoop fuel (dev.store (b + skip) (s.take (blkMem - skip)))
        (b + (skip + min (blkMem - skip) s.length)) (s.drop (blkMem - skip))).map fun ended =>
          (ended.1, s.length - ended.2) := by
    rw [writeFrom, block.space inside, rd_write_inside stops, length]
    dsimp only
    rw [if_neg (fun different => different rfl), ← List.take_eq_take_min, ← List.drop_eq_drop_min,
      Nat.add_assoc, block.place_word (by omega)]
  obtain ⟨dev', more, ended, written⟩ : ∃ dev' more,
      blockWriteLoop fuel (dev.store (b + skip) (s.take (blkMem - skip)))
        (b + (skip + min (blkMem - skip) s.length)) (s.drop (blkMem - skip)) = some (dev', 0) ∧
      Written (dev.store (b + skip) (s.take (blkMem - skip))) b rest (s.drop (blkMem - skip))
        dev' more := by
    rcases Nat.lt_or_ge (blkMem - skip) s.length with long | short
    · have left : (s.drop (blkMem - skip)).length ≤ blkMem *
          (rest.length + (freeBlocks (dev.store (b + skip) (s.take (blkMem - skip)))).length) := by
        rw [alike.free, List.length_drop]
        rw [Nat.add_right_comm, Nat.mul_succ] at room
        omega
      have fuelLeft : (s.drop (blkMem - skip)).length < fuel := by
        rw [List.length_drop]
        omega
      rw [Nat.min_eq_left long.le, Nat.add_sub_cancel' inside]
      exact write_loop_ends fuelLeft (alike.formatted formatted) (alike.chained chained) left
    · obtain ⟨fuel, rfl⟩ := Nat.exists_eq_succ_of_ne_zero (Nat.ne_of_gt (Nat.zero_lt_of_lt fuelled))
      rw [List.drop_eq_nil_of_le short]
      refine ⟨_, [], write_loop_nothing _ _ _, ?_⟩
      exact written_nothing (alike.formatted formatted) (alike.chained chained)
  refine ⟨dev', more, ?_, ?_⟩
  · rw [begun, ended]
    rfl
  · have full : s.drop (blkMem - skip) = [] ∨ skip + (s.take (blkMem - skip)).length = blkMem := by
      rcases Nat.lt_or_ge (blkMem - skip) s.length with long | short
      · right
        rw [List.length_take]
        omega
      · left
        exact List.drop_eq_nil_of_le short
    have stored := written.stored chained bound full
    rwa [List.take_append_drop] at stored

/-- One more block in front of the chain. -/
theorem Stored.behind (chained : Chained dev first (c :: rest))
    (stored : Stored dev c rest shift s dev' more) :
    Stored dev first (c :: rest) (blkMem + shift) s dev' more := by
  obtain ⟨block, taken, new, linked, further⟩ := chained_cons.mp chained
  have unlike (d : Nat) (member : d ∈ c :: (rest ++ more)) : first ≠ d := by
    rintro rfl
    rcases List.mem_append.mp (show first ∈ (c :: rest) ++ more from member) with old | fresh
    · exact new old
    · exact taken (stored.taken ▸ List.mem_append_left _ fresh)
  have kept : Set.EqOn dev'.mem dev.mem (span first blkSz) := by
    intro a inside
    refine stored.frame a (above_bitmap block inside) fun d member => ?_
    exact outside_block block.aligned (stored.chained.placed d member).aligned (unlike d member) inside
  refine ⟨stored.formatted, ?_, stored.size, stored.taken, ?_, ?_⟩
  · refine chained_cons.mpr ⟨block.congr stored.size, ?_, ?_, ?_, stored.chained⟩
    · intro wrong
      exact taken (stored.taken ▸ List.mem_append_right _ wrong)
    · exact fun member => unlike first member rfl
    · rw [← linked]
      exact word_congr fun a inside => kept (link_in_block inside)
  · have own : slice dev'.mem first blkMem = slice dev.mem first blkMem :=
      slice_congr fun a inside => kept (memory_in_block inside)
    have moved := splice_append_right (slice dev.mem first blkMem)
      (contents dev (c :: (rest ++ more))) s shift
    rw [slice_length] at moved
    rw [List.cons_append, contents_cons, stored.holds, own, contents_cons dev first, moved]
  · intro a above outside
    exact stored.frame a above fun d member => outside d (List.mem_cons_of_mem first member)

theorem skip_bound (shift : Nat) : skipOf shift ≤ blkMem := by
  have small := Nat.mod_lt (shift - 1) (show 0 < blkMem by decide)
  unfold skipOf
  split
  · exact Nat.zero_le _
  · exact small

theorem skip_of_first (inside : shift ≤ blkMem) : skipOf shift = shift := by
  unfold skipOf
  split
  · exact Eq.symm ‹_›
  · rw [Nat.mod_eq_of_lt (by omega)]
    omega

theorem skip_of_behind (beyond : blkMem < shift) : skipOf shift = skipOf (shift - blkMem) := by
  have positive : shift - blkMem ≠ 0 := by omega
  have moved : shift - 1 = shift - blkMem - 1 + blkMem := by omega
  rw [skipOf, if_neg (by omega), skipOf, if_neg positive, moved, Nat.add_mod_right]

/-- `find_block` goes to the block where the shift ends; what is written and what is read from there
counts for the whole chain. -/
theorem find_block_ends (fuelled : shift < fuel) (chained : Chained dev first rest)
    (bound : shift ≤ blkMem * (rest.length + 1)) :
    ∃ b after, findBlock fuel dev shift first = some (skipOf shift, b) ∧ Chained dev b after ∧
      shift + blkMem * after.length = skipOf shift + blkMem * rest.length ∧
      (contents dev (b :: after)).drop (skipOf shift) = (contents dev (first :: rest)).drop shift ∧
      ∀ s dev' more, Stored dev b after (skipOf shift) s dev' more →
        Stored dev first rest shift s dev' more := by
  induction fuel generalizing first rest shift with
  | zero => exact absurd fuelled (Nat.not_lt_zero _)
  | succ fuel hypothesis =>
      by_cases inside : shift ≤ blkMem
      · rw [skip_of_first inside]
        refine ⟨first, rest, ?_, chained, rfl, rfl, fun _ _ _ stored => stored⟩
        rw [findBlock, if_neg (by omega)]
      · cases rest with
        | nil => exact absurd bound (by simpa using inside)
        | cons c rest =>
            obtain ⟨block, -, -, linked, further⟩ := chained_cons.mp chained
            have fuelLeft : shift - blkMem < fuel := by
              unfold blkMem at *
              omega
            have boundLeft : shift - blkMem ≤ blkMem * (rest.length + 1) := by
              rw [List.length_cons, Nat.mul_succ] at bound
              omega
            have restored : blkMem + (shift - blkMem) = shift := by omega
            obtain ⟨b, after, found, ending, lengths, reads, writes⟩ :=
              hypothesis fuelLeft further boundLeft
            rw [skip_of_behind (by omega)]
            refine ⟨b, after, ?_, ending, ?_, ?_, ?_⟩
            · rw [findBlock, if_pos (by omega), block.read_next, linked]
              exact found
            · rw [List.length_cons, Nat.mul_succ]
              omega
            · rw [reads, contents_cons dev first, ← restored, ← List.drop_drop,
                List.drop_left' (slice_length _ _ _), Nat.add_sub_cancel_left]
            · intro s dev' more stored
              have whole := (writes s dev' more stored).behind chained
              rwa [restored] at whole

/-- `block_write` stores all it is given, for every shift, while blocks are left. -/
theorem block_write_ends (fuelled : shift + s.length < fuel) (formatted : Formatted dev)
    (chained : Chained dev first rest) (bound : shift ≤ blkMem * (rest.length + 1))
    (room : shift + s.length ≤ blkMem * (rest.length + 1 + (freeBlocks dev).length)) :
    ∃ dev' more, blockWrite fuel dev first shift s = some (dev', s.length) ∧
      Stored dev first rest shift s dev' more := by
  obtain ⟨b, after, found, ending, lengths, -, writes⟩ :=
    find_block_ends (Nat.lt_of_le_of_lt (Nat.le_add_right _ _) fuelled) chained bound
  have inside := skip_bound shift
  have roomLeft : skipOf shift + s.length ≤
      blkMem * (after.length + 1 + (freeBlocks dev).length) := by
    rw [Nat.mul_add, Nat.mul_succ] at *
    omega
  obtain ⟨dev', more, ended, stored⟩ := write_from_ends (Nat.lt_of_le_of_lt (Nat.le_add_left _ _) fuelled)
    formatted ending inside roomLeft
  refine ⟨dev', more, ?_, writes s dev' more stored⟩
  rw [blockWrite, found, Option.bind_some, ending.block.place_word inside]
  exact ended

end Writing

section Reading

variable {dev : Rd} {b first shift skip fuel count : Nat} {rest : List Nat} {s : List UInt8}

theorem read_loop_nothing (fuel : Nat) (dev : Rd) (off : Nat) (s : List UInt8) :
    blockReadLoop (fuel + 1) dev off 0 s = some (s, 0) := rfl

/-- One round of the loop: what is left of the block is read, then the link is looked for. -/
theorem read_round (block : Block dev b) (inside : skip ≤ blkMem) (present : 0 < count) (fuel : Nat)
    (s : List UInt8) :
    blockReadLoop (fuel + 1) dev (b + skip) count s =
      if (readWord dev (u32 (b + skip + blkMem)) (b + skip)).2 ≠ 4 ∨
          (readWord dev (u32 (b + skip + blkMem)) (b + skip)).1 = 0 then
        some (s ++ slice dev.mem (b + skip) (min (blkMem - skip) count),
          count - min (blkMem - skip) count)
      else
        blockReadLoop fuel dev (readWord dev (u32 (b + skip + blkMem)) (b + skip)).1
          (count - min (blkMem - skip) count)
          (s ++ slice dev.mem (b + skip) (min (blkMem - skip) count)) := by
  have stops : b + skip + min (blkMem - skip) count ≤ dev.size := by
    have last := block.next_inside
    omega
  rw [blockReadLoop, if_pos present]
  dsimp only
  rw [block.space inside, rd_read_inside stops, slice_length, if_neg (fun different => different rfl)]

/-- Reading from the front of a block goes along the links. -/
theorem read_loop_ends (fuelled : count < fuel) (chained : Chained dev b rest)
    (bound : count ≤ blkMem * (rest.length + 1)) :
    blockReadLoop fuel dev b count s = some (s ++ (contents dev (b :: rest)).take count, 0) := by
  induction fuel generalizing b rest count s with
  | zero => exact absurd fuelled (Nat.not_lt_zero _)
  | succ fuel hypothesis =>
      rcases Nat.eq_zero_or_pos count with rfl | present
      · rw [read_loop_nothing, List.take_zero, List.append_nil]
      have block := chained.block
      have round := read_round block (Nat.zero_le _) present fuel s
      simp only [Nat.add_zero, Nat.sub_zero, block.read_next] at round
      have front : slice dev.mem b (min blkMem count) = (slice dev.mem b blkMem).take count := by
        have part := slice_part dev.mem b 0 (min blkMem count) blkMem (by omega)
        rw [List.drop_zero, Nat.add_zero] at part
        rw [← part, List.take_eq_take_min (l := slice dev.mem b blkMem) (i := count), slice_length,
          Nat.min_comm]
      rw [round]
      cases rest with
      | nil =>
          have last := (chained_nil.mp chained).2.2
          rw [if_pos (Or.inr last), front, contents_cons, contents_nil, List.append_nil]
          rw [List.length_nil, Nat.zero_add, Nat.mul_one] at bound
          rw [Nat.min_eq_right bound, Nat.sub_self]
      | cons c rest =>
          obtain ⟨-, -, -, linked, further⟩ := chained_cons.mp chained
          have link : ¬((4 : Nat) ≠ 4 ∨ nextOf dev b = 0) := by
            have positive := further.block.later
            rw [linked]
            omega
          have fuelLeft : count - min blkMem count < fuel := by
            unfold blkMem at *
            omega
          have boundLeft : count - min blkMem count ≤ blkMem * (rest.length + 1) := by
            rw [List.length_cons, Nat.mul_succ] at bound
            omega
          rw [if_neg link, linked, hypothesis fuelLeft further boundLeft, front, List.append_assoc,
            contents_cons dev b, List.take_append, slice_length,
            show count - min blkMem count = count - blkMem by omega]

/-- Reading inside one block. The link that is looked for at the end is not followed. -/
theorem read_within (fuelled : count < fuel) (block : Block dev b) (inside : skip + count ≤ blkMem) :
    blockReadLoop fuel dev (b + skip) count s = some (s ++ slice dev.mem (b + skip) count, 0) := by
  obtain ⟨fuel, rfl⟩ := Nat.exists_eq_succ_of_ne_zero (Nat.ne_of_gt (Nat.zero_lt_of_lt fuelled))
  rcases Nat.eq_zero_or_pos count with rfl | present
  · rw [read_loop_nothing]
    simp [slice]
  obtain ⟨fuel, rfl⟩ := Nat.exists_eq_succ_of_ne_zero (show fuel ≠ 0 by omega)
  rw [read_round block (by omega) present, Nat.min_eq_right (by omega), Nat.sub_self]
  split
  · rfl
  · exact read_loop_nothing _ _ _ _

/-- What `block_read` gives where the link it looks for is that of the block, or where it does not
need one. -/
theorem block_read_ends (fuelled : shift + count < fuel) (chained : Chained dev first rest)
    (bound : shift + count ≤ blkMem * (rest.length + 1))
    (near : shift = 0 ∨ skipOf shift + count ≤ blkMem) :
    blockRead fuel dev first shift count =
      some (count, ((contents dev (first :: rest)).drop shift).take count) := by
  obtain ⟨b, after, found, ending, lengths, reads, -⟩ :=
    find_block_ends (Nat.lt_of_le_of_lt (Nat.le_add_right _ _) fuelled) chained
      (Nat.le_trans (Nat.le_add_right _ _) bound)
  have fuelLeft : count < fuel := by omega
  rw [blockRead, found, Option.bind_some, ending.block.place_word (skip_bound shift), ← reads]
  rcases near with zero | inside
  · subst zero
    have boundLeft : count ≤ blkMem * (after.length + 1) := by
      rw [show skipOf 0 = 0 from rfl] at lengths
      rw [Nat.mul_succ] at *
      omega
    rw [show skipOf 0 = 0 from rfl, Nat.add_zero, read_loop_ends fuelLeft ending boundLeft]
    simp
  · have part := slice_part dev.mem b (skipOf shift) count blkMem inside
    have own : ((contents dev (b :: after)).drop (skipOf shift)).take count =
        slice dev.mem (b + skipOf shift) count := by
      rw [contents_cons, List.drop_append_of_le_length (by rw [slice_length]; exact skip_bound shift),
        List.take_append_of_le_length (by rw [List.length_drop, slice_length]; omega), part]
    rw [own, read_within fuelLeft ending.block inside]
    simp

end Reading

section RoundTrip

variable {dev : Rd} {first shift fuel : Nat} {rest : List Nat} {s : List UInt8}

/-- What was written reads back, the rest of the chain and the other blocks are as before, where the
bytes start the chain or stay in the block of the first one. -/
theorem block_round_trip (formatted : Formatted dev) (chained : Chained dev first rest)
    (bound : shift ≤ blkMem * (rest.length + 1))
    (room : shift + s.length ≤ blkMem * (rest.length + 1 + (freeBlocks dev).length))
    (near : shift = 0 ∨ skipOf shift + s.length ≤ blkMem) (fuelled : shift + s.length < fuel) :
    ∃ dev' more, blockWrite fuel dev first shift s = some (dev', s.length) ∧
      blockRead fuel dev' first shift s.length = some (s.length, s) ∧
      Chained dev' first (rest ++ more) ∧ freeBlocks dev = more ++ freeBlocks dev' ∧
      (∀ index < blkMem * (rest.length + 1), index < shift ∨ shift + s.length ≤ index →
        (contents dev' (first :: (rest ++ more)))[index]? = (contents dev (first :: rest))[index]?) ∧
      ∀ a, bitmapLen ≤ a → (∀ c ∈ first :: (rest ++ more), a ∉ span c blkSz) →
        dev'.mem a = dev.mem a := by
  obtain ⟨dev', more, written, stored⟩ := block_write_ends fuelled formatted chained bound room
  have whole : (contents dev (first :: (rest ++ more))).length =
      blkMem * (rest.length + more.length + 1) := by
    rw [contents_length, List.length_cons, List.length_append]
  have inside : shift ≤ (contents dev (first :: (rest ++ more))).length := by
    rw [whole]
    refine bound.trans (Nat.mul_le_mul_left _ ?_)
    omega
  have grown : shift + s.length ≤ blkMem * ((rest ++ more).length + 1) := by
    have reached := splice_length_ge inside s
    rwa [← stored.holds, contents_length, List.length_cons] at reached
  refine ⟨dev', more, written, ?_, stored.chained, stored.taken, ?_, stored.frame⟩
  · rw [block_read_ends fuelled stored.chained grown near, stored.holds, splice_reads_back inside]
  · intro index within outside
    rw [stored.holds, splice_outside inside s outside, ← List.cons_append, contents_append,
      List.getElem?_append_left]
    rwa [contents_length, List.length_cons]

/-- A device of twelve blocks, of which the last three are free. -/
def twelveBlocks : Rd where
  size := 0x600
  mem a := if a = 1 then 0xf1 else if a < bitmapLen then 0xff else 0
  word := by decide

theorem twelve_blocks_formatted : Formatted twelveBlocks ∧ Chained twelveBlocks 0x400 [] := by
  have free : freeBlocks twelveBlocks = [0x480, 0x500, 0x580] := by decide +kernel
  refine ⟨⟨?_, ?_⟩, chained_nil.mpr ⟨⟨by decide, by decide, by decide⟩, ?_, by decide +kernel⟩⟩
  · intro b member
    rw [free] at member
    simp only [List.mem_cons, List.not_mem_nil, or_false] at member
    rcases member with rfl | rfl | rfl <;> exact ⟨by decide, by decide, by decide⟩
  · intro b member
    rw [free] at member
    simp only [List.mem_cons, List.not_mem_nil, or_false] at member
    rcases member with rfl | rfl | rfl <;> decide +kernel
  · rw [free]
    decide

theorem block_round_trip_once : ∃ dev' more,
    blockWrite 200 twelveBlocks 0x400 0 (List.replicate 130 7) = some (dev', 130) ∧
      blockRead 200 dev' 0x400 0 130 = some (130, List.replicate 130 7) ∧
      Chained dev' 0x400 more := by
  have free : freeBlocks twelveBlocks = [0x480, 0x500, 0x580] := by decide +kernel
  have length : (List.replicate 130 (7 : UInt8)).length = 130 := List.length_replicate
  have trip := @block_round_trip twelveBlocks 0x400 0 200 [] (List.replicate 130 7)
    twelve_blocks_formatted.1 twelve_blocks_formatted.2 (Nat.zero_le _)
    (by rw [free, length]; decide) (Or.inl rfl) (by rw [length]; decide)
  rw [length] at trip
  obtain ⟨dev', more, written, read, chained, -⟩ := trip
  exact ⟨dev', more, written, read, chained⟩

/-- Thirty bytes that go over the border of a block are written, and read back in part. -/
theorem block_read_stops_short :
    Formatted twelveBlocks ∧ Chained twelveBlocks 0x400 [] ∧
      (blockWrite 50 twelveBlocks 0x400 100 (List.replicate 30 1)).map Prod.snd = some 30 ∧
      ((blockWrite 50 twelveBlocks 0x400 100 (List.replicate 30 1)).bind fun written =>
        blockRead 50 written.1 0x400 100 30) = some (24, List.replicate 24 1) :=
  ⟨twelve_blocks_formatted.1, twelve_blocks_formatted.2, by decide +kernel, by decide +kernel⟩

end RoundTrip

end OsWorkbench.Blkfs
