import OsWorkbench.Blkfs.Chain

/-!
# Writing to a chain

The loop of `block_write` goes along the links and takes a free block where they end. It is followed
by what one round adds to the blocks behind the place where it starts.
-/

namespace OsWorkbench.Blkfs

open Kernel ByteStore LinkedList

/-- The same bitmap and the same links. -/
structure Alike (dev other : Rd) : Prop where
  size : other.size = dev.size
  free : freeBlocks other = freeBlocks dev
  links : ∀ b, blkSz ∣ b → nextOf other b = nextOf dev b

section Alike

variable {dev other : Rd} {b : Nat} {rest : List Nat}

theorem Block.congr (block : Block dev b) (size : other.size = dev.size) : Block other b :=
  ⟨block.aligned, block.later, size ▸ block.inside⟩

theorem Alike.formatted (alike : Alike dev other) (formatted : Formatted dev) : Formatted other := by
  refine ⟨?_, ?_⟩
  · intro b member
    rw [alike.free] at member
    exact (formatted.placed b member).congr alike.size
  · intro b member
    rw [alike.free] at member
    rw [alike.links b (formatted.placed b member).aligned]
    exact formatted.ended b member

theorem Alike.chained (alike : Alike dev other) (chained : Chained dev b rest) :
    Chained other b rest where
  path := chained.path.congr fun c member => alike.links c (chained.placed c member).aligned
  distinct := chained.distinct
  placed c member := (chained.placed c member).congr alike.size
  used c member := by
    rw [alike.free]
    exact chained.used c member

/-- A store that keeps out of the bitmap and of the links. -/
theorem alike_store_at (aligned : blkSz ∣ b) {skip : Nat} {payload : List UInt8}
    (above : bitmapLen ≤ b + skip) (inside : skip + payload.length ≤ blkMem) :
    Alike dev (dev.store (b + skip) payload) where
  size := rfl
  free := by
    apply free_blocks_congr
    intro a member
    rw [mem_span] at member
    apply overlay_before
    omega
  links c multiple := by
    apply word_overlay_outside
    by_cases same : c = b
    · subst same
      omega
    · have apart := Block.apart multiple aligned same
      unfold blkSz blkMem at *
      omega

/-- A store into the memory of a block. -/
theorem alike_store (block : Block dev b) {skip : Nat} {payload : List UInt8}
    (inside : skip + payload.length ≤ blkMem) : Alike dev (dev.store (b + skip) payload) := by
  refine alike_store_at block.aligned ?_ inside
  have above := block.above_bitmap
  unfold bitmapLen blkSz at *
  omega

end Alike

/-- What a run of the loop from the link of `b` on does: it fills the blocks `rest` behind `b`, and
the blocks `more` that it takes, with `s`. -/
structure Written (dev : Rd) (b : Nat) (rest : List Nat) (s : List UInt8) (dev' : Rd)
    (more : List Nat) : Prop where
  formatted : Formatted dev'
  chained : Chained dev' b (rest ++ more)
  size : dev'.size = dev.size
  taken : freeBlocks dev = more ++ freeBlocks dev'
  holds : contents dev' (rest ++ more) = s ++ (contents dev (rest ++ more)).drop s.length
  frame : ∀ a, bitmapLen ≤ a → a ∉ span (b + blkMem) 4 → (∀ c ∈ rest ++ more, a ∉ span c blkSz) →
    dev'.mem a = dev.mem a

section Rounds

variable {dev dev₁ dev₂ dev' : Rd} {b c : Nat} {rest rest₁ more later : List Nat}
  {s chunk : List UInt8}

/-- An address of a block is in no other block. -/
theorem outside_block (first : blkSz ∣ b) (second : blkSz ∣ c) (unlike : b ≠ c) {a : Nat}
    (inside : a ∈ span b blkSz) : a ∉ span c blkSz := by
  have apart := Block.apart first second unlike
  rw [mem_span] at *
  omega

theorem link_in_block {a : Nat} (inside : a ∈ span (b + blkMem) 4) : a ∈ span b blkSz := by
  rw [mem_span] at *
  unfold blkMem blkSz at *
  omega

theorem memory_in_block {a : Nat} (inside : a ∈ span b blkMem) : a ∈ span b blkSz := by
  rw [mem_span] at *
  unfold blkMem blkSz at *
  omega

theorem link_off_memory {a : Nat} (inside : a ∈ span b blkMem) : a ∉ span (b + blkMem) 4 := by
  rw [mem_span] at *
  omega

theorem above_bitmap (block : Block dev b) {a : Nat} (inside : a ∈ span b blkSz) : bitmapLen ≤ a := by
  have above := block.above_bitmap
  rw [mem_span] at inside
  unfold blkSz bitmapLen at *
  omega

/-- The link leads to a block of the chain. -/
theorem next_block_linked (chained : Chained dev b (c :: rest)) :
    ¬LacksNext dev (b + blkMem) ∧ nextBlock dev (b + blkMem) = (dev, c) := by
  obtain ⟨block, -, -, linked, further⟩ := chained_cons.mp chained
  have read : readWord dev (b + blkMem) 0 = (c, 4) := by
    rw [read_word_inside block.next_inside, ← linked]
    rfl
  have present : ¬LacksNext dev (b + blkMem) := by
    have positive := further.block.later
    rw [LacksNext, read]
    simp only [ne_eq, not_true_eq_false, false_or]
    omega
  refine ⟨present, ?_⟩
  rw [nextBlock, if_neg present, read]

/-- The chain ends here, and a free block is linked to it. -/
theorem next_block_appended (formatted : Formatted dev) (chained : Chained dev b [])
    (free : freeBlocks dev = c :: later) :
    ∃ dev', nextBlock dev (b + blkMem) = (dev', c) ∧ Written dev b [] [] dev' [c] := by
  obtain ⟨block, taken, last⟩ := chained_nil.mp chained
  obtain ⟨i, byte, given, bound, remaining⟩ := new_block_fresh formatted free
  have member : c ∈ freeBlocks dev := by
    rw [free]
    exact List.mem_cons_self
  have fresh : Block dev c := formatted.placed c member
  have unlike : b ≠ c := fun same => taken (same ▸ member)
  have distinct : c ∉ later := by
    have nodup := free_blocks_nodup dev
    rw [free] at nodup
    exact (List.nodup_cons.mp nodup).1
  let linked := (dev.store i [byte]).store (b + blkMem) (wordBytes c)
  have lacks : LacksNext dev (b + blkMem) := by
    right
    rw [read_word_inside block.next_inside]
    exact last
  have found : nextBlock dev (b + blkMem) = (linked, c) := by
    rw [nextBlock, if_pos lacks, appendBlock, given]
    dsimp only
    rw [rd_write_inside (by rw [word_bytes_length]; exact block.next_inside)]
  have kept (a : Nat) (above : bitmapLen ≤ a) (off : a ∉ span (b + blkMem) 4) :
      linked.mem a = dev.mem a := by
    refine (overlay_frame _ _ _ ?_).trans (overlay_after ?_)
    · exact off
    · rw [List.length_singleton]
      omega
  have left : freeBlocks linked = later := by
    rw [← remaining]
    apply free_blocks_congr
    intro a inside
    apply overlay_before
    have above := block.above_bitmap
    rw [mem_span] at inside
    unfold bitmapLen blkSz at *
    omega
  have links {d : Nat} (other : Block dev d) (apart : d ≠ b) : nextOf linked d = nextOf dev d := by
    apply word_congr
    intro a inside
    have whole := link_in_block inside
    refine kept a (above_bitmap other whole) fun wrong => ?_
    exact outside_block other.aligned block.aligned apart whole (link_in_block wrong)
  have ends : nextOf linked b = c := by
    have size := dev.word
    have inside := fresh.inside
    rw [nextOf, Rd.store_mem, word_overlay_self, Nat.mod_eq_of_lt (by unfold blkSz at inside; omega)]
  refine ⟨linked, found, ?_, ?_, rfl, ?_, ?_, ?_⟩
  · refine ⟨?_, ?_⟩
    · intro d free'
      rw [left] at free'
      exact (formatted.placed d (by rw [free]; exact List.mem_cons_of_mem c free')).congr rfl
    · intro d free'
      rw [left] at free'
      have old : d ∈ freeBlocks dev := by
        rw [free]
        exact List.mem_cons_of_mem c free'
      rw [links (formatted.placed d old) fun same => taken (same ▸ old)]
      exact formatted.ended d old
  · refine chained_cons.mpr ⟨block.congr rfl, ?_, ?_, ends, ?_⟩
    · rw [left]
      intro wrong
      exact taken (by rw [free]; exact List.mem_cons_of_mem c wrong)
    · simpa using unlike
    · refine chained_nil.mpr ⟨fresh.congr rfl, ?_, ?_⟩
      · rw [left]
        exact distinct
      · rw [links fresh unlike.symm]
        exact formatted.ended c member
  · rw [left, free]
    rfl
  · rw [List.nil_append, List.nil_append, List.length_nil, List.drop_zero]
    apply contents_congr
    intro d single a inside
    rw [List.mem_singleton.mp single] at inside
    have whole := memory_in_block inside
    refine kept a (above_bitmap fresh whole) fun wrong => ?_
    exact outside_block fresh.aligned block.aligned unlike.symm whole (link_in_block wrong)
  · intro a above off _
    exact kept a above off

/-- One round of the loop. -/
theorem write_round (found : nextBlock dev (b + blkMem) = (dev₁, c)) (block : Block dev₁ c)
    (present : s ≠ []) (fuel : Nat) :
    blockWriteLoop (fuel + 1) dev (b + blkMem) s =
      blockWriteLoop fuel (dev₁.store c (s.take blkMem)) (c + min blkMem s.length)
        (s.drop blkMem) := by
  have positive : s.length > 0 := List.length_pos_iff.mpr present
  have off : b + blkMem ≠ 0 := by
    unfold blkMem
    omega
  have inside : c + (s.take (min blkMem s.length)).length ≤ dev₁.size := by
    have last := block.next_inside
    rw [List.length_take]
    omega
  have whole : min (min blkMem s.length) s.length = min blkMem s.length := by omega
  rw [blockWriteLoop, if_pos positive]
  dsimp only
  rw [found, if_neg (fun both => off both.2), rd_write_inside inside, if_neg, ← List.take_eq_take_min,
    ← List.drop_eq_drop_min, block.place_word (Nat.min_le_left _ _)]
  rw [List.length_take, whole]
  exact fun different => different rfl

/-- The bytes of a round, stored in the block that it came to. -/
theorem Written.store_chunk (written : Written dev b rest [] dev₁ more)
    (reached : rest ++ more = c :: rest₁) (bound : chunk.length ≤ blkMem) :
    Written dev b rest chunk (dev₁.store c chunk) more := by
  have chained := written.chained
  rw [reached] at chained
  obtain ⟨-, -, -, -, further⟩ := chained_cons.mp chained
  have block := further.block
  have alike := alike_store block (show 0 + chunk.length ≤ blkMem by omega)
  rw [Nat.add_zero] at alike
  have before : contents dev₁ (c :: rest₁) = contents dev (c :: rest₁) := by
    rw [← reached]
    exact written.holds
  have behind : contents (dev₁.store c chunk) rest₁ = contents dev₁ rest₁ := by
    apply contents_congr
    intro d member a inside
    have placed := further.placed d (List.mem_cons_of_mem c member)
    have unlike : d ≠ c := fun same => (List.nodup_cons.mp further.distinct).1 (same ▸ member)
    have outside := outside_block placed.aligned block.aligned unlike (memory_in_block inside)
    apply overlay_frame
    intro wrong
    refine outside (memory_in_block ?_)
    rw [mem_span] at *
    omega
  refine ⟨alike.formatted written.formatted, alike.chained written.chained, written.size, ?_, ?_, ?_⟩
  · rw [alike.free]
    exact written.taken
  · have own : slice (overlay dev₁.mem c chunk) c blkMem =
        splice (slice dev₁.mem c blkMem) 0 chunk :=
      slice_overlay_splice _ _ _ 0 _ (by omega)
    rw [reached, ← before, contents_cons, contents_cons, behind, Rd.store_mem, own, splice_zero,
      List.append_assoc, List.drop_append_of_le_length (by rw [slice_length]; exact bound)]
  · intro a above off outside
    have elsewhere := outside c (by rw [reached]; exact List.mem_cons_self)
    rw [← written.frame a above off outside]
    apply overlay_frame
    intro wrong
    refine elsewhere (memory_in_block ?_)
    rw [mem_span] at *
    omega

/-- A round that filled its block, and the rounds after it. -/
theorem Written.followed (first : Written dev b rest chunk dev₂ more)
    (reached : rest ++ more = c :: rest₁) (full : chunk.length = blkMem)
    (second : Written dev₂ c rest₁ s dev' later) :
    Written dev b rest (chunk ++ s) dev' (more ++ later) := by
  have chained := first.chained
  rw [reached] at chained
  obtain ⟨block, taken, new, linked, further⟩ := chained_cons.mp chained
  have whole : rest ++ (more ++ later) = c :: (rest₁ ++ later) := by
    rw [← List.append_assoc, reached]
    rfl
  have placed (d : Nat) (member : d ∈ rest₁ ++ later) : Block dev₂ d :=
    (second.chained.placed d (List.mem_cons_of_mem c member)).congr second.size.symm
  have unlikeFirst (d : Nat) (member : d ∈ c :: (rest₁ ++ later)) : b ≠ d := by
    rintro rfl
    rcases List.mem_append.mp (show b ∈ (c :: rest₁) ++ later from member) with old | fresh
    · exact new old
    · exact taken (second.taken ▸ List.mem_append_left _ fresh)
  have unlikeReached (d : Nat) (member : d ∈ rest₁ ++ later) : c ≠ d := by
    rintro rfl
    exact (List.nodup_cons.mp second.chained.distinct).1 member
  refine ⟨second.formatted, ?_, second.size.trans first.size, ?_, ?_, ?_⟩
  · rw [whole]
    refine chained_cons.mpr ⟨block.congr second.size, ?_, ?_, ?_, second.chained⟩
    · intro wrong
      exact taken (second.taken ▸ List.mem_append_right _ wrong)
    · exact fun member => unlikeFirst b member rfl
    · rw [← linked]
      apply word_congr
      intro a inside
      have own := link_in_block inside
      refine second.frame a (above_bitmap block own) (fun wrong => ?_) fun d member => ?_
      · exact outside_block block.aligned further.block.aligned (unlikeFirst c List.mem_cons_self)
          own (link_in_block wrong)
      · exact outside_block block.aligned (placed d member).aligned
          (unlikeFirst d (List.mem_cons_of_mem c member)) own
  · rw [List.append_assoc, ← second.taken]
    exact first.taken
  · have filled := first.holds
    rw [reached, contents_cons, contents_cons, full, List.drop_append_of_le_length (by simp),
      List.drop_eq_nil_of_le (by simp), List.nil_append] at filled
    obtain ⟨own, behind⟩ := List.append_inj filled (by rw [slice_length, full])
    have fresh : contents dev₂ later = contents dev later := by
      apply contents_congr
      intro d member a inside
      have mine := memory_in_block inside
      have far := placed d (List.mem_append_right rest₁ member)
      refine first.frame a (above_bitmap far mine) (fun wrong => ?_) fun e old => ?_
      · exact outside_block far.aligned block.aligned
          (unlikeFirst d (List.mem_cons_of_mem c (List.mem_append_right rest₁ member))).symm mine
          (link_in_block wrong)
      · rw [reached] at old
        refine outside_block far.aligned (further.placed e old).aligned ?_ mine
        rintro rfl
        exact further.used d old (second.taken ▸ List.mem_append_left _ member)
    have kept : slice dev'.mem c blkMem = slice dev₂.mem c blkMem := by
      apply slice_congr
      intro a inside
      have mine := memory_in_block inside
      refine second.frame a (above_bitmap further.block mine) (link_off_memory inside) fun d member => ?_
      exact outside_block further.block.aligned (placed d member).aligned (unlikeReached d member) mine
    have passed : (slice dev.mem c blkMem ++ contents dev (rest₁ ++ later)).drop (blkMem + s.length) =
        (contents dev (rest₁ ++ later)).drop s.length := by
      rw [← List.drop_drop, List.drop_left' (slice_length _ _ _)]
    rw [whole, contents_cons, contents_cons, kept, own, second.holds, contents_append dev₂, behind,
      fresh, ← contents_append, List.append_assoc, List.length_append, full, passed]
  · intro a above off outside
    rw [whole] at outside
    rw [second.frame a above (fun wrong => ?_) fun d member => outside d (List.mem_cons_of_mem c member)]
    · refine first.frame a above off fun d member => ?_
      rw [reached] at member
      apply outside
      exact List.mem_append_left later member
    · exact outside c List.mem_cons_self (link_in_block wrong)

theorem written_nothing (formatted : Formatted dev) (chained : Chained dev b rest) :
    Written dev b rest [] dev [] where
  formatted := formatted
  chained := by rwa [List.append_nil]
  size := rfl
  taken := (List.nil_append _).symm
  holds := by rw [List.nil_append, List.length_nil, List.drop_zero]
  frame _ _ _ _ := rfl

/-- The next block, by its link or from the bitmap. -/
theorem next_block_found (formatted : Formatted dev) (chained : Chained dev b rest)
    (room : 0 < rest.length + (freeBlocks dev).length) :
    ∃ dev₁ c rest₁ more, nextBlock dev (b + blkMem) = (dev₁, c) ∧ rest ++ more = c :: rest₁ ∧
      Written dev b rest [] dev₁ more := by
  cases rest with
  | nil =>
      cases free : freeBlocks dev with
      | nil =>
          rw [free] at room
          exact absurd room (Nat.lt_irrefl 0)
      | cons c later =>
          obtain ⟨dev₁, found, written⟩ := next_block_appended formatted chained free
          exact ⟨dev₁, c, [], [c], found, rfl, written⟩
  | cons c rest₁ =>
      refine ⟨dev, c, rest₁, [], (next_block_linked chained).2, List.append_nil _, ?_⟩
      exact written_nothing formatted chained

/-- A round with a block to go to: its bytes are stored there, and there is one block less. -/
theorem round_stored (formatted : Formatted dev) (chained : Chained dev b rest)
    (room : 0 < rest.length + (freeBlocks dev).length) (s : List UInt8) :
    ∃ dev₁ c rest₁ more, nextBlock dev (b + blkMem) = (dev₁, c) ∧ Block dev₁ c ∧
      rest ++ more = c :: rest₁ ∧
      Written dev b rest (s.take blkMem) (dev₁.store c (s.take blkMem)) more ∧
      Chained (dev₁.store c (s.take blkMem)) c rest₁ ∧
      rest.length + (freeBlocks dev).length =
        rest₁.length + (freeBlocks (dev₁.store c (s.take blkMem))).length + 1 := by
  obtain ⟨dev₁, c, rest₁, more, found, reached, advanced⟩ := next_block_found formatted chained room
  have filled := advanced.store_chunk reached (List.length_take_le blkMem s)
  have before := advanced.chained
  have onward := filled.chained
  rw [reached] at before onward
  refine ⟨dev₁, c, rest₁, more, found, (chained_cons.mp before).2.2.2.2.block, reached, filled,
    (chained_cons.mp onward).2.2.2.2, ?_⟩
  have count := congrArg List.length reached
  have free := congrArg List.length filled.taken
  rw [List.length_append] at count free
  rw [List.length_cons] at count
  omega

/-- The loop of `block_write`, from the link of a block of the chain on. -/
theorem write_loop_ends {fuel : Nat} (fuelled : s.length < fuel) (formatted : Formatted dev)
    (chained : Chained dev b rest)
    (room : s.length ≤ blkMem * (rest.length + (freeBlocks dev).length)) :
    ∃ dev' more, blockWriteLoop fuel dev (b + blkMem) s = some (dev', 0) ∧
      Written dev b rest s dev' more := by
  induction fuel generalizing dev b rest s with
  | zero => exact absurd fuelled (Nat.not_lt_zero _)
  | succ fuel hypothesis =>
      by_cases present : s = []
      · subst present
        exact ⟨dev, [], by rw [blockWriteLoop]; rfl, written_nothing formatted chained⟩
      have positive := List.length_pos_iff.mpr present
      have blocks : 0 < rest.length + (freeBlocks dev).length :=
        Nat.pos_of_mul_pos_left (Nat.lt_of_lt_of_le positive room)
      obtain ⟨dev₁, c, rest₁, more, found, block, reached, filled, onward, shape⟩ :=
        round_stored formatted chained blocks s
      rw [write_round found block present]
      by_cases long : blkMem < s.length
      · have left : (s.drop blkMem).length ≤
            blkMem * (rest₁.length + (freeBlocks (dev₁.store c (s.take blkMem))).length) := by
          rw [shape, Nat.mul_succ] at room
          rw [List.length_drop]
          omega
        have fuelLeft : (s.drop blkMem).length < fuel := by
          rw [List.length_drop]
          unfold blkMem at *
          omega
        obtain ⟨dev', later, ended, written⟩ := hypothesis fuelLeft filled.formatted onward left
        refine ⟨dev', more ++ later, ?_, ?_⟩
        · rw [Nat.min_eq_left long.le]
          exact ended
        · have joined := filled.followed reached (by rw [List.length_take]; omega) written
          rwa [List.take_append_drop] at joined
      · have whole : s.take blkMem = s := List.take_of_length_le (by omega)
        obtain ⟨fuel, rfl⟩ := Nat.exists_eq_succ_of_ne_zero (show fuel ≠ 0 by omega)
        rw [whole] at filled ⊢
        refine ⟨_, more, ?_, filled⟩
        rw [List.drop_eq_nil_of_le (by omega), blockWriteLoop]
        rfl

end Rounds

end OsWorkbench.Blkfs
