import OsWorkbench.Kvdb.Atomic

/-!
# A recorded size that wraps

A put whose value fills the 32-bit offsets makes `get_end` wrap: blocks are then
handed out below the old end of the file, over the header, the free list and the
blocks of other strings. The run followed here ends in a crashed file that answers
neither as before the put nor as after it.
-/

namespace OsWorkbench.Kvdb

open ByteStore WriteTrace Regions

section Rounds

variable {file : File}

theorem new_block_wraps {old : Nat} (header : headerLen ≤ file.size)
    (sized : word file.bytes freeSize = old) :
    Does newBlock file [setSize (u32 (old + sizeofString))] (u32 (old + 2 ^ 32 - headerLen)) := by
  have read := @pread_unchecked_does file freeSize 4
    (by simp only [freeSize, headerLen] at header ⊢; omega)
  have value : wordOf (slice file.bytes freeSize 4) 0 = old := by
    rw [word_of_slice _ _ _ _ (by omega)]
    exact sized
  have moved : Does (getEnd sizeofString) file [setSize (u32 (old + sizeofString))] old := by
    refine does_bind_read read ?_
    rw [value]
    exact does_bind (pwrite_does file freeSize _) (does_ret _ _)
  exact does_bind_pure moved

/-- The writes of a round past the free list, whatever the sizes. -/
def roundWrites (cur old : Nat) (src : List UInt8) : List Pwrite :=
  [⟨u32 (cur + headerLen), src.take blockLen⟩, setSize (u32 (old + sizeofString)),
    ⟨u32 (headerLen + (cur + blockLen)), wordBytes (u32 (old + 2 ^ 32 - headerLen))⟩]

theorem round_size {cur old : Nat} {src : List UInt8}
    (linked : freeSize + 4 ≤ u32 (headerLen + (cur + blockLen)) ∨
      u32 (headerLen + (cur + blockLen)) + 4 ≤ freeSize) :
    word (applyAll (roundWrites cur old src) file).bytes freeSize = u32 (old + sizeofString) := by
  have apart : Disjoint (touches ⟨u32 (headerLen + (cur + blockLen)),
      wordBytes (u32 (old + 2 ^ 32 - headerLen))⟩) (span freeSize 4) :=
    span_disjoint linked.symm
  exact @word_written file [⟨u32 (cur + headerLen), src.take blockLen⟩]
    [⟨u32 (headerLen + (cur + blockLen)), wordBytes (u32 (old + 2 ^ 32 - headerLen))⟩] freeSize
    (u32 (old + sizeofString)) (u32_lt _) (by
      intro change member
      rw [List.mem_singleton.mp member]
      exact apart)

/-- One round that stores a full block and has more to store. -/
theorem long_round {tail cur old : Nat} {src : List UInt8} {writes : List Pwrite}
    {ended : Bool × Nat} (header : headerLen ≤ file.size)
    (sized : word (Store.apply file ⟨u32 (cur + headerLen), src.take blockLen⟩).bytes freeSize = old)
    (more : blockLen < src.length)
    (later : Returns (fun fuel => allocLoop tail fuel false (u32 (old + 2 ^ 32 - headerLen))
      (src.drop blockLen)) (applyAll (roundWrites cur old src) file) writes ended) :
    Returns (fun fuel => allocLoop tail fuel false cur src) file
      (roundWrites cur old src ++ writes) ended := by
  have some : src ≠ [] := by
    rintro rfl
    simp at more
  have notShort : ¬ src.length < blockLen := by omega
  have positive : (src.length : Int) - blockLen > 0 := by omega
  have chunk : Does (storeChunk cur src) file [⟨u32 (cur + headerLen), src.take blockLen⟩] () := by
    simp only [storeChunk, notShort, if_false]
    exact pwrite_does _ _ _
  have advanced : Does (advance tail false cur (src.length - blockLen))
      (Store.apply file ⟨u32 (cur + headerLen), src.take blockLen⟩)
      [setSize (u32 (old + sizeofString))] (false, u32 (old + 2 ^ 32 - headerLen)) :=
    does_bind_pure (new_block_wraps (header.trans (size_le_apply _ _)) sized)
  have linked (store : File) : Does (linkBlock false cur (u32 (old + 2 ^ 32 - headerLen))
      (src.length - blockLen)) store [⟨u32 (headerLen + (cur + blockLen)),
        wordBytes (u32 (old + 2 ^ 32 - headerLen))⟩] () := by
    simp only [linkBlock, positive, if_true]
    exact pwrite_does _ _ _
  apply returns_of_succ
  simp only [allocLoop, some, if_false]
  change Returns _ file ([⟨u32 (cur + headerLen), src.take blockLen⟩] ++
    ([setSize (u32 (old + sizeofString))] ++ ([⟨u32 (headerLen + (cur + blockLen)),
      wordBytes (u32 (old + 2 ^ 32 - headerLen))⟩] ++ writes))) ended
  exact returns_bind chunk.returns (returns_bind advanced.returns
    (returns_bind (linked _).returns later))

/-- Writes to the recorded size and from some address on. -/
def Upwards (changes : List Pwrite) (low : Nat) : Prop :=
  ∀ change ∈ changes, ∀ address ∈ touches change, address ∈ span freeSize 4 ∨ low ≤ address

/-- Rounds that do not wrap: the cursor stays the last block below the size. -/
theorem many_rounds (count : Nat) {size tail cur : Nat} {src : List UInt8}
    (header : headerLen ≤ file.size) (sized : word file.bytes freeSize = size)
    (place : headerLen + cur + sizeofString = size)
    (small : size + sizeofString * count < 2 ^ 32) (more : blockLen * count < src.length) :
    ∃ writes, Upwards writes (headerLen + cur) ∧
      word (applyAll writes file).bytes freeSize = size + sizeofString * count ∧
      ∀ rest ended, Returns (fun fuel => allocLoop tail fuel false (cur + sizeofString * count)
          (src.drop (blockLen * count))) (applyAll writes file) rest ended →
        Returns (fun fuel => allocLoop tail fuel false cur src) file (writes ++ rest) ended := by
  induction count generalizing file size cur src with
  | zero =>
      refine ⟨[], by simp [Upwards], by simpa using sized, fun rest ended later => ?_⟩
      simpa using later
  | succ count ih =>
      have chunkAt : u32 (cur + headerLen) = headerLen + cur := by
        rw [Nat.add_comm]
        exact u32_of_lt (by simp only [sizeofString] at small place; omega)
      have linkAt : u32 (headerLen + (cur + blockLen)) = headerLen + cur + blockLen := by
        rw [u32_of_lt (by simp only [sizeofString, blockLen] at small place ⊢; omega)]
        omega
      have grownAt : u32 (size + sizeofString) = size + sizeofString :=
        u32_of_lt (by simp only [sizeofString] at small ⊢; omega)
      have nextAt : u32 (size + 2 ^ 32 - headerLen) = cur + sizeofString := by
        simp only [u32, sizeofString, headerLen] at place small ⊢
        omega
      have chunkLength : (src.take blockLen).length = blockLen := by
        simp only [List.length_take, blockLen] at more ⊢
        omega
      have sizedLater : word (applyAll (roundWrites cur size src) file).bytes freeSize =
          size + sizeofString := by
        rw [round_size, grownAt]
        rw [linkAt]
        simp only [freeSize, headerLen]
        omega
      have remaining : blockLen * count < (src.drop blockLen).length := by
        simp only [List.length_drop, blockLen] at more ⊢
        omega
      obtain ⟨writes, upwards, sizedEnd, continued⟩ := @ih
        (applyAll (roundWrites cur size src) file) (size + sizeofString) (cur + sizeofString)
        (src.drop blockLen) (header_after _ header) sizedLater (by omega)
        (by simp only [sizeofString] at small ⊢; omega) remaining
      refine ⟨roundWrites cur size src ++ writes, ?_, ?_, ?_⟩
      · intro change member address touched
        rcases List.mem_append.mp member with here | after
        · simp only [roundWrites, chunkAt, linkAt, List.mem_cons, List.not_mem_nil,
            or_false] at here
          rcases here with rfl | rfl | rfl
          · exact Or.inr touched.1
          · exact Or.inl touched
          · simp only [touches, mem_span] at touched
            exact Or.inr (by omega)
        · rcases upwards change after address touched with inside | above
          · exact Or.inl inside
          · exact Or.inr (by omega)
      · rw [applyAll_append, sizedEnd]
        simp only [sizeofString]
        omega
      · intro rest ended later
        rw [List.append_assoc]
        refine long_round header ?_ (by simp only [blockLen] at more ⊢; omega) ?_
        · refine (word_congr (apply_eqOn ?_)).trans sized
          refine span_disjoint (Or.inr ?_)
          change freeSize + 4 ≤ u32 (cur + headerLen)
          rw [chunkAt]
          simp only [freeSize, headerLen]
          omega
        · rw [nextAt]
          refine continued rest ended ?_
          rw [applyAll_append] at later
          rw [List.drop_drop]
          have cursor : cur + sizeofString + sizeofString * count =
              cur + sizeofString * (count + 1) := by
            simp only [sizeofString]
            omega
          have dropped : blockLen + blockLen * count = blockLen * (count + 1) := by
            simp only [blockLen]
            omega
          rwa [cursor, dropped]

/-- The short last round, on a block that wrapped to file offset 8. -/
def lastWrites : List Pwrite :=
  [⟨8, zeros blockLen⟩, ⟨8, [20, 1]⟩, setSize 308, ⟨36, zeros 4⟩]

theorem last_round (tail : Nat) (header : headerLen ≤ file.size) :
    Returns (fun fuel => allocLoop tail fuel false (2 ^ 32 - 248) [20, 1]) file lastWrites
      (false, 20) := by
  have sized : word (applyAll [⟨8, zeros blockLen⟩, ⟨8, [20, 1]⟩] file).bytes freeSize = 276 := by
    have bytes : slice (overlay (overlay file.bytes 8 (zeros blockLen)) 8 [20, 1]) 8 4 =
        [20, 1, 0, 0] := by
      rw [show (4 : Nat) = ([20, 1] : List UInt8).length + 2 by rfl, slice_append,
        slice_overlay_self, slice_overlay_outside (Or.inr le_rfl)]
      have padding := slice_overlay_replicate file.bytes 8 blockLen 2 2 0 (by simp)
      exact congrArg _ padding
    have value := word_of_slice (overlay (overlay file.bytes 8 (zeros blockLen)) 8 [20, 1]) 8 4 0
      (by omega)
    rw [bytes] at value
    exact value.symm
  have chunk : Does (storeChunk (2 ^ 32 - 248) [20, 1]) file
      [⟨8, zeros blockLen⟩, ⟨8, [20, 1]⟩] () := by
    have first := pwrite_does file 8 (zeros blockLen)
    exact does_bind first (pwrite_does _ _ _)
  have advanced : Does (advance tail false (2 ^ 32 - 248) (([20, 1] : List UInt8).length - blockLen))
      (applyAll [⟨8, zeros blockLen⟩, ⟨8, [20, 1]⟩] file) [setSize 308] (false, 20) :=
    does_bind_pure (new_block_wraps (header_after _ header) sized)
  have linked (store : File) : Does (linkBlock false (2 ^ 32 - 248) 20
      (([20, 1] : List UInt8).length - blockLen)) store [⟨36, zeros 4⟩] () := by
    have nothing := @only_if_does (false = true) _ freeHead (wordBytes 20) store
    exact does_bind nothing (pwrite_does _ _ _)
  have ended (store : File) : Returns (fun fuel => allocLoop tail fuel false 20
      (([20, 1] : List UInt8).drop blockLen)) store [] (false, 20) :=
    alloc_loop_ended tail store (by simp)
  apply returns_of_succ
  simp only [allocLoop, reduceCtorEq, if_false]
  change Returns _ file ([⟨8, zeros blockLen⟩, ⟨8, [20, 1]⟩] ++ ([setSize 308] ++
    ([⟨36, zeros 4⟩] ++ []))) _
  exact returns_bind chunk.returns (returns_bind advanced.returns
    (returns_bind (linked _).returns (ended _)))

end Rounds

section Allocations

variable {file : File} {front : List UInt8}

/-- What is left after the value has been allocated: everything between the saved
entry and the first block is as before, but the tail and the size are wrong. -/
structure Overrun (file after : File) : Prop where
  grown : file.size ≤ after.size
  kept : Set.EqOn after.bytes file.bytes (span 40 416)
  head : word after.bytes freeHead = 20
  tail : word after.bytes freeTail = 2 ^ 32 - 248
  sized : word after.bytes freeSize = 308
  saved : word after.bytes (backupTab + 4) = 0

/-- Writes that stay out of the place between the saved header and the first free
block. -/
def Spares (changes : List Pwrite) : Prop :=
  ∀ change ∈ changes, ∀ address ∈ touches change, address < 40 ∨ 456 ≤ address

theorem Spares.kept {changes : List Pwrite} (spares : Spares changes) :
    Set.EqOn (applyAll changes file).bytes file.bytes (span 40 416) := by
  apply applyAll_eqOn
  intro change member
  rw [Set.disjoint_left]
  intro address touched inside
  have outside := spares change member address touched
  rw [mem_span] at inside
  omega

theorem last_spares : Spares (lastWrites ++ [setHead 20]) := by
  intro change member address touched
  simp only [lastWrites, List.cons_append, List.nil_append, List.mem_cons, List.not_mem_nil,
    or_false] at member
  rcases member with rfl | rfl | rfl | rfl | rfl
  · simp only [touches, zeros_length, mem_span, blockLen] at touched
    omega
  · simp only [touches, List.length_cons, List.length_nil, mem_span] at touched
    omega
  · simp only [touches, setSize, word_bytes_length, mem_span, freeSize] at touched
    omega
  · simp only [touches, zeros_length, mem_span] at touched
    omega
  · simp only [touches, setHead, word_bytes_length, mem_span, freeHead] at touched
    omega

/-- The facts about the file once the last round is done. -/
theorem overrun_of_last {reached : File} (grown : file.size ≤ reached.size)
    (kept : Set.EqOn reached.bytes file.bytes (span 40 416))
    (tail : word reached.bytes freeTail = 2 ^ 32 - 248) :
    Overrun file (applyAll (lastWrites ++ [setHead 20]) reached) := by
  have saved : word (Store.apply reached ⟨8, zeros blockLen⟩).bytes (backupTab + 4) = 0 := by
    refine (word_overlay_inside reached.bytes 8 20 (zeros blockLen) (by simp)).trans ?_
    decide
  refine ⟨grown.trans (size_le_applyAll _ _), last_spares.kept.trans kept, ?_, ?_, ?_, ?_⟩
  · exact @word_written reached lastWrites [] freeHead 20 (by decide) (by simp)
  · refine (word_applyAll ?_).trans tail
    intro change member
    simp only [lastWrites, List.cons_append, List.nil_append, List.mem_cons, List.not_mem_nil,
      or_false] at member
    rcases member with rfl | rfl | rfl | rfl | rfl <;> exact span_disjoint (by decide)
  · refine @word_written reached [⟨8, zeros blockLen⟩, ⟨8, [20, 1]⟩] [⟨36, zeros 4⟩, setHead 20]
      freeSize 308 (by decide) ?_
    intro change member
    simp only [List.mem_cons, List.not_mem_nil, or_false] at member
    rcases member with rfl | rfl <;> exact span_disjoint (by decide)
  · have parts : applyAll (lastWrites ++ [setHead 20]) reached =
        applyAll [⟨8, [20, 1]⟩, setSize 308, ⟨36, zeros 4⟩, setHead 20]
          (Store.apply reached ⟨8, zeros blockLen⟩) := rfl
    rw [parts, word_applyAll, saved]
    intro change member
    simp only [List.mem_cons, List.not_mem_nil, or_false] at member
    rcases member with rfl | rfl | rfl | rfl <;> exact span_disjoint (by decide)

theorem wrapped_value (header : headerLen ≤ file.size) (head : word file.bytes freeHead = 20)
    (tail : word file.bytes freeTail = 20) (sized : word file.bytes freeSize = 456)
    (long : front.length = 28 * 134217714) :
    ∃ writes, Returns (fun fuel => allocStr fuel (front ++ [20, 1])) file writes 200 ∧
      Overrun file (applyAll writes file) := by
  have length : (front ++ [20, 1]).length = 28 * 134217714 + 2 := by simp [long]
  have listed := @pread_unchecked_does file freeHead 8
    (by simp only [freeHead, headerLen] at header ⊢; omega)
  have first : wordOf (slice file.bytes freeHead 8) 0 = 20 := by
    rw [word_of_slice _ _ _ _ (by omega)]
    exact head
  have second : wordOf (slice file.bytes freeHead 8) 4 = 20 := by
    rw [word_of_slice _ _ _ _ (by omega)]
    exact tail
  have taken : Does (firstBlock false 20) file [setSize 488] 200 := new_block_wraps header sized
  obtain ⟨rounds, upwards, sizedMid, continued⟩ := @many_rounds (applyAll [setSize 488] file)
    134217712 488 20 200 (front ++ [20, 1]) (header_after _ header)
    (sized_after_set file (by decide)) (by simp) (by simp) (by
      rw [length]
      simp only [blockLen]
      omega)
  generalize stateMid : applyAll rounds (applyAll [setSize 488] file) = mid at sizedMid continued
  have headerMid : headerLen ≤ mid.size := by
    rw [← stateMid]
    exact header_after _ (header_after _ header)
  have lengthMid : ((front ++ [20, 1]).drop (blockLen * 134217712)).length = 58 := by
    simp only [List.length_drop, length, blockLen]
  have lastChunk : (((front ++ [20, 1]).drop (blockLen * 134217712)).drop blockLen).drop
      blockLen = [20, 1] := by
    rw [List.drop_drop, List.drop_drop]
    exact List.drop_left' (by simp [long])
  obtain ⟨src, srcIs⟩ : ∃ src, src = (front ++ [20, 1]).drop (blockLen * 134217712) := ⟨_, rfl⟩
  rw [← srcIs] at lengthMid lastChunk continued
  have fullChunk : (src.take blockLen).length = 28 := by simp [lengthMid]
  have nextChunk : ((src.drop blockLen).take blockLen).length = 28 := by simp [lengthMid]
  have headerA := header_after (roundWrites (2 ^ 32 - 312) (2 ^ 32 - 24) src) headerMid
  have sizedA : word (applyAll (roundWrites (2 ^ 32 - 312) (2 ^ 32 - 24) src) mid).bytes
      freeSize = 8 := round_size (by decide)
  generalize stateA : applyAll (roundWrites (2 ^ 32 - 312) (2 ^ 32 - 24) src) mid = afterA
    at headerA sizedA
  have headerB := header_after (roundWrites (2 ^ 32 - 280) 8 (src.drop blockLen)) headerA
  have roundB := @long_round afterA 20 (2 ^ 32 - 280) 8 (src.drop blockLen) lastWrites (false, 20)
    headerA (by
      refine (word_congr (apply_eqOn (span_disjoint (Or.inr ?_)))).trans sizedA
      change freeSize + 4 ≤ u32 (2 ^ 32 - 280 + headerLen)
      decide) (by simp [lengthMid]) (by
      rw [lastChunk]
      exact last_round 20 headerB)
  have roundA := @long_round mid 20 (2 ^ 32 - 312) (2 ^ 32 - 24) src
    (roundWrites (2 ^ 32 - 280) 8 (src.drop blockLen) ++ lastWrites) (false, 20) headerMid (by
      refine (word_congr (apply_eqOn (span_disjoint (Or.inr ?_)))).trans sizedMid
      change freeSize + 4 ≤ u32 (2 ^ 32 - 312 + headerLen)
      decide) (by simp [lengthMid]) (by
      rw [stateA]
      exact roundB)
  have loop := continued _ _ roundA
  have headed (store : File) : Does (pwrite freeHead (wordBytes 20) >>= fun _ =>
      (pure 200 : Db Nat)) store [setHead 20] 200 :=
    does_bind (pwrite_does _ _ _) (does_ret _ _)
  have shapeA : roundWrites (2 ^ 32 - 312) (2 ^ 32 - 24) src = [⟨2 ^ 32 - 56, src.take blockLen⟩,
      setSize 8, ⟨2 ^ 32 - 28, wordBytes (2 ^ 32 - 280)⟩] := rfl
  have shapeB : roundWrites (2 ^ 32 - 280) 8 (src.drop blockLen) =
      [⟨2 ^ 32 - 24, (src.drop blockLen).take blockLen⟩, setSize 40,
        ⟨freeTail, wordBytes (2 ^ 32 - 248)⟩] := rfl
  refine ⟨[setSize 488] ++ ((rounds ++ (roundWrites (2 ^ 32 - 312) (2 ^ 32 - 24) src ++
    (roundWrites (2 ^ 32 - 280) 8 (src.drop blockLen) ++ lastWrites))) ++ [setHead 20]), ?_, ?_⟩
  · refine returns_bind_read listed.returns ?_
    simp only [first, second, bne_self_eq_false]
    exact returns_bind taken.returns (returns_bind loop (headed _).returns)
  · simp only [applyAll_append, stateMid, stateA]
    rw [← applyAll_append, shapeB]
    have grownB : file.size ≤ (applyAll [⟨2 ^ 32 - 24, (src.drop blockLen).take blockLen⟩,
        setSize 40, ⟨freeTail, wordBytes (2 ^ 32 - 248)⟩] afterA).size := by
      refine le_trans ?_ (size_le_applyAll _ _)
      rw [← stateA, ← stateMid]
      exact (size_le_applyAll _ _).trans ((size_le_applyAll _ _).trans (size_le_applyAll _ _))
    have spares : Spares [setSize 488] := by
      intro change member address touched
      rw [List.mem_singleton.mp member] at touched
      simp only [touches, setSize, word_bytes_length, mem_span, freeSize] at touched
      omega
    have sparesMid : Spares rounds := by
      intro change member address touched
      rcases upwards change member address touched with sized | above
      · simp only [mem_span, freeSize] at sized
        omega
      · simp only [headerLen] at above
        omega
    have sparesA : Spares (roundWrites (2 ^ 32 - 312) (2 ^ 32 - 24) src) := by
      intro change member address touched
      simp only [shapeA, List.mem_cons, List.not_mem_nil, or_false] at member
      rcases member with rfl | rfl | rfl
      · simp only [touches, mem_span] at touched
        omega
      · simp only [touches, setSize, word_bytes_length, mem_span, freeSize] at touched
        omega
      · simp only [touches, mem_span] at touched
        omega
    have sparesB : Spares [⟨2 ^ 32 - 24, (src.drop blockLen).take blockLen⟩, setSize 40,
        ⟨freeTail, wordBytes (2 ^ 32 - 248)⟩] := by
      intro change member address touched
      simp only [List.mem_cons, List.not_mem_nil, or_false] at member
      rcases member with rfl | rfl | rfl
      · simp only [touches, mem_span] at touched
        omega
      · simp only [touches, setSize, word_bytes_length, mem_span, freeSize] at touched
        omega
      · simp only [touches, word_bytes_length, mem_span, freeTail] at touched
        omega
    have keptB : Set.EqOn (applyAll [⟨2 ^ 32 - 24, (src.drop blockLen).take blockLen⟩, setSize 40,
        ⟨freeTail, wordBytes (2 ^ 32 - 248)⟩] afterA).bytes file.bytes (span 40 416) := by
      refine sparesB.kept.trans ?_
      rw [← stateA, ← stateMid]
      exact sparesA.kept.trans (sparesMid.kept.trans spares.kept)
    have tailB := @word_written afterA [⟨2 ^ 32 - 24, (src.drop blockLen).take blockLen⟩,
      setSize 40] [] freeTail (2 ^ 32 - 248) (by decide) (by simp)
    simp only [List.cons_append, List.nil_append] at tailB
    generalize applyAll [⟨2 ^ 32 - 24, (src.drop blockLen).take blockLen⟩, setSize 40,
      ⟨freeTail, wordBytes (2 ^ 32 - 248)⟩] afterA = afterB at grownB keptB tailB ⊢
    exact overrun_of_last grownB keptB tailB

/-- The key goes into the sentinel block, which the wrong tail makes available. -/
def keyWrites : List Pwrite :=
  chunkWrites 20 [99] ++ ([setPrev 20] ++ [setHead 0, setLink 20 0]) ++ [setHead 0]

theorem wrapped_key {reached : File} (overrun : Overrun file reached) (size : 456 ≤ file.size)
    (blank : link file.bytes 20 = 0) :
    Returns (fun fuel => allocStr fuel [99]) reached keyWrites 20 := by
  have sizeNow := size.trans overrun.grown
  have listed := @pread_unchecked_does reached freeHead 8
    (by simp only [freeHead]; omega)
  have first : wordOf (slice reached.bytes freeHead 8) 0 = 20 := by
    rw [word_of_slice _ _ _ _ (by omega)]
    exact overrun.head
  have second : wordOf (slice reached.bytes freeHead 8) 4 = 2 ^ 32 - 248 := by
    rw [word_of_slice _ _ _ _ (by omega)]
    exact overrun.tail
  have linkNow : link reached.bytes 20 = 0 := by
    refine (word_congr (overrun.kept.mono ?_)).trans blank
    intro address inside
    simp only [mem_span, headerLen, blockLen] at inside ⊢
    omega
  have chunk := @store_chunk_does reached 20 [99] (by decide)
  have advanced := @advance_free_does (applyAll (chunkWrites 20 [99]) reached) (2 ^ 32 - 248) 20 0
    (([99] : List UInt8).length - blockLen)
    ((show headerLen + 20 + sizeofString ≤ reached.size by simp; omega).trans
      (size_le_applyAll _ _)) (link_after_chunk linkNow) (by decide)
  have linked (store : File) := @link_last_does store 0 true 20
    (([99] : List UInt8).length - blockLen) (by decide) (by decide)
  have ended (store : File) : Returns (fun fuel => allocLoop (2 ^ 32 - 248) fuel true 0
      (([99] : List UInt8).drop blockLen)) store [] (true, 0) :=
    alloc_loop_ended _ store (by simp)
  have loop : Returns (fun fuel => allocLoop (2 ^ 32 - 248) fuel true 20 [99]) reached
      (chunkWrites 20 [99] ++ ([setPrev 20] ++ [setHead 0, setLink 20 0])) (true, 0) := by
    apply returns_of_succ
    simp only [allocLoop, reduceCtorEq, if_false]
    change Returns _ reached (chunkWrites 20 [99] ++ ([setPrev 20] ++
      (([setHead 0] ++ [setLink 20 0]) ++ []))) _
    exact returns_bind chunk.returns (returns_bind advanced.returns
      (returns_bind (linked _).returns (ended _)))
  have headed (store : File) : Does (pwrite freeHead (wordBytes 0) >>= fun _ =>
      (pure 20 : Db Nat)) store [setHead 0] 20 :=
    does_bind (pwrite_does _ _ _) (does_ret _ _)
  have unlike : ((20 : Nat) != 2 ^ 32 - 248) = true := by decide
  refine returns_bind_read listed.returns ?_
  simp only [first, second, unlike]
  exact returns_bind_read (does_ret _ _).returns (returns_bind loop (headed _).returns)

end Allocations

section Example

/-- The writes of the put of `"b"` under `"a"` on a fresh database. -/
def firstWrites : List Pwrite :=
  [saveHeader fresh 0, setSize 340, ⟨308, zeros 28⟩, ⟨308, [98]⟩, setSize 372, setLink 52 0,
    setHead 20, setSize 404, ⟨372, zeros 28⟩, ⟨372, [97]⟩, setSize 436, setLink 116 0, setHead 20,
    setSize 456, ⟨436, zeros 20⟩, setTab 0 ⟨180, 116, 1, 52, 1⟩, clearFlag]

theorem first_writes : putWrites fresh Layout.init [97] [98] = firstWrites := by
  simp [putWrites, Layout.find, Layout.init, stageWrites, commitWrite, firstWrites, newTab, plan,
    planFree, planEnd, chunkWrites, u32, setSize, setLink, setHead, setTab]

def small : File := applyAll firstWrites fresh

theorem small_size : small.size = 456 := by decide +kernel

/-- The part of the file that lookups of other keys depend on. -/
structure Readable (reached : File) : Prop where
  size : 456 ≤ reached.size
  tab : tabAt reached.bytes 0 = ⟨180, 116, 1, 52, 1⟩
  key : info reached.bytes 116 = 97 :: zeros 27
  ended : link reached.bytes 116 = 0

theorem readable_of_kept {reached : File} (size : 456 ≤ reached.size)
    (entry : Set.EqOn reached.bytes small.bytes (span 256 20))
    (key : Set.EqOn reached.bytes small.bytes (span 372 32)) : Readable reached where
  size := size
  tab := (tab_congr entry).trans (by decide +kernel)
  key := (info_congr key).trans (by decide +kernel)
  ended := (link_congr key).trans (by decide +kernel)

variable {reached : File} {tab : Tab}

theorem Readable.first (readable : Readable reached) :
    Does (readTab 0) reached [] ⟨180, 116, 1, 52, 1⟩ ∧
      Does (readStr 116) reached [] ⟨97 :: zeros 27, 0⟩ := by
  have size := readable.size
  have read := @read_tab_does reached 0 (by simp; omega) (by simp)
  have named := @read_str_does reached 116 (by simp; omega) (by simp)
  rw [readable.tab] at read
  rw [strAt, readable.key, readable.ended] at named
  exact ⟨read, named⟩

theorem Readable.second (readable : Readable reached) (listed : tabAt reached.bytes 180 = tab) :
    Does (readTab 180) reached [] tab := by
  have size := readable.size
  have read := @read_tab_does reached 180 (by simp; omega) (by simp)
  rwa [listed] at read

/-- A lookup of `"c"` passes the entry of `"a"`. -/
theorem Readable.passes (readable : Readable reached) {writes : List Pwrite}
    {seen : Option (List UInt8)}
    (later : Returns (fun fuel => getFrom fuel 180 [99]) reached writes seen) :
    Returns (fun fuel => kvdbGet fuel [99]) reached writes seen := by
  have compared : Returns (fun fuel => stringCmp fuel [99] ⟨97 :: zeros 27, 0⟩) reached [] 2 := by
    apply returns_of_succ
    exact (does_ret _ _).returns
  apply returns_of_succ
  exact returns_bind_read readable.first.1.returns (returns_bind_read readable.first.2.returns
    (returns_bind_read compared later))

/-- Behind it, an all-zero entry ends the lookup. -/
theorem Readable.absent (readable : Readable reached)
    (listed : tabAt reached.bytes 180 = ⟨0, 0, 0, 0, 0⟩) :
    Returns (fun fuel => kvdbGet fuel [99]) reached [] none := by
  refine readable.passes (returns_of_succ ?_)
  exact returns_bind_read (readable.second listed).returns (does_ret _ _).returns

/-- What the crash leaves of the entry of `"a"`: its value block is gone. -/
structure Damaged (reached : File) : Prop extends Readable reached where
  value : info reached.bytes 52 = zeros blockLen
  valueEnd : link reached.bytes 52 = 0
  saved : word reached.bytes (backupTab + 4) = 0

theorem Damaged.answer (damaged : Damaged reached) :
    Returns (fun fuel => kvdbGet fuel [97]) reached [] (some []) := by
  have size := damaged.size
  have compared : Returns (fun fuel => stringCmp fuel [97] ⟨97 :: zeros 27, 0⟩) reached [] 0 := by
    apply returns_of_succ
    exact (does_ret _ _).returns
  have checked := @check_backup_does reached (by simp; omega) 116
  have fresh : decide (reached.bytes backupFlag ≠ 0 ∧ word reached.bytes (backupTab + 4) = 116) =
      false := by simp [damaged.saved]
  rw [fresh] at checked
  have current : Does (currentTab false ⟨180, 116, 1, 52, 1⟩) reached [] ⟨180, 116, 1, 52, 1⟩ :=
    does_ret _ _
  have found := @read_str_does reached 52 (by simp; omega) (by simp)
  rw [strAt, damaged.value, damaged.valueEnd] at found
  have copied : Returns (fun fuel => stringCpy fuel ⟨zeros blockLen, 0⟩) reached [] [0] := by
    apply returns_of_succ
    exact (does_ret _ _).returns
  have read : Returns (fun fuel => readValue fuel ⟨180, 116, 1, 52, 1⟩) reached [] [] :=
    returns_bind_read found.returns (returns_bind_read copied (does_ret _ _).returns)
  apply returns_of_succ
  exact returns_bind_read damaged.first.1.returns (returns_bind_read damaged.first.2.returns
    (returns_bind_read compared (returns_bind_read checked.returns
      (returns_bind_read current.returns (returns_bind_pure read)))))

/-- The writes between the allocation of the value and the crash. -/
def crashWrites : List Pwrite := keyWrites ++ [setSize 328, ⟨308, zeros sizeofTab⟩]

theorem crash_touches {change : Pwrite} (member : change ∈ crashWrites) {address : Nat}
    (touched : address ∈ touches change) :
    address < 12 ∨ (48 ≤ address ∧ address < 52) ∨ (276 ≤ address ∧ address < 328) := by
  simp only [crashWrites, keyWrites, chunkWrites, List.length_cons, List.length_nil, blockLen,
    Nat.reduceLT, Nat.reduceAdd, if_true, List.cons_append, List.nil_append, List.mem_cons,
    List.not_mem_nil, or_false] at member
  rcases member with rfl | rfl | rfl | rfl | rfl | rfl | rfl | rfl <;>
    simp only [touches, setPrev, setHead, setLink, setSize, word_bytes_length, zeros_length,
      List.length_cons, List.length_nil, mem_span, headerLen, blockLen, sizeofTab, freeHead,
      freeSize, backupPrev] at touched <;> omega

/-- Everything but the value of `"a"` has survived up to the crash. -/
theorem crash_damaged {overrun : File}
    (facts : Overrun (applyAll [saveHeader small 180] small) overrun) :
    Damaged (applyAll crashWrites overrun) ∧
      tabAt (applyAll crashWrites overrun).bytes 180 = ⟨0, 0, 0, 0, 0⟩ := by
  have size : 456 ≤ (applyAll [saveHeader small 180] small).size := by decide +kernel
  have kept {region : Set Nat} (inside : region ⊆ span 56 400)
      (outside : ∀ address ∈ region, address < 276 ∨ 328 ≤ address) :
      Set.EqOn (applyAll crashWrites overrun).bytes small.bytes region := by
    have after : Set.EqOn (applyAll crashWrites overrun).bytes overrun.bytes region := by
      apply applyAll_eqOn
      intro change member
      rw [Set.disjoint_left]
      intro address touched within
      have place := inside within
      have away := outside address within
      rcases crash_touches member touched with low | header | block
      · simp only [mem_span] at place
        omega
      · simp only [mem_span] at place
        omega
      · omega
    refine after.trans ((facts.kept.mono ?_).trans ?_)
    · intro address within
      have place := inside within
      simp only [mem_span] at place ⊢
      omega
    · intro address within
      have place := inside within
      change overlay small.bytes 0 (backupPayload small 180) address = _
      refine overlay_after ?_
      simp only [mem_span] at place
      simp only [backup_payload_length, sizeofHeader]
      omega
  have readable : Readable (applyAll crashWrites overrun) := by
    refine readable_of_kept ((size.trans facts.grown).trans (size_le_applyAll _ _)) ?_ ?_
    · refine kept ?_ ?_
      · intro address inside
        simp only [mem_span] at inside ⊢
        omega
      · intro address inside
        simp only [mem_span] at inside
        omega
    · refine kept ?_ ?_
      · intro address inside
        simp only [mem_span] at inside ⊢
        omega
      · intro address inside
        simp only [mem_span] at inside
        omega
  refine ⟨⟨readable, ?_, ?_, ?_⟩, ?_⟩
  · have wiped : slice (applyAll crashWrites overrun).bytes 308 20 = zeros 20 :=
      slice_overlay_self (applyAll (keyWrites ++ [setSize 328]) overrun).bytes 308 (zeros 20)
    have rest : slice (applyAll crashWrites overrun).bytes 328 8 = zeros 8 := by
      refine (slice_congr (kept ?_ ?_)).trans (by decide +kernel : slice small.bytes 328 8 = zeros 8)
      · intro address inside
        simp only [mem_span] at inside ⊢
        omega
      · intro address inside
        simp only [mem_span] at inside
        omega
    have whole := slice_append (applyAll crashWrites overrun).bytes 308 20 8
    rw [wiped, rest] at whole
    exact whole
  · refine (word_congr (kept ?_ ?_)).trans (by decide +kernel : link small.bytes 52 = 0)
    · intro address inside
      simp only [mem_span, headerLen, blockLen] at inside ⊢
      omega
    · intro address inside
      simp only [mem_span, headerLen, blockLen] at inside
      omega
  · refine (word_applyAll fun change member => ?_).trans facts.saved
    rw [Set.disjoint_left]
    intro address touched inside
    simp only [mem_span, backupTab] at inside
    rcases crash_touches member touched with low | header | block <;> omega
  · refine (tab_congr (kept ?_ ?_)).trans
      (by decide +kernel : tabAt small.bytes 180 = ⟨0, 0, 0, 0, 0⟩)
    · intro address inside
      simp only [Region.addresses, tabRegion, mem_span, headerLen, sizeofTab] at inside ⊢
      omega
    · intro address inside
      simp only [Region.addresses, tabRegion, mem_span, headerLen, sizeofTab] at inside
      omega

theorem trace_bind_read {Value Result : Type} {program : Db Value} {next : Value → Db Result}
    {file : File} {value : Value} (head : Does program file [] value) :
    (program >>= next).trace file = (next value).trace file := by
  change (program.bind next).trace file = _
  induction program with
  | ret other =>
      simp only [Does, Prog.trace, Prod.mk.injEq, Except.ok.injEq, true_and] at head
      rw [← head]
      rfl
  | stop reason => simp [Does, Prog.trace] at head
  | look view ih => exact ih file head
  | edit write rest ih => simp [Does, Prog.trace] at head

/-- A program that never returns `NULL`. -/
def Somes {Value : Type} (program : Db (Option Value)) : Prop :=
  ∀ file writes, ¬ Does program file writes none

theorem somes_bind {Value Result : Type} (program : Db Value) {next : Value → Db (Option Result)}
    (each : ∀ value, Somes (next value)) : Somes (program >>= next) := by
  intro file writes done
  change (program.bind next).trace file = (writes, .ok none) at done
  induction program generalizing file writes with
  | ret value => exact each value file writes done
  | stop reason => simp [Prog.bind, Prog.trace] at done
  | look view ih => exact ih file file writes done
  | edit write rest ih =>
      cases later : (rest.bind next).trace (Store.apply file write) with
      | mk others ending =>
          simp only [Prog.bind, Prog.trace, later, Prod.mk.injEq] at done
          exact ih _ others (by rw [later, done.2])

theorem somes_some {Value : Type} (value : Value) : Somes (pure (some value) : Db _) := by
  intro file writes done
  simp [Does, pure, Prog.trace] at done

/-- Once its entry is written, `"c"` is found, whatever its value looks like. -/
theorem Readable.present (readable : Readable reached) {value valueLen : Nat}
    (listed : tabAt reached.bytes 180 = ⟨52, 20, 1, value, valueLen⟩)
    (named : info reached.bytes 20 = 99 :: zeros 27) (ended : link reached.bytes 20 = 0)
    {writes : List Pwrite} : ¬ Returns (fun fuel => kvdbGet fuel [99]) reached writes none := by
  rintro ⟨enough, done⟩
  have size := readable.size
  have found := done (enough + 1 + 1 + 1) (by omega)
  have order : Does (stringCmp (enough + 1 + 1) [99] ⟨97 :: zeros 27, 0⟩) reached [] 2 := rfl
  have first : (getFrom (enough + 1 + 1 + 1) 0 [99]).trace reached =
      (getFrom (enough + 1 + 1) 180 [99]).trace reached := by
    rw [getFrom, trace_bind_read readable.first.1]
    simp only [ne_eq, OfNat.ofNat_ne_zero, not_false_eq_true, if_true]
    rw [trace_bind_read readable.first.2, trace_bind_read order]
    rfl
  have key := @read_str_does reached 20 (by simp; omega) (by simp)
  rw [strAt, named, ended] at key
  have equal : Does (stringCmp (enough + 1) [99] ⟨99 :: zeros 27, 0⟩) reached [] 0 := rfl
  have second : (getFrom (enough + 1 + 1) 180 [99]).trace reached =
      (checkBackup 20 >>= fun saved =>
        currentTab saved ⟨52, 20, 1, value, valueLen⟩ >>= fun found =>
          readValue (enough + 1) found >>= fun chars => pure (some chars)).trace reached := by
    rw [getFrom, trace_bind_read (readable.second listed)]
    simp only [ne_eq, OfNat.ofNat_ne_zero, not_false_eq_true, if_true]
    rw [trace_bind_read key, trace_bind_read equal]
    simp only [if_true]
  have never := somes_bind (checkBackup 20) fun saved => somes_bind
    (currentTab saved ⟨52, 20, 1, value, valueLen⟩) fun found =>
      somes_bind (readValue (enough + 1) found) fun chars => somes_some chars
  exact never reached writes (second.symm.trans (first.symm.trans found))

theorem first_layout : Layout.init.put [97] [98] = ⟨[⟨0, [97], [116], [98], [52]⟩], 180, [20], 456⟩ := by
  simp [Layout.put, Layout.find, Layout.init, Layout.append, plan, planFree, planEnd]

theorem first_put :
    Returns (fun fuel => kvdbPut fuel [97] [98]) fresh firstWrites 0 ∧
      Represents ⟨[⟨0, [97], [116], [98], [52]⟩], 180, [20], 456⟩ small ∧ Idle small := by
  have proper : Proper ([97], [98]) := ⟨by decide, by decide⟩
  have putable : Putable Layout.init fresh [97] [98] := proper.putable (by
    rw [first_layout]
    decide)
  have done := kvdb_put_returns fresh_represents fresh_idle putable
  rwa [first_writes, first_layout] at done

theorem key_writes_avoid {change : Pwrite} (member : change ∈ keyWrites) :
    Disjoint (touches change) (span freeSize 4) := by
  simp only [keyWrites, chunkWrites, List.length_cons, List.length_nil, blockLen,
    Nat.reduceLT, Nat.reduceAdd, if_true, List.cons_append, List.nil_append, List.mem_cons,
    List.not_mem_nil, or_false] at member
  rcases member with rfl | rfl | rfl | rfl | rfl | rfl <;> exact span_disjoint (by decide)

/-- The put of a value that reaches the end of the 32-bit offsets. -/
theorem wrapping_put (front : List UInt8) (long : front.length = 28 * 134217714) :
    ∃ before overrun valueLen, valueLen < 2 ^ 32 ∧
      Returns (fun fuel => kvdbPut fuel [99] (front ++ [20, 1])) small
        (before ++ [setTab 180 ⟨52, 20, 1, 200, valueLen⟩, clearFlag]) 0 ∧
      Overrun (applyAll [saveHeader small 180] small) overrun ∧
      applyAll before small = applyAll crashWrites overrun := by
  obtain ⟨-, represents, idle⟩ := first_put
  obtain ⟨writes, valueDone, facts⟩ := @wrapped_value (applyAll [saveHeader small 180] small) front
    (by decide +kernel) (by decide +kernel) (by decide +kernel) (by decide +kernel) long
  have saved := @start_backup_does small 180 (by rw [small_size]; decide) (by decide)
  have keyDone := wrapped_key facts (by decide +kernel) (by decide +kernel)
  generalize reachedIs : applyAll writes (applyAll [saveHeader small 180] small) = overrun
    at facts keyDone
  have size := (by decide +kernel : 456 ≤ (applyAll [saveHeader small 180] small).size)
  have moved := @get_end_does (applyAll keyWrites overrun) 308 sizeofTab
    (header_after _ (show headerLen ≤ overrun.size from
      le_trans (by decide) (size.trans facts.grown)))
    ((word_applyAll fun change member => key_writes_avoid member).trans facts.sized) (by decide)
  have zeroed (store : File) := @write_db_does store 52 (zeros sizeofTab) (by decide)
  have filled (store : File) := @write_db_does store 180
    (Tab.mk 52 20 1 200 (u32 (front ++ [20, 1]).length)).bytes (by decide)
  have done (store : File) : Returns (fun _ : Nat => (pure 0 : Db Int)) store [] 0 :=
    (does_ret _ _).returns
  have target : Returns (fun fuel => appendEntry fuel 180 [99] (front ++ [20, 1])) small
      ([saveHeader small 180] ++ (writes ++ (keyWrites ++ ([setSize 328] ++
        ([⟨308, zeros sizeofTab⟩] ++ ([setTab 180 (Tab.mk 52 20 1 200
          (u32 (front ++ [20, 1]).length))] ++ [])))))) 0 := by
    simp only [appendEntry]
    refine returns_bind saved.returns (returns_bind valueDone ?_)
    rw [reachedIs]
    exact returns_bind keyDone (returns_bind moved.returns (returns_bind (zeroed _).returns
      (returns_bind (filled _).returns (done _))))
  have walked : Returns (fun fuel => putFrom fuel 0 [99] (front ++ [20, 1])) small
      ([saveHeader small 180] ++ (writes ++ (keyWrites ++ ([setSize 328] ++
        ([⟨308, zeros sizeofTab⟩] ++ ([setTab 180 (Tab.mk 52 20 1 200
          (u32 (front ++ [20, 1]).length))] ++ [])))))) 0 :=
    @Walkable.put_append _ _ [99] _ _ _ _ represents.shown.walkable (by decide) (by
      intro other member
      rw [List.mem_singleton.mp member]
      decide) target
  have recovered := recov_idle idle (by rw [small_size]; decide)
  have finish (store : File) : Returns (fun _ : Nat => negBackup >>= fun _ => (pure 0 : Db Int))
      store [clearFlag] 0 := by
    have cleared : Does (negBackup >>= fun _ => (pure 0 : Db Int)) store ([clearFlag] ++ []) 0 :=
      does_bind (neg_backup_does store) (does_ret _ _)
    exact cleared.returns
  refine ⟨[saveHeader small 180] ++ (writes ++ crashWrites), overrun,
    u32 (front ++ [20, 1]).length, u32_lt _, ?_, facts, ?_⟩
  · have shape : ([saveHeader small 180] ++ (writes ++ crashWrites)) ++
        [setTab 180 (Tab.mk 52 20 1 200 (u32 (front ++ [20, 1]).length)), clearFlag] =
        ([saveHeader small 180] ++ (writes ++ (keyWrites ++ ([setSize 328] ++
          ([⟨308, zeros sizeofTab⟩] ++ ([setTab 180 (Tab.mk 52 20 1 200
            (u32 (front ++ [20, 1]).length))] ++ [])))))) ++ [clearFlag] := by
      simp [crashWrites]
    rw [shape]
    exact returns_bind_read recovered.returns (returns_bind walked (finish _))
  · rw [applyAll_append, applyAll_append, reachedIs]

/-- The last two writes of the put touch the entry at 180 and the flag only. -/
theorem commit_avoids {valueLen start count : Nat} {change : Pwrite}
    (member : change ∈ [setTab 180 ⟨52, 20, 1, 200, valueLen⟩, clearFlag])
    (above : start + count ≤ 52 ∨ 53 ≤ start) (below : start + count ≤ 436) :
    Disjoint (touches change) (span start count) := by
  simp only [List.mem_cons, List.not_mem_nil, or_false] at member
  rcases member with rfl | rfl
  · refine span_disjoint (Or.inr ?_)
    exact below
  · refine span_disjoint ?_
    simp only [clearFlag, zeros_length, backupFlag]
    omega

theorem crash_key (overrun : File) :
    info (applyAll crashWrites overrun).bytes 20 = 99 :: zeros 27 ∧
      link (applyAll crashWrites overrun).bytes 20 = 0 := by
  have shape : crashWrites = chunkWrites 20 [99] ++ [setPrev 20, setHead 0, setLink 20 0, setHead 0,
      setSize 328, ⟨308, zeros sizeofTab⟩] := rfl
  have linked : crashWrites = (chunkWrites 20 [99] ++ [setPrev 20, setHead 0]) ++
      setLink 20 0 :: [setHead 0, setSize 328, ⟨308, zeros sizeofTab⟩] := rfl
  constructor
  · rw [shape]
    refine (@chunk_info overrun 20 [99] _ ?_).trans rfl
    intro change member
    simp only [List.mem_cons, List.not_mem_nil, or_false] at member
    rcases member with rfl | rfl | rfl | rfl | rfl | rfl <;> exact span_disjoint (by decide)
  · rw [linked]
    refine word_written (by decide) ?_
    intro change member
    simp only [List.mem_cons, List.not_mem_nil, or_false] at member
    rcases member with rfl | rfl | rfl <;> exact span_disjoint (by decide)

/-- The crash leaves answers that belong neither to the file before the put nor to
the file after it. -/
theorem wrapped_size_torn (front : List UInt8) (long : front.length = 28 * 134217714) :
    ∃ writes changes count,
      Returns (fun fuel => session fuel [([97], [98])]) File.empty writes () ∧
      Returns (fun fuel => kvdbPut fuel [99] (front ++ [20, 1])) (applyAll writes File.empty)
        changes 0 ∧
      ¬ SameAnswers (applyAll (changes.take count) (applyAll writes File.empty))
        (applyAll writes File.empty) ∧
      ¬ SameAnswers (applyAll (changes.take count) (applyAll writes File.empty))
        (applyAll changes (applyAll writes File.empty)) := by
  obtain ⟨first, represents, -⟩ := first_put
  obtain ⟨before, overrun, valueLen, bound, done, facts, reached⟩ := wrapping_put front long
  obtain ⟨damaged, ended⟩ := crash_damaged facts
  have ran : Returns (fun fuel => session fuel [([97], [98])]) File.empty
      (initWrites ++ (firstWrites ++ [])) () :=
    returns_bind (init_db_does _).returns (returns_bind first (does_ret _ _).returns)
  have start : applyAll (initWrites ++ (firstWrites ++ [])) File.empty = small := by
    rw [List.append_nil, applyAll_append]
    rfl
  refine ⟨_, _, before.length, ran, start ▸ done, ?_, ?_⟩
  · rw [start, List.take_left, reached]
    intro same
    have answer := (same [97] (by decide) (some [])).mp damaged.answer
    have intact : Returns (fun fuel => kvdbGet fuel [97]) small [] (some [98]) :=
      represents.shown.get_returns (by decide)
    exact absurd (answer.unique intact).2 (by decide)
  · rw [start, List.take_left, applyAll_append, reached]
    intro same
    have answer := (same [99] (by decide) none).mp (damaged.toReadable.absent ended)
    have readable : Readable (applyAll [setTab 180 ⟨52, 20, 1, 200, valueLen⟩, clearFlag]
        (applyAll crashWrites overrun)) := by
      refine ⟨damaged.size.trans (size_le_applyAll _ _), ?_, ?_, ?_⟩
      · exact (tab_congr (applyAll_eqOn fun change member =>
          commit_avoids member (Or.inr (by decide)) (by decide))).trans damaged.tab
      · exact (slice_congr (applyAll_eqOn fun change member =>
          commit_avoids member (Or.inr (by decide)) (by decide))).trans damaged.key
      · exact (word_congr (applyAll_eqOn fun change member =>
          commit_avoids member (Or.inr (by decide)) (by decide))).trans damaged.ended
    refine @Readable.present _ readable 200 valueLen ?_ ?_ ?_ _ answer
    · refine Eq.trans ?_ (tab_of_bytes ⟨52, 20, 1, 200, valueLen⟩ (by simp) (by simp)
        (by simp) (by simp) bound)
      refine (tab_congr (@apply_eqOn _ clearFlag _ ?_)).trans (tab_written _ 180 _)
      exact span_disjoint (by decide)
    · exact (slice_congr (applyAll_eqOn fun change member =>
        commit_avoids member (Or.inr (by decide)) (by decide))).trans (crash_key overrun).1
    · exact (word_congr (applyAll_eqOn fun change member =>
        commit_avoids member (Or.inr (by decide)) (by decide))).trans (crash_key overrun).2

/-- `count` characters that are not the terminator. -/
def filler (count : Nat) : List UInt8 := List.replicate count 1

theorem filler_proper (count : Nat) (key : List UInt8) (plain : 0 ∉ key ∧ key ≠ []) :
    Proper (key, filler count ++ [20, 1]) := by
  refine ⟨plain, ?_, by simp⟩
  simp only [filler, List.mem_append, List.mem_replicate, not_or]
  exact ⟨fun member => absurd member.2 (by decide), by decide⟩

/-- A value of about 3.5 GiB, put after `"b"` under `"a"`. -/
theorem long_value_torn :
    (∀ put ∈ [([97], [98]), ([99], filler (28 * 134217714) ++ [20, 1])], Proper put) ∧
      ∃ writes changes count,
        Returns (fun fuel => session fuel [([97], [98])]) File.empty writes () ∧
        Returns (fun fuel => kvdbPut fuel [99] (filler (28 * 134217714) ++ [20, 1]))
          (applyAll writes File.empty) changes 0 ∧
        ¬ SameAnswers (applyAll (changes.take count) (applyAll writes File.empty))
          (applyAll writes File.empty) ∧
        ¬ SameAnswers (applyAll (changes.take count) (applyAll writes File.empty))
          (applyAll changes (applyAll writes File.empty)) := by
  refine ⟨?_, wrapped_size_torn _ List.length_replicate⟩
  intro put member
  rcases List.mem_cons.mp member with rfl | later
  · exact ⟨by decide, by decide⟩
  · rw [List.mem_singleton.mp later]
    exact filler_proper _ _ (by decide)

end Example

end OsWorkbench.Kvdb
