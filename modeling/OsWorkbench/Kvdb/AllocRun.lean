import OsWorkbench.Kvdb.Alloc
import Mathlib.Data.List.Chain
import Mathlib.Data.List.Perm.Basic

/-!
# `alloc_str` performs its plan

The loop is followed round by round: on the free list by induction on the list,
past its end by induction on the string. The blocks handed out are those cut from
the free list and fresh ones at the end of the file, and the string is stored in
them.
-/

namespace OsWorkbench.Kvdb

open ByteStore WriteTrace

/-- Two blocks do not overlap. -/
def Apart (block other : Nat) : Prop :=
  block + sizeofString ≤ other ∨ other + sizeofString ≤ block

theorem Apart.symm {block other : Nat} (apart : Apart block other) : Apart other block :=
  Or.symm apart

instance : Std.Symm Apart := ⟨fun _ _ => Apart.symm⟩

/-- Blocks cut from the end of the file while its recorded size grew. -/
structure Fresh (blocks : List Nat) (low high : Nat) : Prop where
  above : ∀ block ∈ blocks, low ≤ headerLen + block
  below : ∀ block ∈ blocks, headerLen + block + sizeofString ≤ high
  apart : blocks.Pairwise Apart

theorem fresh_nil (low high : Nat) : Fresh [] low high where
  above := by simp
  below := by simp
  apart := List.Pairwise.nil

/-- One more block in front of those cut after it. -/
theorem Fresh.extend {blocks : List Nat} {size high : Nat}
    (fresh : Fresh blocks (size + sizeofString) high) (room : headerLen ≤ size)
    (grown : size + sizeofString ≤ high) : Fresh ((size - headerLen) :: blocks) size high where
  above := by
    intro block member
    rcases List.mem_cons.mp member with here | inside
    · omega
    · have above := fresh.above block inside
      omega
  below := by
    intro block member
    rcases List.mem_cons.mp member with here | inside
    · omega
    · exact fresh.below block inside
  apart := by
    refine List.Pairwise.cons (fun block inside => Or.inl ?_) fresh.apart
    have above := fresh.above block inside
    omega

section Shape

theorem plan_end_size (tail cur size : Nat) (src : List UInt8) :
    size + sizeofString ≤ (planEnd tail cur size src).size := by
  fun_induction planEnd tail cur size src with
  | case1 cur size src more later ih => exact le_trans (Nat.le_add_right _ _) ih
  | case2 cur size src last => exact le_rfl

theorem plan_end_free (tail cur size : Nat) (src : List UInt8) :
    (planEnd tail cur size src).free = [tail] := by
  fun_induction planEnd tail cur size src with
  | case1 cur size src more later ih => exact ih
  | case2 cur size src last => rfl

/-- Past the free list every further block is fresh. -/
theorem plan_end_blocks (tail cur size : Nat) (src : List UInt8) (room : headerLen ≤ size) :
    ∃ fresh, (planEnd tail cur size src).blocks = cur :: fresh ∧
      Fresh fresh size (planEnd tail cur size src).size := by
  fun_induction planEnd tail cur size src with
  | case1 cur size src more later ih =>
      obtain ⟨fresh, blocks, isFresh⟩ := ih (by omega)
      have grown := plan_end_size tail (size - headerLen) (size + sizeofString)
        (src.drop blockLen)
      have grownOnce : size + sizeofString ≤ later.size := by
        simp only [later]
        omega
      exact ⟨(size - headerLen) :: fresh, congrArg (cur :: ·) blocks,
        isFresh.extend room grownOnce⟩
  | case2 cur size src last => exact ⟨[], rfl, fresh_nil _ _⟩

theorem plan_free_size (free : List Nat) (size : Nat) (src : List UInt8) :
    size ≤ (planFree free size src).size := by
  fun_induction planFree free size src with
  | case1 size src => exact le_rfl
  | case2 tail size src later =>
      have grown := plan_end_size tail (size - headerLen) (size + sizeofString) src
      simp only [later]
      omega
  | case3 cur next size src more later =>
      have grown := plan_end_size next (size - headerLen) (size + sizeofString)
        (src.drop blockLen)
      simp only [later]
      omega
  | case4 cur next rest size src more further later ih => exact ih
  | case5 cur next size src last saved => exact Nat.le_add_right _ _
  | case6 cur next rest size src last saved further => exact le_rfl

/-- While the free list lasts, its first block is the first one handed out. -/
theorem plan_free_head (cur next : Nat) (rest : List Nat) (size : Nat) (src : List UInt8) :
    ∃ others, (planFree (cur :: next :: rest) size src).blocks = cur :: others := by
  unfold planFree
  split_ifs <;> exact ⟨_, rfl⟩

/-- What is left of the free list is its end; it is never used up. -/
theorem plan_free_suffix (free : List Nat) (size : Nat) (src : List UInt8) (some : free ≠ []) :
    (planFree free size src).free <:+ free ∧ (planFree free size src).free ≠ [] := by
  fun_induction planFree free size src with
  | case1 size src => exact absurd rfl some
  | case2 tail size src later => simp [later, plan_end_free]
  | case3 cur next size src more later =>
      simp only [later, plan_end_free]
      exact ⟨List.suffix_cons cur [next], by simp⟩
  | case4 cur next rest size src more further later ih =>
      obtain ⟨suffix, kept⟩ := ih (by simp)
      exact ⟨suffix.trans (List.suffix_cons _ _), kept⟩
  | case5 cur next size src last saved => exact ⟨List.suffix_cons cur [next], by simp⟩
  | case6 cur next rest size src last saved further => exact ⟨List.suffix_cons _ _, by simp⟩

/-- Nothing is lost or duplicated: the blocks handed out and the free list left
over are the old free list and fresh blocks. -/
theorem plan_free_perm (free : List Nat) (size : Nat) (src : List UInt8)
    (room : headerLen ≤ size) (some : free ≠ []) :
    ∃ fresh, ((planFree free size src).blocks ++ (planFree free size src).free).Perm
        (free ++ fresh) ∧ Fresh fresh size (planFree free size src).size := by
  fun_induction planFree free size src with
  | case1 size src => exact absurd rfl some
  | case2 tail size src later =>
      obtain ⟨fresh, blocks, isFresh⟩ := plan_end_blocks tail (size - headerLen)
        (size + sizeofString) src (by omega)
      have grown := plan_end_size tail (size - headerLen) (size + sizeofString) src
      refine ⟨(size - headerLen) :: fresh, ?_, isFresh.extend room (by omega)⟩
      simp only [later, blocks, plan_end_free]
      exact List.perm_append_comm
  | case3 cur next size src more later =>
      obtain ⟨fresh, blocks, isFresh⟩ := plan_end_blocks next (size - headerLen)
        (size + sizeofString) (src.drop blockLen) (by omega)
      have grown := plan_end_size next (size - headerLen) (size + sizeofString)
        (src.drop blockLen)
      refine ⟨(size - headerLen) :: fresh, ?_, isFresh.extend room (by omega)⟩
      simp only [later, blocks, plan_end_free, List.cons_append]
      exact List.Perm.cons cur (List.perm_append_singleton _ (_ :: fresh))
  | case4 cur next rest size src more further later ih =>
      obtain ⟨fresh, perm, isFresh⟩ := ih room (by simp)
      exact ⟨fresh, List.Perm.cons cur perm, isFresh⟩
  | case5 cur next size src last saved => exact ⟨[], by simp, fresh_nil _ _⟩
  | case6 cur next rest size src last saved further => exact ⟨[], by simp, fresh_nil _ _⟩

end Shape

section Contents

/-- The payload of a block once its chunk is written. -/
theorem chunk_info {file : File} {cur : Nat} {src : List UInt8} {after : List Pwrite}
    (avoids : ∀ change ∈ after, Disjoint (touches change) (span (headerLen + cur) blockLen)) :
    info (applyAll (chunkWrites cur src ++ after) file).bytes cur =
      src.take blockLen ++ zeros (blockLen - src.length) := by
  rw [applyAll_append, info, slice_congr (applyAll_eqOn avoids)]
  unfold chunkWrites
  split_ifs with short
  · have padding : zeros (blockLen - src.length) = slice
        (overlay file.bytes (headerLen + cur) (zeros blockLen)) (headerLen + cur + src.length)
        (blockLen - src.length) := by
      rw [zeros, zeros, slice_overlay_replicate _ _ _ _ _ _ (by omega)]
    change slice (overlay (overlay file.bytes (headerLen + cur) (zeros blockLen))
      (headerLen + cur) src) (headerLen + cur) blockLen = _
    rw [List.take_of_length_le (Nat.le_of_lt short), padding,
      show blockLen = src.length + (blockLen - src.length) by omega, slice_append,
      slice_overlay_self, slice_overlay_outside (Or.inr le_rfl)]
    simp
  · have full : (src.take blockLen).length = blockLen := by
      simp only [List.length_take]
      omega
    have whole := slice_overlay_self file.bytes (headerLen + cur) (src.take blockLen)
    rw [full] at whole
    change slice (overlay file.bytes (headerLen + cur) (src.take blockLen)) (headerLen + cur)
      blockLen = _
    rw [whole, Nat.sub_eq_zero_of_le (by omega)]
    simp [zeros]

theorem header_avoids {spot value cur : Nat} (inside : spot + 4 ≤ headerLen) :
    Disjoint (touches ⟨spot, wordBytes value⟩) (span (headerLen + cur) sizeofString) := by
  apply span_disjoint
  simp only [word_bytes_length]
  omega

theorem link_avoids_payload (cur value : Nat) :
    Disjoint (touches (setLink cur value)) (span (headerLen + cur) blockLen) :=
  span_disjoint (Or.inr le_rfl)

theorem payload_of_block {cur : Nat} {region : Set Nat}
    (avoids : Disjoint region (span (headerLen + cur) sizeofString)) :
    Disjoint region (span (headerLen + cur) blockLen) := by
  refine avoids.mono_right ?_
  intro address inside
  simp only [mem_span, blockLen, sizeofString] at inside ⊢
  omega

theorem link_of_block {cur : Nat} {region : Set Nat}
    (avoids : Disjoint region (span (headerLen + cur) sizeofString)) :
    Disjoint region (span (headerLen + cur + blockLen) 4) := by
  refine avoids.mono_right ?_
  intro address inside
  simp only [mem_span, headerLen, blockLen, sizeofString] at inside ⊢
  omega

/-- Writes confined to other blocks leave a block alone. -/
theorem confined_avoids {changes : List Pwrite} {blocks : List Nat} {block : Nat}
    (confined : Confined changes blocks) (apart : ∀ other ∈ blocks, Apart other block) :
    ∀ change ∈ changes, Disjoint (touches change) (span (headerLen + block) sizeofString) := by
  intro change member
  rw [Set.disjoint_left]
  intro address touched inside
  rcases confined change member touched with head | size | prev | ⟨other, used, within⟩
  · simp only [mem_span, freeHead, headerLen] at head inside
    omega
  · simp only [mem_span, freeSize, headerLen] at size inside
    omega
  · simp only [mem_span, backupPrev, headerLen] at prev inside
    omega
  · have separate := apart other used
    simp only [Apart, mem_span, sizeofString] at separate within inside
    omega

/-- A block written with its chunk, some words of the header and its link. -/
structure Written (bytes : Bytes) (cur next : Nat) (src : List UInt8) : Prop where
  payload : info bytes cur = src.take blockLen ++ zeros (blockLen - src.length)
  linked : link bytes cur = next

theorem block_written {file : File} {cur next : Nat} {src : List UInt8}
    {middle after : List Pwrite} (small : next < 2 ^ 32)
    (headers : ∀ change ∈ middle, ∃ spot value, change = ⟨spot, wordBytes value⟩ ∧
      spot + 4 ≤ headerLen)
    (avoids : ∀ change ∈ after, Disjoint (touches change)
      (span (headerLen + cur) sizeofString)) :
    Written (applyAll (chunkWrites cur src ++ middle ++ setLink cur next :: after) file).bytes
      cur next src where
  payload := by
    rw [List.append_assoc]
    apply chunk_info
    intro change member
    rcases List.mem_append.mp member with inside | inside
    · obtain ⟨spot, value, rfl, bound⟩ := headers change inside
      exact payload_of_block (header_avoids bound)
    · rcases List.mem_cons.mp inside with rfl | later
      · exact link_avoids_payload _ _
      · exact payload_of_block (avoids change later)
  linked := word_written small fun change member => link_of_block (avoids change member)

/-- The string is stored in the fresh blocks the loop takes. -/
theorem plan_end_stored (file : File) (tail cur size : Nat) (src : List UInt8)
    (room : headerLen ≤ size) (below : headerLen + cur + sizeofString ≤ size)
    (small : (planEnd tail cur size src).size < 2 ^ 32) :
    Stored (applyAll (planEnd tail cur size src).writes file).bytes src
      (planEnd tail cur size src).blocks := by
  fun_induction planEnd tail cur size src generalizing file with
  | case1 cur size src more later ih =>
      have grown := plan_end_size tail (size - headerLen) (size + sizeofString)
        (src.drop blockLen)
      obtain ⟨fresh, blocks, isFresh⟩ := plan_end_blocks tail (size - headerLen)
        (size + sizeofString) (src.drop blockLen) (by omega)
      have separate : ∀ other ∈ later.blocks, Apart other cur := by
        intro other member
        refine Or.inr ?_
        simp only [later, blocks] at member
        rcases List.mem_cons.mp member with here | inside
        · omega
        · have above := isFresh.above other inside
          omega
      have avoids := confined_avoids (plan_end_confined _ _ _ _) separate
      have written := @block_written file cur (size - headerLen) src
        [setSize (size + sizeofString)] later.writes (by simp only [later] at small; omega)
        (by
          intro change member
          rw [List.mem_singleton.mp member]
          exact ⟨freeSize, _, rfl, by simp [freeSize]⟩) avoids
      have tailStored := ih (applyAll (chunkWrites cur src ++ [setSize (size + sizeofString),
        setLink cur (size - headerLen)]) file) (by omega) (by omega) small
      rw [← applyAll_append] at tailStored
      simp only [List.append_assoc, List.cons_append, List.nil_append] at written tailStored ⊢
      simp only [later, blocks] at tailStored written ⊢
      have none : blockLen - src.length = 0 := by omega
      have payload := written.payload
      rw [none, zeros, List.replicate_zero, List.append_nil] at payload
      exact ⟨more, payload, written.linked, tailStored⟩
  | case2 cur size src last =>
      have written := @block_written file cur 0 src [setSize (size + sizeofString)] []
        (by omega)
        (by
          intro change member
          rw [List.mem_singleton.mp member]
          exact ⟨freeSize, _, rfl, by simp [freeSize]⟩) (by simp)
      have payload := written.payload
      rw [List.take_of_length_le (by omega)] at payload
      rw [List.append_assoc] at payload
      have linked := written.linked
      rw [List.append_assoc] at linked
      exact ⟨by omega, payload, linked⟩

/-- The blocks of a plan lie apart from a block that is neither in the free list
nor beyond the recorded size. -/
theorem plan_free_apart {free : List Nat} {size block : Nat} {src : List UInt8}
    (room : headerLen ≤ size) (some : free ≠ []) (below : headerLen + block + sizeofString ≤ size)
    (apart : ∀ other ∈ free, Apart other block) :
    ∀ other ∈ (planFree free size src).blocks, Apart other block := by
  intro other member
  obtain ⟨fresh, perm, isFresh⟩ := plan_free_perm free size src room some
  rcases List.mem_append.mp (perm.subset (List.mem_append_left _ member)) with old | new
  · exact apart other old
  · have above := isFresh.above other new
    exact Or.inr (by omega)

theorem saved_headers {cur : Nat} {src : List UInt8} {rest : List Pwrite}
    (headers : ∀ change ∈ rest, ∃ spot value, change = ⟨spot, wordBytes value⟩ ∧
      spot + 4 ≤ headerLen) :
    ∀ change ∈ (if src.length < blockLen then [setPrev cur] else []) ++ rest,
      ∃ spot value, change = ⟨spot, wordBytes value⟩ ∧ spot + 4 ≤ headerLen := by
  intro change member
  rcases List.mem_append.mp member with saved | later
  · split_ifs at saved
    · rw [List.mem_singleton.mp saved]
      exact ⟨backupPrev, cur, rfl, by simp [backupPrev]⟩
    · simp at saved
  · exact headers change later

/-- The string is stored in the blocks cut from the free list and the fresh ones. -/
theorem plan_free_stored (file : File) (free : List Nat) (size : Nat) (src : List UInt8)
    (some : free ≠ []) (room : headerLen ≤ size)
    (below : ∀ block ∈ free, headerLen + block + sizeofString ≤ size)
    (apart : free.Pairwise Apart) (small : (planFree free size src).size < 2 ^ 32) :
    Stored (applyAll (planFree free size src).writes file).bytes src
      (planFree free size src).blocks := by
  fun_induction planFree free size src generalizing file with
  | case1 size src => exact absurd rfl some
  | case2 tail size src later =>
      exact plan_end_stored _ _ _ _ _ (by omega) (by omega) small
  | case3 cur next size src more later =>
      have grown := plan_end_size next (size - headerLen) (size + sizeofString)
        (src.drop blockLen)
      obtain ⟨fresh, blocks, isFresh⟩ := plan_end_blocks next (size - headerLen)
        (size + sizeofString) (src.drop blockLen) (by omega)
      have curBelow := below cur (by simp)
      have separate : ∀ other ∈ later.blocks, Apart other cur := by
        intro other member
        refine Or.inr ?_
        simp only [later, blocks] at member
        rcases List.mem_cons.mp member with here | inside
        · omega
        · have above := isFresh.above other inside
          omega
      have avoids := confined_avoids (plan_end_confined _ _ _ _) separate
      have written := @block_written file cur (size - headerLen) src
        [setHead next, setSize (size + sizeofString)] later.writes
        (by simp only [later] at small; omega)
        (by
          intro change member
          simp only [List.mem_cons, List.not_mem_nil, or_false] at member
          rcases member with rfl | rfl
          · exact ⟨freeHead, _, rfl, by simp [freeHead]⟩
          · exact ⟨freeSize, _, rfl, by simp [freeSize]⟩) avoids
      have tailStored := plan_end_stored (applyAll (chunkWrites cur src ++ [setHead next,
        setSize (size + sizeofString), setLink cur (size - headerLen)]) file) next
        (size - headerLen) (size + sizeofString) (src.drop blockLen) (by omega) (by omega) small
      rw [← applyAll_append] at tailStored
      simp only [List.append_assoc, List.cons_append, List.nil_append] at written tailStored ⊢
      simp only [later, blocks] at tailStored written ⊢
      have none : blockLen - src.length = 0 := by omega
      have payload := written.payload
      rw [none, zeros, List.replicate_zero, List.append_nil] at payload
      exact ⟨more, payload, written.linked, tailStored⟩
  | case4 cur next rest size src more further later ih =>
      have curBelow := below cur (by simp)
      have nextBelow := below next (by simp)
      have tailApart := List.pairwise_cons.mp apart
      have separate : ∀ other ∈ later.blocks, Apart other cur :=
        plan_free_apart room (by simp) curBelow fun other member =>
          (tailApart.1 other member).symm
      have avoids := confined_avoids (plan_free_confined _ _ _) separate
      have written := @block_written file cur next src [] later.writes
        (by
          have grown := plan_free_size (next :: rest) size (src.drop blockLen)
          simp only [later] at small
          omega) (by simp) avoids
      have tailStored := ih (applyAll (chunkWrites cur src ++ [setLink cur next]) file)
        (by simp) room (fun block member => below block (List.mem_cons_of_mem _ member))
        tailApart.2 small
      rw [← applyAll_append] at tailStored
      obtain ⟨third, rest, rfl⟩ := List.exists_cons_of_ne_nil further
      obtain ⟨others, blocks⟩ := plan_free_head next third rest size (src.drop blockLen)
      simp only [List.append_assoc, List.cons_append, List.nil_append] at written tailStored ⊢
      simp only [later, blocks] at tailStored written ⊢
      have none : blockLen - src.length = 0 := by omega
      have payload := written.payload
      rw [none, zeros, List.replicate_zero, List.append_nil] at payload
      exact ⟨more, payload, written.linked, tailStored⟩
  | case5 cur next size src last saved =>
      have written := @block_written file cur 0 src
        (saved ++ [setHead next, setSize (size + sizeofString)]) [] (by omega)
        (saved_headers (by
          intro change member
          simp only [List.mem_cons, List.not_mem_nil, or_false] at member
          rcases member with rfl | rfl
          · exact ⟨freeHead, _, rfl, by simp [freeHead]⟩
          · exact ⟨freeSize, _, rfl, by simp [freeSize]⟩)) (by simp)
      have payload := written.payload
      have linked := written.linked
      rw [List.take_of_length_le (by omega)] at payload
      simp only [List.append_assoc, List.cons_append, List.nil_append] at payload linked ⊢
      exact ⟨by omega, payload, linked⟩
  | case6 cur next rest size src last saved further =>
      have written := @block_written file cur 0 src (saved ++ [setHead next]) [] (by omega)
        (saved_headers (by
          intro change member
          rw [List.mem_singleton.mp member]
          exact ⟨freeHead, _, rfl, by simp [freeHead]⟩)) (by simp)
      have payload := written.payload
      have linked := written.linked
      rw [List.take_of_length_le (by omega)] at payload
      simp only [List.append_assoc, List.cons_append, List.nil_append] at payload linked ⊢
      exact ⟨by omega, payload, linked⟩

end Contents

section Runs

/-- A chain of links depends on the links of all its blocks but the last. -/
theorem chain_congr {next other : Nat → Nat} {blocks : List Nat}
    (same : ∀ block ∈ blocks.dropLast, other block = next block)
    (chain : blocks.IsChain fun block following => next block = following) :
    blocks.IsChain fun block following => other block = following := by
  induction blocks with
  | nil => exact List.IsChain.nil
  | cons block rest ih =>
      cases rest with
      | nil => exact List.IsChain.singleton _
      | cons following rest =>
          rw [List.isChain_cons_cons] at chain ⊢
          refine ⟨(same block (by simp)).trans chain.1, ih ?_ chain.2⟩
          intro later member
          exact same later (by simp [member])

variable {file : File} {size tail cur : Nat} {src : List UInt8}

theorem header_after (changes : List Pwrite) (header : headerLen ≤ file.size) :
    headerLen ≤ (applyAll changes file).size :=
  header.trans (size_le_applyAll _ _)

theorem chunk_avoids_header {spot : Nat} (inside : spot + 4 ≤ headerLen) :
    ∀ change ∈ chunkWrites cur src, Disjoint (touches change) (span spot 4) := by
  apply chunk_writes_avoid
  apply span_disjoint
  omega

/-- The recorded size after a round that does not move it. -/
theorem sized_after_chunk (sized : word file.bytes freeSize = size) :
    word (applyAll (chunkWrites cur src) file).bytes freeSize = size :=
  (word_applyAll (chunk_avoids_header (by simp [freeSize]))).trans sized

theorem link_avoids_header {next spot : Nat} (inside : spot + 4 ≤ headerLen) :
    Disjoint (touches (setLink cur next)) (span spot 4) := by
  apply span_disjoint
  simp only [setLink]
  omega

theorem sized_after_set (store : File) {value : Nat} (small : value < 2 ^ 32) :
    word (applyAll [setSize value] store).bytes freeSize = value :=
  (word_overlay_self _ _ _).trans (Nat.mod_eq_of_lt small)

theorem sized_after_link {store : File} {next : Nat} (sized : word store.bytes freeSize = size) :
    word (applyAll [setLink cur next] store).bytes freeSize = size := by
  refine (word_applyAll ?_).trans sized
  intro change member
  rw [List.mem_singleton.mp member]
  exact link_avoids_header (by simp [freeSize])

/-- The loop past the end of the free list. -/
theorem alloc_end_returns (file : File) (tail cur size : Nat) (src : List UInt8) (some : src ≠ [])
    (header : headerLen ≤ file.size)
    (sized : word file.bytes freeSize = size) (room : headerLen ≤ size)
    (below : headerLen + cur + sizeofString ≤ size)
    (small : (planEnd tail cur size src).size < 2 ^ 32) :
    Returns (fun fuel => allocLoop tail fuel false cur src) file
      (planEnd tail cur size src).writes (false, (planEnd tail cur size src).cur) := by
  fun_induction planEnd tail cur size src generalizing file with
  | case1 cur size src more later ih =>
      have grown := plan_end_size tail (size - headerLen) (size + sizeofString)
        (src.drop blockLen)
      have smallLater : (planEnd tail (size - headerLen) (size + sizeofString)
          (src.drop blockLen)).size < 2 ^ 32 := small
      have positive : (src.length : Int) - blockLen > 0 := by omega
      have remaining : src.drop blockLen ≠ [] := by simpa using more
      have chunk := @store_chunk_does file cur src (by omega)
      have advanced := @advance_end_does (applyAll (chunkWrites cur src) file) size tail cur
        (src.length - blockLen) (header_after _ header) (sized_after_chunk sized) room (by omega)
      have linked := @link_more_does
        (applyAll [setSize (size + sizeofString)] (applyAll (chunkWrites cur src) file))
        (size - headerLen) false cur (src.length - blockLen) (by omega) positive
      have sizedLater : word (applyAll [setLink cur (size - headerLen)] (applyAll
          [setSize (size + sizeofString)] (applyAll (chunkWrites cur src) file))).bytes freeSize =
          size + sizeofString := sized_after_link (sized_after_set _ (by omega))
      have continued := ih (applyAll [setLink cur (size - headerLen)] (applyAll
          [setSize (size + sizeofString)] (applyAll (chunkWrites cur src) file))) remaining (header_after _ (header_after _ (header_after _ header)))
        sizedLater (by omega) (by omega) smallLater
      apply returns_of_succ
      simp only [allocLoop, some, if_false, List.append_assoc]
      change Returns _ file (chunkWrites cur src ++ ([setSize (size + sizeofString)] ++
        ([setLink cur (size - headerLen)] ++ later.writes))) _
      exact returns_bind chunk.returns (returns_bind advanced.returns
        (returns_bind linked.returns continued))
  | case2 cur size src last =>
      have notMore : ¬ (src.length : Int) - blockLen > 0 := by omega
      have remaining : src.drop blockLen = [] := by
        rw [List.drop_eq_nil_iff]
        omega
      have smallSize : size + sizeofString < 2 ^ 32 := small
      have chunk := @store_chunk_does file cur src (by omega)
      have advanced := @advance_end_does (applyAll (chunkWrites cur src) file) size tail cur
        (src.length - blockLen) (header_after _ header) (sized_after_chunk sized) room smallSize
      have linked := @link_last_does
        (applyAll [setSize (size + sizeofString)] (applyAll (chunkWrites cur src) file))
        (size - headerLen) false cur (src.length - blockLen) (by omega) notMore
      have ended (store : File) : Returns (fun fuel => allocLoop tail fuel false
          (size - headerLen) (src.drop blockLen)) store [] (false, size - headerLen) := by
        apply returns_of_succ
        simp only [allocLoop, remaining, if_true]
        exact (does_ret _ _).returns
      apply returns_of_succ
      simp only [allocLoop, some, if_false]
      change Returns _ file (chunkWrites cur src ++ ([setSize (size + sizeofString)] ++
        ([setLink cur 0] ++ []))) _
      exact returns_bind chunk.returns (returns_bind advanced.returns
        (returns_bind linked.returns (ended _)))

theorem sized_after_headers {store : File} {changes : List Pwrite}
    (headers : ∀ change ∈ changes, ∃ spot value, change = ⟨spot, wordBytes value⟩ ∧
      (spot + 4 ≤ freeSize ∨ freeSize + 4 ≤ spot))
    (sized : word store.bytes freeSize = size) :
    word (applyAll changes store).bytes freeSize = size := by
  refine (word_applyAll ?_).trans sized
  intro change member
  obtain ⟨spot, value, rfl, outside⟩ := headers change member
  exact span_disjoint outside

theorem saved_outside_size {prev : Nat} {short : Prop} [Decidable short] {rest : List Pwrite}
    (headers : ∀ change ∈ rest, ∃ spot value, change = ⟨spot, wordBytes value⟩ ∧
      (spot + 4 ≤ freeSize ∨ freeSize + 4 ≤ spot)) :
    ∀ change ∈ (if short then [setPrev prev] else []) ++ rest,
      ∃ spot value, change = ⟨spot, wordBytes value⟩ ∧
        (spot + 4 ≤ freeSize ∨ freeSize + 4 ≤ spot) := by
  intro change member
  rcases List.mem_append.mp member with saved | later
  · split_ifs at saved
    · rw [List.mem_singleton.mp saved]
      exact ⟨backupPrev, prev, rfl, by simp [backupPrev, freeSize]⟩
    · simp at saved
  · exact headers change later

theorem advance_last_does {len : Int} (header : headerLen ≤ file.size)
    (sized : word file.bytes freeSize = size) (room : headerLen ≤ size)
    (small : size + sizeofString < 2 ^ 32)
    (inFile : headerLen + cur + sizeofString ≤ file.size) (linked : link file.bytes cur = tail) :
    Does (advance tail true cur len) file
      ((if len < 0 then [setPrev cur] else []) ++ [setHead tail, setSize (size + sizeofString)])
      (false, size - headerLen) := by
  have value := link_read inFile linked
  refine does_bind_read value.1 ?_
  simp only [value.2, if_true]
  have sizedLater : word (applyAll [setHead tail] (applyAll
      (if len < 0 then [setPrev cur] else []) file)).bytes freeSize = size := by
    rw [← applyAll_append]
    refine sized_after_headers (saved_outside_size ?_) sized
    intro change member
    rw [List.mem_singleton.mp member]
    exact ⟨freeHead, tail, rfl, by simp [freeHead, freeSize]⟩
  have fresh := new_block_does (header_after _ (header_after _ header)) sizedLater room small
  exact does_bind (only_if_does _) (does_bind (pwrite_does _ _ _) (does_bind_pure fresh))

theorem drop_last_suffix {rest free : List Nat} (suffix : rest <:+ free) :
    rest.dropLast ⊆ free.dropLast := by
  rcases suffix with ⟨lost, rfl⟩
  intro block member
  cases rest with
  | nil => cases member
  | cons first others =>
      rw [List.dropLast_append_of_ne_nil (List.cons_ne_nil _ _)]
      exact List.mem_append_right _ member

/-- The supply left after writes confined to blocks outside the rest of the list. -/
theorem Supply.after {free rest blocks : List Nat} {grown : Nat} {changes : List Pwrite}
    (supply : Supply file free size) (suffix : rest <:+ free) (confined : Confined changes blocks)
    (separate : ∀ block ∈ blocks, ∀ other ∈ rest.dropLast, Apart block other)
    (sized : word (applyAll changes file).bytes freeSize = grown) (grows : size ≤ grown) :
    Supply (applyAll changes file) rest grown where
  header := header_after _ supply.header
  sized := sized
  linked := by
    have kept : ∀ block ∈ rest.dropLast,
        link (applyAll changes file).bytes block = link file.bytes block := fun block member =>
      link_congr (applyAll_eqOn (confined_avoids confined fun other used =>
        separate other used block member))
    exact chain_congr kept (supply.linked.suffix suffix)
  inFile block member :=
    (supply.inFile block (drop_last_suffix suffix member)).trans (size_le_applyAll _ _)
  below block member := (supply.below block (suffix.subset member)).trans grows
  apart := supply.apart.sublist suffix.sublist

theorem chunk_link_confined (cur next : Nat) (src : List UInt8) :
    Confined (chunkWrites cur src ++ [setLink cur next]) [cur] :=
  Confined.append (chunk_confined (by simp))
    (Confined.cons (set_link_confined (by simp)) confined_nil)

theorem link_after_chunk {next : Nat} (linked : link file.bytes cur = next) :
    link (applyAll (chunkWrites cur src) file).bytes cur = next := by
  refine (word_applyAll (chunk_writes_avoid ?_)).trans linked
  exact span_disjoint (Or.inl le_rfl)

theorem neg_len_iff : ((src.length : Int) - blockLen < 0) = (src.length < blockLen) := by
  apply propext
  omega

theorem alloc_loop_ended {flag : Bool} (tail : Nat) (store : File)
    (last : ¬ blockLen < src.length) :
    Returns (fun fuel => allocLoop tail fuel flag cur (src.drop blockLen)) store [] (flag, cur) := by
  have remaining : src.drop blockLen = [] := by
    rw [List.drop_eq_nil_iff]
    omega
  apply returns_of_succ
  simp only [allocLoop, remaining, if_true]
  exact (does_ret _ _).returns

/-- A block of the free list with another one behind it is not the tail. -/
theorem next_ne_tail {next : Nat} {rest : List Nat}
    (supply : Supply file (cur :: next :: rest) size) (further : rest ≠ []) :
    next ≠ (cur :: next :: rest).getLastD 0 := by
  obtain ⟨third, rest, rfl⟩ := List.exists_cons_of_ne_nil further
  have separate := (List.pairwise_cons.mp (List.pairwise_cons.mp supply.apart).2).1
    ((third :: rest).getLast (by simp)) (List.getLast_mem _)
  intro same
  have last : (cur :: next :: third :: rest).getLastD 0 =
      (third :: rest).getLast (by simp) := rfl
  rw [last] at same
  rw [← same] at separate
  simp only [sizeofString] at separate
  omega

/-- The loop on the free list, by induction on the list. -/
theorem alloc_free_returns (file : File) (free : List Nat) (size : Nat) (src : List UInt8)
    (some : src ≠ []) (many : 1 < free.length) (room : headerLen ≤ size)
    (supply : Supply file free size) (small : (planFree free size src).size < 2 ^ 32) :
    ∃ ended : Bool × Nat, Returns (fun fuel => allocLoop (free.getLastD 0) fuel true
        (free.headD 0) src) file (planFree free size src).writes ended ∧
      (if ended.1 then ended.2 else free.getLastD 0) = (planFree free size src).free.headD 0 := by
  fun_induction planFree free size src generalizing file with
  | case1 size src => simp at many
  | case2 tail size src later => simp at many
  | case3 cur next size src more later =>
      have grown := plan_end_size next (size - headerLen) (size + sizeofString)
        (src.drop blockLen)
      have smallLater : (planEnd next (size - headerLen) (size + sizeofString)
          (src.drop blockLen)).size < 2 ^ 32 := small
      have curBelow := supply.below cur (by simp)
      have linked : link file.bytes cur = next := (List.isChain_cons_cons.mp supply.linked).1
      have positive : (src.length : Int) - blockLen > 0 := by omega
      have notShort : ¬ (src.length : Int) - blockLen < 0 := by omega
      have chunk := @store_chunk_does file cur src (by omega)
      have advanced := @advance_last_does (applyAll (chunkWrites cur src) file) size next cur
        (src.length - blockLen) (header_after _ supply.header) (sized_after_chunk supply.sized)
        room (by omega) ((supply.inFile cur (by simp)).trans (size_le_applyAll _ _))
        (link_after_chunk linked)
      rw [if_neg notShort, List.nil_append] at advanced
      have joined := @link_more_does (applyAll [setHead next, setSize (size + sizeofString)]
        (applyAll (chunkWrites cur src) file)) (size - headerLen) false cur
        (src.length - blockLen) (by omega) positive
      have sizedLater : word (applyAll [setLink cur (size - headerLen)] (applyAll
          [setHead next, setSize (size + sizeofString)] (applyAll (chunkWrites cur src)
          file))).bytes freeSize = size + sizeofString :=
        sized_after_link (sized_after_set (Store.apply _ (setHead next)) (by omega))
      have continued := alloc_end_returns (applyAll [setLink cur (size - headerLen)] (applyAll
          [setHead next, setSize (size + sizeofString)] (applyAll (chunkWrites cur src) file)))
        next (size - headerLen) (size + sizeofString) (src.drop blockLen) (by simpa using more)
        (header_after _ (header_after _ (header_after _ supply.header))) sizedLater (by omega)
        (by omega) smallLater
      refine ⟨(false, later.cur), returns_of_succ ?_, by simp [later, plan_end_free]⟩
      simp only [allocLoop, some, if_false, List.append_assoc, List.headD_cons]
      change Returns _ file (chunkWrites cur src ++ ([setHead next, setSize (size + sizeofString)] ++
        ([setLink cur (size - headerLen)] ++ later.writes))) _
      exact returns_bind chunk.returns (returns_bind advanced.returns
        (returns_bind joined.returns continued))
  | case4 cur next rest size src more further later ih =>
      have curBelow := supply.below cur (by simp)
      have linked : link file.bytes cur = next := (List.isChain_cons_cons.mp supply.linked).1
      have positive : (src.length : Int) - blockLen > 0 := by omega
      have notShort : ¬ (src.length : Int) - blockLen < 0 := by omega
      have smallLater : (planFree (next :: rest) size (src.drop blockLen)).size < 2 ^ 32 := small
      have grown := plan_free_size (next :: rest) size (src.drop blockLen)
      have notTail := next_ne_tail supply further
      have chunk := @store_chunk_does file cur src (by omega)
      have advanced := @advance_free_does (applyAll (chunkWrites cur src) file)
        ((cur :: next :: rest).getLastD 0) cur next (src.length - blockLen)
        ((supply.inFile cur (by simp)).trans (size_le_applyAll _ _))
        (link_after_chunk linked) notTail
      rw [if_neg notShort] at advanced
      have joined := @link_more_does (applyAll (chunkWrites cur src) file) next true cur
        (src.length - blockLen) (by omega) positive
      have supplyLater : Supply (applyAll [setLink cur next] (applyAll (chunkWrites cur src)
          file)) (next :: rest) size := by
        rw [← applyAll_append]
        refine supply.after (List.suffix_cons _ _) (chunk_link_confined cur next src) ?_ ?_ le_rfl
        · intro block used other member
          rw [List.mem_singleton.mp used]
          exact (List.pairwise_cons.mp supply.apart).1 other (List.mem_of_mem_dropLast member)
        · rw [applyAll_append]
          exact sized_after_link (sized_after_chunk supply.sized)
      obtain ⟨ended, continued, head⟩ := ih (applyAll [setLink cur next]
        (applyAll (chunkWrites cur src) file)) (by simpa using more)
        (by simpa using List.length_pos_iff.mpr further) room supplyLater smallLater
      have tailSame : (cur :: next :: rest).getLastD 0 = (next :: rest).getLastD 0 := by
        simp
      rw [tailSame]
      refine ⟨ended, returns_of_succ ?_, head⟩
      rw [tailSame] at advanced
      simp only [allocLoop, some, if_false, List.append_assoc, List.headD_cons]
      change Returns _ file (chunkWrites cur src ++ ([] ++ ([setLink cur next] ++ later.writes))) _
      exact returns_bind chunk.returns (returns_bind advanced.returns
        (returns_bind joined.returns continued))
  | case5 cur next size src last saved =>
      have curBelow := supply.below cur (by simp)
      have linked : link file.bytes cur = next := (List.isChain_cons_cons.mp supply.linked).1
      have notMore : ¬ (src.length : Int) - blockLen > 0 := by omega
      have smallSize : size + sizeofString < 2 ^ 32 := small
      have chunk := @store_chunk_does file cur src (by omega)
      have advanced := @advance_last_does (applyAll (chunkWrites cur src) file) size next cur
        (src.length - blockLen) (header_after _ supply.header) (sized_after_chunk supply.sized)
        room smallSize ((supply.inFile cur (by simp)).trans (size_le_applyAll _ _))
        (link_after_chunk linked)
      simp only [neg_len_iff] at advanced
      have ended (store : File) : Returns (fun fuel => allocLoop next fuel false
          (size - headerLen) (src.drop blockLen)) store [] (false, size - headerLen) :=
        alloc_loop_ended next store last
      have joined (store : File) := @link_last_does store (size - headerLen) false cur
        (src.length - blockLen) (by omega) notMore
      refine ⟨(false, size - headerLen), returns_of_succ ?_, rfl⟩
      simp only [allocLoop, some, if_false, List.append_assoc, List.headD_cons]
      have shape : saved ++ [setHead next, setSize (size + sizeofString), setLink cur 0] =
          (saved ++ [setHead next, setSize (size + sizeofString)]) ++ ([setLink cur 0] ++ []) := by
        simp
      rw [shape]
      exact returns_bind chunk.returns (returns_bind advanced.returns
        (returns_bind (joined _).returns (ended _)))
  | case6 cur next rest size src last saved further =>
      have curBelow := supply.below cur (by simp)
      have linked : link file.bytes cur = next := (List.isChain_cons_cons.mp supply.linked).1
      have smallSize : size < 2 ^ 32 := small
      have notMore : ¬ (src.length : Int) - blockLen > 0 := by omega
      have notTail := next_ne_tail supply further
      have chunk := @store_chunk_does file cur src (by omega)
      have advanced := @advance_free_does (applyAll (chunkWrites cur src) file)
        ((cur :: next :: rest).getLastD 0) cur next (src.length - blockLen)
        ((supply.inFile cur (by simp)).trans (size_le_applyAll _ _))
        (link_after_chunk linked) notTail
      simp only [neg_len_iff] at advanced
      have joined (store : File) := @link_last_does store next true cur (src.length - blockLen)
        (by omega) notMore
      have ended (store : File) : Returns (fun fuel => allocLoop ((cur :: next :: rest).getLastD 0)
          fuel true next (src.drop blockLen)) store [] (true, next) :=
        alloc_loop_ended _ store last
      refine ⟨(true, next), returns_of_succ ?_, rfl⟩
      simp only [allocLoop, some, if_false, List.append_assoc, List.headD_cons]
      change Returns _ file (chunkWrites cur src ++ (saved ++ (([setHead next] ++
        [setLink cur 0]) ++ []))) _
      exact returns_bind chunk.returns (returns_bind advanced.returns
        (returns_bind (joined _).returns (ended _)))

end Runs

end OsWorkbench.Kvdb
