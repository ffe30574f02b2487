import OsWorkbench.Kvdb.Reader

/-!
# The saved header and the free list

`start_backup` saves the free list and one table entry in a single write that
leaves the free list itself as it was. `Ready` is what `alloc_str` and
`add_free_list` need of the file and re-establish.
-/

namespace OsWorkbench.Kvdb

open ByteStore WriteTrace Regions

/-- No put has left its flag. -/
def Idle (file : File) : Prop := file.bytes backupFlag = 0

def backupPayload (file : File) (pos : Nat) : List UInt8 :=
  slice file.bytes 0 12 ++ slice file.bytes 0 12 ++ slice file.bytes (headerLen + pos) sizeofTab ++
    wordBytes pos ++ wordBytes 0 ++ [1] ++ zeros 3

def saveHeader (file : File) (pos : Nat) : Pwrite := ⟨0, backupPayload file pos⟩

def clearFlag : Pwrite := ⟨backupFlag, zeros 1⟩

section Saving

variable {file : File} {pos : Nat}

@[simp] theorem backup_payload_length (file : File) (pos : Nat) :
    (backupPayload file pos).length = sizeofHeader := by
  simp [backupPayload, sizeofHeader]

theorem start_backup_does (inside : headerLen + pos + sizeofTab ≤ file.size)
    (small : headerLen + pos + sizeofTab < 2 ^ 32) :
    Does (startBackup pos) file [saveHeader file pos] () := by
  have lists := @pread_safe_does file 0 12 (by
    simp only [headerLen] at inside
    omega)
  refine does_bind_read (read_db_does inside small) (does_bind_read lists ?_)
  exact pwrite_does _ _ _

/-- Part of the saved header, as the payload has it. -/
theorem saved_slice (skip count : Nat) (inside : skip + count ≤ sizeofHeader) :
    slice (Store.apply file (saveHeader file pos)).bytes skip count =
      ((backupPayload file pos).drop skip).take count := by
  have part := slice_overlay_inside file.bytes 0 skip count (backupPayload file pos)
    (by rwa [backup_payload_length])
  rwa [Nat.zero_add] at part

theorem saved_lists :
    Set.EqOn (Store.apply file (saveHeader file pos)).bytes file.bytes (span 0 12) := by
  apply eqOn_of_slice
  rw [saved_slice 0 12 (by simp [sizeofHeader])]
  simp [backupPayload]

theorem saved_copy :
    slice (Store.apply file (saveHeader file pos)).bytes backupList 12 = slice file.bytes 0 12 := by
  rw [saved_slice _ _ (by simp [sizeofHeader, backupList])]
  simp [backupPayload, backupList]

theorem saved_tab : slice (Store.apply file (saveHeader file pos)).bytes backupTab sizeofTab =
    slice file.bytes (headerLen + pos) sizeofTab := by
  rw [saved_slice _ _ (by simp [sizeofHeader, backupTab])]
  simp [backupPayload, backupTab, List.drop_append, List.drop_eq_nil_of_le]

theorem saved_pos (small : pos < 2 ^ 32) :
    word (Store.apply file (saveHeader file pos)).bytes backupPos = pos := by
  have part : slice (Store.apply file (saveHeader file pos)).bytes backupPos 4 =
      wordBytes pos := by
    rw [saved_slice _ _ (by simp [sizeofHeader, backupPos])]
    simp [backupPayload, backupPos, List.drop_append, List.take_append, List.drop_eq_nil_of_le]
  have value := word_of_slice (Store.apply file (saveHeader file pos)).bytes backupPos 4 0
    (by omega)
  rw [part] at value
  rw [← Nat.add_zero backupPos, ← value]
  have bytes := word_overlay_inside (fun _ => 0) 0 0 (wordBytes pos) (by simp)
  rw [← bytes]
  exact (word_overlay_self _ _ _).trans (Nat.mod_eq_of_lt small)

theorem saved_prev : word (Store.apply file (saveHeader file pos)).bytes backupPrev = 0 := by
  have part : slice (Store.apply file (saveHeader file pos)).bytes backupPrev 4 = zeros 4 := by
    rw [saved_slice _ _ (by simp [sizeofHeader, backupPrev])]
    simp [backupPayload, backupPrev, List.drop_append, List.take_append, List.drop_eq_nil_of_le]
  have value := word_of_slice (Store.apply file (saveHeader file pos)).bytes backupPrev 4 0
    (by omega)
  rw [part] at value
  exact value.symm

theorem saved_flag : (Store.apply file (saveHeader file pos)).bytes backupFlag = 1 := by
  have part : slice (Store.apply file (saveHeader file pos)).bytes backupFlag 1 = [1] := by
    rw [saved_slice _ _ (by simp [sizeofHeader, backupFlag])]
    simp [backupPayload, backupFlag, List.drop_append, List.take_append, List.drop_eq_nil_of_le]
  simpa [slice] using part

theorem save_avoids {region : Region} (above : headerLen ≤ region.start) :
    Disjoint (touches (saveHeader file pos)) region.addresses := by
  apply span_disjoint
  simp only [saveHeader, backup_payload_length, sizeofHeader, headerLen] at above ⊢
  omega

theorem word_avoids {spot value : Nat} {region : Region} (inside : spot + 4 ≤ headerLen)
    (above : headerLen ≤ region.start) :
    Disjoint (touches ⟨spot, wordBytes value⟩) region.addresses := by
  apply span_disjoint
  simp only [word_bytes_length]
  omega

theorem clear_avoids {region : Region} (above : headerLen ≤ region.start) :
    Disjoint (touches clearFlag) region.addresses := by
  apply span_disjoint
  simp only [clearFlag, zeros_length, backupFlag, headerLen] at above ⊢
  omega

theorem recov_idle (idle : Idle file) (header : headerLen ≤ file.size) :
    Does recovBackup file [] () := by
  have flag := @pread_safe_does file backupFlag 1 (by
    simp only [backupFlag, headerLen] at header ⊢
    omega)
  refine does_bind_read flag ?_
  have single : slice file.bytes backupFlag 1 = [0] := by simpa [slice, Idle] using idle
  simp only [single, ne_eq, not_true_eq_false, if_false]
  exact does_ret _ _

theorem neg_backup_does (file : File) : Does negBackup file [clearFlag] () :=
  pwrite_does _ _ _

theorem clear_idle (file : File) : Idle (Store.apply file clearFlag) := by
  change overlay file.bytes backupFlag (zeros 1) backupFlag = 0
  have inside := @overlay_inside file.bytes backupFlag 0 (zeros 1) (by simp)
  simpa [zeros] using inside

end Saving

/-- What the two functions on the free list need of the file. -/
structure Ready (file : File) (free : List Nat) (size : Nat) : Prop where
  supply : Supply file free size
  room : headerLen ≤ size
  some : free ≠ []
  head : word file.bytes freeHead = free.headD 0
  tail : word file.bytes freeTail = free.getLastD 0

section Supplies

variable {file : File} {free : List Nat} {size : Nat}

theorem Ready.below (ready : Ready file free size) {block : Nat} (member : block ∈ free) :
    headerLen + block + sizeofString ≤ size := ready.supply.below block member

theorem headD_mem {blocks : List Nat} (some : blocks ≠ []) : blocks.headD 0 ∈ blocks := by
  cases blocks with
  | nil => exact absurd rfl some
  | cons block rest => simp

theorem getLastD_mem {blocks : List Nat} (some : blocks ≠ []) : blocks.getLastD 0 ∈ blocks := by
  cases blocks with
  | nil => exact absurd rfl some
  | cons block rest => exact List.getLast_mem _

theorem mem_drop_last_or {blocks : List Nat} (some : blocks ≠ []) {block : Nat}
    (member : block ∈ blocks) : block ∈ blocks.dropLast ∨ block = blocks.getLastD 0 := by
  rw [← List.dropLast_concat_getLast some] at member
  rcases List.mem_append.mp member with before | last
  · left
    exact before
  · right
    rw [List.mem_singleton.mp last, List.getLastD_eq_getLast?, List.getLast?_eq_some_getLast some]
    rfl

theorem Ready.alloc (ready : Ready file free size) {src : List UInt8} (served : Served free src)
    (small : (plan free size src).size < 2 ^ 32) :
    Returns (fun fuel => allocStr fuel src) file (plan free size src).writes
        ((plan free size src).blocks.headD 0) ∧
      Ready (applyAll (plan free size src).writes file) (plan free size src).free
        (plan free size src).size := by
  refine ⟨alloc_str_returns ready.supply ready.room ready.some ready.head ready.tail served small,
    ready.supply.keeps ready.room ready.some small, ready.room.trans (plan_size _ _ _),
    (plan_suffix ready.some).2, ?_, ?_⟩
  · refine plan_head _ _ _ _ ?_
    have kept := @plan_suffix free size src ready.some
    have inside := ready.below (kept.1.subset (headD_mem kept.2))
    have grown := plan_size free size src
    omega
  · rw [plan_keeps_tail, ready.tail, plan_tail ready.some]

/-- The free list depends on its own blocks and the first words of the header. -/
theorem Ready.congr (ready : Ready file free size) {changes : List Pwrite}
    (lists : Set.EqOn (applyAll changes file).bytes file.bytes (span 0 12))
    (blocks : ∀ block ∈ free,
      Set.EqOn (applyAll changes file).bytes file.bytes (blockRegion block).addresses) :
    Ready (applyAll changes file) free size := by
  have listed (spot : Nat) (inside : spot + 4 ≤ 12) :
      word (applyAll changes file).bytes spot = word file.bytes spot := by
    apply word_congr
    intro address member
    apply lists
    simp only [mem_span] at member ⊢
    omega
  refine ⟨⟨header_after _ ready.supply.header, ?_, ?_, ?_, ready.supply.below,
    ready.supply.apart⟩, ready.room, ready.some, ?_, ?_⟩
  · exact (listed _ (by simp [freeSize])).trans ready.supply.sized
  · exact chain_congr (fun block member => link_congr (blocks block
      (List.mem_of_mem_dropLast member))) ready.supply.linked
  · exact fun block member => (ready.supply.inFile block member).trans (size_le_applyAll _ _)
  · exact (listed _ (by simp [freeHead])).trans ready.head
  · exact (listed _ (by simp [freeTail])).trans ready.tail

theorem Ready.saved (ready : Ready file free size) (pos : Nat) :
    Ready (applyAll [saveHeader file pos] file) free size := by
  refine ready.congr saved_lists fun block member => apply_eqOn (save_avoids ?_)
  simp only [blockRegion]
  omega

/-- An allocation stays clear of everything that is not free. -/
theorem plan_avoids {live : List Region} (src : List UInt8)
    (packed : Packed (live ++ free.map blockRegion) headerLen size) (room : headerLen ≤ size)
    (some : free ≠ []) : ∀ region ∈ live, ∀ change ∈ (plan free size src).writes,
      Disjoint (touches change) region.addresses := by
  intro region member change written
  have taken := packed_plan src packed room some
  have bounds := packed.inside region (List.mem_append_left _ member)
  rw [Set.disjoint_left]
  intro address touched inside
  simp only [Region.addresses, mem_span] at inside
  rcases plan_confined free size src change written touched with head | size | prev |
    ⟨block, used, within⟩
  · simp only [mem_span, freeHead, headerLen] at head bounds
    omega
  · simp only [mem_span, freeSize, headerLen] at size bounds
    omega
  · simp only [mem_span, backupPrev, headerLen] at prev bounds
    omega
  · rw [List.append_assoc] at taken
    have clear := taken.cross member (List.mem_append_left _ (List.mem_map_of_mem used))
    simp only [Clear, blockRegion, mem_span] at clear within
    omega

/-- The blocks of an allocation are apart from everything else, the free list
left over included. -/
theorem plan_clear {live : List Region} (src : List UInt8)
    (packed : Packed (live ++ free.map blockRegion) headerLen size) (room : headerLen ≤ size)
    (some : free ≠ []) {block : Nat} (used : block ∈ (plan free size src).blocks)
    {region : Region}
    (member : region ∈ live ++ (plan free size src).free.map blockRegion) :
    Clear (blockRegion block) region := by
  have taken := packed_plan src packed room some
  rcases List.mem_append.mp member with old | left
  · rw [List.append_assoc] at taken
    exact (taken.cross old (List.mem_append_left _ (List.mem_map_of_mem used))).symm
  · exact taken.cross (List.mem_append_right _ (List.mem_map_of_mem used)) left

end Supplies

section Giving

variable {file : File} {chars : List UInt8}

/-- The walk of `add_free_list` ends at the last block. -/
theorem last_block_returns {prev : Nat} {blocks : List Nat} (stored : Stored file.bytes chars blocks)
    (readable : ∀ block ∈ blocks, headerLen + block + sizeofString ≤ file.size ∧
      headerLen + block + sizeofString < 2 ^ 32) (nonzero : ∀ block ∈ blocks, block ≠ 0) :
    Returns (fun fuel => lastBlock fuel prev (blocks.headD 0)) file [] (blocks.getLastD 0) := by
  induction blocks generalizing chars prev with
  | nil => exact stored.elim
  | cons block rest ih =>
      have here := readable block (by simp)
      have read := @read_db_does file (block + blockLen) 4
        (by simp only [headerLen, blockLen, sizeofString] at here ⊢; omega)
        (by simp only [headerLen, blockLen, sizeofString] at here ⊢; omega)
      have value : wordOf (slice file.bytes (headerLen + (block + blockLen)) 4) 0 =
          link file.bytes block := by
        rw [word_of_slice _ _ _ _ (by omega), ← Nat.add_assoc]
        rfl
      apply returns_of_succ
      simp only [lastBlock, List.headD_cons, nonzero block (by simp), ne_eq, not_false_eq_true,
        if_true]
      refine returns_bind_read read.returns ?_
      rw [value]
      cases rest with
      | nil =>
          obtain ⟨-, -, ending⟩ := stored
          rw [ending]
          apply returns_of_succ
          simp only [lastBlock, ne_eq, not_true_eq_false, if_false]
          exact (does_ret _ _).returns
      | cons next rest =>
          obtain ⟨-, -, linked, later⟩ := stored
          rw [linked]
          exact ih later (fun block member => readable block (by simp [member]))
            fun block member => nonzero block (by simp [member])

theorem set_link_touches (block value : Nat) :
    touches (setLink block value) ⊆ (blockRegion block).addresses := by
  intro address inside
  simp only [touches, setLink, word_bytes_length, Region.addresses, blockRegion, mem_span,
    headerLen, blockLen, sizeofString] at inside ⊢
  omega

/-- The blocks of a string are put behind the tail. -/
theorem add_free_list_returns {blocks : List Nat} {tail : Nat}
    (tailed : word file.bytes freeTail = tail)
    (header : headerLen ≤ file.size)
    (tailSmall : headerLen + tail + sizeofString < 2 ^ 32)
    (stored : Stored file.bytes chars blocks)
    (readable : ∀ block ∈ blocks, headerLen + block + sizeofString ≤ file.size ∧
      headerLen + block + sizeofString < 2 ^ 32) (nonzero : ∀ block ∈ blocks, block ≠ 0)
    (apart : ∀ block ∈ blocks, Apart tail block) :
    Returns (fun fuel => addFreeList fuel (blocks.headD 0)) file
      [setLink tail (blocks.headD 0), setTail (blocks.getLastD 0)] () := by
  have read := @pread_safe_does file freeTail 4
    (by simp only [freeTail, headerLen] at header ⊢; omega)
  have value : wordOf (slice file.bytes freeTail 4) 0 = tail := by
    rw [word_of_slice _ _ _ _ (by omega)]
    exact tailed
  have linked := @write_db_does file (tail + blockLen) (wordBytes (blocks.headD 0))
    (by simp only [headerLen, blockLen, sizeofString] at tailSmall ⊢; omega)
  rw [← Nat.add_assoc] at linked
  have storedLater : Stored (applyAll [setLink tail (blocks.headD 0)] file).bytes chars blocks := by
    refine stored_congr (fun block member => applyAll_eqOn ?_) stored
    intro change written
    rw [List.mem_singleton.mp written]
    exact (clear_blocks.mpr (apart block member)).disjoint.mono_left (set_link_touches _ _)
  have walked := @last_block_returns (applyAll [setLink tail (blocks.headD 0)] file) chars
    (blocks.headD 0) blocks storedLater
    (fun block member => ⟨(readable block member).1.trans (size_le_applyAll _ _),
      (readable block member).2⟩) nonzero
  refine returns_bind_read read.returns ?_
  rw [value]
  have finish (store : File) := pwrite_does store freeTail (wordBytes (blocks.getLastD 0))
  exact returns_bind linked.returns (returns_bind_read walked (finish _).returns)

end Giving

end OsWorkbench.Kvdb
