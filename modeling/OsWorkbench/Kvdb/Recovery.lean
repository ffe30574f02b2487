import OsWorkbench.Kvdb.Torn
import OsWorkbench.Kvdb.Visible

/-!
# `recov_backup`

The undo record holds the free list's header and one table entry. `recov_backup`
puts them back and links the block named by `backup_prev` to the head it finds.
The result represents the layout before the put if that makes a free list again.
-/

namespace OsWorkbench.Kvdb

open ByteStore WriteTrace Regions

def restoreLists (file : File) : Pwrite := ⟨0, slice file.bytes backupList 12⟩

def restoreTab (file : File) : Pwrite :=
  ⟨headerLen + word file.bytes backupPos, slice file.bytes backupTab sizeofTab⟩

def relink (file : File) : Pwrite :=
  ⟨headerLen + word file.bytes backupPrev + blockLen, slice file.bytes 0 4⟩

/-- The writes of `recov_backup` on a file with the flag set. -/
def recoverWrites (file : File) : List Pwrite :=
  [restoreLists file, restoreTab file, relink file, clearFlag]

/-- A file on which a put of `layout` died after saving the table entry at `pos`. -/
structure Suspended (layout : Layout) (pos : Nat) (file crashed : File) : Prop where
  flag : crashed.bytes backupFlag ≠ 0
  lists : slice crashed.bytes backupList 12 = slice file.bytes 0 12
  tab : slice crashed.bytes backupTab sizeofTab = slice file.bytes (headerLen + pos) sizeofTab
  place : word crashed.bytes backupPos = pos
  grown : file.size ≤ crashed.size
  live : ∀ region ∈ layout.live, region ≠ tabRegion pos →
    Set.EqOn crashed.bytes file.bytes region.addresses

/-- The link of a block once the noted block has been redirected. -/
def mended (bytes : Bytes) (block : Nat) : Nat :=
  if block = word bytes backupPrev then word bytes freeHead else link bytes block

/-- The free list `part` that recovery finds in place of `free`. -/
structure Mends (free part : List Nat) (bytes : Bytes) : Prop where
  sublist : part.Sublist free
  some : part ≠ []
  head : part.headD 0 = free.headD 0
  tail : part.getLastD 0 = free.getLastD 0
  linked : part.IsChain fun block next => mended bytes block = next

/-- What is written when `backup_prev` names no block. -/
def strayRegion : Region := ⟨headerLen + blockLen, 4⟩

def StrayClear (layout : Layout) : Prop := ∀ region ∈ layout.live, Clear strayRegion region

/-- The redirected link belongs to a free block, or to no live region. -/
def Aimed (layout : Layout) (part : List Nat) (bytes : Bytes) : Prop :=
  word bytes backupPrev ∈ part ∨ (word bytes backupPrev = 0 ∧ StrayClear layout)

def Layout.withFree (layout : Layout) (part : List Nat) : Layout := { layout with free := part }

section Writing

variable {file : File}

theorem recov_backup_does (flag : file.bytes backupFlag ≠ 0) (header : headerLen ≤ file.size)
    (pos : headerLen + word file.bytes backupPos < 2 ^ 32)
    (prev : headerLen + word file.bytes backupPrev + blockLen < 2 ^ 32) :
    Does recovBackup file (recoverWrites file) () := by
  have flagged := @pread_safe_does file backupFlag 1 (by
    simp only [backupFlag, headerLen] at header ⊢
    omega)
  have whole := @pread_safe_does file 0 sizeofHeader (by
    simp only [sizeofHeader, headerLen] at header ⊢
    omega)
  have single : slice file.bytes backupFlag 1 ≠ [0] := by
    intro zero
    apply flag
    simpa [slice] using zero
  have lists : ((slice file.bytes 0 sizeofHeader).drop backupList).take 12 =
      slice file.bytes backupList 12 := by
    rw [slice_part _ _ _ _ _ (by simp [backupList, sizeofHeader]), Nat.zero_add]
  have tab : ((slice file.bytes 0 sizeofHeader).drop backupTab).take sizeofTab =
      slice file.bytes backupTab sizeofTab := by
    rw [slice_part _ _ _ _ _ (by simp [backupTab, sizeofHeader]), Nat.zero_add]
  have head : (slice file.bytes 0 sizeofHeader).take 4 = slice file.bytes 0 4 := by
    have part := slice_part file.bytes 0 0 4 sizeofHeader (by simp [sizeofHeader])
    simpa using part
  have place : wordOf (slice file.bytes 0 sizeofHeader) backupPos = word file.bytes backupPos := by
    rw [word_of_slice _ _ _ _ (by simp [backupPos, sizeofHeader]), Nat.zero_add]
  have noted : wordOf (slice file.bytes 0 sizeofHeader) backupPrev =
      word file.bytes backupPrev := by
    rw [word_of_slice _ _ _ _ (by simp [backupPrev, sizeofHeader]), Nat.zero_add]
  refine does_bind_read flagged ?_
  simp only [ne_eq, single, not_false_eq_true, if_true]
  refine does_bind_read whole ?_
  rw [lists, tab, head, place, noted]
  have restore := pwrite_does file 0 (slice file.bytes backupList 12)
  have entry (store : File) := @write_db_does store _ (slice file.bytes backupTab sizeofTab) pos
  have relink (store : File) := @write_db_does store (word file.bytes backupPrev + blockLen)
    (slice file.bytes 0 4) (by omega)
  simp only [← Nat.add_assoc] at relink
  exact does_bind restore (does_bind (entry _) (does_bind (relink _) (neg_backup_does _)))

theorem recovered_idle (file : File) : Idle (applyAll (recoverWrites file) file) := by
  have shape : recoverWrites file = [restoreLists file, restoreTab file, relink file] ++
      [clearFlag] := rfl
  rw [shape, applyAll_append]
  exact clear_idle _

/-- What recovery leaves alone. -/
theorem recovered_kept {region : Set Nat} (lists : Disjoint (span 0 12) region)
    (tab : Disjoint (span (headerLen + word file.bytes backupPos) sizeofTab) region)
    (relinked : Disjoint (span (headerLen + word file.bytes backupPrev + blockLen) 4) region)
    (flag : Disjoint (span backupFlag 1) region) :
    Set.EqOn (applyAll (recoverWrites file) file).bytes file.bytes region := by
  apply applyAll_eqOn
  intro change member
  simp only [recoverWrites, List.mem_cons, List.not_mem_nil, or_false] at member
  rcases member with rfl | rfl | rfl | rfl
  · simpa [touches, restoreLists] using lists
  · simpa [touches, restoreTab] using tab
  · simpa [touches, relink] using relinked
  · simpa [touches, clearFlag] using flag

/-- The head, tail and size that were saved. -/
theorem recovered_lists :
    slice (applyAll (recoverWrites file) file).bytes 0 12 = slice file.bytes backupList 12 := by
  have later := @applyAll_eqOn (Store.apply file (restoreLists file))
    [restoreTab file, relink file, clearFlag] (span 0 12) (by
      intro change member
      simp only [List.mem_cons, List.not_mem_nil, or_false] at member
      rcases member with rfl | rfl | rfl
      · apply span_disjoint
        simp only [restoreTab, headerLen]
        omega
      · apply span_disjoint
        simp only [relink, headerLen]
        omega
      · exact span_disjoint (by simp [clearFlag, backupFlag]))
  have whole := slice_overlay_self file.bytes 0 (slice file.bytes backupList 12)
  rw [slice_length] at whole
  exact (slice_congr later).trans whole

/-- The table entry that was saved. -/
theorem recovered_tab (apart : Disjoint
      (span (headerLen + word file.bytes backupPrev + blockLen) 4)
      (span (headerLen + word file.bytes backupPos) sizeofTab)) :
    slice (applyAll (recoverWrites file) file).bytes (headerLen + word file.bytes backupPos)
      sizeofTab = slice file.bytes backupTab sizeofTab := by
  have later := @applyAll_eqOn (applyAll [restoreLists file, restoreTab file] file)
    [relink file, clearFlag] (span (headerLen + word file.bytes backupPos) sizeofTab) (by
      intro change member
      simp only [List.mem_cons, List.not_mem_nil, or_false] at member
      rcases member with rfl | rfl
      · simpa [touches, relink] using apart
      · apply span_disjoint
        simp only [clearFlag, zeros_length, backupFlag, headerLen]
        omega)
  have whole := slice_overlay_self (applyAll [restoreLists file] file).bytes
    (headerLen + word file.bytes backupPos) (slice file.bytes backupTab sizeofTab)
  rw [slice_length] at whole
  exact (slice_congr later).trans whole

/-- The redirected link. -/
theorem recovered_link : link (applyAll (recoverWrites file) file).bytes
    (word file.bytes backupPrev) = word file.bytes freeHead := by
  have later := @applyAll_eqOn (applyAll [restoreLists file, restoreTab file, relink file] file)
    [clearFlag] (span (headerLen + word file.bytes backupPrev + blockLen) 4) (by
      intro change member
      rw [List.mem_singleton.mp member]
      apply span_disjoint
      simp only [clearFlag, zeros_length, backupFlag, headerLen]
      omega)
  have inside := word_overlay_inside (applyAll [restoreLists file, restoreTab file] file).bytes
    (headerLen + word file.bytes backupPrev + blockLen) 0 (slice file.bytes 0 4) (by simp)
  rw [Nat.add_zero, word_of_slice _ _ _ _ (by omega)] at inside
  exact (word_congr later).trans inside

end Writing

section Restoring

variable {layout : Layout} {file crashed other : File} {pos : Nat} {part : List Nat}

/-- A layout is shown by any file with the same live regions that leads to the same entries. -/
theorem Shown.congr (shown : Shown layout file)
    (same : ∀ region ∈ layout.live, Set.EqOn other.bytes file.bytes region.addresses)
    (current : ∀ entry ∈ layout.entries,
      currentAt other.bytes entry.off = currentAt file.bytes entry.off)
    (grown : file.size ≤ other.size) : Shown layout other where
  table := by
    refine table_congr ?_ (tab_congr (same _ layout.last_live)) shown.table
    intro entry member next found
    apply entry_congr _ (current entry member) found
    intro region inside
    exact same region (layout.entry_live member inside)
  start := shown.start
  packed := shown.packed
  small := shown.small
  inFile := fun region member => (shown.inFile region member).trans grown
  plain := shown.plain

theorem Layout.tab_same (layout : Layout)
    (same : ∀ region ∈ layout.live, Set.EqOn other.bytes file.bytes region.addresses)
    {entry : Entry} (member : entry ∈ layout.entries) :
    tabAt other.bytes entry.off = tabAt file.bytes entry.off :=
  tab_congr (same _ (layout.entry_live member (by simp [Entry.regions])))

theorem Shown.of_eqOn (shown : Shown layout file) (idle : Idle file) (quiet : Idle other)
    (same : ∀ region ∈ layout.live, Set.EqOn other.bytes file.bytes region.addresses)
    (grown : file.size ≤ other.size) : Shown layout other := by
  apply shown.congr same _ grown
  intro entry member
  rw [current_idle idle, current_idle quiet]
  exact layout.tab_same same member

theorem Layout.Sound.withFree (sound : layout.Sound) (sublist : part.Sublist layout.free)
    (some : part ≠ []) : (layout.withFree part).Sound where
  packed :=
    { apart := sound.packed.apart.sublist ((sublist.map blockRegion).append_left layout.live)
      inside := by
        intro region member
        apply sound.packed.inside region
        rcases List.mem_append.mp member with live | free
        · exact List.mem_append_left _ live
        · exact List.mem_append_right _ ((sublist.map blockRegion).subset free) }
  supply := some
  room := sound.room

/-- The entry at offset 0 keeps every block away from the start of the file. -/
theorem Shown.block_above (shown : Shown layout file) (sound : layout.Sound) {block : Nat}
    (member : block ∈ layout.free) : sizeofTab ≤ block := by
  have first := next_off_region layout.entries layout.last
  rw [shown.start] at first
  have clear := sound.packed.cross first (List.mem_map_of_mem member)
  simp only [Clear, tabRegion, blockRegion, sizeofTab, sizeofString] at clear ⊢
  omega

/-- Where `recov_backup` redirects the link, no live region is. -/
theorem aimed_clear (sound : layout.Sound) (sublist : part.Sublist layout.free)
    (aimed : Aimed layout part crashed.bytes) {region : Region} (live : region ∈ layout.live) :
    Disjoint (span (headerLen + word crashed.bytes backupPrev + blockLen) 4) region.addresses := by
  rcases aimed with noted | ⟨zero, stray⟩
  · have clear := sound.packed.cross live (List.mem_map_of_mem (sublist.subset noted))
    refine clear.symm.disjoint.mono_left ?_
    intro address inside
    simp only [Region.addresses, blockRegion, mem_span, headerLen, blockLen,
      sizeofString] at inside ⊢
    omega
  · rw [zero]
    exact (stray region live).disjoint

theorem Suspended.live_restored (suspended : Suspended layout pos file crashed)
    (sound : layout.Sound) (place : tabRegion pos ∈ layout.live)
    (sublist : part.Sublist layout.free) (aimed : Aimed layout part crashed.bytes) :
    ∀ region ∈ layout.live,
      Set.EqOn (applyAll (recoverWrites crashed) crashed).bytes file.bytes region.addresses := by
  intro region live
  have relinked := aimed_clear sound sublist aimed live
  by_cases here : region = tabRegion pos
  · subst here
    have apart : Disjoint (span (headerLen + word crashed.bytes backupPrev + blockLen) 4)
        (span (headerLen + word crashed.bytes backupPos) sizeofTab) := by
      rw [suspended.place]
      exact relinked
    have tab := recovered_tab apart
    rw [suspended.place, suspended.tab] at tab
    exact eqOn_of_slice tab
  · have bounds := sound.live.inside region live
    refine (recovered_kept ?_ ?_ relinked ?_).trans (suspended.live region live here)
    · apply span_disjoint
      simp only [headerLen] at bounds
      omega
    · rw [suspended.place]
      exact (sound.live.clear_of_ne place live (Ne.symm here)).disjoint
    · apply span_disjoint
      simp only [backupFlag, headerLen] at bounds ⊢
      omega

/-- The links recovery leaves in the free list. -/
theorem Suspended.link_restored (suspended : Suspended layout pos file crashed)
    (shown : Shown layout file) (sound : layout.Sound) (place : tabRegion pos ∈ layout.live)
    (sublist : part.Sublist layout.free) (aimed : Aimed layout part crashed.bytes)
    {block : Nat} (member : block ∈ part) :
    link (applyAll (recoverWrites crashed) crashed).bytes block = mended crashed.bytes block := by
  unfold mended
  split
  next noted =>
    rw [noted]
    exact recovered_link
  next other =>
    have listed := sublist.subset member
    have above := shown.block_above sound listed
    apply word_congr
    apply recovered_kept
    · apply span_disjoint
      simp only [headerLen]
      omega
    · rw [suspended.place]
      have clear := sound.packed.cross place (List.mem_map_of_mem listed)
      refine clear.disjoint.mono_right ?_
      intro address inside
      simp only [Region.addresses, blockRegion, mem_span, headerLen, blockLen,
        sizeofString] at inside ⊢
      omega
    · rcases aimed with noted | ⟨zero, -⟩
      · have apart := (pairwise_blocks.mp sound.supplies.apart).forall listed
          (sublist.subset noted) other
        apply span_disjoint
        simp only [Apart, sizeofString] at apart
        omega
      · rw [zero]
        apply span_disjoint
        simp only [sizeofTab] at above
        omega
    · apply span_disjoint
      simp only [backupFlag, headerLen]
      omega

/-- Recovery brings back the layout, with the free list that the links make. -/
theorem Suspended.recovers (suspended : Suspended layout pos file crashed)
    (represents : Represents layout file) (idle : Idle file)
    (place : tabRegion pos ∈ layout.live) (mends : Mends layout.free part crashed.bytes)
    (aimed : Aimed layout part crashed.bytes) :
    Does recovBackup crashed (recoverWrites crashed) () ∧
      Represents (layout.withFree part) (applyAll (recoverWrites crashed) crashed) ∧
      Idle (applyAll (recoverWrites crashed) crashed) := by
  have shown := represents.shown
  have sound := represents.sound
  have ready := represents.ready
  have small := shown.small
  have header := ready.supply.header.trans suspended.grown
  have lists := recovered_lists.trans suspended.lists
  have spot (index : Nat) (inside : index + 4 ≤ 12) :
      word (applyAll (recoverWrites crashed) crashed).bytes index = word file.bytes index := by
    have value := word_of_slice (applyAll (recoverWrites crashed) crashed).bytes 0 12 index inside
    rw [lists, word_of_slice _ _ _ _ inside, Nat.zero_add] at value
    exact value.symm
  have grown := suspended.grown.trans (size_le_applyAll crashed (recoverWrites crashed))
  have tabBounds := sound.live.inside _ place
  have prevSmall : headerLen + word crashed.bytes backupPrev + blockLen < 2 ^ 32 := by
    rcases aimed with noted | ⟨zero, -⟩
    · have below := ready.below (mends.sublist.subset noted)
      simp only [headerLen, blockLen, sizeofString] at below ⊢
      omega
    · rw [zero]
      decide
  refine ⟨?_, ⟨?_, ?_, ?_⟩, recovered_idle crashed⟩
  · apply recov_backup_does suspended.flag header _ prevSmall
    rw [suspended.place]
    simp only [tabRegion, sizeofTab] at tabBounds
    omega
  · have view := shown.of_eqOn idle (recovered_idle crashed)
      (suspended.live_restored sound place mends.sublist aimed) grown
    exact ⟨view.table, view.start, view.packed, view.small, view.inFile, view.plain⟩
  · exact sound.withFree mends.sublist mends.some
  · constructor
    · constructor
      · exact header.trans (size_le_applyAll _ _)
      · exact (spot freeSize (by simp [freeSize])).trans ready.supply.sized
      · apply chain_congr _ mends.linked
        intro block member
        exact suspended.link_restored shown sound place mends.sublist aimed
          (List.mem_of_mem_dropLast member)
      · intro block member
        refine (ready.supply.inFile block ?_).trans grown
        have apart := (pairwise_blocks.mp sound.supplies.apart).sublist mends.sublist
        rw [← List.dropLast_concat_getLast mends.some, List.pairwise_append] at apart
        have separate := apart.2.2 block member _ (List.mem_singleton_self _)
        have listed := mends.sublist.subset (List.mem_of_mem_dropLast member)
        refine (mem_drop_last_or sound.supply listed).resolve_right ?_
        intro last
        have tail := mends.tail
        rw [← last, List.getLastD_eq_getLast?, List.getLast?_eq_some_getLast mends.some] at tail
        simp only [Option.getD_some] at tail
        rw [tail] at separate
        simp only [Apart, sizeofString] at separate
        omega
      · intro block member
        exact ready.below (mends.sublist.subset member)
      · exact ready.supply.apart.sublist mends.sublist
    · exact ready.room
    · exact mends.some
    · exact (spot freeHead (by simp [freeHead])).trans (ready.head.trans mends.head.symm)
    · exact (spot freeTail (by simp [freeTail])).trans (ready.tail.trans mends.tail.symm)

/-- A file that `recov_backup` repairs, with the file it was made from. -/
structure Torn (layout : Layout) (pos : Nat) (part : List Nat) (file crashed : File) : Prop where
  represents : Represents layout file
  idle : Idle file
  place : tabRegion pos ∈ layout.live
  suspended : Suspended layout pos file crashed
  mends : Mends layout.free part crashed.bytes
  aimed : Aimed layout part crashed.bytes

theorem Torn.recovers (torn : Torn layout pos part file crashed) :
    Does recovBackup crashed (recoverWrites crashed) () ∧
      Represents (layout.withFree part) (applyAll (recoverWrites crashed) crashed) ∧
      Idle (applyAll (recoverWrites crashed) crashed) :=
  torn.suspended.recovers torn.represents torn.idle torn.place torn.mends torn.aimed

end Restoring

end OsWorkbench.Kvdb
