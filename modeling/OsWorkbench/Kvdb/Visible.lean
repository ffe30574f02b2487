import OsWorkbench.Kvdb.Commit

/-!
# Every file a put goes through

Up to the committing write a reader sees the old layout, from it on the new one.
-/

namespace OsWorkbench.Kvdb

open ByteStore WriteTrace Regions

/-- The recorded size is the end of everything ever written. -/
def Blank (file : File) (size : Nat) : Prop := ∀ address, size ≤ address → file.bytes address = 0

/-- When a put is carried out as intended: its strings are C strings, the size does
not wrap, and an empty string is stored only where it gets a block of its own. -/
structure Putable (layout : Layout) (file : File) (key value : List UInt8) : Prop where
  keyPlain : 0 ∉ key
  valuePlain : 0 ∉ value
  small : (layout.put key value).size < 2 ^ 32
  updated : layout.find key ≠ none → value ≠ []
  valueServed : layout.find key = none → Served layout.free value
  keyServed : layout.find key = none → Served (layout.valueTaken value).free key
  blank : key = [] ∨ value = [] → Blank file layout.size

section Updates

variable {layout : Layout} {file : File} {entry : Entry} {key value : List UInt8}

theorem Layout.Sound.tail_clear (sound : layout.Sound) {region : Region}
    (live : region ∈ layout.live) : Clear (blockRegion (layout.free.getLastD 0)) region :=
  (sound.packed.cross live (List.mem_map_of_mem (getLastD_mem sound.supply))).symm

theorem set_link_avoids {block linked : Nat} {region : Region}
    (clear : Clear (blockRegion block) region) :
    Disjoint (touches (setLink block linked)) region.addresses :=
  clear.disjoint.mono_left (set_link_touches _ _)

theorem give_avoids (sound : layout.Sound) (head last : Nat) :
    Avoids [setLink (layout.free.getLastD 0) head, setTail last] layout.live := by
  intro region live change member
  simp only [List.mem_cons, List.not_mem_nil, or_false] at member
  rcases member with rfl | rfl
  · exact set_link_avoids (sound.tail_clear live)
  · exact word_avoids (by simp [freeTail]) (sound.live.inside region live).1

theorem give_keeps (tail head last : Nat) : KeepsBackup [setLink tail head, setTail last] :=
  (keeps_backup_above (by simp only [setLink]; omega)).append
    (keeps_backup_list (by simp [freeTail, backupTab]))

/-- The state of an update once its value is stored. -/
structure Staged (layout : Layout) (entry : Entry) (value : List UInt8) (saved : Tab)
    (file : File) : Prop where
  shown : Shown layout file
  holding : Holding file.bytes saved
  tab : tabAt file.bytes entry.off = saved
  stored : Stored file.bytes value (layout.valueTaken value).blocks

theorem Represents.staged (represents : Represents layout file) (idle : Idle file)
    (member : entry ∈ layout.entries) (small : (layout.valueTaken value).size < 2 ^ 32)
    (present : value ≠ []) :
    Throughout (Shown layout) (saveHeader file entry.off ::
        (layout.valueTaken value).writes) file ∧
      Staged layout entry value (tabAt file.bytes entry.off)
        (applyAll (saveHeader file entry.off :: (layout.valueTaken value).writes)
          file) := by
  have shown := represents.shown.saved idle (Or.inl ⟨entry, member, rfl⟩)
  have ready := represents.ready.saved entry.off
  have avoids := plan_avoids value represents.sound.packed represents.sound.room
    represents.sound.supply
  have keeps := keeps_backup_of_confined (plan_confined layout.free layout.size value)
  have live := @Layout.entry_live layout entry member (tabRegion entry.off)
    (by simp [Entry.regions])
  refine ⟨throughout_cons represents.shown (throughout_of_subset fun done subset => ?_), ?_⟩
  · exact shown.unseen (fun region live change inside => avoids region live change (subset inside))
      fun change inside => keeps change (subset inside)
  · refine ⟨shown.unseen avoids keeps, (save_holding file entry.off).after keeps, ?_, ?_⟩
    · exact (tab_congr (applyAll_eqOn (avoids _ live))).trans
        (tab_congr (applyAll_eqOn (save_live represents.shown.packed _ live)))
    · exact plan_stored ready.supply ready.room ready.some small fun empty => absurd empty present

theorem assigned_tab_bytes (file : File) (entry : Entry) (value : List UInt8) {blocks : List Nat}
    (small : blocks.headD 0 < 2 ^ 32) :
    Tab.ofBytes (assignedTab file entry blocks value).bytes = assignedTab file entry blocks value :=
  tab_of_bytes _ (word_of_lt _ _) (word_of_lt _ _) (word_of_lt _ _) small (u32_lt _)

theorem plan_block_small {free : List Nat} {size : Nat} {src : List UInt8}
    (packed : Packed (free.map blockRegion) headerLen size) (room : headerLen ≤ size)
    (some : free ≠ []) (small : (plan free size src).size < 2 ^ 32) :
    (plan free size src).blocks.headD 0 < 2 ^ 32 := by
  have below := @plan_below free size src room some
    (fun block member => (packed.inside _ (List.mem_map_of_mem member)).2) _
    (headD_mem (plan_blocks_ne_nil some))
  omega

theorem Layout.Sound.supplies (sound : layout.Sound) :
    Packed (layout.free.map blockRegion) headerLen layout.size :=
  ⟨sound.packed.apart.sublist (List.sublist_append_right _ _), fun region inside =>
    sound.packed.inside region (List.mem_append_right _ inside)⟩

/-- An update: the old layout until the flag is cleared, the new one then. -/
theorem update_visible (represents : Represents layout file) (idle : Idle file)
    (putable : Putable layout file key value) (found : layout.find key = some entry) :
    Throughout (Shown layout) (updateWrites file layout entry value) file ∧
      Shown (layout.put key value)
        (applyAll (updateWrites file layout entry value ++ [clearFlag]) file) := by
  have member : entry ∈ layout.entries := List.mem_of_find?_eq_some found
  have present : value ≠ [] := putable.updated (by simp [found])
  have sound := represents.sound
  have small : (layout.valueTaken value).size < 2 ^ 32 := by
    simpa [Layout.put, found, Layout.update] using putable.small
  obtain ⟨along, staged⟩ := represents.staged idle member small present
  have bytes := assigned_tab_bytes file entry value
    (plan_block_small sound.supplies sound.room sound.supply small)
  have inFile : ∀ block ∈ (layout.valueTaken value).blocks,
      headerLen + block + sizeofString ≤ (applyAll (saveHeader file entry.off ::
        (layout.valueTaken value).writes) file).size :=
    plan_inFile (applyAll [saveHeader file entry.off] file) _ _ _ present
  have writes : updateWrites file layout entry value =
      (saveHeader file entry.off :: (layout.valueTaken value).writes) ++
        ([setTab entry.off (assignedTab file entry (layout.valueTaken value).blocks
          value)] ++ [setLink (layout.free.getLastD 0) (entry.valueAt.headD 0),
          setTail (entry.valueAt.getLastD 0)]) := rfl
  rw [writes]
  generalize saveHeader file entry.off :: (layout.valueTaken value).writes = front
    at along staged inFile
  have tabs : Shown layout (applyAll [setTab entry.off (assignedTab file entry
      (layout.valueTaken value).blocks value)] (applyAll front file)) := by
    refine staged.shown.rewritten staged.holding member ?_ ?_ ?_
    · rw [staged.tab]
    · rw [bytes, staged.tab]
      rfl
    · rw [bytes, staged.tab]
      rfl
  have avoids := give_avoids sound (entry.valueAt.headD 0) (entry.valueAt.getLastD 0)
  have keeps := give_keeps (layout.free.getLastD 0) (entry.valueAt.headD 0)
    (entry.valueAt.getLastD 0)
  refine ⟨throughout_append along (throughout_append (throughout_cons staged.shown
    (throughout_nil tabs)) (throughout_of_subset fun done subset => ?_)), ?_⟩
  · exact tabs.unseen (fun region live change inside => avoids region live change (subset inside))
      fun change inside => keeps change (subset inside)
  · have live := @Layout.entry_live layout entry member (tabRegion entry.off)
      (by simp [Entry.regions])
    have tab : tabAt (applyAll ([setTab entry.off (assignedTab file entry
        (layout.valueTaken value).blocks value)] ++
        [setLink (layout.free.getLastD 0) (entry.valueAt.headD 0),
          setTail (entry.valueAt.getLastD 0)]) (applyAll front file)).bytes entry.off =
        assignedTab file entry (layout.valueTaken value).blocks value := by
      rw [applyAll_append, tab_congr (applyAll_eqOn (avoids _ live)), tab_written, bytes]
    have stored : Stored (applyAll ([setTab entry.off (assignedTab file entry
        (layout.valueTaken value).blocks value)] ++
        [setLink (layout.free.getLastD 0) (entry.valueAt.headD 0),
          setTail (entry.valueAt.getLastD 0)]) (applyAll front file)).bytes value
        (layout.valueTaken value).blocks := by
      refine stored_congr (fun block used => applyAll_eqOn ?_) staged.stored
      have clear (region : Region) (inside : region ∈ layout.live ++
          (layout.valueTaken value).free.map blockRegion) :=
        plan_clear value sound.packed sound.room sound.supply used inside
      have kept := (@plan_suffix _ layout.size value sound.supply).2
      intro change inside
      simp only [List.cons_append, List.nil_append, List.mem_cons, List.not_mem_nil,
        or_false] at inside
      rcases inside with rfl | rfl | rfl
      · exact set_tab_avoids (clear _ (List.mem_append_left _ live)).symm
      · rw [← @plan_tail _ layout.size value sound.supply]
        exact set_link_avoids (clear _ (List.mem_append_right _
          (List.mem_map_of_mem (getLastD_mem kept)))).symm
      · exact @word_avoids _ _ (blockRegion block) (by simp [freeTail]) (by simp [blockRegion])
    have view : Shown layout (applyAll ([setTab entry.off (assignedTab file entry
        (layout.valueTaken value).blocks value)] ++
        [setLink (layout.free.getLastD 0) (entry.valueAt.headD 0),
          setTail (entry.valueAt.getLastD 0)]) (applyAll front file)) := by
      rw [applyAll_append]
      exact tabs.unseen avoids keeps
    have holding := staged.holding.after ((@keeps_backup_above (setTab entry.off
      (assignedTab file entry (layout.valueTaken value).blocks value))
      (by simp [setTab])).append keeps)
    have committed := @Shown.update_committed _ _ _ key value view sound _ holding found
      (by rw [tab]; rfl) (by rw [tab]; rfl) (by rw [tab]; rfl) stored
      (fun block used => (inFile block used).trans (size_le_applyAll _ _)) putable.valuePlain small
    rw [← applyAll_append, ← applyAll_append] at committed
    simpa only [Layout.put, found, List.append_assoc] using committed

end Updates

section Appending

variable {layout : Layout} {file : File} {key value : List UInt8}

/-- Writes to addresses below a bound. -/
def Below (changes : List Pwrite) (limit : Nat) : Prop :=
  ∀ change ∈ changes, ∀ address ∈ touches change, address < limit

theorem Blank.after {size grown : Nat} {changes : List Pwrite} (blank : Blank file size)
    (more : size ≤ grown) (below : Below changes grown) :
    Blank (applyAll changes file) grown := by
  intro address beyond
  refine (@applyAll_eqOn _ _ {address} ?_ _ rfl).trans (blank address (more.trans beyond))
  intro change member
  rw [Set.disjoint_singleton_right]
  intro touched
  have small := below change member address touched
  omega

theorem save_below {size : Nat} (room : headerLen ≤ size) (pos : Nat) :
    Below [saveHeader file pos] size := by
  intro change member address touched
  rw [List.mem_singleton.mp member] at touched
  simp only [touches, saveHeader, backup_payload_length, mem_span, sizeofHeader,
    headerLen] at touched room
  omega

/-- An allocation writes nothing beyond the new recorded size. -/
theorem plan_writes_below {free : List Nat} {size : Nat} (src : List UInt8)
    (room : headerLen ≤ size) (some : free ≠ [])
    (below : ∀ block ∈ free, headerLen + block + sizeofString ≤ size) :
    Below (plan free size src).writes (plan free size src).size := by
  intro change member address touched
  have grown := plan_size free size src
  have blocks := @plan_below free size src room some below
  rcases plan_confined free size src change member touched with head | sized | prev |
    ⟨block, used, within⟩
  · simp only [mem_span, freeHead, headerLen] at head room
    omega
  · simp only [mem_span, freeSize, headerLen] at sized room
    omega
  · simp only [mem_span, backupPrev, headerLen] at prev room
    omega
  · have bound := blocks block used
    simp only [mem_span] at within
    omega

/-- The last two writes of the stage. -/
def growWrites (layout : Layout) (key value : List UInt8) : List Pwrite :=
  [setSize ((layout.keyTaken key value).size + sizeofTab),
    ⟨headerLen + ((layout.keyTaken key value).size - headerLen), zeros sizeofTab⟩]

theorem grow_avoids (sound : layout.Sound) (key value : List UInt8) :
    Avoids (growWrites layout key value) (layout.live ++
      (layout.valueTaken value).blocks.map blockRegion ++
      (layout.keyTaken key value).blocks.map blockRegion ++
      (layout.keyTaken key value).free.map blockRegion) := by
  intro region inside change member
  have bounds := (sound.staging key value).inside region inside
  have room := sound.keyRoom key value
  simp only [growWrites, List.mem_cons, List.not_mem_nil, or_false] at member
  rcases member with rfl | rfl
  · exact word_avoids (by simp [freeSize]) bounds.1
  · refine span_disjoint (Or.inr ?_)
    change region.start + region.count ≤
      headerLen + ((layout.keyTaken key value).size - headerLen)
    omega

theorem grow_keeps (layout : Layout) (key value : List UInt8) :
    KeepsBackup (growWrites layout key value) :=
  (keeps_backup_list (by simp [freeSize, backupTab])).append (keeps_backup_above (by simp))

theorem key_avoids (sound : layout.Sound) (key value : List UInt8) :
    Avoids (layout.keyTaken key value).writes
      (layout.live ++ (layout.valueTaken value).blocks.map blockRegion) :=
  plan_avoids key (sound.taking value) (sound.room.trans (plan_size _ _ _))
    (plan_suffix sound.supply).2

theorem Avoids.mono {changes : List Pwrite} {regions more : List Region}
    (avoids : Avoids changes more) (subset : regions ⊆ more) : Avoids changes regions :=
  fun region inside => avoids region (subset inside)

theorem stage_avoids (sound : layout.Sound) (key value : List UInt8) :
    Avoids ((layout.valueTaken value).writes ++ ((layout.keyTaken key value).writes ++
      growWrites layout key value)) layout.live := by
  have first : Avoids (layout.valueTaken value).writes layout.live :=
    plan_avoids value sound.packed sound.room sound.supply
  refine first.append (((key_avoids sound key value).mono ?_).append
    ((grow_avoids sound key value).mono ?_))
  · exact List.subset_append_left _ _
  · intro region inside
    simp only [List.append_assoc]
    exact List.mem_append_left _ inside

theorem stage_keeps (layout : Layout) (key value : List UInt8) :
    KeepsBackup ((layout.valueTaken value).writes ++ ((layout.keyTaken key value).writes ++
      growWrites layout key value)) :=
  (keeps_backup_of_confined (plan_confined layout.free layout.size value)).append
    ((keeps_backup_of_confined (plan_confined (layout.valueTaken value).free
      (layout.valueTaken value).size key)).append (grow_keeps layout key value))

/-- What the writes of an append have prepared before its entry is filled in. -/
structure Prepared (layout : Layout) (key value : List UInt8) (file : File) : Prop where
  shown : Shown layout file
  holding : Holding file.bytes ⟨0, 0, 0, 0, 0⟩
  valueStored : Stored file.bytes value (layout.valueTaken value).blocks
  keyStored : Stored file.bytes key (layout.keyTaken key value).blocks
  blank : tabAt file.bytes ((layout.keyTaken key value).size - headerLen) = ⟨0, 0, 0, 0, 0⟩
  inFile : (layout.append key value).size ≤ file.size

theorem tab_of_zeros (file : File) (off : Nat) :
    tabAt (Store.apply file ⟨headerLen + off, zeros sizeofTab⟩).bytes off = ⟨0, 0, 0, 0, 0⟩ := by
  have payload : slice (Store.apply file ⟨headerLen + off, zeros sizeofTab⟩).bytes
      (headerLen + off) sizeofTab = zeros sizeofTab := by
    have whole := slice_overlay_self file.bytes (headerLen + off) (zeros sizeofTab)
    rwa [zeros_length] at whole
  rw [tabAt, payload]
  decide

theorem Represents.prepared (represents : Represents layout file) (idle : Idle file)
    (putable : Putable layout file key value) (absent : layout.find key = none) :
    Throughout (Shown layout) (stageWrites file layout key value) file ∧
      Prepared layout key value (applyAll (stageWrites file layout key value) file) := by
  have sound := represents.sound
  have shown := represents.shown.saved idle (Or.inr rfl)
  have ready := represents.ready.saved layout.last
  have small : (layout.keyTaken key value).size + sizeofTab < 2 ^ 32 := by
    simpa [Layout.put, absent, Layout.append] using putable.small
  have valueSmall : (layout.valueTaken value).size < 2 ^ 32 := by
    have grown : (layout.valueTaken value).size ≤ (layout.keyTaken key value).size :=
      plan_size _ _ _
    simp only [sizeofTab] at small
    omega
  have keySmall : (layout.keyTaken key value).size < 2 ^ 32 := by omega
  have avoids := stage_avoids sound key value
  have keeps := stage_keeps layout key value
  refine ⟨throughout_cons represents.shown (throughout_of_subset fun done subset => ?_), ?_⟩
  · exact shown.unseen (fun region live change inside => avoids region live change (subset inside))
      fun change inside => keeps change (subset inside)
  have start : Holding (applyAll [saveHeader file layout.last] file).bytes ⟨0, 0, 0, 0, 0⟩ := by
    have holding := save_holding file layout.last
    rwa [table_last represents.shown.table] at holding
  have whole : applyAll (stageWrites file layout key value) file =
      applyAll ((layout.valueTaken value).writes ++ ((layout.keyTaken key value).writes ++
        growWrites layout key value)) (applyAll [saveHeader file layout.last] file) := rfl
  rw [whole]
  have blankSaved : key = [] ∨ value = [] →
      Blank (applyAll [saveHeader file layout.last] file) layout.size := fun empty =>
    (putable.blank empty).after le_rfl (save_below sound.room _)
  generalize applyAll [saveHeader file layout.last] file = saved
    at shown ready start blankSaved
  have keyReady : Ready (applyAll (layout.valueTaken value).writes saved)
      (layout.valueTaken value).free (layout.valueTaken value).size :=
    (ready.alloc (putable.valueServed absent) valueSmall).2
  have valueStored : Stored (applyAll (layout.valueTaken value).writes saved).bytes value
      (layout.valueTaken value).blocks :=
    plan_stored ready.supply ready.room ready.some valueSmall fun empty =>
      blankSaved (Or.inr empty)
  have keyStored : Stored (applyAll (layout.keyTaken key value).writes
      (applyAll (layout.valueTaken value).writes saved)).bytes key
      (layout.keyTaken key value).blocks :=
    plan_stored keyReady.supply keyReady.room keyReady.some keySmall fun empty =>
      (blankSaved (Or.inl empty)).after (plan_size _ _ _)
        (plan_writes_below value sound.room sound.supply ready.supply.below)
  have grown := grow_avoids sound key value
  have keyed := key_avoids sound key value
  refine ⟨shown.unseen avoids keeps, start.after keeps, ?_, ?_, ?_, ?_⟩
  · rw [applyAll_append]
    refine stored_congr (fun block used => applyAll_eqOn ?_) valueStored
    have inBlocks : blockRegion block ∈ (layout.valueTaken value).blocks.map blockRegion :=
      List.mem_map_of_mem used
    exact (keyed.append (grown.mono (by
      intro region inside
      simp only [List.append_assoc] at inside ⊢
      rw [← List.append_assoc]
      exact List.mem_append_left _ inside))) _ (List.mem_append_right _ inBlocks)
  · rw [applyAll_append, applyAll_append]
    refine stored_congr (fun block used => applyAll_eqOn ?_) keyStored
    exact grown (blockRegion block) (List.mem_append_left _ (List.mem_append_right _
      (List.mem_map_of_mem used)))
  · rw [applyAll_append, applyAll_append]
    exact tab_of_zeros _ _
  · have inside := @written_inside saved ((layout.valueTaken value).writes ++
      ((layout.keyTaken key value).writes ++ growWrites layout key value))
      ⟨headerLen + ((layout.keyTaken key value).size - headerLen), zeros sizeofTab⟩
      (by simp [growWrites]) (by simp [zeros])
    have room := sound.keyRoom key value
    simp only [zeros_length] at inside
    change (layout.keyTaken key value).size + sizeofTab ≤ _
    omega

theorem new_tab_bytes {next : Nat} {keyAt valueAt : List Nat} (key value : List UInt8)
    (nextSmall : next < 2 ^ 32) (keySmall : keyAt.headD 0 < 2 ^ 32)
    (valueSmall : valueAt.headD 0 < 2 ^ 32) :
    Tab.ofBytes (newTab next key value keyAt valueAt).bytes = newTab next key value keyAt valueAt :=
  tab_of_bytes _ nextSmall keySmall (u32_lt _) valueSmall (u32_lt _)

/-- Filling in the entry commits an append, whether or not the flag is cleared. -/
theorem Prepared.committed (prepared : Prepared layout key value file) (sound : layout.Sound)
    (keyPlain : 0 ∉ key) (valuePlain : 0 ∉ value)
    (small : (layout.append key value).size < 2 ^ 32) :
    Shown (layout.append key value) (applyAll [commitWrite layout key value] file) := by
  have shown := prepared.shown
  have staging := sound.staging key value
  have appended := sound.append key value
  have room := sound.keyRoom key value
  have valueSome := (@plan_suffix _ layout.size value sound.supply).2
  have keySmall : (layout.keyTaken key value).size < 2 ^ 32 := by
    change (layout.keyTaken key value).size + sizeofTab < 2 ^ 32 at small
    omega
  have keyHead : blockRegion ((layout.keyTaken key value).blocks.headD 0) ∈
      (layout.keyTaken key value).blocks.map blockRegion :=
    List.mem_map_of_mem (headD_mem (plan_blocks_ne_nil valueSome))
  have valueHead : blockRegion ((layout.valueTaken value).blocks.headD 0) ∈
      (layout.valueTaken value).blocks.map blockRegion :=
    List.mem_map_of_mem (headD_mem (plan_blocks_ne_nil sound.supply))
  have keyBound := staging.inside _ (List.mem_append_left _ (List.mem_append_right _ keyHead))
  have valueBound := staging.inside _ (List.mem_append_left _ (List.mem_append_left _
    (List.mem_append_right _ valueHead)))
  simp only [blockRegion] at keyBound valueBound
  have bytes := @new_tab_bytes ((layout.keyTaken key value).size - headerLen)
    (layout.keyTaken key value).blocks (layout.valueTaken value).blocks key value (by omega)
    (by omega) (by omega)
  -- every region but the entry itself stays as it was
  have same {region : Region} (clear : Clear (tabRegion layout.last) region) :
      Set.EqOn (applyAll [commitWrite layout key value] file).bytes file.bytes region.addresses :=
    apply_eqOn (set_tab_avoids clear)
  have entriesClear {region : Region} (inside : region ∈ layout.entries.flatMap Entry.regions) :
      Clear (tabRegion layout.last) region :=
    (shown.packed.cross inside (by simp)).symm
  have valueClear {block : Nat} (used : block ∈ (layout.valueTaken value).blocks) :
      Clear (tabRegion layout.last) (blockRegion block) := by
    have packed := staging
    rw [List.append_assoc, List.append_assoc] at packed
    exact packed.cross layout.last_live (List.mem_append_left _ (List.mem_map_of_mem used))
  have keyClear {block : Nat} (used : block ∈ (layout.keyTaken key value).blocks) :
      Clear (tabRegion layout.last) (blockRegion block) := by
    have packed := staging
    rw [List.append_assoc, List.append_assoc] at packed
    exact packed.cross layout.last_live (List.mem_append_right _
      (List.mem_append_left _ (List.mem_map_of_mem used)))
  have keeps : KeepsBackup [commitWrite layout key value] :=
    keeps_backup_above (by simp [commitWrite, setTab])
  have tab : tabAt (applyAll [commitWrite layout key value] file).bytes layout.last =
      newTab ((layout.keyTaken key value).size - headerLen) key value
        (layout.keyTaken key value).blocks (layout.valueTaken value).blocks :=
    (tab_written file layout.last _).trans bytes
  have current : currentAt (applyAll [commitWrite layout key value] file).bytes layout.last =
      newTab ((layout.keyTaken key value).size - headerLen) key value
        (layout.keyTaken key value).blocks (layout.valueTaken value).blocks := by
    rw [(prepared.holding.after keeps).current, tab, if_neg]
    intro zero
    have first := next_off_region layout.entries layout.last
    rw [shown.start] at first
    have packed := staging
    rw [List.append_assoc, List.append_assoc] at packed
    have clear := packed.cross first (List.mem_append_right _ (List.mem_append_left _ keyHead))
    simp only [newTab] at zero
    rw [← zero] at clear
    simp only [Clear, tabRegion, blockRegion, sizeofTab, sizeofString] at clear
    omega
  have ending : (layout.append key value).last = (layout.keyTaken key value).size - headerLen := rfl
  refine ⟨?_, ?_, appended.live, small, ?_, ?_⟩
  · rw [ending]
    refine table_extend shown.table ?_ rfl ⟨?_, ?_, ?_, ?_, ?_, ?_⟩ ?_
    · intro listed inList next found
      have regions : ∀ region ∈ listed.regions, Set.EqOn
          (applyAll [commitWrite layout key value] file).bytes file.bytes region.addresses :=
        fun region inside => same (entriesClear ((entry_sublist inList).subset inside))
      exact entry_congr regions (current_congr keeps
        (tab_congr (regions _ (by simp [Entry.regions])))) found
    · simp only [tab, newTab]
    · exact congrArg Tab.key tab
    · exact stored_congr (fun block used => same (keyClear used)) prepared.keyStored
    · exact congrArg Tab.value current
    · exact congrArg Tab.valueLen current
    · exact stored_congr (fun block used => same (valueClear used)) prepared.valueStored
    · refine (tab_congr (same ?_)).trans prepared.blank
      have below := staging.inside _ (List.mem_append_left _ (List.mem_append_left _
        (List.mem_append_left _ layout.last_live)))
      refine Or.inl ?_
      simp only [tabRegion] at below ⊢
      omega
  · have start := shown.start
    simp only [Layout.append]
    cases entries : layout.entries with
    | nil => simpa [nextOff, entries] using start
    | cons first rest => simpa [nextOff, entries] using start
  · intro region inside
    exact ((appended.live.inside region inside).2.trans prepared.inFile).trans
      (size_le_applyAll _ _)
  · intro listed inList
    rcases List.mem_append.mp inList with old | new
    · exact shown.plain listed old
    · rw [List.mem_singleton.mp new]
      exact ⟨keyPlain, valuePlain⟩

/-- With an empty saved entry, clearing the flag changes nothing. -/
theorem Shown.cleared (shown : Shown layout file) (holding : Holding file.bytes ⟨0, 0, 0, 0, 0⟩) :
    Shown layout (applyAll [clearFlag] file) := by
  have avoids : Avoids [clearFlag] layout.live :=
    clear_live fun region inside => (shown.packed.inside region inside).1
  refine shown.after avoids fun entry member => ?_
  obtain ⟨_, found⟩ := table_entry shown.table member
  rw [clear_current, holding.current, if_neg]
  · exact tab_congr (applyAll_eqOn (avoids _ (layout.entry_live member (by simp [Entry.regions]))))
  · rw [found.key]
    exact (shown.key_block member).2.symm

/-- An append: the old layout until the entry is filled in, the new one from then. -/
theorem append_visible (represents : Represents layout file) (idle : Idle file)
    (putable : Putable layout file key value) (absent : layout.find key = none) :
    Throughout (Shown layout) (stageWrites file layout key value) file ∧
      Throughout (Shown (layout.put key value)) [clearFlag]
        (applyAll (stageWrites file layout key value ++ [commitWrite layout key value]) file) := by
  obtain ⟨along, prepared⟩ := represents.prepared idle putable absent
  have put : layout.put key value = layout.append key value := by
    simp [Layout.put, absent]
  have small := putable.small
  rw [put] at small ⊢
  have committed := prepared.committed represents.sound putable.keyPlain putable.valuePlain small
  have keeps : KeepsBackup [commitWrite layout key value] :=
    keeps_backup_above (by simp [commitWrite, setTab])
  rw [applyAll_append]
  exact ⟨along, throughout_cons committed
    (throughout_nil (committed.cleared (prepared.holding.after keeps)))⟩

end Appending

/-- Readers see the old layout or the new one, whichever write comes last, and the
new one in the end. -/
theorem put_visible {layout : Layout} {file : File} {key value : List UInt8}
    (represents : Represents layout file) (idle : Idle file)
    (putable : Putable layout file key value) :
    Throughout (fun reached => Shown layout reached ∨ Shown (layout.put key value) reached)
        (putWrites file layout key value) file ∧
      Shown (layout.put key value) (applyAll (putWrites file layout key value) file) := by
  have weaken {changes : List Pwrite} {start : File}
      (along : Throughout (Shown layout) changes start) :
      Throughout (fun reached => Shown layout reached ∨ Shown (layout.put key value) reached)
        changes start := fun count => Or.inl (along count)
  cases found : layout.find key with
  | some entry =>
      obtain ⟨along, final⟩ := update_visible represents idle putable found
      simp only [putWrites, found]
      refine ⟨throughout_append (weaken along) (throughout_cons (Or.inl along.last)
        (throughout_nil (Or.inr ?_))), final⟩
      rwa [applyAll_append] at final
  | none =>
      obtain ⟨along, later⟩ := append_visible represents idle putable found
      simp only [putWrites, found]
      have final := later.last
      rw [← applyAll_append, List.append_assoc] at final
      refine ⟨throughout_append (weaken along) (throughout_cons (Or.inl along.last) ?_), final⟩
      rw [applyAll_append] at later
      exact fun count => Or.inr (later count)

end OsWorkbench.Kvdb
