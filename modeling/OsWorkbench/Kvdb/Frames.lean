import OsWorkbench.Kvdb.Backup

/-!
# What a put under way leaves visible

Lists of writes that stay clear of the live regions change nothing for a reader.
While the flag is set, the saved entry stands in for the entry it was copied from.
-/

namespace OsWorkbench.Kvdb

open ByteStore WriteTrace Regions

/-- Writes that stay clear of a list of regions. -/
def Avoids (changes : List Pwrite) (regions : List Region) : Prop :=
  ∀ region ∈ regions, ∀ change ∈ changes, Disjoint (touches change) region.addresses

/-- Writes that stay clear of the saved entry and the flag. -/
def KeepsBackup (changes : List Pwrite) : Prop :=
  ∀ change ∈ changes, Disjoint (touches change) (span backupTab sizeofTab) ∧
    Disjoint (touches change) (span backupFlag 1)

/-- The flag is set and the saved entry is `saved`. -/
structure Holding (bytes : Bytes) (saved : Tab) : Prop where
  flag : bytes backupFlag ≠ 0
  tab : Tab.ofBytes (slice bytes backupTab sizeofTab) = saved

section Entries

variable {bytes other : Bytes} {entry : Entry} {next off : Nat} {saved : Tab}

theorem tab_congr (same : Set.EqOn other bytes (tabRegion off).addresses) :
    tabAt other off = tabAt bytes off :=
  congrArg Tab.ofBytes (slice_congr same)

theorem entry_congr (same : ∀ region ∈ entry.regions, Set.EqOn other bytes region.addresses)
    (current : currentAt other entry.off = currentAt bytes entry.off)
    (found : EntryAt bytes entry next) : EntryAt other entry next := by
  have tab := tab_congr (same (tabRegion entry.off) (by simp [Entry.regions]))
  have blocks : ∀ block ∈ entry.keyAt ++ entry.valueAt,
      Set.EqOn other bytes (span (headerLen + block) sizeofString) := fun block member =>
    same (blockRegion block) (List.mem_cons_of_mem _ (List.mem_map_of_mem member))
  refine ⟨?_, ?_, ?_, ?_, ?_, ?_⟩
  · rw [tab, found.next]
  · rw [tab, found.key]
  · exact stored_congr (fun block member => blocks block (List.mem_append_left _ member))
      found.keyStored
  · rw [current, found.value]
  · rw [current, found.valueLen]
  · exact stored_congr (fun block member => blocks block (List.mem_append_right _ member))
      found.valueStored

theorem current_idle (idle : bytes backupFlag = 0) : currentAt bytes off = tabAt bytes off := by
  simp [currentAt, idle]

theorem word_of_tab (bytes : Bytes) :
    (Tab.ofBytes (slice bytes backupTab sizeofTab)).key = word bytes (backupTab + 4) :=
  word_of_slice bytes backupTab sizeofTab 4 (by simp)

theorem Holding.current (holding : Holding bytes saved) :
    currentAt bytes off = if saved.key = (tabAt bytes off).key then saved
      else tabAt bytes off := by
  have key := word_of_tab bytes
  rw [holding.tab] at key
  simp only [currentAt, holding.flag, ne_eq, not_false_eq_true, true_and, ← key, holding.tab]

theorem table_congr {last : Nat} {entries : List Entry}
    (same : ∀ entry ∈ entries, ∀ next, EntryAt bytes entry next → EntryAt other entry next)
    (ending : tabAt other last = tabAt bytes last) (table : Table bytes last entries) :
    Table other last entries := by
  induction entries with
  | nil => exact ending.trans table
  | cons entry rest ih =>
      exact ⟨same entry (by simp) _ table.1,
        ih (fun later member => same later (by simp [member])) table.2⟩

theorem table_entry {last : Nat} {entries : List Entry} (table : Table bytes last entries)
    (member : entry ∈ entries) : ∃ next, EntryAt bytes entry next := by
  induction entries with
  | nil => simp at member
  | cons first rest ih =>
      rcases List.mem_cons.mp member with rfl | later
      · exact ⟨_, table.1⟩
      · exact ih table.2 later

theorem table_last {last : Nat} {entries : List Entry} (table : Table bytes last entries) :
    tabAt bytes last = ⟨0, 0, 0, 0, 0⟩ := by
  induction entries with
  | nil => exact table
  | cons entry rest ih => exact ih table.2

end Entries

section Backups

variable {file : File} {changes : List Pwrite} {saved : Tab} {off : Nat}

theorem keeps_backup_slice (keeps : KeepsBackup changes) :
    slice (applyAll changes file).bytes backupTab sizeofTab =
      slice file.bytes backupTab sizeofTab :=
  slice_congr (applyAll_eqOn fun change member => (keeps change member).1)

theorem keeps_backup_flag (keeps : KeepsBackup changes) :
    (applyAll changes file).bytes backupFlag = file.bytes backupFlag :=
  applyAll_eqOn (fun change member => (keeps change member).2) (by simp)

theorem Holding.after (holding : Holding file.bytes saved) (keeps : KeepsBackup changes) :
    Holding (applyAll changes file).bytes saved where
  flag := by
    rw [keeps_backup_flag keeps]
    exact holding.flag
  tab := by
    rw [keeps_backup_slice keeps]
    exact holding.tab

theorem current_congr (keeps : KeepsBackup changes)
    (tab : tabAt (applyAll changes file).bytes off = tabAt file.bytes off) :
    currentAt (applyAll changes file).bytes off = currentAt file.bytes off := by
  have key := word_of_tab (applyAll changes file).bytes
  rw [keeps_backup_slice keeps, word_of_tab] at key
  simp only [currentAt, keeps_backup_flag keeps, keeps_backup_slice keeps, ← key, tab]

theorem keeps_backup_of_confined {blocks : List Nat} (confined : Confined changes blocks) :
    KeepsBackup changes := by
  intro change member
  constructor
  · rw [Set.disjoint_left]
    intro address touched inside
    simp only [mem_span, backupTab, sizeofTab] at inside
    rcases confined change member touched with head | size | prev | ⟨block, used, within⟩
    · simp only [mem_span, freeHead] at head
      omega
    · simp only [mem_span, freeSize] at size
      omega
    · simp only [mem_span, backupPrev] at prev
      omega
    · simp only [mem_span, headerLen] at within
      omega
  · rw [Set.disjoint_left]
    intro address touched inside
    simp only [mem_span, backupFlag] at inside
    rcases confined change member touched with head | size | prev | ⟨block, used, within⟩
    · simp only [mem_span, freeHead] at head
      omega
    · simp only [mem_span, freeSize] at size
      omega
    · simp only [mem_span, backupPrev] at prev
      omega
    · simp only [mem_span, headerLen] at within
      omega

theorem keeps_backup_above {change : Pwrite} (above : headerLen ≤ change.offset) :
    KeepsBackup [change] := by
  intro other member
  rw [List.mem_singleton.mp member]
  constructor
  · apply span_disjoint
    simp only [backupTab, sizeofTab, headerLen] at above ⊢
    omega
  · apply span_disjoint
    simp only [backupFlag, headerLen] at above ⊢
    omega

theorem keeps_backup_list {value spot : Nat} (inside : spot + 4 ≤ backupTab) :
    KeepsBackup [⟨spot, wordBytes value⟩] := by
  intro other member
  rw [List.mem_singleton.mp member]
  constructor
  · apply span_disjoint
    simp only [word_bytes_length]
    omega
  · apply span_disjoint
    simp only [word_bytes_length, backupFlag, backupTab] at inside ⊢
    omega

theorem KeepsBackup.append {more : List Pwrite} (keeps : KeepsBackup changes)
    (also : KeepsBackup more) : KeepsBackup (changes ++ more) := by
  intro change member
  rcases List.mem_append.mp member with left | right
  · exact keeps change left
  · exact also change right

theorem Avoids.append {regions : List Region} {more : List Pwrite} (avoids : Avoids changes regions)
    (also : Avoids more regions) : Avoids (changes ++ more) regions := by
  intro region inside change member
  rcases List.mem_append.mp member with left | right
  · exact avoids region inside change left
  · exact also region inside change right

theorem avoids_single {regions : List Region} {change : Pwrite}
    (disjoint : ∀ region ∈ regions, Disjoint (touches change) region.addresses) :
    Avoids [change] regions := by
  intro region inside other member
  rw [List.mem_singleton.mp member]
  exact disjoint region inside

end Backups

section Readers

variable {layout : Layout} {file : File} {changes : List Pwrite}

theorem Layout.entry_live {entry : Entry} (member : entry ∈ layout.entries) {region : Region}
    (inside : region ∈ entry.regions) : region ∈ layout.live :=
  List.mem_append_left _ ((entry_sublist member).subset inside)

theorem Layout.last_live (layout : Layout) : tabRegion layout.last ∈ layout.live :=
  List.mem_append_right _ (by simp)

/-- Writes clear of the live regions are not seen, as long as readers are led to
the same entries. -/
theorem Shown.after (shown : Shown layout file) (avoids : Avoids changes layout.live)
    (current : ∀ entry ∈ layout.entries,
      currentAt (applyAll changes file).bytes entry.off = currentAt file.bytes entry.off) :
    Shown layout (applyAll changes file) where
  table := by
    refine table_congr (fun entry member next => entry_congr ?_ (current entry member)) ?_
      shown.table
    · exact fun region inside => applyAll_eqOn (avoids region (layout.entry_live member inside))
    · exact tab_congr (applyAll_eqOn (avoids _ layout.last_live))
  start := shown.start
  packed := shown.packed
  small := shown.small
  inFile region member := (shown.inFile region member).trans (size_le_applyAll _ _)
  plain := shown.plain

theorem Shown.unseen (shown : Shown layout file) (avoids : Avoids changes layout.live)
    (keeps : KeepsBackup changes) : Shown layout (applyAll changes file) :=
  shown.after avoids fun entry member => current_congr keeps
    (tab_congr (applyAll_eqOn (avoids _ (layout.entry_live member (by simp [Entry.regions])))))

/-- A region of positive length belongs to one entry only. -/
theorem entry_unique {low high : Nat} (packed : Packed layout.live low high)
    {entry other : Entry} (left : entry ∈ layout.entries) (right : other ∈ layout.entries)
    {region : Region} (inLeft : region ∈ entry.regions) (inRight : region ∈ other.regions)
    (positive : 0 < region.count) : entry = other := by
  by_contra unlike
  obtain ⟨before, after, whole⟩ := List.append_of_mem left
  have overlap : ¬ Clear region region := by
    simp only [Clear]
    omega
  have apart := packed.apart
  simp only [Layout.live, whole, List.flatMap_append, List.flatMap_cons, List.append_assoc,
    List.pairwise_append] at apart
  rw [whole] at right
  rcases List.mem_append.mp right with earlier | later
  · exact overlap (apart.2.2 region ((entry_sublist earlier).subset inRight) region
      (List.mem_append_left _ inLeft))
  · rcases List.mem_cons.mp later with same | behind
    · exact unlike same.symm
    · exact overlap (apart.2.1.2.2 region inLeft region
        (List.mem_append_left _ ((entry_sublist behind).subset inRight)))

theorem Shown.key_block (shown : Shown layout file) {entry : Entry}
    (member : entry ∈ layout.entries) :
    blockRegion (entry.keyAt.headD 0) ∈ entry.regions ∧ entry.keyAt.headD 0 ≠ 0 := by
  obtain ⟨next, found⟩ := table_entry shown.table member
  have inside := headD_mem (stored_ne_nil found.keyStored)
  exact ⟨List.mem_cons_of_mem _ (List.mem_map_of_mem (List.mem_append_left _ inside)),
    shown.walkable.blocks entry member _ (List.mem_append_left _ inside)⟩

/-- Entries are told apart by the first block of their key. -/
theorem Shown.key_unique (shown : Shown layout file) {entry other : Entry}
    (left : entry ∈ layout.entries) (right : other ∈ layout.entries)
    (same : (tabAt file.bytes entry.off).key = (tabAt file.bytes other.off).key) :
    entry = other := by
  obtain ⟨_, found⟩ := table_entry shown.table left
  obtain ⟨_, also⟩ := table_entry shown.table right
  rw [found.key, also.key] at same
  have inRight := (shown.key_block right).1
  rw [← same] at inRight
  exact entry_unique shown.packed left right (shown.key_block left).1 inRight
    (by simp [blockRegion])

theorem save_live {pos : Nat} (packed : Packed layout.live headerLen layout.size) :
    Avoids [saveHeader file pos] layout.live :=
  avoids_single fun region member => save_avoids (packed.inside region member).1

theorem save_holding (file : File) (pos : Nat) :
    Holding (applyAll [saveHeader file pos] file).bytes (tabAt file.bytes pos) where
  flag := by
    change (Store.apply file (saveHeader file pos)).bytes backupFlag ≠ 0
    rw [saved_flag]
    decide
  tab := congrArg Tab.ofBytes saved_tab

/-- The saved entry of a table is the value of no other one. -/
theorem Shown.current_saved (shown : Shown layout file) (idle : Idle file) {pos : Nat}
    (place : (∃ entry ∈ layout.entries, entry.off = pos) ∨ pos = layout.last) {other : Bytes}
    (holding : Holding other (tabAt file.bytes pos)) {entry : Entry}
    (member : entry ∈ layout.entries) (tab : tabAt other entry.off = tabAt file.bytes entry.off) :
    currentAt other entry.off = currentAt file.bytes entry.off := by
  rw [holding.current, tab, current_idle idle]
  split_ifs with same
  · rcases place with ⟨chosen, listed, rfl⟩ | rfl
    · rw [shown.key_unique listed member same]
    · obtain ⟨_, found⟩ := table_entry shown.table member
      rw [table_last shown.table, found.key] at same
      exact absurd same.symm (shown.key_block member).2
  · rfl

/-- Saving an entry of the table shows the same table. -/
theorem Shown.saved (shown : Shown layout file) (idle : Idle file) {pos : Nat}
    (place : (∃ entry ∈ layout.entries, entry.off = pos) ∨ pos = layout.last) :
    Shown layout (applyAll [saveHeader file pos] file) := by
  refine shown.after (save_live shown.packed) ?_
  intro entry member
  apply shown.current_saved idle place (save_holding file pos) member
  exact tab_congr (applyAll_eqOn (save_live shown.packed _
    (layout.entry_live member (by simp [Entry.regions]))))

end Readers

end OsWorkbench.Kvdb
