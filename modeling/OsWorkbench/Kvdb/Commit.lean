import OsWorkbench.Kvdb.Frames

/-!
# Where a put takes effect

The writes of the two branches of `_kvdb_put`, and what they show to a reader one
by one. An update takes effect when the flag is cleared; a new key takes effect
when its table entry is written.
-/

namespace OsWorkbench.Kvdb

open ByteStore WriteTrace Regions

/-- A layout in a file: what readers see, and the free list. -/
structure Represents (layout : Layout) (file : File) : Prop where
  shown : Shown layout file
  sound : layout.Sound
  ready : Ready file layout.free layout.size

def setTab (off : Nat) (tab : Tab) : Pwrite := ⟨headerLen + off, tab.bytes⟩

def assignedTab (file : File) (entry : Entry) (blocks : List Nat) (value : List UInt8) : Tab :=
  { tabAt file.bytes entry.off with value := blocks.headD 0, valueLen := u32 value.length }

def newTab (next : Nat) (key value : List UInt8) (keyAt valueAt : List Nat) : Tab where
  next := next
  key := keyAt.headD 0
  keyLen := u32 key.length
  value := valueAt.headD 0
  valueLen := u32 value.length

/-- The writes of `updateEntry`. -/
def updateWrites (file : File) (layout : Layout) (entry : Entry) (value : List UInt8) :
    List Pwrite :=
  let taken := layout.valueTaken value
  saveHeader file entry.off :: (taken.writes ++
    [setTab entry.off (assignedTab file entry taken.blocks value),
      setLink (layout.free.getLastD 0) (entry.valueAt.headD 0),
      setTail (entry.valueAt.getLastD 0)])

/-- The writes of `appendEntry` before the one that makes the entry visible. -/
def stageWrites (file : File) (layout : Layout) (key value : List UInt8) : List Pwrite :=
  let keyTaken := layout.keyTaken key value
  saveHeader file layout.last :: ((layout.valueTaken value).writes ++ (keyTaken.writes ++
    [setSize (keyTaken.size + sizeofTab),
      ⟨headerLen + (keyTaken.size - headerLen), zeros sizeofTab⟩]))

/-- The write that makes the new entry visible. -/
def commitWrite (layout : Layout) (key value : List UInt8) : Pwrite :=
  setTab layout.last (newTab ((layout.keyTaken key value).size - headerLen) key value
    (layout.keyTaken key value).blocks (layout.valueTaken value).blocks)

def putWrites (file : File) (layout : Layout) (key value : List UInt8) : List Pwrite :=
  match layout.find key with
  | some entry => updateWrites file layout entry value ++ [clearFlag]
  | none => stageWrites file layout key value ++ [commitWrite layout key value, clearFlag]

section Tabs

theorem tab_length (tab : Tab) : tab.bytes.length = sizeofTab := rfl

theorem tab_of_bytes (tab : Tab) (next : tab.next < 2 ^ 32) (key : tab.key < 2 ^ 32)
    (keyLen : tab.keyLen < 2 ^ 32) (value : tab.value < 2 ^ 32) (valueLen : tab.valueLen < 2 ^ 32) :
    Tab.ofBytes tab.bytes = tab := by
  cases tab
  simp only [Tab.ofBytes, Tab.bytes, wordOf, wordBytes] at *
  simp
  omega

theorem tab_written (file : File) (off : Nat) (tab : Tab) :
    tabAt (applyAll [setTab off tab] file).bytes off = Tab.ofBytes tab.bytes :=
  congrArg Tab.ofBytes (slice_overlay_self file.bytes (headerLen + off) tab.bytes)

theorem set_tab_avoids {off : Nat} {tab : Tab} {region : Region}
    (clear : Clear (tabRegion off) region) : Disjoint (touches (setTab off tab)) region.addresses :=
  clear.disjoint

theorem u32_lt (value : Nat) : u32 value < 2 ^ 32 := Nat.mod_lt _ (by decide)

end Tabs

section Tables

variable {bytes other : Bytes} {last : Nat}

/-- One entry of the table gets another value. -/
theorem table_replace {before after : List Entry} {entry changed : Entry}
    (table : Table bytes last (before ++ entry :: after))
    (same : ∀ listed ∈ before ++ after, ∀ next, EntryAt bytes listed next →
      EntryAt other listed next)
    (replaced : ∀ next, EntryAt bytes entry next → EntryAt other changed next)
    (place : changed.off = entry.off) (ending : tabAt other last = tabAt bytes last) :
    Table other last (before ++ changed :: after) := by
  induction before with
  | nil =>
      exact ⟨replaced _ table.1, table_congr (fun listed member => same listed (by simpa using member))
        ending table.2⟩
  | cons first rest ih =>
      refine ⟨?_, ih table.2 fun listed member => same listed (by
        rw [List.cons_append]
        exact List.mem_cons_of_mem _ member)⟩
      have kept := same first (by simp) _ table.1
      cases rest with
      | nil => simpa [nextOff, place] using kept
      | cons second rest => exact kept

/-- The entry that ended the table is filled in. -/
theorem table_extend {entries : List Entry} {added : Entry} {ending : Nat}
    (table : Table bytes last entries)
    (same : ∀ listed ∈ entries, ∀ next, EntryAt bytes listed next → EntryAt other listed next)
    (place : added.off = last) (filled : EntryAt other added ending)
    (blank : tabAt other ending = ⟨0, 0, 0, 0, 0⟩) : Table other ending (entries ++ [added]) := by
  induction entries with
  | nil => exact ⟨filled, blank⟩
  | cons first rest ih =>
      refine ⟨?_, ih table.2 fun listed member => same listed (by simp [member])⟩
      have kept := same first (by simp) _ table.1
      cases rest with
      | nil => simpa [nextOff, place] using kept
      | cons second rest => exact kept

end Tables

section Updating

variable {layout : Layout} {file : File} {entry : Entry} {key value : List UInt8}

/-- Only the entry itself has its own place in the table. -/
theorem tab_clear {low high : Nat} (packed : Packed layout.live low high)
    (member : entry ∈ layout.entries) {region : Region} (inside : region ∈ layout.live)
    (unlike : region ≠ tabRegion entry.off) : Clear (tabRegion entry.off) region :=
  packed.clear_of_ne (layout.entry_live member (by simp [Entry.regions])) inside unlike.symm

theorem block_ne_tab (block off : Nat) : blockRegion block ≠ tabRegion off := by
  simp [blockRegion, tabRegion]

theorem last_clear {low high : Nat} (packed : Packed layout.live low high)
    (member : entry ∈ layout.entries) :
    Clear (tabRegion entry.off) (tabRegion layout.last) :=
  packed.cross ((entry_sublist member).subset (by simp [Entry.regions])) (by simp)

/-- While its saved copy is in use, rewriting an entry shows nothing new. -/
theorem Shown.rewritten (shown : Shown layout file) {saved tab : Tab}
    (holding : Holding file.bytes saved) (member : entry ∈ layout.entries)
    (savedKey : saved.key = (tabAt file.bytes entry.off).key)
    (sameNext : (Tab.ofBytes tab.bytes).next = (tabAt file.bytes entry.off).next)
    (sameKey : (Tab.ofBytes tab.bytes).key = (tabAt file.bytes entry.off).key) :
    Shown layout (applyAll [setTab entry.off tab] file) := by
  have avoids (region : Region) (inside : region ∈ layout.live)
      (unlike : region ≠ tabRegion entry.off) :
      Set.EqOn (applyAll [setTab entry.off tab] file).bytes file.bytes region.addresses :=
    apply_eqOn (set_tab_avoids (tab_clear shown.packed member inside unlike))
  have keeps : KeepsBackup [setTab entry.off tab] := keeps_backup_above (by simp [setTab])
  refine ⟨?_, shown.start, shown.packed, shown.small,
    fun region inside => (shown.inFile region inside).trans (size_le_applyAll _ _), shown.plain⟩
  refine table_congr ?_ (tab_congr ?_) shown.table
  · intro listed inList next found
    by_cases same : listed = entry
    · subst same
      have blocks : ∀ block ∈ listed.keyAt ++ listed.valueAt, Set.EqOn
          (applyAll [setTab listed.off tab] file).bytes file.bytes
          (span (headerLen + block) sizeofString) := fun block inside =>
        avoids _ (layout.entry_live member (List.mem_cons_of_mem _ (List.mem_map_of_mem inside)))
          (block_ne_tab _ _)
      have current : currentAt (applyAll [setTab listed.off tab] file).bytes listed.off =
          currentAt file.bytes listed.off := by
        rw [holding.current, (holding.after keeps).current, tab_written, sameKey, if_pos savedKey,
          if_pos savedKey]
      refine ⟨?_, ?_, ?_, ?_, ?_, ?_⟩
      · rw [tab_written, sameNext, found.next]
      · rw [tab_written, sameKey, found.key]
      · exact stored_congr (fun block inside => blocks block (List.mem_append_left _ inside))
          found.keyStored
      · rw [current, found.value]
      · rw [current, found.valueLen]
      · exact stored_congr (fun block inside => blocks block (List.mem_append_right _ inside))
          found.valueStored
    · have clear : ∀ region ∈ listed.regions, Set.EqOn
          (applyAll [setTab entry.off tab] file).bytes file.bytes region.addresses := by
        intro region inside
        refine avoids region (layout.entry_live inList inside) ?_
        rintro rfl
        exact same (entry_unique shown.packed inList member inside (by simp [Entry.regions])
          (by simp [tabRegion]))
      exact entry_congr clear (current_congr keeps (tab_congr (clear _ (by simp [Entry.regions]))))
        found
  · exact apply_eqOn (set_tab_avoids (last_clear shown.packed member))

/-- Clearing the flag leads readers to the entries themselves. -/
theorem clear_current (file : File) (off : Nat) :
    currentAt (applyAll [clearFlag] file).bytes off = tabAt (applyAll [clearFlag] file).bytes off :=
  current_idle (clear_idle file)

theorem clear_live {regions : List Region} (above : ∀ region ∈ regions, headerLen ≤ region.start) :
    Avoids [clearFlag] regions :=
  avoids_single fun region inside => clear_avoids (above region inside)

theorem Layout.Sound.live {layout : Layout} (sound : layout.Sound) :
    Packed layout.live headerLen layout.size :=
  ⟨sound.packed.apart.sublist (List.sublist_append_left _ _), fun region inside =>
    sound.packed.inside region (List.mem_append_left _ inside)⟩

theorem taken_entry {before after : List Entry} (packed : Packed layout.live headerLen layout.size)
    (whole : layout.entries = before ++ entry :: after) {listed : Entry}
    (inList : listed ∈ before ++ after) : listed ≠ entry := by
  rintro rfl
  have apart := packed.apart.sublist (offs_sublist layout.entries layout.last)
  have distinct : (layout.entries.map Entry.off).Pairwise fun off other => off ≠ other := by
    have tabs := (List.pairwise_map.mp apart).sublist (List.sublist_append_left _ _)
    refine tabs.imp fun clear same => ?_
    subst same
    simp only [Clear, tabRegion, sizeofTab] at clear
    omega
  rw [whole, List.map_append, List.map_cons, List.pairwise_append, List.pairwise_cons] at distinct
  rcases List.mem_append.mp inList with earlier | later
  · exact distinct.2.2 _ (List.mem_map_of_mem earlier) _ (by simp) rfl
  · exact distinct.2.1.1 _ (List.mem_map_of_mem later) rfl

/-- The flag's last write commits an update. -/
theorem Shown.update_committed (shown : Shown layout file) (sound : layout.Sound) {saved : Tab}
    (holding : Holding file.bytes saved) (found : layout.find key = some entry)
    (savedKey : saved.key = (tabAt file.bytes entry.off).key)
    (assigned : (tabAt file.bytes entry.off).value =
      (layout.valueTaken value).blocks.headD 0)
    (assignedLen : (tabAt file.bytes entry.off).valueLen = u32 value.length)
    (stored : Stored file.bytes value (layout.valueTaken value).blocks)
    (inFile : ∀ block ∈ (layout.valueTaken value).blocks,
      headerLen + block + sizeofString ≤ file.size)
    (plain : 0 ∉ value) (small : (layout.valueTaken value).size < 2 ^ 32) :
    Shown (layout.update entry key value) (applyAll [clearFlag] file) := by
  obtain ⟨agrees, before, after, whole, passed⟩ := find_some found
  have member : entry ∈ layout.entries := by simp [whole]
  have updated : (layout.update entry key value).Sound := sound.update found
  have entries : (layout.update entry key value).entries =
      before ++ entry.assign value (layout.valueTaken value).blocks :: after := by
    simp only [Layout.update, whole]
    exact replace_first_append passed agrees
  have same (region : Region) (above : headerLen ≤ region.start) :
      Set.EqOn (applyAll [clearFlag] file).bytes file.bytes region.addresses :=
    apply_eqOn (clear_avoids above)
  have aboveTab (off : Nat) : headerLen ≤ (tabRegion off).start := by simp [tabRegion]
  have aboveBlock (block : Nat) : headerLen ≤ (blockRegion block).start := by simp [blockRegion]
  refine ⟨?_, ?_, updated.live, small, ?_, ?_⟩
  · rw [entries]
    have table := shown.table
    rw [whole] at table
    refine table_replace table ?_ ?_ rfl (tab_congr (same _ (aboveTab _)))
    · intro listed inList next at_listed
      have inEntries : listed ∈ layout.entries := by
        rw [whole]
        rcases List.mem_append.mp inList with earlier | later
        · exact List.mem_append_left _ earlier
        · exact List.mem_append_right _ (List.mem_cons_of_mem _ later)
      refine entry_congr ?_ ?_ at_listed
      · intro region inside
        exact same region (shown.packed.inside region (layout.entry_live inEntries inside)).1
      · rw [clear_current, tab_congr (same _ (aboveTab _)), holding.current, if_neg]
        intro keyed
        exact taken_entry shown.packed whole inList
          (shown.key_unique inEntries member (keyed.symm.trans savedKey))
    · intro next at_entry
      have tab := tab_congr (same _ (aboveTab entry.off))
      refine ⟨?_, ?_, ?_, ?_, ?_, ?_⟩
      · exact (congrArg Tab.next tab).trans at_entry.next
      · exact (congrArg Tab.key tab).trans at_entry.key
      · exact stored_congr (fun block _ => same _ (aboveBlock block)) at_entry.keyStored
      · exact (congrArg Tab.value ((clear_current file entry.off).trans tab)).trans assigned
      · exact (congrArg Tab.valueLen ((clear_current file entry.off).trans tab)).trans assignedLen
      · exact stored_congr (fun block _ => same _ (aboveBlock block)) stored
  · rw [entries]
    have start := shown.start
    rw [whole] at start
    cases before <;> exact start
  · intro region inside
    refine le_trans ?_ (size_le_applyAll _ _)
    simp only [Layout.live, entries, List.flatMap_append, List.flatMap_cons] at inside
    have old : region ∈ layout.live ∨ region ∈
        (layout.valueTaken value).blocks.map blockRegion := by
      simp only [Layout.live, whole, List.flatMap_append, List.flatMap_cons, Entry.regions,
        Entry.assign, List.map_append, List.mem_append, List.mem_cons] at inside ⊢
      tauto
    rcases old with live | taken
    · exact shown.inFile region live
    · obtain ⟨block, used, rfl⟩ := List.mem_map.mp taken
      exact inFile block used
  · intro listed inList
    rw [entries] at inList
    rcases List.mem_append.mp inList with earlier | later
    · exact shown.plain listed (by simp [whole, earlier])
    · rcases List.mem_cons.mp later with rfl | behind
      · exact ⟨(shown.plain entry member).1, plain⟩
      · exact shown.plain listed (by simp [whole, behind])

end Updating

end OsWorkbench.Kvdb
