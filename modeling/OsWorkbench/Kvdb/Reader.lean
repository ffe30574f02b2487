import OsWorkbench.Kvdb.Layout

/-!
# Reading the table

`Shown` is what a reader of the file depends on: the chain of table entries with
their strings, where the value of an entry is the one the reader is led to, by
the saved entry if a put has left its flag. `_kvdb_get` on such a file returns
the value of the first matching entry.
-/

namespace OsWorkbench.Kvdb

open ByteStore WriteTrace Regions

/-- The entry a reader takes the value from. -/
def currentAt (bytes : Bytes) (off : Nat) : Tab :=
  if bytes backupFlag ≠ 0 ∧ word bytes (backupTab + 4) = (tabAt bytes off).key then
    Tab.ofBytes (slice bytes backupTab sizeofTab)
  else tabAt bytes off

structure EntryAt (bytes : Bytes) (entry : Entry) (next : Nat) : Prop where
  next : (tabAt bytes entry.off).next = next
  key : (tabAt bytes entry.off).key = entry.keyAt.headD 0
  keyStored : Stored bytes entry.key entry.keyAt
  value : (currentAt bytes entry.off).value = entry.valueAt.headD 0
  valueLen : (currentAt bytes entry.off).valueLen = u32 entry.value.length
  valueStored : Stored bytes entry.value entry.valueAt

/-- The offset of the first entry, `last` if there is none. -/
def nextOff : List Entry → Nat → Nat
  | [], last => last
  | entry :: _, _ => entry.off

def Table (bytes : Bytes) (last : Nat) : List Entry → Prop
  | [] => tabAt bytes last = ⟨0, 0, 0, 0, 0⟩
  | entry :: rest => EntryAt bytes entry (nextOff rest last) ∧ Table bytes last rest

structure Shown (layout : Layout) (file : File) : Prop where
  table : Table file.bytes layout.last layout.entries
  start : nextOff layout.entries layout.last = 0
  packed : Packed layout.live headerLen layout.size
  small : layout.size < 2 ^ 32
  inFile : ∀ region ∈ layout.live, region.start + region.count ≤ file.size
  plain : ∀ entry ∈ layout.entries, 0 ∉ entry.key ∧ 0 ∉ entry.value

/-- What a walk from some entry on depends on. -/
structure Walkable (file : File) (last : Nat) (entries : List Entry) : Prop where
  table : Table file.bytes last entries
  readable : ∀ region ∈ entries.flatMap Entry.regions ++ [tabRegion last],
    region.start + region.count ≤ file.size ∧ region.start + region.count < 2 ^ 32
  onward : ∀ off ∈ (entries.map Entry.off ++ [last]).tail, off ≠ 0
  blocks : ∀ entry ∈ entries, ∀ block ∈ entry.keyAt ++ entry.valueAt, block ≠ 0
  plain : ∀ entry ∈ entries, 0 ∉ entry.key ∧ 0 ∉ entry.value
  fits : ∀ entry ∈ entries, entry.value.length + 1 < 2 ^ 32

section Regions

theorem stored_length {bytes : Bytes} {chars : List UInt8} {blocks : List Nat}
    (stored : Stored bytes chars blocks) : chars.length ≤ blockLen * blocks.length := by
  induction blocks generalizing chars with
  | nil => exact stored.elim
  | cons block rest ih =>
      cases rest with
      | nil => simpa using stored.1
      | cons next rest =>
          obtain ⟨long, -, -, later⟩ := stored
          have bound := ih later
          simp only [List.length_drop, List.length_cons, blockLen] at bound ⊢
          omega

theorem entry_sublist {entries : List Entry} {entry : Entry} (member : entry ∈ entries) :
    entry.regions.Sublist (entries.flatMap Entry.regions) :=
  List.sublist_flatten_of_mem (List.mem_map_of_mem member)

/-- The offsets of the table are pairwise different. -/
theorem offs_sublist (entries : List Entry) (last : Nat) :
    ((entries.map Entry.off ++ [last]).map tabRegion).Sublist
      (entries.flatMap Entry.regions ++ [tabRegion last]) := by
  induction entries with
  | nil => simp
  | cons entry rest ih =>
      simp only [List.map_cons, List.cons_append, List.flatMap_cons, Entry.regions]
      exact (ih.trans (by
        rw [List.append_assoc]
        exact List.sublist_append_right _ _)).cons_cons _

theorem next_off_head (entries : List Entry) (last : Nat) :
    ∃ later, entries.map Entry.off ++ [last] = nextOff entries last :: later := by
  cases entries with
  | nil => exact ⟨[], rfl⟩
  | cons entry rest => exact ⟨_, rfl⟩

theorem next_off_region (entries : List Entry) (last : Nat) :
    tabRegion (nextOff entries last) ∈ entries.flatMap Entry.regions ++ [tabRegion last] := by
  obtain ⟨later, whole⟩ := next_off_head entries last
  exact (offs_sublist entries last).subset (by simp [whole])

end Regions

section Walking

variable {layout : Layout} {file : File} {last : Nat} {entry : Entry} {rest : List Entry}

theorem Shown.walkable (shown : Shown layout file) :
    Walkable file layout.last layout.entries where
  table := shown.table
  readable region member := by
    have bounds := shown.packed.inside region member
    have small := shown.small
    exact ⟨shown.inFile region member, by omega⟩
  onward off member := by
    obtain ⟨later, whole⟩ := next_off_head layout.entries layout.last
    rw [whole, List.tail_cons] at member
    have apart := shown.packed.apart.sublist (offs_sublist layout.entries layout.last)
    rw [whole, List.map_cons, shown.start, List.pairwise_cons] at apart
    have clear := apart.1 (tabRegion off) (List.mem_map_of_mem member)
    rintro rfl
    simp only [Clear, tabRegion, sizeofTab] at clear
    omega
  blocks entry member block inside := by
    have first := next_off_region layout.entries layout.last
    rw [shown.start] at first
    have here : blockRegion block ∈ layout.live := List.mem_append_left _
      ((entry_sublist member).subset (List.mem_cons_of_mem _ (List.mem_map_of_mem inside)))
    have clear := shown.packed.clear_of_ne first here (by simp [tabRegion, blockRegion])
    rintro rfl
    simp only [Clear, tabRegion, blockRegion, sizeofTab, sizeofString] at clear
    omega
  plain := shown.plain
  fits entry member := by
    have stored : entry.value.length ≤ blockLen * entry.valueAt.length := by
      obtain ⟨before, after, whole⟩ := List.append_of_mem member
      have table := shown.table
      rw [whole] at table
      clear whole
      induction before with
      | nil => exact stored_length table.1.valueStored
      | cons _ _ ih => exact ih table.2
    have sublist : (entry.valueAt.map blockRegion).Sublist layout.live := by
      refine List.Sublist.trans ?_ ((entry_sublist member).trans
        (List.sublist_append_left _ _))
      exact ((List.sublist_append_right _ _).map blockRegion).cons _
    have packed : Packed (entry.valueAt.map blockRegion) headerLen layout.size :=
      ⟨shown.packed.apart.sublist sublist, fun region inside =>
        shown.packed.inside region (sublist.subset inside)⟩
    have room := packed.room
    have total : ((entry.valueAt.map blockRegion).map Region.count).sum =
        entry.valueAt.length * sizeofString := by
      simp [Function.comp_def, blockRegion]
    have small := shown.small
    simp only [total, sizeofString, blockLen, headerLen] at room stored
    omega

theorem Walkable.later (walk : Walkable file last (entry :: rest)) : Walkable file last rest where
  table := walk.table.2
  readable region member := walk.readable region (by
    rw [List.flatMap_cons, List.append_assoc]
    exact List.mem_append_right _ member)
  onward off member := walk.onward off (by
    simp only [List.map_cons, List.cons_append, List.tail_cons]
    exact List.mem_of_mem_tail member)
  blocks other member := walk.blocks other (List.mem_cons_of_mem _ member)
  plain other member := walk.plain other (List.mem_cons_of_mem _ member)
  fits other member := walk.fits other (List.mem_cons_of_mem _ member)

/-- Any entry offset of the walk can be read. -/
theorem Walkable.read_tab {entries : List Entry} (walk : Walkable file last entries) :
    Does (readTab (nextOff entries last)) file [] (tabAt file.bytes (nextOff entries last)) := by
  have bounds := walk.readable _ (next_off_region entries last)
  exact read_tab_does bounds.1 bounds.2

theorem Walkable.next_ne_zero (walk : Walkable file last (entry :: rest)) :
    (tabAt file.bytes entry.off).next ≠ 0 := by
  rw [walk.table.1.next]
  obtain ⟨later, whole⟩ := next_off_head rest last
  exact walk.onward _ (by simp [whole])

theorem Walkable.last_next (walk : Walkable file last []) : (tabAt file.bytes last).next = 0 := by
  rw [show tabAt file.bytes last = _ from walk.table]

/-- All blocks of the first entry can be read. -/
theorem Walkable.block_readable (walk : Walkable file last (entry :: rest)) {block : Nat}
    (member : block ∈ entry.keyAt ++ entry.valueAt) :
    headerLen + block + sizeofString ≤ file.size ∧ headerLen + block + sizeofString < 2 ^ 32 :=
  walk.readable (blockRegion block) (by
    rw [List.flatMap_cons, List.append_assoc]
    exact List.mem_append_left _ (List.mem_cons_of_mem _ (List.mem_map_of_mem member)))

/-- The comparison with the key of the first entry. -/
theorem Walkable.compared (walk : Walkable file last (entry :: rest)) {key : List UInt8}
    (plain : 0 ∉ key) :
    Does (readStr (tabAt file.bytes entry.off).key) file []
        (strAt file.bytes (entry.keyAt.headD 0)) ∧
      ∃ ret, Returns (fun fuel => stringCmp fuel key (strAt file.bytes (entry.keyAt.headD 0)))
          file [] ret ∧ (ret = 0 ↔ Matches entry.key key) := by
  have at_entry := walk.table.1
  obtain ⟨block, blocks, whole⟩ := List.exists_cons_of_ne_nil (stored_ne_nil at_entry.keyStored)
  have readable : ∀ other ∈ block :: blocks, headerLen + other + sizeofString ≤ file.size ∧
      headerLen + other + sizeofString < 2 ^ 32 := fun other member =>
    walk.block_readable (List.mem_append_left _ (by rwa [whole]))
  have nonzero : ∀ other ∈ block :: blocks, other ≠ 0 := fun other member =>
    walk.blocks entry (by simp) other (List.mem_append_left _ (by rwa [whole]))
  have stored := at_entry.keyStored
  rw [whole] at stored
  rw [at_entry.key, whole, List.headD_cons]
  have here := readable block (by simp)
  exact ⟨read_str_does here.1 here.2, string_cmp_returns stored (walk.plain entry (by simp)).1
    plain (fun other member => readable other (by simp [member]))
    fun other member => nonzero other (by simp [member])⟩

theorem Walkable.header (walk : Walkable file last rest) : headerLen ≤ file.size := by
  have bounds := (walk.readable _ (next_off_region rest last)).1
  simp only [tabRegion] at bounds
  omega

theorem check_backup_does (header : headerLen ≤ file.size) (keyPos : Nat) :
    Does (checkBackup keyPos) file [] (decide (file.bytes backupFlag ≠ 0 ∧
      word file.bytes (backupTab + 4) = keyPos)) := by
  have flag := @pread_safe_does file backupFlag 1 (by
    simp only [backupFlag, headerLen] at header ⊢
    omega)
  refine does_bind_read flag ?_
  have single : slice file.bytes backupFlag 1 = [file.bytes backupFlag] := by
    simp [slice]
  rw [single]
  by_cases clear : file.bytes backupFlag = 0
  · simp only [clear, ne_eq, not_true_eq_false, if_false, false_and, decide_false]
    exact does_ret _ _
  · have saved := @pread_safe_does file (backupTab + 4) 4 (by
      simp only [backupTab, headerLen] at header ⊢
      omega)
    have value := word_of_slice file.bytes (backupTab + 4) 4 0 (by omega)
    simp only [ne_eq, List.cons.injEq, clear, and_true, not_false_eq_true, if_true, true_and]
    refine does_bind_read saved ?_
    rw [value]
    exact does_ret _ _

theorem current_tab_does (header : headerLen ≤ file.size) (off : Nat) :
    Does (currentTab (decide (file.bytes backupFlag ≠ 0 ∧
      word file.bytes (backupTab + 4) = (tabAt file.bytes off).key)) (tabAt file.bytes off))
      file [] (currentAt file.bytes off) := by
  unfold currentTab currentAt
  by_cases saved : file.bytes backupFlag ≠ 0 ∧
      word file.bytes (backupTab + 4) = (tabAt file.bytes off).key
  · have read := @pread_safe_does file backupTab sizeofTab (by
      simp only [backupTab, headerLen, sizeofTab] at header ⊢
      omega)
    simp only [saved, decide_true, if_true, and_self, ne_eq, not_false_eq_true]
    exact does_bind_pure read
  · simp only [saved, decide_false, if_false, Bool.false_eq_true]
    exact does_ret _ _

/-- The value of the entry the walk has found. -/
theorem Walkable.value_read (walk : Walkable file last (entry :: rest)) :
    Returns (fun fuel => readValue fuel (currentAt file.bytes entry.off)) file [] entry.value := by
  have at_entry := walk.table.1
  obtain ⟨block, blocks, whole⟩ := List.exists_cons_of_ne_nil (stored_ne_nil at_entry.valueStored)
  have readable : ∀ other ∈ block :: blocks, headerLen + other + sizeofString ≤ file.size ∧
      headerLen + other + sizeofString < 2 ^ 32 := fun other member =>
    walk.block_readable (List.mem_append_right _ (by rwa [whole]))
  have nonzero : ∀ other ∈ block :: blocks, other ≠ 0 := fun other member =>
    walk.blocks entry (by simp) other (List.mem_append_right _ (by rwa [whole]))
  have plain := (walk.plain entry (by simp)).2
  have stored := at_entry.valueStored
  rw [whole] at stored
  have here := readable block (by simp)
  have copied := string_cpy_returns stored plain
    (fun other member => readable other (by simp [member]))
    fun other member => nonzero other (by simp [member])
  have fits := walk.fits entry (by simp)
  have room : (entry.value ++ [0]).length ≤ u32 ((currentAt file.bytes entry.off).valueLen + 1) := by
    rw [at_entry.valueLen, u32_of_lt (show entry.value.length < 2 ^ 32 by omega),
      u32_of_lt fits]
    simp
  have chars : (entry.value ++ [0]).takeWhile Kvdb.nonzero = entry.value := by
    rw [takeWhile_nonzero_append plain]
    simp [Kvdb.nonzero]
  have found : Does (readStr (currentAt file.bytes entry.off).value) file []
      (strAt file.bytes block) := by
    rw [at_entry.value, whole, List.headD_cons]
    exact read_str_does here.1 here.2
  refine returns_bind_read found.returns (returns_bind_read copied ?_)
  simp only [room, if_true, chars]
  exact (does_ret _ _).returns

/-- `_kvdb_get` from some entry on returns the value of the first match. -/
theorem Walkable.get_returns {entries : List Entry} (walk : Walkable file last entries)
    {key : List UInt8} (plain : 0 ∉ key) :
    Returns (fun fuel => getFrom fuel (nextOff entries last) key) file []
      ((entries.find? fun entry => decide (Matches entry.key key)).map Entry.value) := by
  induction entries with
  | nil =>
      apply returns_of_succ
      simp only [getFrom]
      refine returns_bind_read walk.read_tab.returns ?_
      simp only [nextOff, walk.last_next, ne_eq, not_true_eq_false, if_false]
      exact (does_ret _ _).returns
  | cons entry rest ih =>
      obtain ⟨found, ret, compared, meaning⟩ := walk.compared plain
      apply returns_of_succ
      simp only [getFrom]
      refine returns_bind_read walk.read_tab.returns ?_
      simp only [nextOff, walk.next_ne_zero, ne_eq, not_false_eq_true, if_true]
      refine returns_bind_read found.returns (returns_bind_read compared ?_)
      by_cases agrees : Matches entry.key key
      · simp only [meaning.mpr agrees, if_true, List.find?_cons, agrees, decide_true,
          Option.map_some]
        refine returns_bind_read (check_backup_does walk.header _).returns ?_
        refine returns_bind_read (current_tab_does walk.header _).returns ?_
        exact returns_bind_pure walk.value_read
      · have unequal : ¬ ret = 0 := fun zero => agrees (meaning.mp zero)
        simp only [unequal, if_false, List.find?_cons, agrees, decide_false]
        rw [walk.table.1.next]
        exact ih walk.later

end Walking

/-- A reader sees exactly the layout, whether a put is under way or not. -/
theorem Shown.get_returns {layout : Layout} {file : File} (shown : Shown layout file)
    {key : List UInt8} (plain : 0 ∉ key) :
    Returns (fun fuel => kvdbGet fuel key) file [] ((layout.find key).map Entry.value) := by
  have walked := shown.walkable.get_returns plain
  rwa [shown.start] at walked

end OsWorkbench.Kvdb
