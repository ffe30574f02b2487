import OsWorkbench.Kvdb.AllocStr
import OsWorkbench.Library.Regions

/-!
# The layout of a database file

A `Layout` names what a file holds: the table entries in the order of the list
with the blocks of their strings, the free list and the recorded size, the last
as a number that does not wrap. `Layout.put` is the effect of a put on it.
`Represents` connects a layout to the bytes of a file.
-/

namespace OsWorkbench.Kvdb

open ByteStore WriteTrace Regions

structure Entry where
  off : Nat
  key : List UInt8
  keyAt : List Nat
  value : List UInt8
  valueAt : List Nat

/-- `last` is the offset of the all-zero entry that ends the table. -/
structure Layout where
  entries : List Entry
  last : Nat
  free : List Nat
  size : Nat

def tabRegion (off : Nat) : Region := ⟨headerLen + off, sizeofTab⟩

def blockRegion (block : Nat) : Region := ⟨headerLen + block, sizeofString⟩

def Entry.regions (entry : Entry) : List Region :=
  tabRegion entry.off :: (entry.keyAt ++ entry.valueAt).map blockRegion

/-- What readers of the table depend on. -/
def Layout.live (layout : Layout) : List Region :=
  layout.entries.flatMap Entry.regions ++ [tabRegion layout.last]

def Layout.regions (layout : Layout) : List Region :=
  layout.live ++ layout.free.map blockRegion

def Layout.init : Layout where
  entries := []
  last := 0
  free := [sizeofTab]
  size := headerLen + sizeofTab + sizeofString

/-- The entry that `_kvdb_put` and `_kvdb_get` stop at. -/
def Layout.find (layout : Layout) (key : List UInt8) : Option Entry :=
  layout.entries.find? fun entry => decide (Matches entry.key key)

/-- The first matching entry, changed. -/
def replaceFirst (key : List UInt8) (change : Entry → Entry) : List Entry → List Entry
  | [] => []
  | entry :: rest =>
      if Matches entry.key key then change entry :: rest
      else entry :: replaceFirst key change rest

def Entry.assign (entry : Entry) (value : List UInt8) (blocks : List Nat) : Entry :=
  { entry with value := value, valueAt := blocks }

/-- What a put takes from the free list for the value. -/
abbrev Layout.valueTaken (layout : Layout) (value : List UInt8) : Plan :=
  plan layout.free layout.size value

/-- What a put of a new key takes for the key, after the value. -/
abbrev Layout.keyTaken (layout : Layout) (key value : List UInt8) : Plan :=
  plan (layout.valueTaken value).free (layout.valueTaken value).size key

/-- The old value's blocks go to the end of the free list. -/
def Layout.update (layout : Layout) (entry : Entry) (key value : List UInt8) : Layout :=
  let taken := layout.valueTaken value
  { entries := replaceFirst key (·.assign value taken.blocks) layout.entries
    last := layout.last
    free := taken.free ++ entry.valueAt
    size := taken.size }

def Layout.append (layout : Layout) (key value : List UInt8) : Layout :=
  let valueTaken := layout.valueTaken value
  let keyTaken := layout.keyTaken key value
  { entries := layout.entries ++ [⟨layout.last, key, keyTaken.blocks, value, valueTaken.blocks⟩]
    last := keyTaken.size - headerLen
    free := keyTaken.free
    size := keyTaken.size + sizeofTab }

def Layout.put (layout : Layout) (key value : List UInt8) : Layout :=
  match layout.find key with
  | some entry => layout.update entry key value
  | none => layout.append key value

section Geometry

/-- The regions of a layout fill disjoint places between the header and the
recorded size; the free list is never empty. -/
structure Layout.Sound (layout : Layout) : Prop where
  packed : Packed layout.regions headerLen layout.size
  supply : layout.free ≠ []
  room : headerLen ≤ layout.size

theorem init_sound : Layout.init.Sound where
  packed := by
    refine ⟨?_, ?_⟩
    · simp [Layout.init, Layout.regions, Layout.live, tabRegion, blockRegion, Clear]
    · simp [Layout.init, Layout.regions, Layout.live, tabRegion, blockRegion]
  supply := by simp [Layout.init]
  room := by simp [Layout.init]

theorem clear_blocks {block other : Nat} :
    Clear (blockRegion block) (blockRegion other) ↔ Apart block other := by
  simp only [Clear, blockRegion, Apart]
  omega

theorem pairwise_blocks {blocks : List Nat} :
    (blocks.map blockRegion).Pairwise Clear ↔ blocks.Pairwise Apart := by
  rw [List.pairwise_map]
  exact ⟨fun apart => apart.imp clear_blocks.mp, fun apart => apart.imp clear_blocks.mpr⟩

theorem Fresh.packed {blocks : List Nat} {low high : Nat} (fresh : Fresh blocks low high) :
    Packed (blocks.map blockRegion) low high where
  apart := pairwise_blocks.mpr fresh.apart
  inside region member := by
    obtain ⟨block, inside, rfl⟩ := List.mem_map.mp member
    exact ⟨fresh.above block inside, fresh.below block inside⟩

/-- Taking blocks for a string keeps everything apart. -/
theorem packed_plan {live : List Region} {free : List Nat} {size : Nat} (src : List UInt8)
    (packed : Packed (live ++ free.map blockRegion) headerLen size) (room : headerLen ≤ size)
    (some : free ≠ []) :
    Packed (live ++ (plan free size src).blocks.map blockRegion ++
      (plan free size src).free.map blockRegion) headerLen (plan free size src).size := by
  obtain ⟨fresh, perm, isFresh⟩ := @plan_perm free size src room some
  refine (packed.append isFresh.packed room (plan_size _ _ _)).perm ?_
  rw [List.append_assoc, ← List.map_append, List.append_assoc, ← List.map_append]
  exact (perm.map blockRegion).append_left live

theorem replace_first_append {key : List UInt8} {change : Entry → Entry} {entry : Entry}
    {before after : List Entry} (passed : ∀ other ∈ before, ¬ Matches other.key key)
    (found : Matches entry.key key) :
    replaceFirst key change (before ++ entry :: after) = before ++ change entry :: after := by
  induction before with
  | nil => simp [replaceFirst, found]
  | cons other rest ih =>
      have skipped := passed other (by simp)
      simp only [List.cons_append, replaceFirst, skipped, if_false]
      rw [ih fun later member => passed later (by simp [member])]

theorem find_some {layout : Layout} {key : List UInt8} {entry : Entry}
    (found : layout.find key = some entry) :
    Matches entry.key key ∧ ∃ before after, layout.entries = before ++ entry :: after ∧
      ∀ other ∈ before, ¬ Matches other.key key := by
  obtain ⟨agrees, before, after, whole, passed⟩ := List.find?_eq_some_iff_append.mp found
  refine ⟨of_decide_eq_true agrees, before, after, whole, fun other member => ?_⟩
  simpa using passed other member

theorem find_none {layout : Layout} {key : List UInt8} (absent : layout.find key = none) :
    ∀ entry ∈ layout.entries, ¬ Matches entry.key key := by
  intro entry member
  simpa using List.find?_eq_none.mp absent entry member

/-- The regions in use while a value is being stored. -/
theorem Layout.Sound.taking {layout : Layout} (sound : layout.Sound) (value : List UInt8) :
    Packed (layout.live ++ (layout.valueTaken value).blocks.map blockRegion ++
      (layout.valueTaken value).free.map blockRegion) headerLen (layout.valueTaken value).size :=
  packed_plan value sound.packed sound.room sound.supply

/-- An update uses the old regions, with the value's blocks taken from the free list. -/
theorem update_regions {layout : Layout} {entry : Entry} {key value : List UInt8}
    (found : layout.find key = some entry) :
    (layout.update entry key value).regions.Perm
      (layout.live ++ (layout.valueTaken value).blocks.map blockRegion ++
        (layout.valueTaken value).free.map blockRegion) := by
  obtain ⟨agrees, before, after, whole, passed⟩ := find_some found
  simp only [Layout.update, Layout.regions, Layout.live, whole,
    replace_first_append passed agrees, List.flatMap_append, List.flatMap_cons, Entry.regions,
    Entry.assign, List.map_append]
  rw [List.perm_iff_count]
  intro region
  simp only [List.count_append, List.count_cons]
  omega

theorem Layout.Sound.update {layout : Layout} (sound : layout.Sound) {entry : Entry}
    {key value : List UInt8} (found : layout.find key = some entry) :
    (layout.update entry key value).Sound := by
  refine ⟨(sound.taking value).perm (update_regions found), ?_, sound.room.trans (plan_size _ _ _)⟩
  simp [Layout.update, (@plan_suffix _ layout.size value sound.supply).2]

/-- The regions in use while a new key is being stored. -/
theorem Layout.Sound.staging {layout : Layout} (sound : layout.Sound) (key value : List UInt8) :
    Packed (layout.live ++ (layout.valueTaken value).blocks.map blockRegion ++
      (layout.keyTaken key value).blocks.map blockRegion ++
      (layout.keyTaken key value).free.map blockRegion) headerLen
      (layout.keyTaken key value).size := by
  exact packed_plan key (sound.taking value) (sound.room.trans (plan_size _ _ _))
    (plan_suffix sound.supply).2

theorem Layout.Sound.keyRoom {layout : Layout} (sound : layout.Sound) (key value : List UInt8) :
    headerLen ≤ (layout.keyTaken key value).size :=
  sound.room.trans ((plan_size _ _ _).trans (plan_size _ _ _))

/-- A new key uses the old regions, what its strings take, and a new last entry. -/
theorem append_regions (layout : Layout) (key value : List UInt8) :
    (layout.append key value).regions.Perm
      (layout.live ++ (layout.valueTaken value).blocks.map blockRegion ++
        (layout.keyTaken key value).blocks.map blockRegion ++
        (layout.keyTaken key value).free.map blockRegion ++
        [tabRegion ((layout.keyTaken key value).size - headerLen)]) := by
  simp only [Layout.append, Layout.regions, Layout.live, List.flatMap_append, List.flatMap_cons,
    List.flatMap_nil, Entry.regions, List.map_append]
  rw [List.perm_iff_count]
  intro region
  simp only [List.count_append, List.count_cons]
  omega

theorem Layout.Sound.append {layout : Layout} (sound : layout.Sound) (key value : List UInt8) :
    (layout.append key value).Sound := by
  have room := sound.keyRoom key value
  have table : Packed [tabRegion ((layout.keyTaken key value).size - headerLen)]
      (layout.keyTaken key value).size ((layout.keyTaken key value).size + sizeofTab) := by
    refine ⟨List.pairwise_singleton _ _, ?_⟩
    intro region member
    rw [List.mem_singleton.mp member]
    simp only [tabRegion]
    omega
  refine ⟨?_, ?_, room.trans (Nat.le_add_right _ _)⟩
  · exact ((sound.staging key value).append table room (Nat.le_add_right _ _)).perm
      (append_regions layout key value)
  · exact (plan_suffix (plan_suffix sound.supply).2).2

/-- A put keeps all regions apart. -/
theorem Layout.Sound.put {layout : Layout} (sound : layout.Sound) (key value : List UInt8) :
    (layout.put key value).Sound := by
  unfold Layout.put
  split
  · exact sound.update ‹_›
  · exact sound.append key value

theorem size_le_put (layout : Layout) (key value : List UInt8) :
    layout.size ≤ (layout.put key value).size := by
  unfold Layout.put
  split
  · exact plan_size _ _ _
  · exact (plan_size _ _ _).trans ((plan_size _ _ key).trans (Nat.le_add_right _ _))

end Geometry

end OsWorkbench.Kvdb
