import OsWorkbench.Blkfs.BlankDisk
import OsWorkbench.Blkfs.CreateFind
import OsWorkbench.Blkfs.Preserving
import OsWorkbench.Library.Runs

/-!
# The inode table over runs

`new_inode` looks for a record whose first word is zero and knows no end of the table. In every state
that creating and removing reaches, as long as each creation finds two blocks, a record and enough
room for its name, what it gives next is in the table exactly if there is such a record.
-/

namespace OsWorkbench.Blkfs

open Kernel ByteStore Library

/-- The states of a device that `blkfs_init` has seen: a blank one, or one whose tables are in
order. -/
inductive Initialised : Fs → Prop
  | blank {dev : Rd} (zero : ∀ a < dev.size, dev.mem a = 0) (room : 0x500 ≤ dev.size) :
      Initialised (blkfsInit dev)
  | image {dev : Rd} (formatted : dev.mem 0 = 0xff) (sound : Sound (blkfsInit dev)) :
      Initialised (blkfsInit dev)

theorem Initialised.sound {fs : Fs} (start : Initialised fs) : Sound fs := by
  cases start with
  | blank zero room => exact blank_sound zero room
  | image _ sound => exact sound

/-- What creating an entry needs. -/
structure Room (dev : Rd) (name : List UInt8) : Prop where
  blocks : 2 ≤ (freeBlocks dev).length
  record : ∃ i < inodeCount, (nodeAt dev i).refcnt = 0
  short : name.length ≤ blkMem

/-- Creating and removing entries of directories, with room for what is not there yet. -/
def Roomy (rootParent : Option Nat) (fuel : Nat) : (Nat → List UInt8) × Op → Fs → Prop
  | (stack, .find cur name flags), fs =>
      slash ∉ name ∧ Directory fs.dev cur ∧
        (Has flags oCreate → Present stack rootParent fuel fs cur name ∨ Room fs.dev name)
  | (_, .unlink parent _), fs => Directory fs.dev parent
  | (_, .rmdir parent _), fs => Directory fs.dev parent
  | _, _ => False

instance (dev : Rd) (i : Nat) : Decidable (Directory dev i) :=
  decidable_of_iff ((i < inodeCount ∧ (nodeAt dev i).refcnt ≠ 0) ∧ (nodeAt dev i).type = ylsDir)
    ⟨fun both => ⟨both.1, both.2⟩, fun directory => ⟨directory.kept, directory.type⟩⟩

instance (dev : Rd) (name : List UInt8) : Decidable (Room dev name) :=
  decidable_of_iff (2 ≤ (freeBlocks dev).length ∧ (∃ i < inodeCount, (nodeAt dev i).refcnt = 0) ∧
      name.length ≤ blkMem)
    ⟨fun ⟨blocks, record, short⟩ => ⟨blocks, record, short⟩, fun room => ⟨room.1, room.2, room.3⟩⟩

/-- What can be looked up on a device before a step: room for a creation, of what is there already or not. -/
def Provided : (Nat → List UInt8) × Op → Fs → Prop
  | (_, .find cur name flags), fs =>
      slash ∉ name ∧ Directory fs.dev cur ∧ (Has flags oCreate → Room fs.dev name)
  | (_, .unlink parent _), fs => Directory fs.dev parent
  | (_, .rmdir parent _), fs => Directory fs.dev parent
  | _, _ => False

instance decidableProvided : (label : (Nat → List UInt8) × Op) → DecidablePred (Provided label)
  | (_, .find _ _ _), _ => inferInstanceAs (Decidable (_ ∧ _ ∧ (_ → _)))
  | (_, .unlink parent _), fs => inferInstanceAs (Decidable (Directory fs.dev parent))
  | (_, .rmdir parent _), fs => inferInstanceAs (Decidable (Directory fs.dev parent))
  | (_, .link _ _ _), _ => isFalse id
  | (_, .write _ _), _ => isFalse id

theorem Provided.roomy {rootParent : Option Nat} {fuel : Nat} {label : (Nat → List UInt8) × Op} {fs : Fs}
    (provided : Provided label fs) : Roomy rootParent fuel label fs := by
  obtain ⟨stack, op⟩ := label
  cases op with
  | find cur name flags => exact ⟨provided.1, provided.2.1, fun create => Or.inr (provided.2.2 create)⟩
  | unlink parent name => exact provided
  | rmdir parent name => exact provided
  | link parent name inode => exact provided
  | write file buf => exact provided

section Steps

variable {stack : Nat → List UInt8} {rootParent : Option Nat} {fuel cur flags k : Nat} {fs next : Fs}
  {name : List UInt8} {result : Option Place}

/-- The first record that is free. -/
theorem Room.first (room : Room fs.dev name) : ∃ n < inodeCount, (nodeAt fs.dev n).refcnt = 0 ∧
    ∀ j < n, (nodeAt fs.dev j).refcnt ≠ 0 := by
  obtain ⟨i, bound, free⟩ := room.record
  have record : ∃ n, (nodeAt fs.dev n).refcnt = 0 := ⟨i, free⟩
  refine ⟨Nat.find record, ?_, Nat.find_spec record, fun j before => Nat.find_min record before⟩
  exact Nat.lt_of_le_of_lt (Nat.find_min' record free) bound

/-- Where an entry is created, everything that creating it works with is in its place. -/
theorem Room.site (room : Room fs.dev name) (sound : Sound fs) (directory : Directory fs.dev cur)
    (bound : k < slotCount) : ∃ named n first rest,
      Site fs.dev (nodeAt fs.dev cur).info k named n first name rest := by
  obtain ⟨n, number, unused, used⟩ := room.first
  have slots := sound.slots cur directory
  obtain ⟨named, first, rest, free⟩ : ∃ named first rest, freeBlocks fs.dev = named :: first :: rest := by
    match same : freeBlocks fs.dev with
    | [] => exact absurd room.blocks (by rw [same]; decide)
    | [_] => exact absurd room.blocks (by rw [same, List.length_singleton]; decide)
    | named :: first :: rest => exact ⟨named, first, rest, rfl⟩
  refine ⟨named, n, first, rest, slots.block, slots.later, bound, sound.formatted,
    fun c member => (sound.placed c member).2, free, ?_, number, used, unused, room.short⟩
  intro same
  have second := sound.reserved cur directory (by rw [free, same]; exact List.mem_cons_self)
  have nodup := free_blocks_nodup fs.dev
  rw [free] at second nodup
  have equal : first = named := (Option.some.inj second).trans same.symm
  exact (List.nodup_cons.mp nodup).1 (equal ▸ List.mem_cons_self)

/-- Where the slots of a directory begin. -/
theorem Sound.start (sound : Sound fs) (directory : Directory fs.dev cur) :
    u32 ((fs.nodes cur).info + 4) = slotPlace (nodeAt fs.dev cur).info 0 := by
  rw [sound.table cur directory.kept.1, slotPlace]
  exact (sound.slots cur directory).block.place_word (by decide)

/-- A search for a name without dots in front, its ends told apart. -/
theorem find_cases (sound : Sound fs) (directory : Directory fs.dev cur) (nonempty : name ≠ [])
    (flat : slash ∉ name) (other : name.headD 0 ≠ dot)
    (found : blkfsIfind stack rootParent fuel fs cur name flags = some (next, result)) :
    (∃ m < slotCount, slotAt fs.dev (nodeAt fs.dev cur).info m = 0 ∧
      (∀ j < m, slotAt fs.dev (nodeAt fs.dev cur).info j ≠ 0) ∧
      findLast fuel fs cur (slotPlace (nodeAt fs.dev cur).info m) name flags = some (next, result)) ∨
    ∃ id, blkfsIfind stack rootParent fuel fs id [] flags = some (next, result) := by
  have slots := sound.slots cur directory
  rw [find_name nonempty flat other, sound.start directory] at found
  split at found
  · exact nomatch found
  obtain ⟨slot, searched, ending⟩ := Option.bind_eq_some_iff.mp found
  rcases slot_search_ends slots (by decide) searched with
    rfl | ⟨m, bound, ⟨rfl, zero, before⟩ | ⟨rfl, -⟩⟩
  · exact nomatch ending
  · exact Or.inl ⟨m, bound, zero, fun j less => before j (Nat.zero_le j) less, ending⟩
  · dsimp only at ending
    split at ending
    · exact Or.inr ⟨_, ending⟩
    · exact nomatch ending

/-- What looking for a name or creating it makes of the state: nothing, or a new entry in the first
slot that is zero. -/
theorem find_plain_made (enough : inodeCount ≤ fuel) (sound : Sound fs)
    (directory : Directory fs.dev cur) (flat : slash ∉ name) (other : name.headD 0 ≠ dot)
    (room : Has flags oCreate → Room fs.dev name)
    (found : blkfsIfind stack rootParent fuel fs cur name flags = some (next, result)) :
    next = fs ∨ ∃ m named n first type head rest,
      (∀ j < m, slotAt fs.dev (nodeAt fs.dev cur).info j ≠ 0) ∧
      Site fs.dev (nodeAt fs.dev cur).info m named n first name rest ∧
      Made fs.dev next.dev (slotPlace (nodeAt fs.dev cur).info m) named n first type head name rest ∧
      next.nodes = Function.update fs.nodes n ⟨1, first, 0, type⟩ ∧
      (head = cur ∨ head = word fs.dev.mem first ∧ type ≠ ylsDir) := by
  by_cases empty : name = []
  · subst empty
    rw [find_here] at found
    exact Or.inl (congrArg Prod.fst (Option.some.inj found)).symm
  rcases find_cases sound directory empty flat other found with ⟨m, bound, zero, before, last⟩ | ⟨id, last⟩
  · rw [findLast] at last
    split at last
    next both =>
      obtain ⟨named, n, first, rest, site⟩ := (room both.1).site sound directory bound
      have fueled : n < fuel := Nat.lt_of_lt_of_le site.number enough
      obtain ⟨made, type, head, created, typed, headed, nodes, change⟩ :=
        @Site.created _ _ _ _ _ _ _ _ site fs rfl fuel cur flags fueled directory.kept.1
      rw [created] at last
      obtain rfl : made = next := congrArg Prod.fst (Option.some.inj last)
      refine Or.inr ⟨m, named, n, first, type, head, rest, before, site, change, nodes, ?_⟩
      rw [typed, headed]
      split
      · exact Or.inl rfl
      · exact Or.inr ⟨rfl, by decide⟩
    next => exact Or.inl (congrArg Prod.fst (Option.some.inj last)).symm
  · rw [find_here] at last
    exact Or.inl (congrArg Prod.fst (Option.some.inj last)).symm

theorem find_plain_sound (enough : inodeCount ≤ fuel) (sound : Sound fs)
    (directory : Directory fs.dev cur) (flat : slash ∉ name) (other : name.headD 0 ≠ dot)
    (room : Has flags oCreate → Room fs.dev name)
    (found : blkfsIfind stack rootParent fuel fs cur name flags = some (next, result)) : Sound next := by
  rcases find_plain_made enough sound directory flat other room found with
    rfl | ⟨m, named, n, first, type, head, rest, before, site, change, nodes, typed⟩
  · exact sound
  · have kept := change.sound sound directory rfl before site typed
    rw [← nodes] at kept
    exact kept

/-- The dots in front of a name only choose the directory in which the rest is looked for. -/
theorem find_ends (top : ∀ up, rootParent = some up → up = 0) (sound : Sound fs)
    (directory : Directory fs.dev cur) (flat : slash ∉ name)
    (found : blkfsIfind stack rootParent fuel fs cur name flags = some (next, result)) :
    next = fs ∨ ∃ d rest, Directory fs.dev d ∧ rest <:+ name ∧ rest.headD 0 ≠ dot ∧
      blkfsIfind stack rootParent fuel fs d rest flags = some (next, result) := by
  induction dotted name generalizing cur with
  | plain other => exact Or.inr ⟨cur, _, directory, List.suffix_refl _, other, found⟩
  | same other =>
      rw [find_same (fun member => flat (List.mem_cons_of_mem _ member)) other] at found
      exact Or.inr ⟨cur, _, directory, List.suffix_cons _ _, other, found⟩
  | @up tail _ hypothesis =>
      have rest := fun member => flat (List.mem_cons_of_mem _ (List.mem_cons_of_mem _ member))
      have onward {d : Nat} (further : Directory fs.dev d)
          (went : blkfsIfind stack rootParent fuel fs d tail flags = some (next, result)) :
          next = fs ∨ ∃ e rest, Directory fs.dev e ∧ rest <:+ dot :: dot :: tail ∧
            rest.headD 0 ≠ dot ∧ blkfsIfind stack rootParent fuel fs e rest flags = some (next, result) := by
        refine (hypothesis further rest went).imp_right ?_
        rintro ⟨e, last, place, suffix, outcome⟩
        exact ⟨e, last, place, suffix.trans ((List.suffix_cons _ _).trans (List.suffix_cons _ _)), outcome⟩
      rw [find_up rest] at found
      split at found
      · cases parent : rootParent with
        | none =>
            rw [parent] at found
            exact Or.inl (congrArg Prod.fst (Option.some.inj found)).symm
        | some up =>
            obtain rfl := top up parent
            rw [parent] at found
            exact parent ▸ onward sound.root (parent ▸ found)
      · split at found
        · have block := (sound.slots cur directory).block
          have parent : parentOf fs cur = word fs.dev.mem (nodeAt fs.dev cur).info := by
            rw [parentOf, sound.table cur directory.kept.1, read_block block]
          rw [parent] at found
          exact onward (sound.parents cur directory) found
        · exact nomatch found

theorem Room.suffix {rest : List UInt8} (room : Room fs.dev name) (suffix : rest <:+ name) :
    Room fs.dev rest :=
  ⟨room.blocks, room.record, Nat.le_trans suffix.length_le room.short⟩

/-- Looking for a name and creating it keep the invariant. -/
theorem find_sound (enough : inodeCount ≤ fuel) (top : ∀ up, rootParent = some up → up = 0)
    (sound : Sound fs) (directory : Directory fs.dev cur) (flat : slash ∉ name)
    (room : Has flags oCreate → Room fs.dev name)
    (found : blkfsIfind stack rootParent fuel fs cur name flags = some (next, result)) : Sound next := by
  rcases find_ends top sound directory flat found with rfl | ⟨d, rest, place, suffix, other, went⟩
  · exact sound
  · exact find_plain_sound enough sound place (fun member => flat (suffix.subset member)) other
      (fun create => (room create).suffix suffix) went

/-- What removing an entry makes of the state: nothing, or one slot is wiped. -/
theorem wipe_made {directory : Bool} {value : Int} (sound : Sound fs) (parent : Directory fs.dev cur)
    (wiped : wipeEntry stack fuel fs cur name directory = some (next, value)) :
    next = fs ∨ ∃ m < slotCount, slotAt fs.dev (nodeAt fs.dev cur).info m ≠ 0 ∧
      next = fs.setDev
        (fs.dev.store (slotPlace (nodeAt fs.dev cur).info m) (wordBytes ylsWipe)) := by
  have slots := sound.slots cur parent
  rw [wipeEntry] at wiped
  split at wiped
  · exact Or.inl (congrArg Prod.fst (Option.some.inj wiped)).symm
  rw [sound.start parent] at wiped
  obtain ⟨slot, searched, ending⟩ := Option.map_eq_some_iff.mp wiped
  rcases slot_search_ends slots (by decide) searched with rfl | ⟨m, bound, ⟨rfl, -⟩ | ⟨rfl, named⟩⟩
  · exact Or.inl (congrArg Prod.fst ending).symm
  · exact Or.inl (congrArg Prod.fst ending).symm
  · dsimp only at ending
    split at ending
    · exact Or.inl (congrArg Prod.fst ending).symm
    · have place := @slot_inside (nodeAt fs.dev cur).info m bound
      have last := slots.block.next_inside
      rw [rd_write_inside (by rw [word_bytes_length]; omega)] at ending
      exact Or.inr ⟨m, bound, Nat.pos_iff_ne_zero.mp named.block.later,
        (congrArg Prod.fst ending).symm⟩

theorem wipe_sound {directory : Bool} {value : Int} (sound : Sound fs) (parent : Directory fs.dev cur)
    (wiped : wipeEntry stack fuel fs cur name directory = some (next, value)) : Sound next := by
  rcases wipe_made sound parent wiped with rfl | ⟨m, bound, live, rfl⟩
  · exact sound
  · exact sound.wipe parent bound live

theorem step_sound {label : (Nat → List UInt8) × Op} (enough : inodeCount ≤ fuel)
    (top : ∀ up, rootParent = some up → up = 0) (sound : Sound fs) (roomy : Roomy rootParent fuel label fs)
    (stepped : fsStep rootParent fuel label fs = some next) : Sound next := by
  obtain ⟨stack, op⟩ := label
  cases op with
  | find cur name flags =>
      obtain ⟨⟨state, result⟩, found, rfl⟩ := Option.map_eq_some_iff.mp stepped
      by_cases present : Present stack rootParent fuel fs cur name
      · exact (find_unchanged roomy.1 (fun _ => present) found).symm ▸ sound
      · exact find_sound enough top sound roomy.2.1 roomy.1
          (fun create => (roomy.2.2 create).resolve_left present) found
  | link parent name inode => exact roomy.elim
  | unlink parent name =>
      obtain ⟨⟨state, value⟩, wiped, rfl⟩ := Option.map_eq_some_iff.mp stepped
      exact wipe_sound sound roomy wiped
  | rmdir parent name =>
      obtain ⟨⟨state, value⟩, wiped, rfl⟩ := Option.map_eq_some_iff.mp stepped
      exact wipe_sound sound roomy wiped
  | write file buf => exact roomy.elim

end Steps

/-- What `new_inode` gives next is an element of `fs->inodes` that no directory entry refers to. -/
def InodeFits (fs : Fs) : Prop :=
  ∃ fuel dev off, newInode fuel (newBlock fs.dev).1 = some (dev, off) ∧
    inodeStart ≤ off ∧ off < inodeEnd ∧
    ∀ d, Directory fs.dev d → ∀ k < slotCount,
      slotAt fs.dev (nodeAt fs.dev d).info k ≠ 0 →
      slotAt fs.dev (nodeAt fs.dev d).info k ≠ ylsWipe →
      nodePlace (word fs.dev.mem (slotAt fs.dev (nodeAt fs.dev d).info k)) ≠ off

section Table

variable {fs : Fs}

theorem Sound.space (sound : Sound fs) : inodeEnd ≤ fs.dev.size := by
  have slots := sound.slots 0 sound.root
  have later := slots.later
  have last := slots.block.inside
  omega

/-- `new_block` leaves the records alone. -/
theorem Sound.record_kept (sound : Sound fs) (i : Nat) :
    nodeAt (newBlock fs.dev).1 i = nodeAt fs.dev i ∧ (newBlock fs.dev).1.size = fs.dev.size := by
  have bitmap : bitmapLen ≤ inodeStart := by decide
  match free : freeBlocks fs.dev with
  | [] =>
      have full : (List.range (8 * bitmapLen)).find? (fun n => !marked fs.dev n) = none := by
        rw [← List.head?_filter, List.map_eq_nil_iff.mp free]
        rfl
      have space := sound.space
      have table : bitmapLen ≤ inodeEnd := by decide
      rw [newBlock, rd_read_inside (by omega), first_clear, full]
      exact ⟨rfl, rfl⟩
  | c :: rest =>
      obtain ⟨j, byte, gave, low, -⟩ := new_block_fresh sound.formatted free
      rw [gave]
      refine ⟨node_at_outside (Or.inr ?_), rfl⟩
      rw [List.length_singleton, nodePlace]
      omega

/-- The next inode is in the table if and only if the table has a free record. -/
theorem Sound.inode_fits (sound : Sound fs) :
    InodeFits fs ↔ ∃ i < inodeCount, (nodeAt fs.dev i).refcnt = 0 := by
  have record := fun i => (sound.record_kept i).1
  have size := (sound.record_kept 0).2
  have space := sound.space
  constructor
  · rintro ⟨fuel, dev, off, gave, low, high, -⟩
    obtain ⟨aligned, value, zero⟩ := new_inode_reads (by decide) gave
    obtain ⟨i, rfl⟩ : ∃ i, off = nodePlace i := by
      refine ⟨(off - inodeStart) / sizeofNode, ?_⟩
      unfold nodePlace inodeStart sizeofNode at *
      omega
    have bound : i < inodeCount := by
      change i < 60
      unfold nodePlace inodeStart inodeEnd sizeofNode at *
      omega
    have inside := record_inside bound
    refine ⟨i, bound, ?_⟩
    unfold sizeofNode at inside
    rw [read_word_inside (by rw [size]; omega)] at zero
    rw [← record i]
    exact zero
  · intro free
    have room : ∃ n, (nodeAt (newBlock fs.dev).1 n).refcnt = 0 := by
      obtain ⟨i, -, unused⟩ := free
      exact ⟨i, by rw [record]; exact unused⟩
    have first := Nat.find_spec room
    have bound : Nat.find room < inodeCount := by
      obtain ⟨i, bound, unused⟩ := free
      exact Nat.lt_of_le_of_lt (Nat.find_min' room (by rw [record]; exact unused)) bound
    have search := @new_inode_first (newBlock fs.dev).1 inodeCount 0 (Nat.find room) 0
      (by rw [size]; exact space) bound (fun j before => Nat.find_min room before) first (Nat.zero_le _)
    rw [Nat.sub_zero, if_pos bound] at search
    have inside := record_inside bound
    refine ⟨inodeCount, _, _, search, inside.1, ?_, ?_⟩
    · unfold sizeofNode at inside
      omega
    · intro d directory k few live kept same
      rcases (sound.slots d directory).filled k few with zero | wiped | named
      · exact live zero
      · exact kept wiped
      · have number : word fs.dev.mem (slotAt fs.dev (nodeAt fs.dev d).info k) = Nat.find room := by
          unfold nodePlace inodeStart sizeofNode at same
          omega
        refine named.target.2 ?_
        rw [number, ← record]
        exact first

end Table

/-- In every state that is reached with room for each creation, the next inode is in the table if and
only if there is a record for it. -/
theorem inode_allocation (rootParent : Option Nat) (fuel : Nat) (start fs : Fs)
    (labels : List ((Nat → List UInt8) × Op)) (enough : inodeCount ≤ fuel)
    (top : ∀ up, rootParent = some up → up = 0) (initialised : Initialised start)
    (roomy : GuardedRun (fsStep rootParent fuel) (Roomy rootParent fuel) labels start)
    (ran : runSteps (fsStep rootParent fuel) labels start = some fs) :
    InodeFits fs ↔ ∃ i < inodeCount, (nodeAt fs.dev i).refcnt = 0 := by
  have sound : Sound fs := by
    refine @run_invariant _ _ (fsStep rootParent fuel) (Roomy rootParent fuel) Sound ?_ labels start fs initialised.sound
      roomy ran
    intro label state next sound supplied stepped
    exact step_sound enough top sound supplied stepped
  exact sound.inode_fits

section Filling

variable {rootParent : Option Nat} {fuel d n : Nat} {fs : Fs}

/-- An empty directory, with the records from `n` on free and blocks for all of them. -/
structure Fillable (fs : Fs) (d n : Nat) : Prop where
  sound : Sound fs
  directory : Directory fs.dev d
  empty : slotAt fs.dev (nodeAt fs.dev d).info 0 = 0
  marked : (nodeAt fs.dev d).info ∉ freeBlocks fs.dev
  used : ∀ i < n, (nodeAt fs.dev i).refcnt ≠ 0
  unused : ∀ i < inodeCount, n ≤ i → (nodeAt fs.dev i).refcnt = 0
  supply : 2 * (inodeCount - n) ≤ (freeBlocks fs.dev).length

/-- A directory is made in an empty one. -/
theorem Fillable.next (fillable : Fillable fs d n) (number : n < inodeCount)
    (enough : inodeCount ≤ fuel) : ∃ next,
      fsStep rootParent fuel (fun _ => [], .find d [0x61] (oCreate ||| oDirectory)) fs = some next ∧
        Roomy rootParent fuel (fun _ => [], .find d [0x61] (oCreate ||| oDirectory)) fs ∧
        Fillable next n (n + 1) := by
  have sound := fillable.sound
  have directory := fillable.directory
  have slots := sound.slots d directory
  have room : Room fs.dev [0x61] :=
    ⟨by have supply := fillable.supply; omega, ⟨n, number, fillable.unused n number le_rfl⟩, by decide⟩
  obtain ⟨named, m, first, rest, site⟩ := room.site sound directory (show 0 < slotCount by decide)
  obtain rfl : m = n := by
    refine Nat.le_antisymm ?_ ?_
    · by_contra later
      exact site.used n (by omega) (fillable.unused n number le_rfl)
    · by_contra before
      exact fillable.used m (by omega) site.unused
  obtain ⟨made, type, head, created, typed, headed, nodes, change⟩ :=
    @Site.created _ _ _ _ _ _ _ _ site fs rfl fuel d (oCreate ||| oDirectory)
      (Nat.lt_of_lt_of_le number enough) directory.kept.1
  have create : Has (oCreate ||| oDirectory) oCreate := by decide
  have isDirectory : type = ylsDir := by
    rw [typed]
    decide
  obtain ⟨further, same⟩ := Nat.exists_eq_add_one.mpr (Nat.lt_of_lt_of_le number enough |>.pos)
  have search : slotSearch (fun _ => []) fuel fs.dev (slotPlace (nodeAt fs.dev d).info 0) [0x61] =
      some (.unused (slotPlace (nodeAt fs.dev d).info 0)) := by
    have positive : slotPlace (nodeAt fs.dev d).info 0 ≠ 0 := by
      unfold slotPlace
      omega
    rw [same, slotSearch, if_neg positive, read_slot slots.block (by decide), fillable.empty]
    rfl
  have found : blkfsIfind (fun _ => []) rootParent fuel fs d [0x61] (oCreate ||| oDirectory) =
      some (made, some (.inode m)) := by
    rw [find_name (by decide) (by decide) (by decide), if_neg (by decide), sound.start directory,
      search,
      Option.bind_some]
    dsimp only
    rw [findLast, if_pos ⟨create, rfl⟩, created]
    rfl
  refine ⟨made, by rw [fsStep, found]; rfl, ⟨by decide, directory, fun _ => Or.inr room⟩, ?_⟩
  have kept := change.sound sound directory rfl (fun _ before => absurd before (Nat.not_lt_zero _)) site
    (Or.inl (headed.trans (if_pos (by decide))))
  rw [← nodes] at kept
  have firstFree : first ∈ freeBlocks fs.dev := by
    rw [site.free]
    exact List.mem_cons_of_mem _ List.mem_cons_self
  have info : (nodeAt made.dev m).info = first := by rw [change.record]
  have length : (freeBlocks fs.dev).length = rest.length + 2 := by rw [site.free]; rfl
  constructor
  case sound => exact kept
  case directory => exact (change.directory site).mpr (Or.inr ⟨rfl, isDirectory⟩)
  case empty =>
    have other : first ≠ (nodeAt fs.dev d).info := fun equal => fillable.marked (equal ▸ firstFree)
    rw [info, slot_entered site.spot change.toEntered site.first_block.1 site.first_block.2
      site.distinct.1.symm (by decide), if_neg fun both => other both.1]
    exact (sound.blank_slots firstFree).2 0 (by decide)
  case marked =>
    rw [info, change.free]
    exact site.distinct.2.2
  case used =>
    intro i before
    rcases Nat.lt_succ_iff_lt_or_eq.mp before with less | rfl
    · rw [change.records i (by omega) (by omega)]
      exact fillable.used i less
    · rw [change.record]
      exact one_ne_zero
  case unused =>
    intro i bound later
    rw [change.records i bound (by omega)]
    exact fillable.unused i bound (by omega)
  case supply =>
    have supply := fillable.supply
    rw [change.free]
    omega

/-- Directories inside directories use up the inode table. -/
theorem Fillable.overrun (enough : inodeCount ≤ fuel) (left : Nat) (fillable : Fillable fs d n)
    (remaining : n + left = inodeCount) : ∃ labels last,
      runSteps (fsStep rootParent fuel) labels fs = some last ∧
        GuardedRun (fsStep rootParent fuel) (Roomy rootParent fuel) labels fs ∧ ¬InodeFits last := by
  induction left generalizing fs d n with
  | zero =>
      refine ⟨[], fs, rfl, trivial, fun fits => ?_⟩
      obtain ⟨i, bound, free⟩ := fillable.sound.inode_fits.mp fits
      exact fillable.used i (by omega) free
  | succ left hypothesis =>
      obtain ⟨next, stepped, roomy, further⟩ := fillable.next (by omega) enough
      obtain ⟨labels, last, ran, guarded, overrun⟩ := hypothesis further (by omega)
      refine ⟨_ :: labels, last, ?_, ⟨roomy, fun other also => ?_⟩, overrun⟩
      · rw [runSteps, stepped, Option.bind_some, ran]
      · exact (Option.some.inj (stepped.symm.trans also)) ▸ guarded

/-- A file and then a directory in the root of a blank disk; the first one shares the root's block. -/
def firstLabels : List ((Nat → List UInt8) × Op) :=
  [(fun _ => [], .find 0 [0x61] oCreate), (fun _ => [], .find 0 [0x62] (oCreate ||| oDirectory))]

theorem fill_start : ∃ fs, runSteps (fsStep (some 0) inodeCount) firstLabels blankDisk = some fs ∧
    GuardedRun (fsStep (some 0) inodeCount) (Roomy (some 0) inodeCount) firstLabels blankDisk ∧
    Fillable fs 2 3 := by
  have start : Sound blankDisk := blank_sound (fun _ _ => rfl) (by decide)
  have roomy : Roomy (some 0) inodeCount (fun _ => [], .find 0 [0x61] oCreate) blankDisk :=
    ⟨by decide, start.root, fun _ => Or.inr ⟨by decide +kernel, ⟨1, by decide, by decide +kernel⟩,
      by decide⟩⟩
  have guarded : GuardedRun (fsStep (some 0) inodeCount) (Roomy (some 0) inodeCount) firstLabels
      blankDisk := by
    refine ⟨roomy, fun next stepped => ⟨⟨by decide, ?_, fun _ => Or.inr ?_⟩, fun _ _ => trivial⟩⟩
    · exact (step_sound le_rfl (fun _ same => (Option.some.inj same).symm) start roomy stepped).root
    · have facts : (fsStep (some 0) inodeCount (fun _ => [], .find 0 [0x61] oCreate) blankDisk).map
          (fun fs => decide (2 ≤ (freeBlocks fs.dev).length ∧ (nodeAt fs.dev 2).refcnt = 0)) =
          some true := by
        decide +kernel
      rw [stepped] at facts
      obtain ⟨blocks, record⟩ := of_decide_eq_true (Option.some.inj facts)
      exact ⟨blocks, ⟨2, by decide, record⟩, by decide⟩
  obtain ⟨fs, ran⟩ : ∃ fs, runSteps (fsStep (some 0) inodeCount) firstLabels blankDisk = some fs :=
    Option.isSome_iff_exists.mp (by decide +kernel)
  have place : (runSteps (fsStep (some 0) inodeCount) firstLabels blankDisk).map (fun fs : Fs =>
      decide ((nodeAt fs.dev 2).type = ylsDir ∧ slotAt fs.dev (nodeAt fs.dev 2).info 0 = 0 ∧
        (nodeAt fs.dev 2).info ∉ freeBlocks fs.dev ∧
        2 * (inodeCount - 3) ≤ (freeBlocks fs.dev).length)) = some true := by
    decide +kernel
  have records : (runSteps (fsStep (some 0) inodeCount) firstLabels blankDisk).map (fun fs : Fs =>
      decide (∀ i < inodeCount, (nodeAt fs.dev i).refcnt ≠ 0 ↔ i < 3)) = some true := by
    decide +kernel
  rw [ran] at place records
  obtain ⟨type, empty, marked, supply⟩ := of_decide_eq_true (Option.some.inj place)
  have record := of_decide_eq_true (Option.some.inj records)
  have used : ∀ i < 3, (nodeAt fs.dev i).refcnt ≠ 0 :=
    fun i low => (record i (Nat.lt_trans low (by decide))).mpr low
  have unused : ∀ i < inodeCount, 3 ≤ i → (nodeAt fs.dev i).refcnt = 0 := by
    intro i bound high
    by_contra live
    exact absurd ((record i bound).mp live) (by omega)
  refine ⟨fs, ran, guarded, ?_, ⟨⟨by decide, used 2 (by decide)⟩, type⟩, empty, marked, used, unused,
    supply⟩
  exact @run_invariant _ _ (fsStep (some 0) inodeCount) (Roomy (some 0) inodeCount) Sound
    (fun _ _ _ sound supplied stepped =>
      step_sound le_rfl (fun _ same => (Option.some.inj same).symm) sound supplied stepped)
    firstLabels blankDisk fs start guarded ran

end Filling

/-- From a blank disk of 64 KB creations that all succeed lead to a state in which `new_inode` leaves
the table. -/
theorem inode_table_overrun : ∃ labels fs,
    runSteps (fsStep (some 0) inodeCount) labels blankDisk = some fs ∧
      GuardedRun (fsStep (some 0) inodeCount) (Roomy (some 0) inodeCount) labels blankDisk ∧
      ¬InodeFits fs := by
  obtain ⟨middle, ran, guarded, fillable⟩ := fill_start
  obtain ⟨labels, fs, went, further, overrun⟩ := fillable.overrun le_rfl 57 (by decide)
  refine ⟨firstLabels ++ labels, fs, ?_, ?_, overrun⟩
  · rw [run_steps_append, ran, Option.bind_some, went]
  · refine (guarded_run_append _ firstLabels labels blankDisk).mpr ⟨guarded, fun state reached => ?_⟩
    exact (Option.some.inj (ran.symm.trans reached)) ▸ further

/-- Two creations in the root, one in the new directory, and a removal of each kind. -/
def mixedLabels : List ((Nat → List UInt8) × Op) :=
  firstLabels ++ [(fun _ => [], .find 2 [0x63] oCreate), (fun _ => [], .unlink 0 [0x61]),
    (fun _ => [], .rmdir 0 [0x62])]

/-- After creations and removals there is a record, and the next inode is in the table. -/
theorem inode_allocation_mixed : ∃ fs,
    runSteps (fsStep (some 0) inodeCount) mixedLabels blankDisk = some fs ∧
      (InodeFits fs ↔ ∃ i < inodeCount, (nodeAt fs.dev i).refcnt = 0) ∧ InodeFits fs := by
  obtain ⟨fs, ran⟩ : ∃ fs, runSteps (fsStep (some 0) inodeCount) mixedLabels blankDisk = some fs :=
    Option.isSome_iff_exists.mp (by decide +kernel)
  have provided : GuardedRun (fsStep (some 0) inodeCount) Provided mixedLabels blankDisk := by
    decide +kernel
  have exact := inode_allocation (some 0) inodeCount blankDisk fs mixedLabels le_rfl
    (fun _ same => (Option.some.inj same).symm) (.blank (fun _ _ => rfl) (by decide))
    (provided.mono _ fun _ _ => Provided.roomy) ran
  have free : (runSteps (fsStep (some 0) inodeCount) mixedLabels blankDisk).map (fun fs : Fs =>
      decide (∃ i < inodeCount, (nodeAt fs.dev i).refcnt = 0)) = some true := by
    decide +kernel
  rw [ran] at free
  exact ⟨fs, ran, exact, exact.mpr (of_decide_eq_true (Option.some.inj free))⟩

end OsWorkbench.Blkfs
