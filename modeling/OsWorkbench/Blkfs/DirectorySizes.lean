import OsWorkbench.Blkfs.InodeTable
import OsWorkbench.Blkfs.Linking
import OsWorkbench.Blkfs.Listing

/-!
# Directories of every size

Names are looked up, created, linked and listed as they should be in a directory that has a slot that
was never used. There are 30 slots, the link at the end of the block is not followed by a second
block, and wiping a slot does not make it unused again, so every directory gets full in the end; then
`blkfs_ifind` dereferences `NULL` for every name that is not there. A listing into a buffer that is
larger than what is left of a name's block ends unless the reading is caught behind the block.
-/

namespace OsWorkbench.Blkfs

open Kernel ByteStore Library

/-- A name that can be looked up as it is. -/
structure ShortName (name : List UInt8) : Prop extends FileName name where
  plain : name.headD 0 ≠ dot
  short : name.length < 80

instance (name : List UInt8) : Decidable (ShortName name) :=
  decidable_of_iff (FileName name ∧ name.headD 0 ≠ dot ∧ name.length < 80)
    ⟨fun ⟨named, plain, short⟩ => ⟨named, plain, short⟩, fun named => ⟨named.1, named.2, named.3⟩⟩

/-- Creating, linking and removing entries, with room for what is not there yet, and links only when
the blocks of all directories are marked. -/
def Orderly (rootParent : Option Nat) (fuel : Nat) : (Nat → List UInt8) × Op → Fs → Prop
  | (stack, .find cur name flags), fs =>
      slash ∉ name ∧ 0 ∉ name ∧ name.length < 80 ∧ Directory fs.dev cur ∧
        (Has flags oCreate → Present stack rootParent fuel fs cur name ∨ Room fs.dev name)
  | (_, .link parent name inode), fs =>
      0 ∉ name ∧ name.length < 80 ∧ Directory fs.dev parent ∧ Kept fs.dev inode ∧
        freeBlocks fs.dev ≠ [] ∧ Settled fs.dev
  | (_, .unlink parent _), fs => Directory fs.dev parent
  | (_, .rmdir parent _), fs => Directory fs.dev parent
  | _, _ => False

/-- What a directory does for a name that is not in it, and for a buffer of `size` bytes that is larger
than each name in it. -/
structure DirectoryWorks (stack : Nat → List UInt8) (rootParent : Option Nat) (fuel : Nat) (fs : Fs)
    (d : Nat) (name : List UInt8) (size : Nat) : Prop where
  lookup : ∀ flags err, ¬Has flags oCreate →
    blkfsIfindErr stack rootParent fuel fs d name flags err =
      some ((fs, none), "No such file or directory")
  create : ∀ flags, Has flags oCreate → ∃ made n,
    blkfsIfind stack rootParent fuel fs d name flags = some (made, some (.inode n)) ∧
      entriesOf made d = entriesOf fs d ++ [(name, n)]
  link : ∀ inode, Kept fs.dev inode → ∃ next before after,
    blkfsIlink fuel fs d name inode = some (next, 0) ∧ entriesOf fs d = before ++ after ∧
      entriesOf next d = before ++ (name, inode) :: after
  list : ∀ flags, (∀ entry ∈ entriesOf fs d, entry.1.length < size) →
    Ends (fun fuel => readNames fuel fs size (slotCount + 1) (blkfsIopen fs d flags).2)
      ((entriesOf fs d).map Prod.fst)

section Missing

variable {stack : Nat → List UInt8} {rootParent : Option Nat} {fuel d k flags : Nat} {fs : Fs}
  {name : List UInt8}

/-- A search for a name that is not there passes every slot that is not zero. -/
theorem absent_goes (sound : Sound fs) (directory : Directory fs.dev d)
    (absent : name ∉ (entriesOf fs d).map Prod.fst) {j : Nat} (bound : j < slotCount)
    (used : slotAt fs.dev (nodeAt fs.dev d).info j ≠ 0) :
    ¬Stops fs.dev (nodeAt fs.dev d).info name j := by
  rintro (zero | ⟨kept, same⟩)
  · exact used zero
  · have live := slot_live (sound.slots d directory) bound used kept
    refine absent ?_
    rw [entriesOf, sound.table d directory.kept.1, blockEntries, List.map_map]
    exact List.mem_map.mpr ⟨_, live, same⟩

/-- In a directory with room the search ends at the first slot that is zero. -/
theorem search_unused (sound : Sound fs) (titles : Titles fs.dev) (directory : Directory fs.dev d)
    (named : ShortName name) (absent : name ∉ (entriesOf fs d).map Prod.fst) (enough : slotCount < fuel)
    (bound : k < slotCount) (zero : slotAt fs.dev (nodeAt fs.dev d).info k = 0)
    (before : ∀ j < k, slotAt fs.dev (nodeAt fs.dev d).info j ≠ 0) :
    slotSearch stack fuel fs.dev (u32 ((fs.nodes d).info + 4)) name =
      some (.unused (slotPlace (nodeAt fs.dev d).info k)) := by
  have search := @slot_search_stops fs.dev (nodeAt fs.dev d).info 0 k fuel name stack
    (sound.slots d directory) (titles d directory) named.ended (Nat.zero_le k) bound
    (fun j _ less => absent_goes sound directory absent (Nat.lt_trans less bound) (before j less))
    (Or.inl zero) (by omega)
  rw [sound.start directory, search, if_pos zero]

theorem find_unused (sound : Sound fs) (titles : Titles fs.dev) (directory : Directory fs.dev d)
    (named : ShortName name) (absent : name ∉ (entriesOf fs d).map Prod.fst) (enough : slotCount < fuel)
    (bound : k < slotCount) (zero : slotAt fs.dev (nodeAt fs.dev d).info k = 0)
    (before : ∀ j < k, slotAt fs.dev (nodeAt fs.dev d).info j ≠ 0) :
    blkfsIfind stack rootParent fuel fs d name flags =
      findLast fuel fs d (slotPlace (nodeAt fs.dev d).info k) name flags := by
  have fits := named.short
  rw [find_name named.nonempty named.flat named.plain, if_neg (by omega),
    search_unused sound titles directory named absent enough bound zero before, Option.bind_some]

/-- Without `O_CREATE` the name is reported as missing. -/
theorem lookup_warned (sound : Sound fs) (titles : Titles fs.dev) (directory : Directory fs.dev d)
    (named : ShortName name) (absent : name ∉ (entriesOf fs d).map Prod.fst) (enough : slotCount < fuel)
    (bound : k < slotCount) (zero : slotAt fs.dev (nodeAt fs.dev d).info k = 0)
    (before : ∀ j < k, slotAt fs.dev (nodeAt fs.dev d).info j ≠ 0) (missing : ¬Has flags oCreate)
    (err : String) : blkfsIfindErr stack rootParent fuel fs d name flags err =
      some ((fs, none), "No such file or directory") := by
  have fits := named.short
  have alone : ¬(Has flags oCreate ∧ getFirstLayer name = name) := fun both => missing both.1
  rw [find_name_err named.nonempty named.flat named.plain (by omega)
    (search_unused sound titles directory named absent enough bound zero before), findLastErr,
    if_neg alone, findLast, if_neg alone, Option.map_some]

/-- In a full directory it runs past the end, and `next` is still `NULL`. -/
theorem find_full (sound : Sound fs) (titles : Titles fs.dev) (directory : Directory fs.dev d)
    (named : ShortName name) (absent : name ∉ (entriesOf fs d).map Prod.fst) (enough : slotCount < fuel)
    (full : ∀ j < slotCount, slotAt fs.dev (nodeAt fs.dev d).info j ≠ 0) :
    blkfsIfind stack rootParent fuel fs d name flags = none := by
  have fits := named.short
  have search := @slot_search_full fs.dev (nodeAt fs.dev d).info 0 fuel name stack
    (sound.slots d directory) (titles d directory) named.ended (by decide)
    (fun j _ less => absent_goes sound directory absent less (full j less)) (by omega)
  rw [find_name named.nonempty named.flat named.plain, if_neg (by omega), sound.start directory, search,
    Option.bind_some]

/-- Creating a name adds one entry at the end. -/
theorem create_appends (sound : Sound fs) (titles : Titles fs.dev) (directory : Directory fs.dev d)
    (named : ShortName name) (absent : name ∉ (entriesOf fs d).map Prod.fst)
    (enough : inodeCount ≤ fuel) (bound : k < slotCount)
    (zero : slotAt fs.dev (nodeAt fs.dev d).info k = 0)
    (before : ∀ j < k, slotAt fs.dev (nodeAt fs.dev d).info j ≠ 0) (room : Room fs.dev name)
    (create : Has flags oCreate) : ∃ made n block first type head rest,
      blkfsIfind stack rootParent fuel fs d name flags = some (made, some (.inode n)) ∧
        Site fs.dev (nodeAt fs.dev d).info k block n first name rest ∧
        Made fs.dev made.dev (slotPlace (nodeAt fs.dev d).info k) block n first type head name rest ∧
        entriesOf made d = entriesOf fs d ++ [(name, n)] := by
  obtain ⟨block, n, first, rest, site⟩ := room.site sound directory bound
  obtain ⟨made, type, head, created, -, -, nodes, change⟩ :=
    @Site.created _ _ _ _ _ _ _ _ site fs rfl fuel d flags (Nat.lt_of_lt_of_le site.number enough)
      directory.kept.1
  have info : (made.nodes d).info = (nodeAt fs.dev d).info := by
    have other : d ≠ n := fun same => directory.kept.2 (same ▸ site.unused)
    rw [nodes, Function.update_of_ne other, sound.table d directory.kept.1]
  obtain ⟨front, back, old, new, last⟩ := entered_entries site.spot change.toEntered
    (sound.slots d directory) (sound.apart d d directory directory) before (Or.inl zero)
    (sound.blank block site.spot.fresh) named.short named.ended
  refine ⟨made, n, block, first, type, head, rest, ?_, site, change, ?_⟩
  · rw [find_unused sound titles directory named absent (Nat.lt_of_lt_of_le (by decide) enough) bound zero
      before, findLast, if_pos ⟨create, first_layer_flat named.flat⟩, created, Option.map_some]
  · rw [entriesOf, entriesOf, info, sound.table d directory.kept.1, new, old, last zero, List.append_nil]

end Missing

section Links

variable {rootParent : Option Nat} {fuel d k n named : Nat} {fs : Fs} {name : List UInt8}
  {rest : List Nat}

/-- A link adds one entry. -/
theorem LinkSite.adds (sound : Sound fs) (directory : Directory fs.dev d)
    (site : LinkSite fs.dev (nodeAt fs.dev d).info k named n name rest) (enough : slotCount ≤ fuel)
    (short : name.length < 80) (live : 0 ∉ name) : ∃ next before after,
      blkfsIlink fuel fs d name n = some (fs.setDev next, 0) ∧
        Entered fs.dev next (slotPlace (nodeAt fs.dev d).info k) named n name rest ∅ ∧
        (∀ i < inodeCount, nodeAt next i = nodeAt fs.dev i) ∧
        entriesOf fs d = before ++ after ∧
        entriesOf (fs.setDev next) d = before ++ (name, n) :: after := by
  have record := sound.table d directory.kept.1
  obtain ⟨next, linked, entered, records⟩ :=
    site.linked rfl (congrArg YlsNode.info record) enough
  obtain ⟨before, after, old, new, -⟩ := entered_entries site.spot entered (sound.slots d directory)
    (sound.apart d d directory directory) (fun j less => (site.goes j less).1) site.empty
    (sound.blank named site.spot.fresh) short live
  refine ⟨next, before, after, linked, entered, records, ?_, ?_⟩
  · rw [entriesOf, record, old]
  · rw [entriesOf, Fs.setDev_nodes, Fs.setDev_dev, record, new]

end Links

section Runs

variable {stack : Nat → List UInt8} {rootParent : Option Nat} {fuel cur flags : Nat} {fs next : Fs}
  {name : List UInt8} {result : Option Place}

/-- Looking for a name and creating it keep the names complete. -/
theorem find_titled (enough : inodeCount ≤ fuel) (top : ∀ up, rootParent = some up → up = 0)
    (sound : Sound fs) (titles : Titles fs.dev) (directory : Directory fs.dev cur) (flat : slash ∉ name)
    (live : 0 ∉ name) (short : name.length < 80) (room : Has flags oCreate → Room fs.dev name)
    (found : blkfsIfind stack rootParent fuel fs cur name flags = some (next, result)) :
    Sound next ∧ Titles next.dev := by
  refine ⟨find_sound enough top sound directory flat room found, ?_⟩
  rcases find_ends top sound directory flat found with rfl | ⟨d, rest, place, suffix, other, went⟩
  · exact titles
  rcases find_plain_made enough sound place (fun member => flat (suffix.subset member)) other
      (fun create => (room create).suffix suffix) went with
    rfl | ⟨m, named, n, first, type, head, left, before, site, change, nodes, typed⟩
  · exact titles
  · exact change.titles sound titles place rfl site (Nat.lt_of_le_of_lt suffix.length_le short)
      fun member => live (suffix.subset member)

theorem wipe_titled {directory : Bool} {value : Int} (sound : Sound fs) (titles : Titles fs.dev)
    (parent : Directory fs.dev cur)
    (wiped : wipeEntry stack fuel fs cur name directory = some (next, value)) :
    Sound next ∧ Titles next.dev := by
  refine ⟨wipe_sound sound parent wiped, ?_⟩
  rcases wipe_made sound parent wiped with rfl | ⟨m, bound, live, rfl⟩
  · exact titles
  · exact sound.wipe_titles titles parent bound

theorem link_titled {value : Int} {n : Nat} (enough : slotCount ≤ fuel) (sound : Sound fs)
    (titles : Titles fs.dev) (directory : Directory fs.dev cur) (target : Kept fs.dev n)
    (live : 0 ∉ name) (short : name.length < 80) (room : freeBlocks fs.dev ≠ [])
    (settled : Settled fs.dev) (linked : blkfsIlink fuel fs cur name n = some (next, value)) :
    Sound next ∧ Titles next.dev := by
  obtain ⟨k, named, rest, device, site, rfl, entered, records⟩ :=
    sound.links enough directory target short room settled linked
  exact ⟨(site.sound sound directory settled target entered records).1,
    site.titles sound titles directory settled entered records short live⟩

theorem step_titled {label : (Nat → List UInt8) × Op} (enough : inodeCount ≤ fuel)
    (top : ∀ up, rootParent = some up → up = 0) (kept : Sound fs ∧ Titles fs.dev)
    (orderly : Orderly rootParent fuel label fs)
    (stepped : fsStep rootParent fuel label fs = some next) : Sound next ∧ Titles next.dev := by
  obtain ⟨sound, titles⟩ := kept
  obtain ⟨stack, op⟩ := label
  cases op with
  | find cur name flags =>
      obtain ⟨⟨state, result⟩, found, rfl⟩ := Option.map_eq_some_iff.mp stepped
      obtain ⟨flat, live, short, directory, room⟩ := orderly
      by_cases present : Present stack rootParent fuel fs cur name
      · have same := find_unchanged flat (fun _ => present) found
        exact same.symm ▸ ⟨sound, titles⟩
      · exact find_titled enough top sound titles directory flat live short
          (fun create => (room create).resolve_left present) found
  | link parent name inode =>
      obtain ⟨⟨state, value⟩, linked, rfl⟩ := Option.map_eq_some_iff.mp stepped
      obtain ⟨live, short, directory, target, room, settled⟩ := orderly
      exact link_titled (Nat.le_trans (by decide) enough) sound titles directory target live short room
        settled linked
  | unlink parent name =>
      obtain ⟨⟨state, value⟩, wiped, rfl⟩ := Option.map_eq_some_iff.mp stepped
      exact wipe_titled sound titles orderly wiped
  | rmdir parent name =>
      obtain ⟨⟨state, value⟩, wiped, rfl⟩ := Option.map_eq_some_iff.mp stepped
      exact wipe_titled sound titles orderly wiped
  | write file buf => exact orderly.elim

end Runs

/-- In every state that orderly runs reach, a directory works for the names that are not in it if and
only if it has a slot that was never used and, with a buffer for its names, reading is caught at none. -/
theorem directory_works (stack : Nat → List UInt8) (rootParent : Option Nat) (fuel : Nat)
    (start fs : Fs) (labels : List ((Nat → List UInt8) × Op)) (d : Nat) (name : List UInt8) (size : Nat)
    (enough : inodeCount ≤ fuel) (top : ∀ up, rootParent = some up → up = 0)
    (initialised : Initialised start) (titled : Titles start.dev)
    (orderly : GuardedRun (fsStep rootParent fuel) (Orderly rootParent fuel) labels start)
    (ran : runSteps (fsStep rootParent fuel) labels start = some fs) (directory : Directory fs.dev d)
    (named : ShortName name) (absent : name ∉ (entriesOf fs d).map Prod.fst) (room : Room fs.dev name) :
    DirectoryWorks stack rootParent fuel fs d name size ↔
      (∃ k < slotCount, slotAt fs.dev (nodeAt fs.dev d).info k = 0) ∧
        ((∀ entry ∈ entriesOf fs d, entry.1.length < size) →
          ∀ c ∈ liveSlots fs.dev (nodeAt fs.dev d).info, ¬Caught fs.dev (c + 4) size) := by
  obtain ⟨sound, titles⟩ := @run_invariant _ _ (fsStep rootParent fuel) (Orderly rootParent fuel)
    (fun state => Sound state ∧ Titles state.dev)
    (fun _ _ _ kept supplied stepped => step_titled enough top kept supplied stepped) labels start fs
    ⟨initialised.sound, titled⟩ orderly ran
  have many : slotCount < fuel := Nat.lt_of_lt_of_le (by decide) enough
  constructor
  · intro works
    have unused : ∃ k < slotCount, slotAt fs.dev (nodeAt fs.dev d).info k = 0 := by
      by_contra full
      push Not at full
      have halts := @find_full stack rootParent fuel d 0 fs name sound titles directory named absent
        many full
      rw [← @blkfs_ifind_err stack rootParent fuel d 0 fs name "", works.lookup 0 "" (by decide)] at halts
      exact nomatch halts
    refine ⟨unused, fun fits => ?_⟩
    obtain ⟨last, bound, zero⟩ := unused
    exact (read_names_entries sound titles directory fits bound zero).mp (works.list 0 fits)
  · rintro ⟨⟨m, inside, zero⟩, free⟩
    obtain ⟨k, bound, empty, before⟩ : ∃ k < slotCount, slotAt fs.dev (nodeAt fs.dev d).info k = 0 ∧
        ∀ j < k, slotAt fs.dev (nodeAt fs.dev d).info j ≠ 0 := by
      have one : ∃ k, slotAt fs.dev (nodeAt fs.dev d).info k = 0 := ⟨m, zero⟩
      exact ⟨Nat.find one, Nat.lt_of_le_of_lt (Nat.find_min' one zero) inside, Nat.find_spec one,
        fun j less => Nat.find_min one less⟩
    constructor
    case lookup =>
      intro flags err missing
      exact lookup_warned sound titles directory named absent many bound empty before missing err
    case create =>
      intro flags create
      obtain ⟨made, n, block, first, type, head, rest, found, -, -, added⟩ :=
        create_appends sound titles directory named absent enough bound empty before room create
      exact ⟨made, n, found, added⟩
    case link =>
      intro inode target
      obtain ⟨block, n, first, rest, site⟩ := room.site sound directory bound
      obtain ⟨j, inside, free, goes⟩ := first_empty ⟨m, inside, Or.inl zero⟩
      have linking := sound.link_site directory site.free site.unlike target named.short inside free goes
      obtain ⟨next, front, back, linked, -, -, old, new⟩ :=
        @LinkSite.adds fuel d j inode block fs name (first :: rest) sound directory linking (by omega)
          named.short named.ended
      exact ⟨fs.setDev next, front, back, linked, old, new⟩
    case list =>
      intro flags fits
      exact (read_names_entries sound titles directory fits inside zero).mpr (free fits)

section Filling

/-- A name of one letter. -/
def letter (m : Nat) : List UInt8 := [UInt8.ofNat (0x41 + m)]

theorem letter_short : ∀ m < slotCount + 1, ShortName (letter m) := by decide

theorem letter_fresh : ∀ m < slotCount + 1, letter m ∉ (List.range m).map letter := by decide

/-- The root has the first `m` letters in its first slots, and there is room for the others. -/
structure Lettered (fs : Fs) (m : Nat) : Prop where
  sound : Sound fs
  titles : Titles fs.dev
  names : (entriesOf fs 0).map Prod.fst = (List.range m).map letter
  used : ∀ k < m, slotAt fs.dev (nodeAt fs.dev 0).info k ≠ 0
  unused : ∀ k < slotCount, m ≤ k → slotAt fs.dev (nodeAt fs.dev 0).info k = 0
  records : ∀ i < inodeCount, m < i → (nodeAt fs.dev i).refcnt = 0
  supply : 2 * (slotCount + 1 - m) ≤ (freeBlocks fs.dev).length

variable {fs : Fs} {m : Nat}

theorem Lettered.room (lettered : Lettered fs m) (bound : m ≤ slotCount) : Room fs.dev (letter m) where
  blocks := by
    have supply := lettered.supply
    omega
  record := by
    have few : m ≤ 30 := bound
    have inside : m + 1 < inodeCount := Nat.lt_of_le_of_lt (Nat.succ_le_succ few) (by decide)
    exact ⟨m + 1, inside, lettered.records _ inside (Nat.lt_succ_self m)⟩
  short := Nat.le_trans (Nat.le_of_eq rfl) (show 1 ≤ blkMem by decide)

theorem Lettered.absent (lettered : Lettered fs m) (bound : m ≤ slotCount) :
    letter m ∉ (entriesOf fs 0).map Prod.fst := by
  rw [lettered.names]
  exact letter_fresh m (Nat.lt_succ_of_le bound)

/-- One more letter is created. -/
theorem Lettered.next (lettered : Lettered fs m) (bound : m < slotCount) : ∃ next,
    fsStep (some 0) inodeCount (fun _ => [], .find 0 (letter m) oCreate) fs = some next ∧
      Orderly (some 0) inodeCount (fun _ => [], .find 0 (letter m) oCreate) fs ∧
      Lettered next (m + 1) := by
  have sound := lettered.sound
  have titles := lettered.titles
  have named := letter_short m (Nat.lt_succ_of_lt bound)
  have absent := lettered.absent bound.le
  have room := lettered.room bound.le
  have orderly : Orderly (some 0) inodeCount (fun _ => [], .find 0 (letter m) oCreate) fs :=
    ⟨named.flat, named.ended, named.short, sound.root, fun _ => Or.inr room⟩
  obtain ⟨made, n, block, first, type, head, rest, found, site, change, added⟩ :=
    @create_appends (fun _ => []) (some 0) inodeCount 0 m oCreate fs (letter m) sound titles sound.root
      named absent le_rfl bound (lettered.unused m bound le_rfl) lettered.used room (by decide)
  have stepped : fsStep (some 0) inodeCount (fun _ => [], .find 0 (letter m) oCreate) fs =
      some made := by
    rw [fsStep, found, Option.map_some]
  obtain ⟨keptSound, keptTitles⟩ :=
    step_titled le_rfl (fun _ same => (Option.some.inj same).symm) ⟨sound, titles⟩ orderly stepped
  have info : (nodeAt made.dev 0).info = (nodeAt fs.dev 0).info :=
    congrArg YlsNode.info (change.old site sound.root.kept)
  have early : n ≤ m + 1 := by
    by_contra late
    have few : m < 30 := bound
    have inside : m + 1 < inodeCount := Nat.lt_of_lt_of_le (Nat.succ_lt_succ few) (by decide)
    exact site.used (m + 1) (by omega) (lettered.records _ inside (Nat.lt_succ_self m))
  have slot {k : Nat} (few : k < slotCount) : slotAt made.dev (nodeAt made.dev 0).info k =
      if k = m then block else slotAt fs.dev (nodeAt fs.dev 0).info k := by
    rw [info, slot_entered site.spot change.toEntered site.block site.later site.unlike.symm few]
    exact if_congr (and_iff_right rfl) rfl rfl
  refine ⟨made, stepped, orderly, keptSound, keptTitles, ?_, ?_, ?_, ?_, ?_⟩
  · rw [added, List.map_append, lettered.names, List.range_succ, List.map_append]
    rfl
  · intro k less
    rw [slot (by omega)]
    split
    · exact Nat.pos_iff_ne_zero.mp site.named_block.1.later
    · exact lettered.used k (by omega)
  · intro k few later
    rw [slot few, if_neg (by omega)]
    exact lettered.unused k few (by omega)
  · intro i inside later
    rw [change.records i inside (by omega)]
    exact lettered.records i inside (by omega)
  · have supply := lettered.supply
    rw [site.free, List.length_cons, List.length_cons] at supply
    rw [change.free]
    omega

theorem Lettered.fill (left : Nat) (lettered : Lettered fs m) (remaining : m + left = slotCount) :
    ∃ labels last, runSteps (fsStep (some 0) inodeCount) labels fs = some last ∧
      GuardedRun (fsStep (some 0) inodeCount) (Orderly (some 0) inodeCount) labels fs ∧
      Lettered last slotCount := by
  induction left generalizing fs m with
  | zero => exact ⟨[], fs, rfl, trivial, remaining ▸ lettered⟩
  | succ left hypothesis =>
      obtain ⟨next, stepped, orderly, further⟩ := lettered.next (by omega)
      obtain ⟨labels, last, ran, guarded, full⟩ := hypothesis further (by omega)
      refine ⟨_ :: labels, last, ?_, ⟨orderly, fun other also => ?_⟩, full⟩
      · rw [runSteps, stepped, Option.bind_some, ran]
      · exact (Option.some.inj (stepped.symm.trans also)) ▸ guarded

theorem blank_titles {dev : Rd} (zero : ∀ a < dev.size, dev.mem a = 0) (room : 0x500 ≤ dev.size) :
    Titles (blkfsInit dev).dev := by
  rw [blkfs_init_blank zero room]
  intro i directory k bound used
  obtain rfl := blank_directory zero room directory
  exact absurd (blank_slot zero room bound) (Nat.pos_iff_ne_zero.mp used.block.later)

theorem blank_lettered : Lettered blankDisk 0 where
  sound := blank_sound (fun _ _ => rfl) (by decide)
  titles := blank_titles (fun _ _ => rfl) (by decide)
  names := by decide +kernel
  used _ less := absurd less (Nat.not_lt_zero _)
  unused k bound _ := by
    have slot := @blank_slot ⟨0x10000, fun _ => 0, by decide⟩ (fun _ _ => rfl) (by decide) k bound
    rwa [show blankDisk = _ from blkfs_init_blank (fun _ _ => rfl) (by decide)]
  records i bound later := by
    have record := @blank_record ⟨0x10000, fun _ => 0, by decide⟩ (fun _ _ => rfl) (by decide) i later bound
    rwa [show blankDisk = _ from blkfs_init_blank (fun _ _ => rfl) (by decide)]
  supply := by decide +kernel

end Filling

/-- From a blank disk of 64 KB 30 creations that all succeed fill the root, and then looking for a
name that is not there, or creating it, dereferences `NULL`. -/
theorem root_directory_full : ∃ labels fs,
    runSteps (fsStep (some 0) inodeCount) labels blankDisk = some fs ∧
      GuardedRun (fsStep (some 0) inodeCount) (Orderly (some 0) inodeCount) labels blankDisk ∧
      ShortName [0x5f] ∧ [0x5f] ∉ (entriesOf fs 0).map Prod.fst ∧ Room fs.dev [0x5f] ∧
      ∀ stack flags, blkfsIfind stack (some 0) inodeCount fs 0 [0x5f] flags = none := by
  obtain ⟨labels, fs, ran, guarded, full⟩ := blank_lettered.fill slotCount (Nat.zero_add _)
  have named : ShortName [0x5f] := by decide
  have absent : [0x5f] ∉ (entriesOf fs 0).map Prod.fst := full.absent le_rfl
  refine ⟨labels, fs, ran, guarded, named, absent, full.room le_rfl, fun stack flags => ?_⟩
  exact find_full full.sound full.titles full.sound.root named absent (by decide) full.used

/-- What can be looked up on a device before a step of an orderly run. -/
def Prepared : (Nat → List UInt8) × Op → Fs → Prop
  | (_, .find cur name flags), fs =>
      slash ∉ name ∧ 0 ∉ name ∧ name.length < 80 ∧ Directory fs.dev cur ∧
        (Has flags oCreate → Room fs.dev name)
  | (_, .link parent name inode), fs =>
      0 ∉ name ∧ name.length < 80 ∧ Directory fs.dev parent ∧
        (inode < inodeCount ∧ (nodeAt fs.dev inode).refcnt ≠ 0) ∧ freeBlocks fs.dev ≠ [] ∧
          ∀ i < inodeCount, Directory fs.dev i → (nodeAt fs.dev i).info ∉ freeBlocks fs.dev
  | (_, .unlink parent _), fs => Directory fs.dev parent
  | (_, .rmdir parent _), fs => Directory fs.dev parent
  | _, _ => False

instance decidablePrepared : (label : (Nat → List UInt8) × Op) → DecidablePred (Prepared label)
  | (_, .find _ _ _), _ => inferInstanceAs (Decidable (_ ∧ _ ∧ _ ∧ _ ∧ (_ → _)))
  | (_, .link _ _ _), fs => inferInstanceAs (Decidable (_ ∧ _ ∧ _ ∧ (_ ∧ _) ∧ _ ∧
      ∀ i < inodeCount, Directory fs.dev i → (nodeAt fs.dev i).info ∉ freeBlocks fs.dev))
  | (_, .unlink parent _), fs => inferInstanceAs (Decidable (Directory fs.dev parent))
  | (_, .rmdir parent _), fs => inferInstanceAs (Decidable (Directory fs.dev parent))
  | (_, .write _ _), _ => isFalse id

theorem Prepared.orderly {rootParent : Option Nat} {fuel : Nat} {label : (Nat → List UInt8) × Op}
    {fs : Fs} (prepared : Prepared label fs) : Orderly rootParent fuel label fs := by
  obtain ⟨stack, op⟩ := label
  cases op with
  | find cur name flags =>
      obtain ⟨flat, live, short, directory, room⟩ := prepared
      exact ⟨flat, live, short, directory, fun create => Or.inr (room create)⟩
  | link parent name inode =>
      obtain ⟨live, short, directory, target, free, settled⟩ := prepared
      exact ⟨live, short, directory, target, free, fun i place => settled i place.kept.1 place⟩
  | unlink parent name => exact prepared
  | rmdir parent name => exact prepared
  | write file buf => exact prepared

/-- A file `a` and a directory `b` are created, `a` is removed, and `c` is another name of `b`. -/
def linkedLabels : List ((Nat → List UInt8) × Op) :=
  firstLabels ++ [(fun _ => [], .unlink 0 [0x61]), (fun _ => [], .link 0 [0x63] 2)]

/-- After these steps the root works for `d`, also for the 200 bytes that `ls` reads into. -/
theorem directory_works_linked : ∃ fs,
    runSteps (fsStep (some 0) inodeCount) linkedLabels blankDisk = some fs ∧
      (entriesOf fs 0).map Prod.fst = [[0x63], [0x62]] ∧
      DirectoryWorks (fun _ => []) (some 0) inodeCount fs 0 [0x64] 200 := by
  obtain ⟨fs, ran⟩ : ∃ fs, runSteps (fsStep (some 0) inodeCount) linkedLabels blankDisk = some fs :=
    Option.isSome_iff_exists.mp (by decide +kernel)
  have prepared : GuardedRun (fsStep (some 0) inodeCount) Prepared linkedLabels blankDisk := by
    decide +kernel
  have facts : (runSteps (fsStep (some 0) inodeCount) linkedLabels blankDisk).map (fun fs : Fs =>
      decide (Directory fs.dev 0 ∧ (entriesOf fs 0).map Prod.fst = [[0x63], [0x62]] ∧
        Room fs.dev [0x64] ∧ ∃ k < slotCount, slotAt fs.dev (nodeAt fs.dev 0).info k = 0)) =
          some true := by
    decide +kernel
  have reads : (runSteps (fsStep (some 0) inodeCount) linkedLabels blankDisk).map (fun fs : Fs =>
      decide (∀ c ∈ liveSlots fs.dev (nodeAt fs.dev 0).info,
        (blockReadLoop 8 fs.dev (c + 4) 200 []).isSome = true)) = some true := by
    decide +kernel
  rw [ran] at facts reads
  obtain ⟨directory, names, room, unused⟩ := of_decide_eq_true (Option.some.inj facts)
  have ended := of_decide_eq_true (Option.some.inj reads)
  refine ⟨fs, ran, names, ?_⟩
  refine (directory_works (fun _ => []) (some 0) inodeCount blankDisk fs linkedLabels 0 [0x64] 200 le_rfl
    (fun _ same => (Option.some.inj same).symm) (.blank (fun _ _ => rfl) (by decide))
    blank_lettered.titles (prepared.mono _ fun _ _ => Prepared.orderly) ran directory (by decide)
    (by rw [names]; decide) room).mpr ⟨unused, fun _ c member caught => ?_⟩
  have some := ended c member
  rw [caught_loops caught] at some
  exact nomatch some

end OsWorkbench.Blkfs
