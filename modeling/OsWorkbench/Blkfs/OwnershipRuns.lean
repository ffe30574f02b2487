import OsWorkbench.Blkfs.Ownership
import OsWorkbench.Blkfs.RunningOut

/-!
# Owned blocks over runs

A write takes free blocks for its file and leaves the blocks of directories, names and other files as
they are. With that every operation keeps the invariant, and a device on which `yls_init` had marked
both blocks of the root would keep each block with one owner.
-/

namespace OsWorkbench.Blkfs

open Kernel ByteStore Library LinkedList

section Frames

variable {dev other : Rd} {b m skip : Nat} {fs next : Fs}

theorem block_word (bytes : ∀ skip < blkSz, other.mem (b + skip) = dev.mem (b + skip))
    (inside : skip + 4 ≤ blkSz) : word other.mem (b + skip) = word dev.mem (b + skip) := by
  refine word_congr fun a within => ?_
  rw [mem_span] at within
  obtain ⟨i, rfl⟩ := Nat.exists_eq_add_of_le within.1
  rw [Nat.add_assoc]
  exact bytes _ (by omega)

theorem block_slot (bytes : ∀ skip < blkSz, other.mem (b + skip) = dev.mem (b + skip))
    (bound : m < slotCount) : slotAt other b m = slotAt dev b m := by
  have few : m < 30 := bound
  have place := @block_word dev other b (4 + 4 * m) bytes (by unfold blkSz; omega)
  rw [← Nat.add_assoc] at place
  exact place

/-- A state that keeps the blocks of the directories and of the names, and the free ones, is sound. -/
theorem Sound.moved (sound : Sound fs) (size : next.dev.size = fs.dev.size)
    (fewer : ∀ b ∈ freeBlocks next.dev, b ∈ freeBlocks fs.dev) (settled : Settled next.dev)
    (table : ∀ i < inodeCount, next.nodes i = nodeAt next.dev i)
    (records : ∀ i < inodeCount, (nodeAt next.dev i).refcnt = (nodeAt fs.dev i).refcnt ∧
      (nodeAt next.dev i).info = (nodeAt fs.dev i).info ∧
      (nodeAt next.dev i).type = (nodeAt fs.dev i).type)
    (supply : ∀ b ∈ freeBlocks next.dev, ∀ skip < blkSz, next.dev.mem (b + skip) = fs.dev.mem (b + skip))
    (lists : ∀ d, Directory fs.dev d → ∀ skip < blkSz,
      next.dev.mem ((nodeAt fs.dev d).info + skip) = fs.dev.mem ((nodeAt fs.dev d).info + skip))
    (names : ∀ d, Directory fs.dev d → ∀ k < slotCount,
      NameBlock fs.dev (slotAt fs.dev (nodeAt fs.dev d).info k) → ∀ skip < blkSz,
        next.dev.mem (slotAt fs.dev (nodeAt fs.dev d).info k + skip) =
          fs.dev.mem (slotAt fs.dev (nodeAt fs.dev d).info k + skip)) : Sound next := by
  have kept {i : Nat} : Kept next.dev i ↔ Kept fs.dev i :=
    and_congr_right fun bound => by rw [(records i bound).1]
  have same {i : Nat} : Directory next.dev i ↔ Directory fs.dev i := by
    constructor
    · intro after
      exact ⟨kept.mp after.kept, (records i after.kept.1).2.2 ▸ after.type⟩
    · intro before
      exact ⟨kept.mpr before.kept, (records i before.kept.1).2.2.symm ▸ before.type⟩
  have info {i : Nat} (after : Directory next.dev i) :
      (nodeAt next.dev i).info = (nodeAt fs.dev i).info :=
    (records i after.kept.1).2.1
  constructor
  case table => exact table
  case placed =>
    intro b free
    exact ⟨(sound.placed b (fewer b free)).1.congr size, (sound.placed b (fewer b free)).2⟩
  case blank =>
    intro b free skip low inside
    exact (supply b free skip inside).trans (sound.blank b (fewer b free) skip low inside)
  case root => exact same.mpr sound.root
  case slots =>
    intro i after
    have before := same.mp after
    have old := sound.slots i before
    rw [info after]
    refine ⟨old.block.congr size, old.later, ?_, fun k bound => ?_, fun k m order bound zero => ?_⟩
    · rw [nextOf, block_word (lists i before) (by decide)]
      exact old.final
    · rw [block_slot (lists i before) bound]
      refine (old.filled k bound).imp_right (Or.imp_right fun used => ?_)
      have target := @block_word _ _ _ 0 (names i before k bound used) (by decide)
      rw [Nat.add_zero] at target
      refine ⟨used.block.congr size, used.later, fun free => used.taken (fewer _ free), ?_⟩
      exact target.symm ▸ kept.mpr used.target
    · rw [block_slot (lists i before) (by omega)] at zero
      rw [block_slot (lists i before) bound]
      exact old.ended k m order bound zero
  case parents =>
    intro i after
    have before := same.mp after
    have head := @block_word _ _ _ 0 (lists i before) (by decide)
    rw [Nat.add_zero] at head
    rw [info after, head]
    exact same.mpr (sound.parents i before)
  case apart =>
    intro i j one two k bound
    rw [info one, info two, block_slot (lists i (same.mp one)) bound]
    exact sound.apart i j (same.mp one) (same.mp two) k bound
  case reserved => exact fun i after free => absurd free (settled i after)

end Frames

section Writes

variable {fs next : Fs} {i fuel : Nat} {rest more : List Nat} {file file' : VFile} {buf : List UInt8}
  {nwrite : Int}

/-- A write that starts no further than behind the blocks of its file, which the free ones may follow. -/
structure WriteFits (fuel : Nat) (fs : Fs) (file : VFile) (buf : List UInt8) (rest : List Nat) :
    Prop where
  chained : Chained fs.dev (nodeAt fs.dev file.inode).info rest
  starts : (movedFile fs file).offset ≤ blkMem * (rest.length + 1)
  room : (movedFile fs file).offset + buf.length ≤
    blkMem * (rest.length + 1 + (freeBlocks fs.dev).length)
  fuelled : (movedFile fs file).offset + buf.length < fuel

/-- What a write changes: the blocks of its file, to which it adds free ones, and the size of it. -/
structure Filed (fs next : Fs) (i : Nat) (rest more : List Nat) : Prop where
  size : next.dev.size = fs.dev.size
  free : freeBlocks fs.dev = more ++ freeBlocks next.dev
  chained : Chained next.dev (nodeAt fs.dev i).info (rest ++ more)
  table : ∀ j < inodeCount, next.nodes j = nodeAt next.dev j
  records : ∀ j < inodeCount, (nodeAt next.dev j).refcnt = (nodeAt fs.dev j).refcnt ∧
    (nodeAt next.dev j).info = (nodeAt fs.dev j).info ∧
    (nodeAt next.dev j).type = (nodeAt fs.dev j).type
  frame : ∀ a, inodeEnd ≤ a → (∀ c ∈ (nodeAt fs.dev i).info :: (rest ++ more), a ∉ span c blkSz) →
    next.dev.mem a = fs.dev.mem a

/-- Only the size in the record of the file changes. -/
theorem update_size_records (number : file.inode < inodeCount) (reach : inodeEnd ≤ fs.dev.size)
    (table : ∀ j < inodeCount, fs.nodes j = nodeAt fs.dev j) {newsize : Nat} (small : newsize < 2 ^ 32) :
    (∀ j < inodeCount, (updateSize fs file newsize).nodes j = nodeAt (updateSize fs file newsize).dev j) ∧
      ∀ j < inodeCount, nodeAt (updateSize fs file newsize).dev j =
        if j = file.inode then { nodeAt fs.dev j with size := newsize } else nodeAt fs.dev j := by
  have record (j : Nat) (bound : j < inodeCount) : nodeAt (updateSize fs file newsize).dev j =
      if j = file.inode then { nodeAt fs.dev j with size := newsize } else nodeAt fs.dev j := by
    rw [(update_size_alike number reach newsize).1]
    have place : sizePlace file.inode = nodePlace file.inode + 8 := rfl
    have length := word_bytes_length newsize
    split
    next same =>
      subst same
      have front (a : Nat) (low : a + 4 ≤ nodePlace file.inode + 8) :
          word (fs.dev.store (nodePlace file.inode + 8) (wordBytes newsize)).mem a = word fs.dev.mem a :=
        word_store_outside (Or.inl low)
      have last : word (fs.dev.store (nodePlace file.inode + 8) (wordBytes newsize)).mem
          (nodePlace file.inode + 12) = word fs.dev.mem (nodePlace file.inode + 12) :=
        word_store_outside (Or.inr (by omega))
      have written : word (fs.dev.store (nodePlace file.inode + 8) (wordBytes newsize)).mem
          (nodePlace file.inode + 8) = newsize := by
        rw [Rd.store_mem, word_overlay_self, Nat.mod_eq_of_lt small]
      rw [place, nodeAt, front _ (by omega), front _ (by omega), last, written]
      rfl
    next other =>
      refine node_at_outside ?_
      unfold nodePlace sizeofNode at *
      omega
  refine ⟨fun j bound => ?_, record⟩
  rw [record j bound, updateSize, Fs.setDev_nodes]
  by_cases same : j = file.inode
  · subst same
    rw [if_pos rfl, Fs.setNode_self, table _ bound]
  · rw [if_neg same, ← table j bound]
    exact Function.update_of_ne same ..

/-- A block of the file afterwards is one that it had, or one that the write took. -/
theorem own_or_new {first b : Nat} (member : b ∈ first :: (rest ++ more)) :
    b ∈ first :: rest ∨ b ∈ more :=
  List.mem_append.mp (show b ∈ (first :: rest) ++ more from member)

/-- What is written behind the inode table leaves the records as they are. -/
theorem Stored.records {dev dev' : Rd} {first shift : Nat} {s : List UInt8}
    (stored : Stored dev first rest shift s dev' more)
    (later : ∀ c ∈ first :: (rest ++ more), inodeEnd ≤ c) (j : Nat) (bound : j < inodeCount) :
    nodeAt dev' j = nodeAt dev j := by
  have inside := record_inside bound
  have start : bitmapLen ≤ inodeStart := by decide
  have same (skip : Nat) (low : skip + 4 ≤ sizeofNode) :
      word dev'.mem (nodePlace j + skip) = word dev.mem (nodePlace j + skip) := by
    refine word_congr fun a within => stored.frame a ?_ fun c member wrong => ?_
    · rw [mem_span] at within
      omega
    · have above := later c member
      rw [mem_span] at within wrong
      omega
  have front := same 0 (by decide)
  rw [Nat.add_zero] at front
  rw [nodeAt, nodeAt, front, same 4 (by decide), same 8 (by decide), same 12 (by decide)]

theorem iwrite_filed (allotted : Allotted fs) (kept : Kept fs.dev file.inode)
    (regular : (nodeAt fs.dev file.inode).type = ylsFile) (fits : WriteFits fuel fs file buf rest)
    (ran : blkfsIwrite fuel fs file buf = some (next, file', nwrite)) :
    ∃ more, Filed fs next file.inode rest more := by
  have sound := allotted.toSound
  have node := sound.table file.inode kept.1
  obtain ⟨own, chained, behind⟩ := allotted.chained file.inode kept
  obtain rfl : own = rest := chain_unique chained fits.chained
  have reach := sound.space
  obtain ⟨dev', more, wrote, stored⟩ :=
    block_write_ends fits.fuelled sound.formatted chained fits.starts fits.room
  have started : startedFile fs file = fs := by
    refine if_neg fun both => ?_
    rw [node] at both
    exact absurd both.1 (Nat.pos_iff_ne_zero.mp chained.block.later)
  -- the blocks that are written to are behind the inode table
  have later : ∀ c ∈ (nodeAt fs.dev file.inode).info :: (own ++ more), inodeEnd ≤ c := by
    intro c member
    rcases own_or_new member with old | new
    · exact behind c old
    · exact (sound.placed c (stored.taken ▸ List.mem_append_left _ new)).2
  have record := stored.records later
  have table (j : Nat) (bound : j < inodeCount) : (fs.setDev dev').nodes j = nodeAt dev' j :=
    (sound.table j bound).trans (record j bound).symm
  have regular' : (fs.nodes file.inode).type = ylsFile := node ▸ regular
  rw [iwrite_regular fs file regular', started, writeFile, node, wrote] at ran
  obtain rfl := congrArg Prod.fst (Option.some.inj ran)
  have frame (a : Nat) (above : inodeEnd ≤ a)
      (outside : ∀ c ∈ (nodeAt fs.dev file.inode).info :: (own ++ more), a ∉ span c blkSz) :
      dev'.mem a = fs.dev.mem a :=
    stored.frame a (Nat.le_trans (by decide) above) outside
  refine ⟨more, ?_⟩
  dsimp only
  split
  · have size : inodeEnd ≤ (fs.setDev dev').dev.size := by
      rw [Fs.setDev_dev, stored.size]
      exact reach
    have number : (movedFile fs file).inode = file.inode := by
      rw [movedFile]
      split <;> rfl
    have bound : (movedFile fs file).inode < inodeCount := number ▸ kept.1
    obtain ⟨tables, records⟩ := @update_size_records (fs.setDev dev')
      { movedFile fs file with offset := u32 ((movedFile fs file).offset + buf.length) } bound size table
      (u32 ((movedFile fs file).offset + buf.length)) (Nat.mod_lt _ (by decide))
    obtain ⟨-, alike, same⟩ := @update_size_alike (fs.setDev dev')
      { movedFile fs file with offset := u32 ((movedFile fs file).offset + buf.length) } bound size
      (u32 ((movedFile fs file).offset + buf.length))
    refine ⟨alike.size.trans stored.size, ?_, alike.chained stored.chained, tables, fun j listed => ?_,
      fun a above outside => (same a above).trans (frame a above outside)⟩
    · rw [alike.free]
      exact stored.taken
    · rw [records j listed, Fs.setDev_dev, record j listed]
      split
      · exact ⟨rfl, rfl, rfl⟩
      · exact ⟨rfl, rfl, rfl⟩
  · refine ⟨stored.size, stored.taken, stored.chained, table, fun j listed => ?_, frame⟩
    rw [Fs.setDev_dev, record j listed]
    exact ⟨rfl, rfl, rfl⟩

theorem Filed.fewer (filed : Filed fs next i rest more) :
    ∀ b ∈ freeBlocks next.dev, b ∈ freeBlocks fs.dev := by
  intro b free
  rw [filed.free]
  exact List.mem_append_right _ free

theorem Filed.taken (filed : Filed fs next i rest more) :
    ∀ b ∈ more, b ∈ freeBlocks fs.dev ∧ b ∉ freeBlocks next.dev := by
  intro b member
  have nodup := free_blocks_nodup fs.dev
  rw [filed.free] at nodup
  refine ⟨by rw [filed.free]; exact List.mem_append_left _ member, fun free => ?_⟩
  exact (List.nodup_append.mp nodup).2.2 b member b free rfl

theorem Filed.still (filed : Filed fs next i rest more) {b : Nat} (block : Block fs.dev b)
    (later : inodeEnd ≤ b) (other : b ∉ (nodeAt fs.dev i).info :: rest) (left : b ∉ more) :
    ∀ skip < blkSz, next.dev.mem (b + skip) = fs.dev.mem (b + skip) := by
  intro skip inside
  refine filed.frame _ (by omega) fun c member => ?_
  have unlike : b ≠ c := by
    rintro rfl
    exact (own_or_new member).elim other left
  refine outside_block block.aligned (filed.chained.placed c member).aligned unlike ?_
  rw [mem_span]
  omega

theorem Filed.kept_before (filed : Filed fs next i rest more) {j : Nat} (after : Kept next.dev j) :
    Kept fs.dev j :=
  ⟨after.1, (filed.records j after.1).1 ▸ after.2⟩

theorem Filed.directory_before (filed : Filed fs next i rest more) {j : Nat}
    (after : Directory next.dev j) : Directory fs.dev j :=
  ⟨filed.kept_before after.kept, (filed.records j after.kept.1).2.2 ▸ after.type⟩

section Owners

variable (allotted : Allotted fs) (kept : Kept fs.dev i) (regular : (nodeAt fs.dev i).type = ylsFile)
  (chained : Chained fs.dev (nodeAt fs.dev i).info rest) (filed : Filed fs next i rest more)

include allotted kept chained filed

/-- What belongs to someone else stays as it is. -/
theorem Filed.others {owner : Owner} {b : Nat} (belongs : Belongs fs owner b)
    (unlike : owner ≠ .inode i) (later : inodeEnd ≤ b) :
    ∀ skip < blkSz, next.dev.mem (b + skip) = fs.dev.mem (b + skip) := by
  obtain ⟨block, used⟩ := allotted.taken belongs
  refine filed.still block later (fun own => unlike ?_) fun new => used (filed.taken b new).1
  exact allotted.single (.inode i) owner b (.content kept ((follows_chained chained).mpr own)) belongs

theorem Filed.unmoved {j : Nat} (used : Kept fs.dev j) (unlike : j ≠ i) :
    Unmoved fs.dev next.dev (nodeAt fs.dev j).info := by
  obtain ⟨chain, before, behind⟩ := allotted.chained j used
  refine ⟨chain, before, behind, before.moved filed.size (fun c member => ?_) filed.fewer⟩
  have belongs : Belongs fs (.inode j) c := .content used ((follows_chained before).mpr member)
  have other : Owner.inode j ≠ .inode i := fun same => unlike (Owner.inode.inj same)
  exact block_word (filed.others allotted kept chained belongs other (behind c member)) (by decide)

include regular

theorem Filed.lists {d : Nat} (directory : Directory fs.dev d) : ∀ skip < blkSz,
    next.dev.mem ((nodeAt fs.dev d).info + skip) = fs.dev.mem ((nodeAt fs.dev d).info + skip) := by
  have slots := allotted.slots d directory
  have belongs : Belongs fs (.inode d) (nodeAt fs.dev d).info :=
    .content directory.kept (.self (Nat.pos_iff_ne_zero.mp slots.block.later))
  have unlike : Owner.inode d ≠ .inode i := by
    rintro same
    obtain rfl := Owner.inode.inj same
    exact absurd (directory.type.symm.trans regular) (by decide)
  exact filed.others allotted kept chained belongs unlike slots.later

theorem Filed.sound : Sound next := by
  have sound := allotted.toSound
  refine sound.moved filed.size filed.fewer ?_ filed.table filed.records ?_
    (fun _ => filed.lists allotted kept regular chained) ?_
  · intro j after free
    rw [(filed.records j after.kept.1).2.1] at free
    exact allotted.settled j (filed.directory_before after) (filed.fewer _ free)
  · intro b free
    obtain ⟨block, later⟩ := sound.placed b (filed.fewer b free)
    refine filed.still block later (fun own => ?_) fun new => (filed.taken b new).2 free
    exact chained.used b own (filed.fewer b free)
  · intro d directory k bound named
    exact filed.others allotted kept chained (.name directory bound named) nofun named.later

/-- What a write takes goes to the file. -/
theorem Filed.stays_allotted : Allotted next := by
  have sound := allotted.toSound
  refine ⟨filed.sound allotted kept regular chained, filed.size.symm ▸ allotted.covered, ?_, ?_⟩
  · intro j after
    have used := filed.kept_before after
    rw [(filed.records j after.1).2.1]
    by_cases same : j = i
    · subst same
      refine ⟨rest ++ more, filed.chained, fun c member => ?_⟩
      rcases own_or_new member with own | new
      · obtain ⟨chain, before, behind⟩ := allotted.chained j used
        exact behind c (chain_unique chained before ▸ own)
      · exact (sound.placed c (filed.taken c new).1).2
    · exact (filed.unmoved allotted kept chained used same).chained
  · refine allotted.step_single (fun _ => .inode i) ?_
    intro owner b belongs
    cases belongs with
    | @name d m after bound used =>
        have directory := filed.directory_before after
        have lists := filed.lists allotted kept regular chained directory
        rw [(filed.records d after.kept.1).2.1, block_slot lists bound] at used ⊢
        exact Or.inl (.name directory bound ((sound.slots d directory).named bound used.block))
    | @content j b after part =>
        have used := filed.kept_before after
        rw [(filed.records j after.1).2.1] at part
        by_cases same : j = i
        · subst same
          rcases own_or_new ((follows_chained filed.chained).mp part) with own | new
          · exact Or.inl (.content used ((follows_chained chained).mpr own))
          · exact Or.inr ⟨(filed.taken b new).1, rfl⟩
        · exact Or.inl (.content used ((filed.unmoved allotted kept chained used same).follows part))

end Owners

end Writes

section Steps

variable {rootParent : Option Nat} {fuel : Nat} {fs next : Fs}

/-- Operations that find the blocks and the records that they ask for. -/
def Served (rootParent : Option Nat) (fuel : Nat) : (Nat → List UInt8) × Op → Fs → Prop
  | (_, .link parent name inode), fs =>
      Directory fs.dev parent ∧ Kept fs.dev inode ∧ freeBlocks fs.dev ≠ [] ∧ name.length < 80
  | (_, .write file buf), fs =>
      Kept fs.dev file.inode ∧
        ((nodeAt fs.dev file.inode).type = ylsFile → ∃ rest, WriteFits fuel fs file buf rest)
  | label, fs => Roomy rootParent fuel label fs

theorem find_allotted {stack : Nat → List UInt8} {cur flags : Nat} {name : List UInt8}
    {result : Option Place} (enough : inodeCount ≤ fuel) (top : ∀ up, rootParent = some up → up = 0)
    (allotted : Allotted fs) (directory : Directory fs.dev cur) (flat : slash ∉ name)
    (room : Has flags oCreate → Room fs.dev name)
    (found : blkfsIfind stack rootParent fuel fs cur name flags = some (next, result)) :
    Allotted next := by
  have sound := allotted.toSound
  rcases find_ends top sound directory flat found with rfl | ⟨d, rest, place, suffix, other, went⟩
  · exact allotted
  rcases find_plain_made enough sound place (fun member => flat (suffix.subset member)) other
      (fun create => (room create).suffix suffix) went with
    rfl | ⟨m, named, n, first, type, head, left, before, site, change, nodes, typed⟩
  · exact allotted
  · have after := change.allotted allotted place rfl before site typed
    rw [← nodes] at after
    exact after

theorem wipe_allotted {stack : Nat → List UInt8} {cur : Nat} {name : List UInt8} {directory : Bool}
    {value : Int} (allotted : Allotted fs) (parent : Directory fs.dev cur)
    (wiped : wipeEntry stack fuel fs cur name directory = some (next, value)) : Allotted next := by
  rcases wipe_made allotted.toSound parent wiped with rfl | ⟨m, bound, live, rfl⟩
  · exact allotted
  · exact allotted.wipe parent bound live

theorem step_allotted {label : (Nat → List UInt8) × Op} (enough : inodeCount ≤ fuel)
    (top : ∀ up, rootParent = some up → up = 0) (allotted : Allotted fs)
    (served : Served rootParent fuel label fs) (stepped : fsStep rootParent fuel label fs = some next) :
    Allotted next := by
  have sound := allotted.toSound
  obtain ⟨stack, op⟩ := label
  cases op with
  | find cur name flags =>
      obtain ⟨⟨state, result⟩, found, rfl⟩ := Option.map_eq_some_iff.mp stepped
      obtain ⟨flat, directory, room⟩ := served
      by_cases present : Present stack rootParent fuel fs cur name
      · exact (find_unchanged flat (fun _ => present) found).symm ▸ allotted
      · exact find_allotted enough top allotted directory flat
          (fun create => (room create).resolve_left present) found
  | link parent name inode =>
      obtain ⟨⟨state, value⟩, linked, rfl⟩ := Option.map_eq_some_iff.mp stepped
      obtain ⟨directory, target, room, short⟩ := served
      obtain ⟨k, named, rest, device, site, rfl, entered, records⟩ :=
        sound.links (Nat.le_trans (by decide) enough) directory target short room allotted.settled linked
      exact site.allotted allotted directory target entered records
  | unlink parent name =>
      obtain ⟨⟨state, value⟩, wiped, rfl⟩ := Option.map_eq_some_iff.mp stepped
      exact wipe_allotted allotted served wiped
  | rmdir parent name =>
      obtain ⟨⟨state, value⟩, wiped, rfl⟩ := Option.map_eq_some_iff.mp stepped
      exact wipe_allotted allotted served wiped
  | write file buf =>
      obtain ⟨⟨state, file', value⟩, wrote, rfl⟩ := Option.map_eq_some_iff.mp stepped
      obtain ⟨kept, fits⟩ := served
      have node := sound.table file.inode kept.1
      by_cases regular : (nodeAt fs.dev file.inode).type = ylsFile
      · obtain ⟨rest, fitting⟩ := fits regular
        obtain ⟨more, filed⟩ := iwrite_filed allotted kept regular fitting wrote
        exact filed.stays_allotted allotted kept regular fitting.chained
      · obtain ⟨rest, chained, -⟩ := allotted.chained file.inode kept
        have present : ¬((fs.nodes file.inode).info = 0 ∧ (fs.nodes file.inode).size = 0) := by
          rw [node]
          exact fun both => absurd both.1 (Nat.pos_iff_ne_zero.mp chained.block.later)
        rw [blkfsIwrite, if_neg present] at wrote
        split at wrote
        · exact congrArg Prod.fst (Option.some.inj wrote) ▸ allotted
        · rw [if_neg (node ▸ regular)] at wrote
          exact absurd wrote.symm (Option.some_ne_none _)

/-- From every state in which each block has its owner, served operations lead to such states only. -/
theorem blocks_stay_owned {start : Fs} (enough : inodeCount ≤ fuel)
    (top : ∀ up, rootParent = some up → up = 0) (allotted : Allotted start)
    (labels : List ((Nat → List UInt8) × Op))
    (served : GuardedRun (fsStep rootParent fuel) (Served rootParent fuel) labels start)
    (ran : runSteps (fsStep rootParent fuel) labels start = some fs) : BlocksOwned fs := by
  have kept : Allotted fs :=
    @run_invariant _ _ (fsStep rootParent fuel) (Served rootParent fuel) Allotted
      (fun _ _ _ allotted served stepped => step_allotted enough top allotted served stepped)
      labels start fs allotted served ran
  exact kept.owned

end Steps

section Marked

variable {dev : Rd}

/-- A device after `yls_init` on which the two blocks of the root are marked as well. -/
def markedInit (dev : Rd) : Fs :=
  (blkfsInit dev).setDev (newBlock (newBlock (blkfsInit dev).dev).1).1

/-- Marking two blocks gives the first two free ones away and changes nothing behind the bitmap. -/
theorem marks_two {a b : Nat} {rest : List Nat} (formatted : Formatted dev)
    (free : freeBlocks dev = a :: b :: rest) (later : ∀ c ∈ freeBlocks dev, inodeEnd ≤ c) :
    ∃ marks, (newBlock (newBlock dev).1).1 = marks ∧ marks.size = dev.size ∧ freeBlocks marks = rest ∧
      ∀ place, bitmapLen ≤ place → marks.mem place = dev.mem place := by
  obtain ⟨i, x, gave, low, remaining⟩ := new_block_fresh formatted free
  have again : Formatted (dev.store i [x]) := by
    refine formatted.store ?_ fun c member => ?_
    · rw [List.length_singleton]
      unfold bitmapLen inodeEnd at *
      omega
    · rw [remaining] at member
      have listed : c ∈ freeBlocks dev := by
        rw [free]
        exact List.mem_cons_of_mem _ member
      exact ⟨listed, later c listed⟩
  obtain ⟨j, y, also, small, final⟩ := new_block_fresh again remaining
  refine ⟨(dev.store i [x]).store j [y], by rw [gave, also], rfl, final, fun place behind => ?_⟩
  rw [store_outside (Or.inr (by rw [List.length_singleton]; omega)),
    store_outside (Or.inr (by rw [List.length_singleton]; omega))]

/-- On a device with free blocks the second of the two is that of the root directory. -/
theorem marked_device (zero : ∀ a < dev.size, dev.mem a = 0) (room : 0x800 ≤ dev.size) :
    ∃ marks, markedInit dev = ⟨marks, nodeAt (ylsInit dev)⟩ ∧ marks.size = dev.size ∧
      0x480 ∉ freeBlocks marks ∧ (∀ b ∈ freeBlocks marks, b ∈ freeBlocks (ylsInit dev)) ∧
      ∀ place, bitmapLen ≤ place → marks.mem place = (ylsInit dev).mem place := by
  have space : 0x500 ≤ dev.size := by omega
  have sound := blank_sound zero space
  have formatted := sound.formatted
  have supply := fun c member => (sound.placed c member).2
  have start := blkfs_init_blank zero space
  rw [start] at formatted supply
  have second : 0x480 ∈ freeBlocks (ylsInit dev) :=
    (blank_free space).mpr ⟨9, by decide, by decide, by omega, rfl⟩
  have listed := blank_second space second
  obtain ⟨a, rest, free⟩ : ∃ a rest, freeBlocks (ylsInit dev) = a :: 0x480 :: rest := by
    match same : freeBlocks (ylsInit dev) with
    | [] => exact absurd (same ▸ listed) (by decide)
    | [_] => exact absurd (same ▸ listed) (by simp)
    | a :: b :: rest =>
        rw [same] at listed
        exact ⟨a, rest, by rw [Option.some.inj listed]⟩
  have nodup := free_blocks_nodup (ylsInit dev)
  rw [free] at nodup
  obtain ⟨marks, marked, size, left, same⟩ := marks_two formatted free supply
  refine ⟨marks, ?_, size.trans (yls_init_size dev), ?_, fun b member => ?_, same⟩
  · rw [markedInit, start, ← marked]
    rfl
  · rw [left]
    exact (List.nodup_cons.mp (List.nodup_cons.mp nodup).2).1
  · rw [left] at member
    rw [free]
    exact List.mem_cons_of_mem _ (List.mem_cons_of_mem _ member)

/-- Such a device is in a state of the invariant. -/
theorem marked_allotted (zero : ∀ a < dev.size, dev.mem a = 0) (room : 0x800 ≤ dev.size)
    (covered : dev.size ≤ 8 * bitmapLen * blkSz) : Allotted (markedInit dev) := by
  have space : 0x500 ≤ dev.size := by omega
  have sound := blank_sound zero space
  rw [blkfs_init_blank zero space] at sound
  obtain ⟨marks, made, size, taken, fewer, same⟩ := marked_device zero room
  have word_same {place : Nat} (behind : bitmapLen ≤ place) :
      word marks.mem place = word (ylsInit dev).mem place :=
    word_congr fun a within => same a (by rw [mem_span] at within; omega)
  have record (i : Nat) : nodeAt marks i = nodeAt (ylsInit dev) i := by
    have behind : bitmapLen ≤ nodePlace i := by
      unfold bitmapLen nodePlace inodeStart
      omega
    rw [nodeAt, nodeAt, word_same behind, word_same (by omega), word_same (by omega),
      word_same (by omega)]
  have still {b skip : Nat} (later : inodeEnd ≤ b) : marks.mem (b + skip) = (ylsInit dev).mem (b + skip) :=
    same _ (Nat.le_trans (show bitmapLen ≤ inodeEnd by decide) (by omega))
  have only {i : Nat} (kept : Kept marks i) : i = 0 := by
    by_contra other
    have unused := blank_record zero space (Nat.pos_of_ne_zero other) kept.1
    rw [← record] at unused
    exact kept.2 unused
  have info : (nodeAt marks 0).info = 0x480 := by
    rw [record]
    exact congrArg YlsNode.info (blank_root space)
  have last : nextOf marks 0x480 = 0 := by
    rw [nextOf, word_same (by decide)]
    exact blank_word zero space (by decide) (by unfold blkMem; omega)
  have own : Chained marks 0x480 [] := by
    refine chained_nil.mpr ⟨⟨by decide, by decide, ?_⟩, taken, last⟩
    unfold blkSz
    omega
  have slot {m : Nat} (bound : m < slotCount) : slotAt marks 0x480 m = 0 := by
    have empty := blank_slot zero space bound
    rw [← record, info] at empty
    exact (word_same (by unfold bitmapLen slotPlace; omega)).trans empty
  rw [made]
  refine ⟨?_, size.symm ▸ covered, fun i kept => ?_, ?_⟩
  · refine sound.moved (size.trans (yls_init_size dev).symm) fewer (fun i directory => ?_)
      (fun i _ => (record i).symm) (fun i _ => by rw [record]; exact ⟨rfl, rfl, rfl⟩) ?_ ?_ ?_
    · obtain rfl := only directory.kept
      rw [info]
      exact taken
    · exact fun b member skip _ => still (sound.placed b (fewer b member)).2
    · exact fun d directory skip _ => still (sound.slots d directory).later
    · exact fun d _ k _ named skip _ => still named.later
  · obtain rfl := only kept
    rw [info]
    exact ⟨[], own, by decide⟩
  · have root {owner : Owner} {b : Nat} (belongs : Belongs ⟨marks, nodeAt (ylsInit dev)⟩ owner b) :
        owner = .inode 0 := by
      cases belongs with
      | name directory bound named =>
          obtain rfl := only directory.kept
          rw [info, slot bound] at named
          exact absurd named.block.later (Nat.lt_irrefl 0)
      | content kept _ => rw [only kept]
    intro owner other b one two
    rw [root one, root two]

/-- With the blocks of the root marked, blocks are owned in every state that is reached. -/
theorem marked_stays_owned {rootParent : Option Nat} {fuel : Nat} {fs : Fs}
    (zero : ∀ a < dev.size, dev.mem a = 0) (room : 0x800 ≤ dev.size)
    (covered : dev.size ≤ 8 * bitmapLen * blkSz) (enough : inodeCount ≤ fuel)
    (top : ∀ up, rootParent = some up → up = 0) (labels : List ((Nat → List UInt8) × Op))
    (served : GuardedRun (fsStep rootParent fuel) (Served rootParent fuel) labels (markedInit dev))
    (ran : runSteps (fsStep rootParent fuel) labels (markedInit dev) = some fs) : BlocksOwned fs :=
  blocks_stay_owned enough top (marked_allotted zero room covered) labels served ran

end Marked

end OsWorkbench.Blkfs
