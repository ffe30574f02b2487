import OsWorkbench.Blkfs.Tables

/-!
# Creating an entry

What `new_file` and `new_direc` change on a device, and that the invariant is kept: two blocks leave
the bitmap, one record of the inode table is filled, and one slot gets the offset of the new name.
-/

namespace OsWorkbench.Blkfs

open Kernel ByteStore

section Stores

variable {dev : Rd} {offset a : Nat} {payload : List UInt8}

theorem store_outside (outside : a < offset ∨ offset + payload.length ≤ a) :
    (dev.store offset payload).mem a = dev.mem a :=
  outside.elim overlay_before overlay_after

theorem word_store_outside (outside : a + 4 ≤ offset ∨ offset + payload.length ≤ a) :
    word (dev.store offset payload).mem a = word dev.mem a :=
  word_overlay_outside outside

theorem free_store (outside : bitmapLen ≤ offset) :
    freeBlocks (dev.store offset payload) = freeBlocks dev := by
  refine free_blocks_congr fun a inside => store_outside (Or.inl ?_)
  rw [mem_span] at inside
  omega

theorem node_at_outside {i : Nat}
    (outside : nodePlace i + sizeofNode ≤ offset ∨ offset + payload.length ≤ nodePlace i) :
    nodeAt (dev.store offset payload) i = nodeAt dev i := by
  unfold sizeofNode at outside
  rw [nodeAt, nodeAt, word_store_outside (by omega), word_store_outside (by omega),
    word_store_outside (by omega), word_store_outside (by omega)]

/-- A device keeps its free blocks if a store does not reach them. -/
theorem Formatted.store (formatted : Formatted dev) (below : offset + payload.length ≤ inodeEnd)
    (fewer : ∀ b ∈ freeBlocks (dev.store offset payload), b ∈ freeBlocks dev ∧ inodeEnd ≤ b) :
    Formatted (dev.store offset payload) := by
  constructor
  · intro b free
    exact ⟨(formatted.placed b (fewer b free).1).aligned, (formatted.placed b (fewer b free).1).later,
      (formatted.placed b (fewer b free).1).inside⟩
  · intro b free
    have later := (fewer b free).2
    rw [nextOf, word_store_outside (Or.inr (by omega))]
    exact formatted.ended b (fewer b free).1

end Stores

section Inodes

variable {dev : Rd} {fuel off buf n i : Nat} {found : Rd × Nat}

/-- What `new_inode` gives is a place that a word of zeros was read from. -/
theorem new_inode_reads (aligned : off % 16 = 0) (ran : newInodeLoop fuel dev off buf = some found) :
    found.2 % 16 = 0 ∧ ∃ value, (readWord dev found.2 value).1 = 0 := by
  induction fuel generalizing off buf with
  | zero => exact nomatch ran
  | succ fuel hypothesis =>
      rw [newInodeLoop] at ran
      split at ran
      next zero =>
        rw [← Option.some.inj ran]
        exact ⟨aligned, buf, zero⟩
      next =>
        refine hypothesis ?_ ran
        unfold u32
        omega

/-- `new_inode` takes the first free record, if there is one and the fuel lasts. -/
theorem new_inode_first (space : inodeEnd ≤ dev.size) (bound : n < inodeCount)
    (used : ∀ j < n, (nodeAt dev j).refcnt ≠ 0) (free : (nodeAt dev n).refcnt = 0) (before : i ≤ n) :
    newInodeLoop fuel dev (nodePlace i) buf =
      if n - i < fuel then some (dev.store (nodePlace n) (wordBytes 1), nodePlace n) else none := by
  induction fuel generalizing i buf with
  | zero => rfl
  | succ fuel hypothesis =>
      have record := @record_inside i (by omega)
      have last := @record_inside n bound
      have size := dev.word
      have refcnt : word dev.mem (nodePlace i) = (nodeAt dev i).refcnt := rfl
      unfold sizeofNode at record last
      rw [newInodeLoop, read_word_inside (by omega)]
      dsimp only
      rw [refcnt]
      by_cases here : i = n
      · subst here
        rw [if_pos free, if_pos (by omega), rd_write_inside (by rw [word_bytes_length]; omega)]
      · rw [if_neg (used i (by omega))]
        have next : u32 (nodePlace i + 0x10) = nodePlace (i + 1) := by
          unfold u32 nodePlace sizeofNode at *
          omega
        rw [next, hypothesis (by omega)]
        exact if_congr (by omega) rfl rfl

end Inodes

/-- A new entry: the name is in the block `named` and stands for the inode `n`. Of what is behind the
inode table only the bytes in `others` may have changed besides. -/
structure Entered (dev next : Rd) (place named n : Nat) (name : List UInt8) (rest : List Nat)
    (others : Set Nat) : Prop where
  size : next.size = dev.size
  free : freeBlocks next = rest
  slot : word next.mem place = named
  target : word next.mem named = n
  text : slice next.mem (named + 4) name.length = name
  tail : ∀ skip, 4 + name.length ≤ skip → skip < blkSz → next.mem (named + skip) = dev.mem (named + skip)
  frame : ∀ a, inodeEnd ≤ a → a ∉ span named blkSz → a ∉ span place 4 → a ∉ others →
    next.mem a = dev.mem a

/-- Filling the block of the name, once the slot points to it. -/
theorem entered_named {dev slots : Rd} {place named n : Nat} {name : List UInt8} {rest : List Nat}
    {others : Set Nat} (size : slots.size = dev.size) (free : freeBlocks slots = rest)
    (slot : word slots.mem place = named)
    (same : ∀ a, inodeEnd ≤ a → a ∉ span place 4 → slots.mem a = dev.mem a)
    (later : inodeEnd ≤ named) (apart : place + 4 ≤ named ∨ named + blkSz ≤ place) (small : n < 2 ^ 32)
    (short : name.length ≤ blkMem) :
    Entered dev ((slots.store named (wordBytes n)).store (named + 4) name) place named n name rest
      others := by
  have bitmap : bitmapLen ≤ inodeEnd := by decide
  have length := word_bytes_length n
  constructor
  case size => exact size
  case free => rw [free_store (by omega), free_store (by omega), free]
  case slot =>
    unfold blkSz blkMem at *
    rw [word_store_outside (by omega), word_store_outside (by omega), slot]
  case target =>
    rw [word_store_outside (Or.inl (Nat.le_refl _)), Rd.store_mem, word_overlay_self,
      Nat.mod_eq_of_lt small]
  case text => exact slice_overlay_self _ _ _
  case tail =>
    intro skip after inside
    rw [store_outside (by omega), store_outside (by omega), same _ (by omega)]
    rw [mem_span]
    omega
  case frame =>
    intro a above outside other _
    rw [mem_span] at outside
    unfold blkSz blkMem at *
    rw [store_outside (by omega), store_outside (by omega), same a above other]

/-- What creating an entry makes of a device: the inode is new, its first block is `first`, and the
first word of that block is `head`. -/
structure Made (dev next : Rd) (place named n first type head : Nat) (name : List UInt8)
    (rest : List Nat) : Prop extends Entered dev next place named n name rest (span first 4) where
  record : nodeAt next n = ⟨1, first, 0, type⟩
  records : ∀ i < inodeCount, i ≠ n → nodeAt next i = nodeAt dev i
  parent : word next.mem first = head

/-- The places that creating an entry in the slot `k` of the block `b` works with. -/
structure Site (dev : Rd) (b k named n first : Nat) (name : List UInt8) (rest : List Nat) : Prop where
  block : Block dev b
  later : inodeEnd ≤ b
  bound : k < slotCount
  formatted : Formatted dev
  supply : ∀ c ∈ freeBlocks dev, inodeEnd ≤ c
  free : freeBlocks dev = named :: first :: rest
  unlike : named ≠ b
  number : n < inodeCount
  used : ∀ j < n, (nodeAt dev j).refcnt ≠ 0
  unused : (nodeAt dev n).refcnt = 0
  short : name.length ≤ blkMem

section Making

variable {dev : Rd} {b k named n first type : Nat} {name : List UInt8} {rest : List Nat}

theorem Site.distinct (site : Site dev b k named n first name rest) :
    named ≠ first ∧ named ∉ rest ∧ first ∉ rest := by
  have nodup := free_blocks_nodup dev
  rw [site.free] at nodup
  obtain ⟨outer, inner⟩ := List.nodup_cons.mp nodup
  rw [List.mem_cons, not_or] at outer
  exact ⟨outer.1, outer.2, (List.nodup_cons.mp inner).1⟩

theorem Site.named_block (site : Site dev b k named n first name rest) :
    Block dev named ∧ inodeEnd ≤ named := by
  have listed : named ∈ freeBlocks dev := by
    rw [site.free]
    exact List.mem_cons_self
  exact ⟨site.formatted.placed named listed, site.supply named listed⟩

theorem Site.first_block (site : Site dev b k named n first name rest) :
    Block dev first ∧ inodeEnd ≤ first := by
  have listed : first ∈ freeBlocks dev := by
    rw [site.free]
    exact List.mem_cons_of_mem _ List.mem_cons_self
  exact ⟨site.formatted.placed first listed, site.supply first listed⟩

/-- What the first part of `new_direc` and `new_file` leaves: both blocks are marked, the record is
taken, and nothing else is changed. -/
theorem Site.taken (site : Site dev b k named n first name rest) {fuel : Nat} (enough : n < fuel) :
    ∃ one two marks, newBlock dev = (one, named) ∧ newInode fuel one = some (two, nodePlace n) ∧
      newBlock two = (marks, first) ∧ marks.size = dev.size ∧ freeBlocks marks = rest ∧
      (∀ i < inodeCount, i ≠ n → nodeAt marks i = nodeAt dev i) ∧
      ∀ a, inodeEnd ≤ a → marks.mem a = dev.mem a := by
  have record := record_inside site.number
  have bitmap : bitmapLen ≤ inodeStart := by decide
  have space : inodeEnd ≤ dev.size := by
    have last := site.block.inside
    have later := site.later
    omega
  obtain ⟨i, x, gave, low, remaining⟩ := new_block_fresh site.formatted site.free
  have fewer : ∀ c ∈ freeBlocks (dev.store i [x]), c ∈ freeBlocks dev ∧ inodeEnd ≤ c := by
    intro c member
    rw [remaining] at member
    have listed : c ∈ freeBlocks dev := by
      rw [site.free]
      exact List.mem_cons_of_mem _ member
    exact ⟨listed, site.supply c listed⟩
  have formatted : Formatted (dev.store i [x]) := by
    refine site.formatted.store ?_ fewer
    rw [List.length_singleton]
    unfold inodeEnd at *
    omega
  have left : freeBlocks ((dev.store i [x]).store (nodePlace n) (wordBytes 1)) = first :: rest := by
    rw [free_store (Nat.le_trans bitmap record.1), remaining]
  have again : Formatted ((dev.store i [x]).store (nodePlace n) (wordBytes 1)) := by
    refine formatted.store ?_ fun c member => ?_
    · rw [word_bytes_length]
      unfold sizeofNode at record
      omega
    · rw [left, ← remaining] at member
      exact ⟨member, (fewer c member).2⟩
  obtain ⟨j, y, also, small, final⟩ := new_block_fresh again left
  have same (m : Nat) : nodeAt (dev.store i [x]) m = nodeAt dev m := by
    refine node_at_outside (Or.inr ?_)
    rw [List.length_singleton]
    unfold nodePlace
    omega
  have search := @new_inode_first (dev.store i [x]) fuel 0 n 0 space site.number
    (fun m before => by rw [same]; exact site.used m before) (by rw [same]; exact site.unused)
    (Nat.zero_le n)
  rw [Nat.sub_zero, if_pos enough] at search
  refine ⟨_, _, _, gave, search, also, rfl, final, fun m bound other => ?_, fun a above => ?_⟩
  · have inside := record_inside bound
    rw [node_at_outside (by rw [List.length_singleton]; omega), node_at_outside, same]
    rw [word_bytes_length]
    unfold nodePlace sizeofNode
    omega
  · rw [store_outside (by rw [List.length_singleton]; omega),
      store_outside (by rw [word_bytes_length]; unfold sizeofNode at record; omega),
      store_outside (by rw [List.length_singleton]; omega)]

/-- The rest of `new_file`, on a device that differs from the first one below the blocks. -/
theorem Site.filled (site : Site dev b k named n first name rest) {marks : Rd}
    (size : marks.size = dev.size) (free : freeBlocks marks = rest)
    (records : ∀ i < inodeCount, i ≠ n → nodeAt marks i = nodeAt dev i)
    (same : ∀ a, inodeEnd ≤ a → marks.mem a = dev.mem a) (typed : type < 2 ^ 32) :
    Made dev ((((marks.store (slotPlace b k) (wordBytes named)).store (nodePlace n)
        (nodeBytes ⟨1, first, 0, type⟩)).store named (wordBytes n)).store (named + 4) name)
      (slotPlace b k) named n first type (word dev.mem first) name rest := by
  have record := record_inside site.number
  have place := @slot_inside b k site.bound
  have later := site.later
  obtain ⟨namedBlock, namedLater⟩ := site.named_block
  obtain ⟨firstBlock, firstLater⟩ := site.first_block
  have one := Block.apart namedBlock.aligned site.block.aligned site.unlike
  have two := Block.apart namedBlock.aligned firstBlock.aligned site.distinct.1
  have three : first = b ∨ first + blkSz ≤ b ∨ b + blkSz ≤ first := by
    by_cases equal : first = b
    · exact Or.inl equal
    · exact Or.inr (Block.apart firstBlock.aligned site.block.aligned equal)
  have few : n < 60 := site.number
  have low : named < 2 ^ 32 := namedBlock.small
  have fits : first < 2 ^ 32 := firstBlock.small
  have length : (nodeBytes ⟨1, first, 0, type⟩).length = sizeofNode := rfl
  have bitmap : bitmapLen ≤ inodeStart := by decide
  have word := word_bytes_length named
  have entered (others : Set Nat) := @entered_named dev
    ((marks.store (slotPlace b k) (wordBytes named)).store (nodePlace n) (nodeBytes ⟨1, first, 0, type⟩))
    (slotPlace b k) named n name rest others size
    (by rw [free_store (by omega), free_store (by unfold inodeEnd at *; omega), free])
    (by rw [word_store_outside (by omega), Rd.store_mem, word_overlay_self, Nat.mod_eq_of_lt low])
    (fun a above outside => by
      rw [mem_span] at outside
      rw [store_outside (by omega), store_outside (by omega), same a above])
    namedLater (by unfold blkSz blkMem at *; omega) (by omega) site.short
  constructor
  case toEntered => exact entered _
  case record =>
    rw [node_at_outside (by omega), node_at_outside (by omega)]
    exact node_at_store (Nat.one_lt_two_pow' 31) fits (Nat.two_pow_pos 32) typed
  case records =>
    intro i bound other
    have inside := record_inside bound
    rw [node_at_outside (by omega), node_at_outside (by omega), node_at_outside, node_at_outside]
    · exact records i bound other
    · exact Or.inl (by omega)
    · rw [length]
      unfold nodePlace sizeofNode
      omega
  case parent =>
    refine word_congr fun a inside => ?_
    rw [mem_span] at inside
    refine (entered ∅).frame a (by omega) ?_ ?_ (Set.notMem_empty a)
    · rw [mem_span]
      unfold blkSz at *
      omega
    · rw [mem_span]
      unfold blkSz blkMem at *
      omega

/-- The last write of `new_direc`. -/
theorem Made.with_parent {next : Rd} {head cur : Nat}
    (site : Site dev b k named n first name rest)
    (made : Made dev next (slotPlace b k) named n first type head name rest) (small : cur < 2 ^ 32) :
    Made dev (next.store first (wordBytes cur)) (slotPlace b k) named n first type cur name rest := by
  have record := record_inside site.number
  have place := @slot_inside b k site.bound
  have later := site.later
  obtain ⟨namedBlock, namedLater⟩ := site.named_block
  obtain ⟨firstBlock, firstLater⟩ := site.first_block
  have two := Block.apart namedBlock.aligned firstBlock.aligned site.distinct.1
  have three : first = b ∨ first + blkSz ≤ b ∨ b + blkSz ≤ first := by
    by_cases equal : first = b
    · exact Or.inl equal
    · exact Or.inr (Block.apart firstBlock.aligned site.block.aligned equal)
  have short := site.short
  have length := word_bytes_length cur
  constructor
  case toEntered =>
    constructor
    case size => exact made.size
    case free =>
      have table : bitmapLen ≤ inodeEnd := by decide
      rw [free_store (by omega), made.free]
    case slot =>
      unfold blkSz blkMem at *
      rw [word_store_outside (by omega), made.slot]
    case target =>
      unfold blkSz at *
      rw [word_store_outside (by omega), made.target]
    case text =>
      unfold blkSz blkMem at *
      rw [Rd.store_mem, slice_overlay_outside (by omega), made.text]
    case tail =>
      intro skip after inside
      unfold blkSz at *
      rw [store_outside (by omega), made.tail skip after inside]
    case frame =>
      intro a above outside other start
      rw [store_outside, made.frame a above outside other start]
      rw [mem_span] at start
      omega
  case record => rw [node_at_outside (by omega), made.record]
  case records =>
    intro i bound other
    have inside := record_inside bound
    rw [node_at_outside (by omega), made.records i bound other]
  case parent => rw [Rd.store_mem, word_overlay_self, Nat.mod_eq_of_lt small]

theorem set_entry_inside (block : Block dev b) (bound : k < slotCount) (off : Nat) :
    setEntry dev (slotPlace b k) off = dev.store (slotPlace b k) (wordBytes off) := by
  have place := @slot_inside b k bound
  have last := block.next_inside
  rw [setEntry, rd_write_inside (by rw [word_bytes_length]; omega)]

theorem set_name_inside (block : Block dev b) (short : name.length ≤ blkMem) (id : Nat) :
    setName dev b id name = (dev.store b (wordBytes id)).store (b + 4) name := by
  have last := block.inside
  unfold blkMem at short
  unfold blkSz at last
  have target := @rd_write_inside dev b (wordBytes id) (by rw [word_bytes_length]; omega)
  rw [setName, target, block.place_word (by decide), rd_write_inside (by rw [Rd.store_size]; omega)]

theorem add_inode_inside {fs : Fs} (bound : n < inodeCount) (space : inodeEnd ≤ fs.dev.size)
    (node : YlsNode) : addInode fs n node =
      some ((fs.setNode n node).setDev (fs.dev.store (nodePlace n) (nodeBytes node))) := by
  have record := record_inside bound
  rw [addInode, if_pos bound, rd_write_inside (by rw [node_bytes_length]; omega)]

/-- What `new_file` and `new_direc` give. -/
theorem Site.created (site : Site dev b k named n first name rest) {fs : Fs} (device : fs.dev = dev)
    {fuel cur flags : Nat} (enough : n < fuel) (small : cur < inodeCount) :
    ∃ made type head, (if Has flags oDirectory then newDirec fuel fs cur (slotPlace b k) name
        else newFile fuel fs (slotPlace b k) name) = some (made, n) ∧
      type = (if Has flags oDirectory then ylsDir else ylsFile) ∧
      head = (if Has flags oDirectory then cur else word dev.mem first) ∧
      made.nodes = Function.update fs.nodes n ⟨1, first, 0, type⟩ ∧
      Made dev made.dev (slotPlace b k) named n first type head name rest := by
  have record := record_inside site.number
  have place := @slot_inside b k site.bound
  have later := site.later
  have last := site.block.inside
  obtain ⟨namedBlock, namedLater⟩ := site.named_block
  obtain ⟨firstBlock, firstLater⟩ := site.first_block
  have namedEnd := namedBlock.inside
  have firstEnd := firstBlock.inside
  have short := site.short
  have space : inodeEnd ≤ dev.size := by omega
  obtain ⟨one, two, marks, gave, inode, second, size, final, records, same⟩ := site.taken enough
  have number : sub32 (nodePlace n) inodeStart / 0x10 = n := by
    have few : n < 60 := site.number
    unfold sub32 u32 nodePlace inodeStart sizeofNode
    omega
  have filled (type : Nat) (typed : type < 2 ^ 32) := site.filled size final records same typed
  have child (type : Nat) : newChild fuel fs (slotPlace b k) type name =
      some ((fs.setNode n ⟨1, first, 0, type⟩).setDev
        ((((marks.store (slotPlace b k) (wordBytes named)).store (nodePlace n)
          (nodeBytes ⟨1, first, 0, type⟩)).store named (wordBytes n)).store (named + 4) name),
        n, first) := by
    have entry := set_entry_inside (site.block.congr size) site.bound named
    have fits : Block ((marks.store (slotPlace b k) (wordBytes named)).store (nodePlace n)
        (nodeBytes ⟨1, first, 0, type⟩)) named :=
      namedBlock.congr size
    rw [newChild, device, gave]
    dsimp only
    rw [inode, Option.bind_some, second]
    dsimp only
    rw [number, entry, add_inode_inside site.number (by exact size ▸ space), Option.map_some,
      Fs.setDev_dev, Fs.setDev_dev, set_name_inside fits short]
    rfl
  by_cases directory : Has flags oDirectory
  · have made := (filled ylsDir (by decide)).with_parent site (Nat.lt_trans small (by decide))
    refine ⟨(fs.setNode n ⟨1, first, 0, ylsDir⟩).setDev _, ylsDir, cur, ?_, (if_pos directory).symm,
      (if_pos directory).symm, rfl, made⟩
    rw [if_pos directory, newDirec, child, Option.map_some]
    dsimp only
    rw [Fs.setDev_dev, rd_write_inside]
    · rfl
    · unfold blkSz at firstEnd
      rw [word_bytes_length]
      simp only [Rd.store_size, size]
      omega
  · refine ⟨(fs.setNode n ⟨1, first, 0, ylsFile⟩).setDev _, ylsFile, word dev.mem first, ?_,
      (if_neg directory).symm, (if_neg directory).symm, rfl, filled ylsFile (by decide)⟩
    rw [if_neg directory, newFile, child, Option.map_some]
    rfl

end Making

end OsWorkbench.Blkfs
