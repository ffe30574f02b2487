import OsWorkbench.Blkfs.Tables

/-!
# A device after `yls_init`

On a device of zeros `yls_init` makes one inode, the root. Its directory is the block at 0x480 and
its name is at 0x400. The bitmap marks the first eight blocks and those that the device does not have.
-/

namespace OsWorkbench.Blkfs

open Kernel ByteStore

@[simp] theorem root_name_length : rootName.length = blkSz := by
  rw [rootName, List.length_cons, List.length_replicate]
  rfl

theorem root_name_tail {skip : Nat} (inside : skip + 1 < rootName.length) : rootName[skip + 1] = 0 := by
  simp only [rootName, List.getElem_cons_succ, List.getElem_replicate]

@[simp] theorem first_bitmap_length (size : Nat) : (firstBitmap size).length = bitmapLen := by
  simp [firstBitmap]

section Blank

variable {dev : Rd}

theorem yls_init_mem (room : 0x500 ≤ dev.size) : (ylsInit dev).mem =
    overlay (overlay (overlay dev.mem 0x40 (nodeBytes rootNode)) 0x400 rootName) 0
      (firstBitmap dev.size) := by
  have name : rootName.length = 128 := root_name_length
  rw [ylsInit]
  rw [rd_write_inside (show 0x40 + (nodeBytes rootNode).length ≤ dev.size by
    rw [node_bytes_length, sizeofNode]
    omega)]
  rw [rd_write_inside (show 0x400 + rootName.length ≤ (dev.store 0x40 (nodeBytes rootNode)).size by
    rw [Rd.store_size]
    omega)]
  rw [rd_write_inside]
  · rfl
  · rw [first_bitmap_length, Rd.store_size, Rd.store_size, bitmapLen]
    omega

theorem rd_write_size (dev : Rd) (offset : Nat) (buf : List UInt8) :
    (rdWrite dev offset buf).1.size = dev.size := rfl

theorem yls_init_size (dev : Rd) : (ylsInit dev).size = dev.size := by
  rw [ylsInit, rd_write_size, rd_write_size, rd_write_size]

theorem blkfs_init_blank (zero : ∀ a < dev.size, dev.mem a = 0) (room : 0x500 ≤ dev.size) :
    blkfsInit dev = ⟨ylsInit dev, nodeAt (ylsInit dev)⟩ := by
  have first : word dev.mem 0 = 0 := word_zero fun a _ _ => zero a (by omega)
  rw [blkfsInit, read_word_inside (by omega), first]
  rw [if_pos (by decide)]

/-- The bytes behind the inode table. -/
theorem blank_byte (zero : ∀ a < dev.size, dev.mem a = 0) (room : 0x500 ≤ dev.size) {a : Nat}
    (later : 0x400 < a) (inside : a < dev.size) : (ylsInit dev).mem a = 0 := by
  have name : rootName.length = 128 := root_name_length
  rw [yls_init_mem room, overlay_after (by rw [first_bitmap_length, bitmapLen]; omega)]
  by_cases within : a < 0x480
  · obtain ⟨skip, rfl⟩ := Nat.exists_eq_add_of_lt later
    rw [Nat.add_assoc]
    exact (overlay_inside (by omega)).trans (root_name_tail (by omega))
  · rw [overlay_after (by omega), overlay_after (by rw [node_bytes_length, sizeofNode]; omega)]
    exact zero a inside

theorem blank_word (zero : ∀ a < dev.size, dev.mem a = 0) (room : 0x500 ≤ dev.size) {a : Nat}
    (later : 0x400 < a) (inside : a + 4 ≤ dev.size) : word (ylsInit dev).mem a = 0 :=
  word_zero fun _ _ _ => blank_byte zero room (by omega) (by omega)

theorem blank_root (room : 0x500 ≤ dev.size) : nodeAt (ylsInit dev) 0 = rootNode := by
  have part (skip : Nat) (inside : skip + 4 ≤ 16) : word (ylsInit dev).mem (nodePlace 0 + skip) =
      word (dev.store (nodePlace 0) (nodeBytes rootNode)).mem (nodePlace 0 + skip) := by
    have place : nodePlace 0 = 0x40 := rfl
    rw [yls_init_mem room, word_overlay_outside, word_overlay_outside]
    · rfl
    · exact Or.inl (by omega)
    · rw [first_bitmap_length, bitmapLen]
      exact Or.inr (by omega)
  have written := @node_at_store dev 0 rootNode (by decide) (by decide) (by decide) (by decide)
  have first := part 0 (by decide)
  rw [Nat.add_zero] at first
  rw [← written, nodeAt, nodeAt, first, part 4 (by decide), part 8 (by decide), part 12 (by decide)]

/-- The other records of the inode table are free. -/
theorem blank_record (zero : ∀ a < dev.size, dev.mem a = 0) (room : 0x500 ≤ dev.size) {i : Nat}
    (later : 0 < i) (inside : i < inodeCount) : (nodeAt (ylsInit dev) i).refcnt = 0 := by
  have place : 0x50 ≤ nodePlace i ∧ nodePlace i + 4 ≤ 0x400 := by
    unfold nodePlace inodeStart sizeofNode
    have bound : i < 60 := inside
    omega
  have table := node_bytes_length rootNode
  rw [nodeAt, yls_init_mem room]
  dsimp only
  rw [word_overlay_outside, word_overlay_outside, word_overlay_outside]
  · exact word_zero fun a _ _ => zero a (by omega)
  · rw [table, sizeofNode]
    exact Or.inr (by omega)
  · exact Or.inl (by omega)
  · rw [first_bitmap_length, bitmapLen]
    exact Or.inr (by omega)

/-- The blocks that are marked. -/
theorem blank_marked (room : 0x500 ≤ dev.size) {n : Nat} (listed : n < 8 * bitmapLen) :
    marked (ylsInit dev) n = decide (n < 8 ∨ dev.size / 0x80 / 8 ≤ n / 8) := by
  have bound : n / 8 < bitmapLen := by omega
  have byte : (ylsInit dev).mem (n / 8) =
      if n / 8 = 0 ∨ dev.size / 0x80 / 8 ≤ n / 8 then 0xff else 0 := by
    have written := @overlay_inside
      (overlay (overlay dev.mem 0x40 (nodeBytes rootNode)) 0x400 rootName) 0 (n / 8)
      (firstBitmap dev.size) (by rw [first_bitmap_length]; exact bound)
    rw [Nat.zero_add] at written
    rw [yls_init_mem room, written]
    simp only [firstBitmap, List.getElem_map, List.getElem_range]
  have first : n / 8 = 0 ↔ n < 8 := by omega
  have bit : n % 8 < 8 := Nat.mod_lt n (by decide)
  rw [marked, byte]
  simp only [← first]
  split
  next set =>
    rw [decide_eq_true set]
    interval_cases n % 8 <;> decide
  next clear =>
    rw [decide_eq_false clear]
    exact Nat.zero_testBit _

theorem blank_free (room : 0x500 ≤ dev.size) {c : Nat} : c ∈ freeBlocks (ylsInit dev) ↔
    ∃ n, n < 8 * bitmapLen ∧ 8 ≤ n ∧ n / 8 < dev.size / 0x80 / 8 ∧ n * 0x80 = c := by
  rw [freeBlocks, List.mem_map]
  refine exists_congr fun n => ?_
  rw [List.mem_filter, List.mem_range, and_assoc]
  refine and_congr_right fun listed => ?_
  rw [blank_marked room listed, ← and_assoc]
  refine and_congr_left fun _ => ?_
  rw [Bool.not_eq_true', decide_eq_false_iff_not]
  omega

/-- The block of the root directory is the second one that is given out, if any is. -/
theorem blank_second (room : 0x500 ≤ dev.size) (free : 0x480 ∈ freeBlocks (ylsInit dev)) :
    (freeBlocks (ylsInit dev))[1]? = some 0x480 := by
  obtain ⟨n, -, -, inside, place⟩ := (blank_free room).mp free
  have parts : List.range (8 * bitmapLen) =
      List.range 8 ++ (8 :: 9 :: (List.range 502).map (10 + ·)) := by
    decide +kernel
  have none : (List.range 8).filter (fun n => !marked (ylsInit dev) n) = [] := by
    refine List.filter_eq_nil_iff.mpr fun n member => ?_
    have low := List.mem_range.mp member
    rw [blank_marked room (by unfold bitmapLen; omega), decide_eq_true (Or.inl low)]
    decide
  have clear (n : Nat) (listed : n = 8 ∨ n = 9) : (!marked (ylsInit dev) n) = true := by
    rw [blank_marked room (by unfold bitmapLen; omega), decide_eq_false (by omega)]
    rfl
  have front := @List.filter_cons_of_pos _ (fun n => !marked (ylsInit dev) n)
  rw [freeBlocks, parts, List.filter_append, none, List.nil_append, front (clear 8 (Or.inl rfl)),
    front (clear 9 (Or.inr rfl))]
  rfl

/-- The root is the only directory of a blank device. -/
theorem blank_directory (zero : ∀ a < dev.size, dev.mem a = 0) (room : 0x500 ≤ dev.size) {i : Nat}
    (directory : Directory (ylsInit dev) i) : i = 0 := by
  by_contra other
  exact directory.kept.2 (blank_record zero room (Nat.pos_of_ne_zero other) directory.kept.1)

theorem blank_slot (zero : ∀ a < dev.size, dev.mem a = 0) (room : 0x500 ≤ dev.size) {m : Nat}
    (bound : m < slotCount) : slotAt (ylsInit dev) (nodeAt (ylsInit dev) 0).info m = 0 := by
  have few : m < 30 := bound
  have info : (nodeAt (ylsInit dev) 0).info = 0x480 := congrArg YlsNode.info (blank_root room)
  rw [info]
  exact blank_word zero room (by unfold slotPlace; omega) (by unfold slotPlace; omega)

/-- A blank device is in a sound state. -/
theorem blank_sound (zero : ∀ a < dev.size, dev.mem a = 0) (room : 0x500 ≤ dev.size) :
    Sound (blkfsInit dev) := by
  have size := yls_init_size dev
  have small := dev.word
  have rootNode := blank_root room
  have only {i : Nat} (directory : Directory (ylsInit dev) i) : i = 0 :=
    blank_directory zero room directory
  have root : Directory (ylsInit dev) 0 :=
    ⟨⟨by decide, by rw [rootNode]; decide⟩, by rw [rootNode]; rfl⟩
  have info : (nodeAt (ylsInit dev) 0).info = 0x480 := congrArg YlsNode.info rootNode
  have block : Block (ylsInit dev) 0x480 := ⟨by decide, by decide, by rw [size]; exact room⟩
  have slot (m : Nat) (bound : m < slotCount) : slotAt (ylsInit dev) 0x480 m = 0 :=
    info ▸ blank_slot zero room bound
  rw [blkfs_init_blank zero room]
  constructor
  case table => exact fun _ _ => rfl
  case placed =>
    intro c member
    obtain ⟨n, -, low, inside, rfl⟩ := (blank_free room).mp member
    refine ⟨⟨Dvd.intro_left n rfl, by omega, ?_⟩, by unfold inodeEnd; omega⟩
    dsimp only
    unfold blkSz
    omega
  case blank =>
    intro c member skip low inside
    obtain ⟨n, -, first, last, rfl⟩ := (blank_free room).mp member
    unfold blkSz at inside
    exact blank_byte zero room (by omega) (by omega)
  case root => exact root
  case slots =>
    intro i directory
    obtain rfl := only directory
    dsimp only
    rw [info]
    refine ⟨block, by decide, blank_word zero room (by decide) ?_, ?_, ?_⟩
    · unfold blkMem
      omega
    · exact fun m bound => Or.inl (slot m bound)
    · exact fun _ m _ bound _ => slot m bound
  case parents =>
    intro i directory
    obtain rfl := only directory
    dsimp only
    rw [info, blank_word zero room (by decide) (by omega)]
    exact root
  case apart =>
    intro i j one two m bound
    obtain rfl := only one
    obtain rfl := only two
    dsimp only
    rw [info, slot m bound]
    decide
  case reserved =>
    intro i directory member
    obtain rfl := only directory
    dsimp only at member ⊢
    rw [info] at member ⊢
    exact blank_second room member

end Blank

end OsWorkbench.Blkfs
