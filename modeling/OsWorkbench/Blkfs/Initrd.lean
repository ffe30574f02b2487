import OsWorkbench.Blkfs.Paths

/-!
# `initrd.c`

The image of the first ramdisk: a root with the directories that the other file systems are mounted
on, two more and a file.
-/

namespace OsWorkbench.Blkfs

open Kernel ByteStore

/-- The words of the image that are not zero, by their offsets, and some that are. -/
def pairs : List (Nat × Nat) :=
  [(0x0, 0xffffff), (0x4, 0x0), (0x40, 0x1), (0x44, 0x480), (0x48, 0x8), (0x4c, 0x0), (0x50, 0x1),
    (0x54, 0x580), (0x58, 0x0), (0x5c, 0x0), (0x60, 0x1), (0x64, 0x680), (0x68, 0x5), (0x6c, 0x1),
    (0x70, 0x1), (0x74, 0x780), (0x78, 0x0), (0x7c, 0x0), (0x80, 0x1), (0x84, 0x880), (0x88, 0x0),
    (0x8c, 0x0), (0x90, 0x1), (0x94, 0x980), (0x98, 0x0), (0x9c, 0x0), (0xa0, 0x1), (0xa4, 0xa80),
    (0xa8, 0x0), (0xac, 0x0), (0xb0, 0x1), (0xb4, 0xb80), (0xb8, 0x0), (0xbc, 0x0), (0x400, 0x0),
    (0x404, 0x2f), (0x480, 0x0), (0x484, 0x500), (0x488, 0x600), (0x48c, 0x700), (0x490, 0x800),
    (0x494, 0x900), (0x498, 0xa00), (0x500, 0x1), (0x504, 0x74736574), (0x580, 0x0), (0x600, 0x2),
    (0x604, 0x747874), (0x680, 0x34333231), (0x684, 0xa), (0x700, 0x3), (0x704, 0x746e6d),
    (0x780, 0x0), (0x800, 0x4), (0x804, 0x766564), (0x880, 0x0), (0x900, 0x5), (0x904, 0x636f7270),
    (0x980, 0x0), (0xa00, 0x6), (0xa04, 0x656d6f68), (0xa80, 0x0), (0xa84, 0xb00), (0xb00, 0x7),
    (0xb04, 0x6863696d), (0xb08, 0x6c6561), (0xb80, 0x6)]

theorem image_word : 0x10000 < 2 ^ 32 := by decide

def initrd : Rd where
  size := 0x10000
  mem a := (wordBytes ((pairs.lookup (a / 4 * 4)).getD 0)).getD (a % 4) 0
  word := image_word

def initrdDisk : Fs := blkfsInit initrd

/-- The directories of the image. -/
def initrdDirectories : List Nat := [0, 1, 3, 4, 5, 6, 7]

section Image

theorem initrd_disk : initrdDisk = ⟨initrd, nodeAt initrd⟩ := by
  have check : (readWord initrd 0 0).1 = 0xffffff := by decide
  rw [initrdDisk, blkfsInit, check, if_neg (by decide)]

theorem initrd_word {a : Nat} (aligned : a % 4 = 0) :
    word initrd.mem a = (pairs.lookup a).getD 0 := by
  have small : (pairs.lookup a).getD 0 < 2 ^ 32 := by
    have all : ∀ pair ∈ pairs, pair.2 < 2 ^ 32 := by decide
    cases found : pairs.lookup a with
    | none => decide
    | some value => exact all _ (Library.lookup_mem found)
  have byte (j : Nat) (bound : j < 4) :
      initrd.mem (a + j) = (wordBytes ((pairs.lookup a).getD 0)).getD j 0 := by
    have start : (a + j) / 4 * 4 = a := by omega
    have place : (a + j) % 4 = j := by omega
    unfold initrd
    dsimp only
    rw [start, place]
  have first := byte 0 (by decide)
  rw [Nat.add_zero] at first
  rw [word, first, byte 1 (by decide), byte 2 (by decide), byte 3 (by decide)]
  simp only [wordBytes, List.getD_cons_zero, List.getD_cons_succ, UInt8.toNat_ofNat']
  omega

theorem initrd_node (i : Nat) : nodeAt initrd i =
    ⟨(pairs.lookup (nodePlace i)).getD 0, (pairs.lookup (nodePlace i + 4)).getD 0,
      (pairs.lookup (nodePlace i + 8)).getD 0, (pairs.lookup (nodePlace i + 12)).getD 0⟩ := by
  have aligned : nodePlace i % 4 = 0 := by
    unfold nodePlace inodeStart sizeofNode
    omega
  rw [nodeAt, initrd_word aligned, initrd_word (by omega), initrd_word (by omega),
    initrd_word (by omega)]

theorem initrd_kept : ∀ i < inodeCount, Kept initrd i ↔ i < 8 := by
  have all : ∀ i < inodeCount, (pairs.lookup (nodePlace i)).getD 0 ≠ 0 ↔ i < 8 := by decide
  intro i bound
  rw [Kept, initrd_node]
  exact (and_iff_right bound).trans (all i bound)

theorem initrd_directory {i : Nat} : Directory initrd i ↔ i ∈ initrdDirectories := by
  have all : ∀ i < 8, (pairs.lookup (nodePlace i + 12)).getD 0 = ylsDir ↔ i ∈ initrdDirectories := by
    decide
  have few : ∀ i ∈ initrdDirectories, i < 8 := by decide
  constructor
  · rintro ⟨kept, type⟩
    have small := (initrd_kept i kept.1).mp kept
    rw [initrd_node] at type
    exact (all i small).mp type
  · intro member
    have small := few i member
    refine ⟨(initrd_kept i (Nat.lt_trans small (by decide))).mpr small, ?_⟩
    rw [initrd_node]
    exact (all i small).mpr member

theorem initrd_info {i : Nat} (member : i ∈ initrdDirectories) :
    (nodeAt initrd i).info = 0x480 + 0x100 * i := by
  have all : ∀ i ∈ initrdDirectories,
      (pairs.lookup (nodePlace i + 4)).getD 0 = 0x480 + 0x100 * i := by
    decide
  rw [initrd_node]
  exact all i member

/-- The root has six entries, and `/home` has one. -/
theorem initrd_slot {i k : Nat} (member : i ∈ initrdDirectories) (bound : k < slotCount) :
    slotAt initrd (0x480 + 0x100 * i) k =
      if i = 0 ∧ k < 6 then 0x500 + 0x100 * k else if i = 6 ∧ k = 0 then 0xb00 else 0 := by
  have all : ∀ i ∈ initrdDirectories, ∀ k < slotCount,
      (pairs.lookup (slotPlace (0x480 + 0x100 * i) k)).getD 0 =
        if i = 0 ∧ k < 6 then 0x500 + 0x100 * k else if i = 6 ∧ k = 0 then 0xb00 else 0 := by
    decide +kernel
  rw [slotAt, initrd_word (by unfold slotPlace; omega)]
  exact all i member k bound

theorem initrd_marked : ∀ n < 8 * bitmapLen, marked initrd n = decide (n < 24) := by decide +kernel

/-- The blocks behind the 24th are free, and nothing is written in them. -/
theorem initrd_free {b : Nat} (free : b ∈ freeBlocks initrd) :
    ∃ n, 24 ≤ n ∧ n < 8 * bitmapLen ∧ n * 0x80 = b := by
  obtain ⟨n, member, place⟩ := List.mem_map.mp free
  obtain ⟨ranged, clear⟩ := List.mem_filter.mp member
  have bound := List.mem_range.mp ranged
  rw [initrd_marked n bound, Bool.not_eq_true', decide_eq_false_iff_not] at clear
  exact ⟨n, by omega, bound, place⟩

theorem initrd_blank {a : Nat} (later : 0xc00 ≤ a) : initrd.mem a = 0 := by
  have all : ∀ pair ∈ pairs, pair.1 < 0xc00 := by decide
  have absent : pairs.lookup (a / 4 * 4) = none := by
    rw [Library.lookup_none_iff]
    intro member
    obtain ⟨pair, listed, same⟩ := List.mem_map.mp member
    have early := all pair listed
    omega
  have last : a % 4 < 4 := Nat.mod_lt a (by decide)
  unfold initrd
  dsimp only
  rw [absent]
  interval_cases a % 4 <;> rfl

/-- The blocks that hold names. -/
theorem initrd_name {j : Nat} (bound : j < 7) : NameBlock initrd (0x500 + 0x100 * j) ∧
    Titled initrd (0x500 + 0x100 * j) ∧ word initrd.mem (0x500 + 0x100 * j) = j + 1 := by
  have names : ∀ j < 7, (nameOf initrd (0x500 + 0x100 * j)).length < 80 ∧
      nextOf initrd (0x500 + 0x100 * j) = 0 ∧ word initrd.mem (0x500 + 0x100 * j) = j + 1 := by
    decide +kernel
  obtain ⟨short, final, target⟩ := names j bound
  refine ⟨⟨⟨?_, by omega, ?_⟩, ?_, fun free => ?_, ?_⟩, ⟨short, final⟩, target⟩
  · unfold blkSz
    omega
  · change 0x500 + 0x100 * j + 0x80 ≤ 0x10000
    omega
  · unfold inodeEnd
    omega
  · obtain ⟨n, low, -, place⟩ := initrd_free free
    omega
  · rw [target]
    exact (initrd_kept (j + 1) (Nat.lt_trans (Nat.succ_lt_succ bound) (by decide))).mpr (by omega)

theorem initrd_used {i k : Nat} (member : i ∈ initrdDirectories) (bound : k < slotCount) :
    slotAt initrd (0x480 + 0x100 * i) k = 0 ∨
      ∃ j < 7, slotAt initrd (0x480 + 0x100 * i) k = 0x500 + 0x100 * j := by
  rw [initrd_slot member bound]
  split
  next first => exact Or.inr ⟨k, by omega, rfl⟩
  split
  · exact Or.inr ⟨6, by decide, rfl⟩
  · exact Or.inl rfl

theorem initrd_directory_slots {i : Nat} (member : i ∈ initrdDirectories) :
    Slots initrd (nodeAt initrd i).info := by
  have few : ∀ i ∈ initrdDirectories, i < 8 := by decide
  have small := few i member
  have finals : ∀ i ∈ initrdDirectories, (pairs.lookup (0x480 + 0x100 * i + blkMem)).getD 0 = 0 := by
    decide
  rw [initrd_info member]
  constructor
  case block =>
    refine ⟨?_, by omega, ?_⟩
    · unfold blkSz
      omega
    · change 0x480 + 0x100 * i + 0x80 ≤ 0x10000
      omega
  case later =>
    unfold inodeEnd
    omega
  case final =>
    rw [nextOf, initrd_word (by unfold blkMem; omega)]
    exact finals i member
  case filled =>
    intro k bound
    rcases initrd_used member bound with zero | ⟨j, inside, place⟩
    · exact Or.inl zero
    · rw [place]
      exact Or.inr (Or.inr (initrd_name inside).1)
  case ended =>
    intro k m order bound zero
    rw [initrd_slot member (by omega)] at zero
    rw [initrd_slot member bound]
    grind

/-- The image is a file system in a sound state. -/
theorem initrd_sound : Sound initrdDisk := by
  have parents : ∀ i ∈ initrdDirectories,
      (pairs.lookup (0x480 + 0x100 * i)).getD 0 ∈ initrdDirectories := by
    decide
  rw [initrd_disk]
  constructor
  case table => exact fun _ _ => rfl
  case placed =>
    intro b free
    obtain ⟨n, low, bound, rfl⟩ := initrd_free free
    refine ⟨⟨Dvd.intro_left n rfl, by omega, ?_⟩, by unfold inodeEnd; omega⟩
    unfold bitmapLen at bound
    change n * 0x80 + 0x80 ≤ 0x10000
    omega
  case blank =>
    intro b free skip _ _
    obtain ⟨n, low, bound, rfl⟩ := initrd_free free
    exact initrd_blank (by omega)
  case root => exact initrd_directory.mpr (by decide)
  case slots => exact fun i directory => initrd_directory_slots (initrd_directory.mp directory)
  case parents =>
    intro i directory
    have member := initrd_directory.mp directory
    dsimp only
    rw [initrd_info member, initrd_word (by omega)]
    exact initrd_directory.mpr (parents i member)
  case apart =>
    intro i j one two k bound
    dsimp only at *
    rw [initrd_info (initrd_directory.mp one), initrd_info (initrd_directory.mp two)]
    rcases initrd_used (initrd_directory.mp one) bound with zero | ⟨n, -, place⟩
    · omega
    · omega
  case reserved =>
    intro i directory free
    dsimp only at *
    rw [initrd_info (initrd_directory.mp directory)] at free
    obtain ⟨n, low, -, place⟩ := initrd_free free
    have few : ∀ i ∈ initrdDirectories, i < 8 := by decide
    have small := few i (initrd_directory.mp directory)
    omega

theorem initrd_titles : Titles initrdDisk.dev := by
  rw [initrd_disk]
  intro i directory k bound named
  have member := initrd_directory.mp directory
  dsimp only at *
  rw [initrd_info member] at named ⊢
  rcases initrd_used member bound with zero | ⟨j, inside, place⟩
  · exact absurd zero (Nat.pos_iff_ne_zero.mp named.block.later)
  · rw [place]
    exact (initrd_name inside).2.1

/-- Every directory of the image knows the directory that it is in. -/
theorem initrd_parents (d : Nat) (directory : Directory initrdDisk.dev d) :
    ∀ entry ∈ entriesOf initrdDisk d, Directory initrdDisk.dev entry.2 →
      entry.2 ≠ 0 ∧ parentOf initrdDisk entry.2 = d := by
  have parents : ∀ i ∈ initrdDirectories,
      (pairs.lookup (0x480 + 0x100 * i)).getD 0 = if i = 7 then 6 else 0 := by
    decide
  rw [initrd_disk] at directory ⊢
  intro entry listed inner
  have member := initrd_directory.mp directory
  rw [entriesOf, initrd_info member] at listed
  obtain ⟨c, live, rfl⟩ := List.mem_map.mp listed
  obtain ⟨k, bound, place, used, -⟩ := live_slot live
  have slot := place.symm.trans (initrd_slot member bound)
  obtain ⟨j, inside, rfl, here⟩ : ∃ j < 7, c = 0x500 + 0x100 * j ∧ d = if j = 6 then 6 else 0 := by
    split at slot
    next first => exact ⟨k, by omega, slot, by rw [if_neg (by omega)]; exact first.1⟩
    split at slot
    next home => exact ⟨6, by decide, slot, home.1⟩
    · exact absurd slot used
  dsimp only at inner ⊢
  rw [(initrd_name inside).2.2] at inner ⊢
  have child := initrd_directory.mp inner
  refine ⟨Nat.succ_ne_zero j, ?_⟩
  have block := (initrd_directory_slots child).block
  rw [parentOf]
  dsimp only
  rw [read_block block]
  dsimp only
  rw [initrd_info child, initrd_word (by omega), parents _ child, here]
  exact if_congr (by omega) rfl rfl

end Image

end OsWorkbench.Blkfs
