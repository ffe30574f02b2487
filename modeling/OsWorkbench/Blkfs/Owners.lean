import OsWorkbench.Blkfs.BlankDisk
import OsWorkbench.Blkfs.CreateFind
import OsWorkbench.Library.Runs

/-!
# The owners of blocks

A block in use belongs to a slot of a directory, whose name it holds, or to the inode whose contents
it is part of. On a blank device the block of the root directory has an owner and no mark.
-/

namespace OsWorkbench.Blkfs

open Kernel ByteStore Library

/-- What the links lead to from a block. -/
inductive Follows (dev : Rd) : Nat → Nat → Prop
  | self {b : Nat} (block : b ≠ 0) : Follows dev b b
  | next {b c : Nat} (block : b ≠ 0) (further : Follows dev (nextOf dev b) c) : Follows dev b c

/-- The places of the slots that a search of a directory reads, and that are not zero. -/
def SlotIn (dev : Rd) (first place : Nat) : Prop :=
  ∃ c k, Follows dev first c ∧ k < 30 ∧ place = c + 4 + 4 * k ∧
    ∀ m ≤ k, word dev.mem (c + 4 + 4 * m) ≠ 0

/-- The inodes that paths lead to. -/
inductive Reached (fs : Fs) : Nat → Prop
  | root : Reached fs 0
  | entry {d place : Nat} (further : Reached fs d) (directory : isDir fs d)
      (slot : SlotIn fs.dev (fs.nodes d).info place) (live : word fs.dev.mem place ≠ ylsWipe) :
      Reached fs (word fs.dev.mem (word fs.dev.mem place))

inductive Owner where
  | slot (place : Nat)
  | inode (i : Nat)

inductive Owns (fs : Fs) : Owner → Nat → Prop
  | name {d place : Nat} (reached : Reached fs d) (directory : isDir fs d)
      (slot : SlotIn fs.dev (fs.nodes d).info place) (live : word fs.dev.mem place ≠ ylsWipe) :
      Owns fs (.slot place) (word fs.dev.mem place)
  | content {i b : Nat} (reached : Reached fs i) (part : Follows fs.dev (fs.nodes i).info b) :
      Owns fs (.inode i) b

/-- Every block that can be reached is marked and belongs to one owner. -/
def BlocksOwned (fs : Fs) : Prop :=
  ∀ owner b, Owns fs owner b →
    marked fs.dev (b / blkSz) = true ∧ ∀ other, Owns fs other b → other = owner

/-- Operations on inodes in use that find the blocks that they ask for. -/
def Supplied (rootParent : Option Nat) (fuel : Nat) : (Nat → List UInt8) × Op → Fs → Prop
  | (stack, .find cur name flags), fs =>
      slash ∉ name ∧
        (Has flags oCreate → Present stack rootParent fuel fs cur name ∨ 2 ≤ (freeBlocks fs.dev).length)
  | (_, .link ..), fs => 1 ≤ (freeBlocks fs.dev).length
  | (_, .unlink parent _), fs => Used fs parent
  | (_, .rmdir parent _), fs => Used fs parent
  | (_, .write file _), fs => Used fs file.inode

section Blank

variable {dev : Rd} (zero : ∀ a < dev.size, dev.mem a = 0) (room : 0x500 ≤ dev.size)

include zero room

theorem blank_used {i : Nat} (used : Used (blkfsInit dev) i) : i = 0 := by
  rw [blkfs_init_blank zero room] at used
  by_contra other
  exact used.2 (blank_record zero room (Nat.pos_of_ne_zero other) used.1)

theorem blank_info : ((blkfsInit dev).nodes 0).info = 0x480 := by
  rw [blkfs_init_blank zero room]
  exact congrArg YlsNode.info (blank_root room)

theorem blank_no_slot {place : Nat} : ¬SlotIn (blkfsInit dev).dev 0x480 place := by
  rw [blkfs_init_blank zero room]
  rintro ⟨c, k, follows, -, -, live⟩
  have size := yls_init_size dev
  have last : nextOf (ylsInit dev) 0x480 = 0 := by
    rw [nextOf, blkMem]
    exact blank_word zero room (by omega) (by omega)
  obtain rfl : c = 0x480 := by
    cases follows with
    | self => rfl
    | next _ further =>
        rw [last] at further
        cases further with
        | self block => exact absurd rfl block
        | next block _ => exact absurd rfl block
  exact live 0 (Nat.zero_le k) (blank_word zero room (by omega) (by omega))

theorem blank_reached {i : Nat} (reached : Reached (blkfsInit dev) i) : i = 0 := by
  induction reached with
  | root => rfl
  | entry _ _ slot _ hypothesis =>
      subst hypothesis
      rw [blank_info zero room] at slot
      exact absurd slot (blank_no_slot zero room)

/-- On a blank device the root owns one block, the only one that is owned. -/
theorem blank_owns {owner : Owner} {b : Nat} :
    Owns (blkfsInit dev) owner b ↔ owner = .inode 0 ∧ b = 0x480 := by
  constructor
  · intro owns
    cases owns with
    | name reached _ slot _ =>
        rw [blank_reached zero room reached, blank_info zero room] at slot
        exact absurd slot (blank_no_slot zero room)
    | content reached part =>
        obtain rfl := blank_reached zero room reached
        refine ⟨rfl, ?_⟩
        rw [blank_info zero room, blkfs_init_blank zero room] at part
        have size := yls_init_size dev
        have last : nextOf (ylsInit dev) 0x480 = 0 := by
          rw [nextOf, blkMem]
          exact blank_word zero room (by omega) (by omega)
        cases part with
        | self => rfl
        | next _ further =>
            dsimp only at further
            rw [last] at further
            cases further with
            | self block => exact absurd rfl block
            | next block _ => exact absurd rfl block
  · rintro ⟨rfl, rfl⟩
    refine .content .root ?_
    rw [blank_info zero room]
    exact .self (by decide)

theorem blank_owned : BlocksOwned (blkfsInit dev) ↔ dev.size < 0x800 := by
  have mark : marked (blkfsInit dev).dev (0x480 / blkSz) = decide (dev.size < 0x800) := by
    rw [blkfs_init_blank zero room]
    dsimp only
    rw [blank_marked room (by decide), decide_eq_decide, blkSz]
    omega
  constructor
  · intro owned
    have single := (owned (.inode 0) 0x480 ((blank_owns zero room).mpr ⟨rfl, rfl⟩)).1
    rw [mark] at single
    exact of_decide_eq_true single
  · intro small owner b owns
    obtain ⟨rfl, rfl⟩ := (blank_owns zero room).mp owns
    refine ⟨by rw [mark, decide_eq_true small], fun other also => ?_⟩
    exact ((blank_owns zero room).mp also).1

/-- A device without free blocks stays as it is. -/
theorem blank_step {rootParent : Option Nat} {fuel : Nat} {label : (Nat → List UInt8) × Op} {next : Fs}
    (small : dev.size < 0x800) (supplied : Supplied rootParent fuel label (blkfsInit dev))
    (stepped : fsStep rootParent fuel label (blkfsInit dev) = some next) : next = blkfsInit dev := by
  have none_free : freeBlocks (blkfsInit dev).dev = [] := by
    rw [blkfs_init_blank zero room, freeBlocks]
    refine List.map_eq_nil_iff.mpr (List.filter_eq_nil_iff.mpr fun n member => ?_)
    dsimp only
    have taken : n < 8 ∨ dev.size / 0x80 / 8 ≤ n / 8 := by omega
    rw [blank_marked room (List.mem_range.mp member), decide_eq_true taken]
    decide
  have wiped {stack : Nat → List UInt8} {parent : Nat} {name : List UInt8} {directory : Bool}
      (used : Used (blkfsInit dev) parent)
      (ran : (wipeEntry stack fuel (blkfsInit dev) parent name directory).map Prod.fst = some next) :
      next = blkfsInit dev := by
    obtain rfl := blank_used zero room used
    rw [wipeEntry] at ran
    split at ran
    · exact (Option.some.inj ran).symm
    · rw [blank_info zero room] at ran
      cases fuel with
      | zero => cases ran
      | succ fuel =>
          have empty : readWord (blkfsInit dev).dev 0x484 0 = (0, 4) := by
            have size := yls_init_size dev
            rw [blkfs_init_blank zero room]
            dsimp only
            rw [read_word_inside (by omega), blank_word zero room (by omega) (by omega)]
          rw [show u32 (0x480 + 4) = 0x484 from rfl, slotSearch, if_neg (by decide), empty] at ran
          exact (Option.some.inj ran).symm
  obtain ⟨stack, op⟩ := label
  cases op with
  | find cur name flags =>
      obtain ⟨⟨state, result⟩, found, rfl⟩ := Option.map_eq_some_iff.mp stepped
      refine find_unchanged supplied.1 (fun create => ?_) found
      refine (supplied.2 create).resolve_right fun enough => ?_
      rw [none_free] at enough
      exact absurd enough (by decide)
  | link parent name inode =>
      rw [Supplied, none_free] at supplied
      exact absurd supplied (by decide)
  | unlink parent name => exact wiped supplied stepped
  | rmdir parent name => exact wiped supplied stepped
  | write file buf =>
      have root := blank_used zero room supplied
      have directory : ((blkfsInit dev).nodes file.inode).type = ylsDir := by
        rw [root, blkfs_init_blank zero room]
        exact congrArg YlsNode.type (blank_root room)
      have info := blank_info zero room
      rw [← root] at info
      rw [fsStep, blkfsIwrite] at stepped
      rw [if_pos directory, info, if_neg fun both => absurd both.1 (by decide)] at stepped
      exact (Option.some.inj stepped).symm

end Blank

/-- Right after `yls_init` the blocks are owned if and only if there is no free one; then they stay
so, since nothing can be created. -/
theorem blocks_owned (rootParent : Option Nat) (fuel : Nat) (dev : Rd)
    (zero : ∀ a < dev.size, dev.mem a = 0) (room : 0x500 ≤ dev.size) :
    (∀ labels fs, GuardedRun (fsStep rootParent fuel) (Supplied rootParent fuel) labels (blkfsInit dev) →
      runSteps (fsStep rootParent fuel) labels (blkfsInit dev) = some fs → BlocksOwned fs) ↔
      dev.size < 0x800 := by
  constructor
  · intro owned
    exact (blank_owned zero room).mp (owned [] (blkfsInit dev) trivial rfl)
  · intro small labels fs guarded ran
    have same : fs = blkfsInit dev := by
      refine @run_invariant _ _ (fsStep rootParent fuel) (Supplied rootParent fuel)
        (fun state => state = blkfsInit dev) ?_ labels (blkfsInit dev) fs rfl guarded ran
      rintro label _ next rfl supplied stepped
      exact blank_step zero room small supplied stepped
    rw [same]
    exact (blank_owned zero room).mpr small

theorem blocks_owned_small : (⟨0x780, fun _ => 0, by decide⟩ : Rd).size < 0x800 ∧ ∀ labels fs,
    GuardedRun (fsStep (some 0) 5) (Supplied (some 0) 5) labels
      (blkfsInit ⟨0x780, fun _ => 0, by decide⟩) →
    runSteps (fsStep (some 0) 5) labels (blkfsInit ⟨0x780, fun _ => 0, by decide⟩) = some fs →
      BlocksOwned fs :=
  ⟨by decide, (blocks_owned (some 0) 5 ⟨0x780, fun _ => 0, by decide⟩ (fun _ _ => rfl)
    (by decide)).mpr (by decide)⟩

/-- On a blank disk of 64 KB the block of the root directory is the second one that is given out. -/
theorem root_block_unmarked :
    Owns blankDisk (.inode 0) 0x480 ∧ marked blankDisk.dev (0x480 / blkSz) = false ∧
      (newBlock (newBlock blankDisk.dev).1).2 = 0x480 ∧ ¬BlocksOwned blankDisk := by
  refine ⟨?_, by decide +kernel, by decide +kernel, fun owned => ?_⟩
  · exact (blank_owns (fun _ _ => rfl) (by decide)).mpr ⟨rfl, rfl⟩
  · exact absurd ((blank_owned (fun _ _ => rfl) (by decide)).mp owned) (by decide)

end OsWorkbench.Blkfs
