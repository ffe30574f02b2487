import OsWorkbench.Blkfs.Blocks
import OsWorkbench.Library.LinkedList
import Mathlib.Data.Finset.Card
import Mathlib.Data.Nat.Bitwise
import Mathlib.Tactic.IntervalCases

/-!
# Chains of blocks

A chain is a path of links that ends in 0; its contents are the bytes of its blocks, the links left
out. The free blocks are those with a clear bit in the bitmap, in the order in which `new_block`
gives them.
-/

namespace OsWorkbench.Blkfs

open Kernel ByteStore LinkedList

section Access

variable {dev : Rd} {offset count : Nat}

theorem boundary_inside (inside : offset ≤ dev.size) : boundaryCheck dev offset = dev.size - offset := by
  have word := dev.word
  unfold boundaryCheck sub32 u32
  omega

theorem rd_read_inside (inside : offset + count ≤ dev.size) :
    rdRead dev offset count = slice dev.mem offset count := by
  rw [rdRead, boundary_inside (by omega), Nat.min_eq_left (by omega)]

theorem rd_write_inside {buf : List UInt8} (inside : offset + buf.length ≤ dev.size) :
    rdWrite dev offset buf = (dev.store offset buf, buf.length) := by
  rw [rdWrite, boundary_inside (by omega), Nat.min_eq_left (by omega), List.take_length]

theorem read_word_inside (inside : offset + 4 ≤ dev.size) (value : Nat) :
    readWord dev offset value = (word dev.mem offset, 4) := by
  rw [readWord, rd_read_inside inside, slice_length]
  rw [show (wordBytes value).drop 4 = [] from rfl, List.append_nil,
    word_of_slice _ _ _ _ (by omega), Nat.add_zero]

end Access

/-- The link of a block. -/
def nextOf (dev : Rd) (b : Nat) : Nat := word dev.mem (b + blkMem)

/-- Whether the bitmap counts a block as used. -/
def marked (dev : Rd) (n : Nat) : Bool := (dev.mem (n / 8)).toNat.testBit (n % 8)

/-- The offsets of the blocks with a clear bit. -/
def freeBlocks (dev : Rd) : List Nat :=
  ((List.range (8 * bitmapLen)).filter fun n => !marked dev n).map (· * 0x80)

/-- A block of the device, that of the bitmap aside. -/
structure Block (dev : Rd) (b : Nat) : Prop where
  aligned : blkSz ∣ b
  later : 0 < b
  inside : b + blkSz ≤ dev.size

/-- A device whose bitmap gives out blocks that it has, and that end a chain. -/
structure Formatted (dev : Rd) : Prop where
  placed : ∀ b ∈ freeBlocks dev, Block dev b
  ended : ∀ b ∈ freeBlocks dev, nextOf dev b = 0

/-- A chain without a cycle, of blocks in use. -/
structure Chained (dev : Rd) (first : Nat) (rest : List Nat) : Prop where
  path : Path (nextOf dev) first rest 0
  distinct : (first :: rest).Nodup
  placed : ∀ b ∈ first :: rest, Block dev b
  used : ∀ b ∈ first :: rest, b ∉ freeBlocks dev

/-- What the blocks hold, one after the other. -/
def contents (dev : Rd) (blocks : List Nat) : List UInt8 :=
  blocks.flatMap fun b => slice dev.mem b blkMem

@[simp] theorem contents_nil (dev : Rd) : contents dev [] = [] := rfl

@[simp] theorem contents_cons (dev : Rd) (b : Nat) (blocks : List Nat) :
    contents dev (b :: blocks) = slice dev.mem b blkMem ++ contents dev blocks := rfl

theorem contents_append (dev : Rd) (left right : List Nat) :
    contents dev (left ++ right) = contents dev left ++ contents dev right :=
  List.flatMap_append

@[simp] theorem contents_length (dev : Rd) (blocks : List Nat) :
    (contents dev blocks).length = blkMem * blocks.length := by
  induction blocks with
  | nil => rfl
  | cons b blocks hypothesis =>
      rw [contents_cons, List.length_append, slice_length, hypothesis, List.length_cons, Nat.mul_succ,
        Nat.add_comm]

theorem contents_congr {dev other : Rd} {blocks : List Nat}
    (same : ∀ b ∈ blocks, Set.EqOn other.mem dev.mem (span b blkMem)) :
    contents other blocks = contents dev blocks := by
  apply List.flatMap_congr
  intro b member
  exact slice_congr (same b member)

section Blocks

variable {dev : Rd} {b c : Nat}

/-- Two blocks are the same or apart. -/
theorem Block.apart (first : blkSz ∣ b) (second : blkSz ∣ c) (unlike : b ≠ c) :
    b + blkSz ≤ c ∨ c + blkSz ≤ b := by
  unfold blkSz at *
  omega

theorem Block.next_inside (block : Block dev b) : b + blkMem + 4 ≤ dev.size := by
  have inside := block.inside
  unfold blkSz blkMem at *
  omega

theorem Block.place_word (block : Block dev b) {skip : Nat} (inside : skip ≤ blkMem) :
    u32 (b + skip) = b + skip := by
  have last := block.inside
  have bound := dev.word
  unfold blkSz blkMem u32 at *
  omega

theorem Block.read_next (block : Block dev b) (value : Nat) :
    readWord dev (u32 (b + blkMem)) value = (nextOf dev b, 4) := by
  rw [block.place_word le_rfl]
  exact read_word_inside block.next_inside value

/-- What `BLK_MEM-off%BLK_SZ` is inside a block. -/
theorem Block.space (block : Block dev b) {skip : Nat} (inside : skip ≤ blkMem) :
    sub32 blkMem ((b + skip) % blkSz) = blkMem - skip := by
  obtain ⟨index, rfl⟩ := block.aligned
  rw [Nat.mul_add_mod]
  unfold blkSz blkMem sub32 u32 at *
  omega

theorem Block.above_bitmap (block : Block dev b) : blkSz ≤ b :=
  Nat.le_of_dvd block.later block.aligned

end Blocks

section Chains

variable {dev : Rd} {first c : Nat} {rest : List Nat}

theorem chained_cons : Chained dev first (c :: rest) ↔
    Block dev first ∧ first ∉ freeBlocks dev ∧ first ∉ c :: rest ∧ nextOf dev first = c ∧
      Chained dev c rest := by
  constructor
  · rintro ⟨path, distinct, placed, used⟩
    obtain ⟨new, further⟩ := List.nodup_cons.mp distinct
    refine ⟨placed first (by simp), used first (by simp), new, path.1, path.2, further, ?_, ?_⟩
    · exact fun b member => placed b (List.mem_cons_of_mem first member)
    · exact fun b member => used b (List.mem_cons_of_mem first member)
  · rintro ⟨block, taken, new, linked, path, further, placed, used⟩
    refine ⟨⟨linked, path⟩, List.nodup_cons.mpr ⟨new, further⟩, ?_, ?_⟩
    · exact List.forall_mem_cons.mpr ⟨block, placed⟩
    · exact List.forall_mem_cons.mpr ⟨taken, used⟩

theorem chained_nil : Chained dev first [] ↔
    Block dev first ∧ first ∉ freeBlocks dev ∧ nextOf dev first = 0 := by
  constructor
  · rintro ⟨path, -, placed, used⟩
    exact ⟨placed first (by simp), used first (by simp), path⟩
  · rintro ⟨block, taken, last⟩
    exact ⟨last, List.nodup_singleton first, by simpa using block, by simpa using taken⟩

/-- A device has room for the blocks of a chain. -/
theorem Chained.capacity (chained : Chained dev first rest) :
    blkMem * (rest.length + 1) ≤ dev.size := by
  have places : ((first :: rest).map (· / blkSz)).Nodup := by
    refine (List.nodup_map_iff_inj_on chained.distinct).mpr fun b one c two same => ?_
    obtain ⟨i, rfl⟩ := (chained.placed b one).aligned
    obtain ⟨j, rfl⟩ := (chained.placed c two).aligned
    rw [Nat.mul_div_cancel_left _ (by decide), Nat.mul_div_cancel_left _ (by decide)] at same
    rw [same]
  have bounded : ((first :: rest).map (· / blkSz)).toFinset ⊆ Finset.range (dev.size / blkSz) := by
    intro i member
    obtain ⟨b, listed, rfl⟩ := List.mem_map.mp (List.mem_toFinset.mp member)
    have inside := (chained.placed b listed).inside
    rw [Finset.mem_range]
    unfold blkSz at *
    omega
  have count := Finset.card_le_card bounded
  rw [List.toFinset_card_of_nodup places, List.length_map, List.length_cons, Finset.card_range] at count
  unfold blkSz blkMem at *
  omega

theorem Chained.block (chained : Chained dev first rest) : Block dev first :=
  chained.placed first List.mem_cons_self

theorem Chained.taken (chained : Chained dev first rest) : first ∉ freeBlocks dev :=
  chained.used first List.mem_cons_self

end Chains

section Bitmap

variable {dev other : Rd} {c : Nat} {rest : List Nat}

theorem free_blocks_congr (same : Set.EqOn other.mem dev.mem (span 0 bitmapLen)) :
    freeBlocks other = freeBlocks dev := by
  refine congrArg (List.map (· * 0x80)) (List.filter_congr fun n member => ?_)
  have bound := List.mem_range.mp member
  have place : n / 8 ∈ span 0 bitmapLen := by
    rw [mem_span]
    unfold bitmapLen at *
    omega
  rw [marked, marked, same place]

theorem free_blocks_nodup (dev : Rd) : (freeBlocks dev).Nodup := by
  rw [freeBlocks]
  refine List.Nodup.map (fun m n same => ?_) (List.nodup_range.filter _)
  exact Nat.eq_of_mul_eq_mul_right (by decide) same

theorem find_some_pair (set : Nat → Prop) [DecidablePred set] (i : Nat) (places : List Nat) :
    (places.findSome? fun j => if set j then none else some (i, j)) =
      (places.find? fun j => !decide (set j)).map fun j => (i, j) := by
  induction places with
  | nil => rfl
  | cons j places hypothesis =>
      by_cases taken : set j
      · simp [taken, hypothesis]
      · simp [taken]

theorem find_map_pair {p q : Nat → Bool} {f : Nat → Nat} {g h : Nat → Nat × Nat} {places : List Nat}
    (same : ∀ j ∈ places, p (f j) = q j ∧ g (f j) = h j) :
    ((places.map f).find? p).map g = (places.find? q).map h := by
  induction places with
  | nil => rfl
  | cons j places hypothesis =>
      obtain ⟨choice, value⟩ := same j List.mem_cons_self
      have later := hypothesis fun i member => same i (List.mem_cons_of_mem j member)
      rw [List.map_cons, List.find?_cons, List.find?_cons, choice]
      cases q j with
      | true => exact congrArg some value
      | false => exact later

/-- The two loops of the search go through the bits in order. -/
theorem nested_search (full : Nat → Prop) [DecidablePred full] (set : Nat → Nat → Prop)
    [∀ i, DecidablePred (set i)] (skip : ∀ i j, j < 8 → full i → set i j) (bytes : Nat) :
    ((List.range bytes).findSome? fun i =>
        if full i then none
        else (List.range 8).findSome? fun j => if set i j then none else some (i, j)) =
      ((List.range (8 * bytes)).find? fun n => !decide (set (n / 8) (n % 8))).map
        fun n => (n / 8, n % 8) := by
  induction bytes with
  | zero => rfl
  | succ bytes hypothesis =>
      have row : List.range (8 * (bytes + 1)) =
          List.range (8 * bytes) ++ (List.range 8).map (8 * bytes + ·) := by
        rw [Nat.mul_succ, List.range_add]
      have place (j : Nat) (bound : j < 8) :
          (!decide (set ((8 * bytes + j) / 8) ((8 * bytes + j) % 8))) = !decide (set bytes j) ∧
            ((8 * bytes + j) / 8, (8 * bytes + j) % 8) = (bytes, j) := by
        have quotient : (8 * bytes + j) / 8 = bytes := by omega
        have remainder : (8 * bytes + j) % 8 = j := by omega
        rw [quotient, remainder]
        exact ⟨rfl, rfl⟩
      have inner : (if full bytes then none
          else (List.range 8).findSome? fun j => if set bytes j then none else some (bytes, j)) =
          (((List.range 8).map (8 * bytes + ·)).find? fun n => !decide (set (n / 8) (n % 8))).map
            fun n => (n / 8, n % 8) := by
        rw [find_map_pair fun j member => ⟨(place j (List.mem_range.mp member)).1,
          (place j (List.mem_range.mp member)).2⟩]
        split
        case isTrue whole =>
          have none : (List.range 8).find? (fun j => !decide (set bytes j)) = none := by
            rw [List.find?_eq_none]
            intro j member
            simp [skip bytes j (List.mem_range.mp member) whole]
          rw [none]
          rfl
        case isFalse => exact find_some_pair (set bytes) bytes (List.range 8)
      rw [List.range_succ (n := bytes), List.findSome?_append, hypothesis, row, List.find?_append,
        Option.map_or, ← inner]
      simp

theorem bit_test (byte j : Nat) : byte &&& 1 <<< j ≠ 0 ↔ byte.testBit j = true := by
  rw [Nat.one_shiftLeft, Nat.and_two_pow]
  cases byte.testBit j with
  | true => simp
  | false => simp

theorem first_clear : firstClear (slice dev.mem 0 bitmapLen) =
    ((List.range (8 * bitmapLen)).find? fun n => !marked dev n).map fun n => (n / 8, n % 8) := by
  have byte (i : Nat) (bound : i < bitmapLen) :
      (slice dev.mem 0 bitmapLen).getD i 0 = dev.mem i := by
    rw [slice_getD _ _ _ _ bound, Nat.zero_add]
  have search := nested_search (fun i => (slice dev.mem 0 bitmapLen).getD i 0 = 0xff)
    (fun i j => ((slice dev.mem 0 bitmapLen).getD i 0).toNat &&& 1 <<< j ≠ 0)
    (fun i j bound full => by
      rw [full]
      interval_cases j <;> decide) bitmapLen
  refine search.trans ?_
  have tested (n : Nat) (member : n ∈ List.range (8 * bitmapLen)) :
      (!decide (((slice dev.mem 0 bitmapLen).getD (n / 8) 0).toNat &&& 1 <<< (n % 8) ≠ 0)) =
        !marked dev n := by
    have bound := List.mem_range.mp member
    rw [byte _ (by omega)]
    simp only [bit_test, Bool.decide_eq_true, marked]
  have order := @find_map_pair _ (fun n => !marked dev n) (fun n => n) (fun n => (n / 8, n % 8))
    (fun n => (n / 8, n % 8)) _ fun n member => ⟨tested n member, rfl⟩
  rwa [List.map_id'] at order

/-- Setting a bit marks one block. -/
theorem marked_store (dev : Rd) (n m : Nat) :
    marked (dev.store (n / 8) [UInt8.ofNat ((dev.mem (n / 8)).toNat ||| 1 <<< (n % 8))]) m =
      (marked dev m || decide (m = n)) := by
  unfold marked
  rw [Rd.store_mem]
  by_cases same : m / 8 = n / 8
  · have written := @overlay_inside dev.mem (n / 8) 0
      [UInt8.ofNat ((dev.mem (n / 8)).toNat ||| 1 <<< (n % 8))] (by simp)
    rw [Nat.add_zero] at written
    rw [same, written, List.getElem_singleton]
    have bound : (dev.mem (n / 8)).toNat ||| 1 <<< (n % 8) < 2 ^ 8 := by
      apply Nat.or_lt_two_pow (UInt8.toNat_lt _)
      rw [Nat.one_shiftLeft]
      exact Nat.pow_lt_pow_right (by decide) (Nat.mod_lt n (by decide))
    rw [UInt8.toNat_ofNat_of_lt' bound, Nat.testBit_or, Nat.one_shiftLeft, Nat.testBit_two_pow]
    congr 1
    rw [decide_eq_decide]
    omega
  · have unlike : ¬m = n := fun equal => same (congrArg (· / 8) equal)
    rw [decide_eq_false unlike, Bool.or_false]
    by_cases before : m / 8 < n / 8
    · rw [overlay_before before]
    · rw [overlay_after (by simp; omega)]

/-- What `new_block` does while a bit is clear: it gives the first free block and marks it. -/
theorem new_block_fresh (formatted : Formatted dev) (free : freeBlocks dev = c :: rest) :
    ∃ i byte, newBlock dev = (dev.store i [byte], c) ∧ i < bitmapLen ∧
      freeBlocks (dev.store i [byte]) = rest := by
  have block : Block dev c := formatted.placed c (by rw [free]; exact List.mem_cons_self)
  have whole : bitmapLen ≤ dev.size := by
    have inside := block.inside
    unfold blkSz bitmapLen at *
    omega
  obtain ⟨n, later, clear, place, rfl⟩ := List.map_eq_cons_iff.mp free
  have listed : n ∈ (List.range (8 * bitmapLen)).filter fun n => !marked dev n := by
    rw [clear]
    exact List.mem_cons_self
  obtain ⟨ranged, unmarked⟩ := List.mem_filter.mp listed
  have bound : n / 8 < bitmapLen := by
    have small := List.mem_range.mp ranged
    omega
  have new : n ∉ later := by
    have distinct := (List.nodup_range (n := 8 * bitmapLen)).filter fun n => !marked dev n
    rw [clear] at distinct
    exact (List.nodup_cons.mp distinct).1
  have found : firstClear (rdRead dev 0 bitmapLen) = some (n / 8, n % 8) := by
    rw [rd_read_inside (by omega), first_clear, ← List.head?_filter, clear]
    rfl
  have byte : (rdRead dev 0 bitmapLen).getD (n / 8) 0 = dev.mem (n / 8) := by
    rw [rd_read_inside (by omega), slice_getD _ _ _ _ bound, Nat.zero_add]
  refine ⟨n / 8, UInt8.ofNat ((dev.mem (n / 8)).toNat ||| 1 <<< (n % 8)), ?_, bound, ?_⟩
  · have single : n / 8 + [UInt8.ofNat ((dev.mem (n / 8)).toNat ||| 1 <<< (n % 8))].length ≤
        dev.size := by
      rw [List.length_singleton]
      omega
    rw [newBlock, found, takeBit, byte, rd_write_inside single, Nat.div_add_mod, place]
  · have remaining : ((List.range (8 * bitmapLen)).filter fun m => !marked dev m).filter
        (fun m => !decide (m = n)) = later := by
      rw [clear, List.filter_cons_of_neg (by simp)]
      apply List.filter_eq_self.mpr
      intro m member
      have unlike : m ≠ n := fun same => new (same ▸ member)
      simpa using unlike
    rw [freeBlocks, ← remaining, List.filter_filter]
    refine congrArg (List.map (· * 0x80)) (List.filter_congr fun m _ => ?_)
    rw [marked_store, Bool.not_or, Bool.and_comm]

end Bitmap

end OsWorkbench.Blkfs
