import OsWorkbench.Blkfs.Blocks
import Mathlib.Data.BitVec

/-!
# `ramdisk.c`

What the two routines touch of the memory of a machine with 32 bits: pointers, offsets and counts are
words, differences of them wrap around, and `off_t` has a sign. The block layer only sees offsets on
the disk, where its model of a device says the same.
-/

namespace OsWorkbench.Ramdisk

open ByteStore Kernel

/-- `rd_t`. -/
structure RdT where
  start : BitVec 32
  stop : BitVec 32
  ordered : start ≤ stop

def RdT.size (rd : RdT) : Nat := rd.stop.toNat - rd.start.toNat

abbrev Memory := BitVec 32 → UInt8

def boundaryCheck (rd : RdT) (offset : BitVec 32) : BitVec 32 := rd.stop - rd.start - offset

/-- What `count` is after the test that both routines begin with. -/
def clampCount (rd : RdT) (offset count : BitVec 32) : BitVec 32 :=
  if count > boundaryCheck rd offset then boundaryCheck rd offset else count

/-- The address of the byte with the number `i` that `memcpy` copies. -/
def rdAddress (rd : RdT) (offset : BitVec 32) (i : Nat) : BitVec 32 :=
  rd.start + offset + BitVec.ofNat 32 i

/-- The addresses on the disk's side of a transfer. -/
def touched (rd : RdT) (offset count : BitVec 32) : List (BitVec 32) :=
  (List.range (clampCount rd offset count).toNat).map (rdAddress rd offset)

/-- `rd_read`: the bytes put into `buf`, and the count returned. -/
def rdRead (mem : Memory) (rd : RdT) (offset count : BitVec 32) : List UInt8 × BitVec 32 :=
  ((touched rd offset count).map mem, clampCount rd offset count)

/-- `memcpy` onto the disk, upwards from the byte `i`. -/
def copyTo (rd : RdT) (offset : BitVec 32) : Memory → Nat → List UInt8 → Memory
  | mem, _, [] => mem
  | mem, i, c :: rest => copyTo rd offset (Function.update mem (rdAddress rd offset i) c) (i + 1) rest

/-- `rd_write` from a buffer with the bytes `buf`. -/
def rdWrite (mem : Memory) (rd : RdT) (offset : BitVec 32) (buf : Nat → UInt8) (count : BitVec 32) :
    Memory × BitVec 32 :=
  (copyTo rd offset mem 0 ((List.range (clampCount rd offset count).toNat).map buf),
    clampCount rd offset count)

/-- The bytes between an offset and the end of the disk; none if the offset is outside. -/
def bytesLeft (rd : RdT) (offset : BitVec 32) : Nat :=
  if 0 ≤ offset.toInt ∧ offset.toInt ≤ rd.size then rd.size - offset.toNat else 0

section Words

variable {rd : RdT} {offset count : BitVec 32} {i j : Nat}

theorem size_small (rd : RdT) : rd.start.toNat + rd.size = rd.stop.toNat := by
  have ordered : rd.start.toNat ≤ rd.stop.toNat := rd.ordered
  unfold RdT.size
  omega

theorem boundary_word (rd : RdT) (offset : BitVec 32) : (boundaryCheck rd offset).toNat =
    if offset.toNat ≤ rd.size then rd.size - offset.toNat else 2 ^ 32 + rd.size - offset.toNat := by
  have sum := size_small rd
  have top := rd.stop.isLt
  have low := offset.isLt
  rw [boundaryCheck, BitVec.toNat_sub, BitVec.toNat_sub]
  split <;> omega

theorem clamp_word (rd : RdT) (offset count : BitVec 32) : (clampCount rd offset count).toNat =
    min count.toNat (boundaryCheck rd offset).toNat := by
  unfold clampCount
  split
  next more =>
    have larger : (boundaryCheck rd offset).toNat < count.toNat := more
    omega
  next fits =>
    have smaller : ¬(boundaryCheck rd offset).toNat < count.toNat := fits
    omega

theorem address_word (rd : RdT) (offset : BitVec 32) (i : Nat) :
    (rdAddress rd offset i).toNat = (rd.start.toNat + offset.toNat + i) % 2 ^ 32 := by
  rw [rdAddress, BitVec.toNat_add, BitVec.toNat_add, BitVec.toNat_ofNat]
  omega

theorem address_injective (first : i < 2 ^ 32) (second : j < 2 ^ 32)
    (same : rdAddress rd offset i = rdAddress rd offset j) : i = j := by
  have words := congrArg BitVec.toNat same
  rw [address_word, address_word] at words
  omega

theorem on_disk {a : BitVec 32} : rd.start ≤ a ∧ a < rd.stop ↔
    rd.start.toNat ≤ a.toNat ∧ a.toNat < rd.start.toNat + rd.size := by
  rw [size_small]
  exact Iff.rfl

end Words

section Copying

variable {rd : RdT} {offset : BitVec 32} {mem : Memory} {payload : List UInt8} {i j : Nat}

theorem copy_to_outside {a : BitVec 32} (outside : ∀ j < payload.length, a ≠ rdAddress rd offset (i + j)) :
    copyTo rd offset mem i payload a = mem a := by
  induction payload generalizing mem i with
  | nil => rfl
  | cons c rest hypothesis =>
      rw [copyTo, hypothesis fun j below => ?_]
      · exact Function.update_of_ne (outside 0 (Nat.zero_lt_succ _)) _ _
      · have other := outside (j + 1) (by rw [List.length_cons]; omega)
        rwa [Nat.add_right_comm]

theorem copy_to_inside (fits : i + payload.length ≤ 2 ^ 32) (below : j < payload.length) :
    copyTo rd offset mem i payload (rdAddress rd offset (i + j)) = payload.getD j 0 := by
  induction payload generalizing mem i j with
  | nil => exact absurd below (Nat.not_lt_zero j)
  | cons c rest hypothesis =>
      rw [List.length_cons] at fits below
      rw [copyTo]
      cases j with
      | zero =>
          rw [copy_to_outside fun j less same => ?_]
          · exact Function.update_self ..
          · have equal := address_injective (by omega) (by omega) same
            omega
      | succ j =>
          have later := @hypothesis (Function.update mem (rdAddress rd offset i) c) (i + 1) j
            (by omega) (by omega)
          rw [Nat.add_right_comm] at later
          exact later

end Copying

section Bounds

variable (mem : Memory) (rd : RdT) (offset : BitVec 32) (buf : Nat → UInt8) (count : BitVec 32)

/-- What the two routines are for. -/
structure WithinBounds : Prop where
  inside : ∀ a ∈ touched rd offset count, rd.start ≤ a ∧ a < rd.stop
  returnedRead : (rdRead mem rd offset count).2.toNat = min count.toNat (bytesLeft rd offset)
  read : (rdRead mem rd offset count).1 =
    (List.range (min count.toNat (bytesLeft rd offset))).map fun i => mem (rdAddress rd offset i)
  returnedWritten : (rdWrite mem rd offset buf count).2.toNat = min count.toNat (bytesLeft rd offset)
  written : ∀ i < min count.toNat (bytesLeft rd offset),
    (rdWrite mem rd offset buf count).1 (rdAddress rd offset i) = buf i
  kept : ∀ a, (∀ i < min count.toNat (bytesLeft rd offset), a ≠ rdAddress rd offset i) →
    (rdWrite mem rd offset buf count).1 a = mem a

variable {mem rd offset buf count}

/-- Everything follows from the number of bytes. -/
theorem within_of_amount (amount : (clampCount rd offset count).toNat =
      min count.toNat (bytesLeft rd offset))
    (inside : ∀ a ∈ touched rd offset count, rd.start ≤ a ∧ a < rd.stop) :
    WithinBounds mem rd offset buf count := by
  have few := (clampCount rd offset count).isLt
  rw [amount] at few
  have length : ((List.range (min count.toNat (bytesLeft rd offset))).map buf).length =
      min count.toNat (bytesLeft rd offset) := by
    rw [List.length_map, List.length_range]
  constructor
  case inside => exact inside
  case returnedRead => exact amount
  case read =>
    rw [rdRead, touched, amount, List.map_map]
    rfl
  case returnedWritten => exact amount
  case written =>
    intro i below
    have stored := @copy_to_inside rd offset mem
      ((List.range (min count.toNat (bytesLeft rd offset))).map buf) 0 i (by rw [length]; omega)
      (by rw [length]; exact below)
    rw [Nat.zero_add] at stored
    rw [rdWrite, amount]
    dsimp only
    rw [stored, List.getD_eq_getElem _ _ (by rw [length]; exact below), List.getElem_map,
      List.getElem_range]
  case kept =>
    intro a outside
    rw [rdWrite, amount]
    dsimp only
    refine copy_to_outside fun j below => ?_
    rw [Nat.zero_add]
    exact outside j (length ▸ below)

/-- The routines stay on the disk and transfer what is left of it if and only if there is nothing to
transfer or the offset is on the disk or at its end. -/
theorem ramdisk_bounds (mem : Memory) (rd : RdT) (offset : BitVec 32) (buf : Nat → UInt8)
    (count : BitVec 32) : WithinBounds mem rd offset buf count ↔
      count = 0 ∨ offset.toNat = rd.size ∨ 0 ≤ offset.toInt ∧ offset.toInt < rd.size := by
  have sum := size_small rd
  have top := rd.stop.isLt
  have low := offset.isLt
  have boundary := boundary_word rd offset
  have amount := clamp_word rd offset count
  have sign := BitVec.toInt_eq_toNat_cond offset
  constructor
  · intro within
    by_contra neither
    rw [not_or, not_or] at neither
    obtain ⟨positive, unlike, outside⟩ := neither
    have some : 0 < count.toNat := Nat.pos_of_ne_zero fun zero => positive (BitVec.eq_of_toNat_eq zero)
    have none : bytesLeft rd offset = 0 := by
      unfold bytesLeft
      split
      next both => omega
      next => rfl
    have returned := within.returnedRead
    rw [rdRead, none, amount] at returned
    split at boundary <;> omega
  · intro either
    have same : (clampCount rd offset count).toNat = min count.toNat (bytesLeft rd offset) := by
      rw [amount, boundary]
      unfold bytesLeft
      rcases either with rfl | ending | inside
      · exact (Nat.zero_min _).trans (Nat.zero_min _).symm
      · split <;> split <;> omega
      · split <;> split <;> omega
    refine within_of_amount same fun a member => ?_
    obtain ⟨i, below, rfl⟩ := List.mem_map.mp member
    rw [List.mem_range, amount, boundary] at below
    rw [on_disk, address_word]
    have few : 0 < count.toNat := by omega
    have live : count ≠ 0 := by
      rintro rfl
      exact absurd few (Nat.lt_irrefl 0)
    rcases either with zero | ending | inside
    · exact absurd zero live
    · rw [if_pos (by omega)] at below
      omega
    · rw [if_pos (by omega)] at below
      omega

/-- A byte is read behind the end of a disk of 256 bytes. -/
theorem ramdisk_read_outside : ¬WithinBounds (fun _ => 0) ⟨0x100, 0x200, by decide⟩ 0x101
    (fun _ => 0) 1 := by
  intro within
  have inside := within.inside 0x201 (by decide +kernel)
  exact absurd inside.2 (by decide)

end Bounds

section Device

variable {mem : Memory} {rd : RdT} {offset count : BitVec 32} {buf : Nat → UInt8}

/-- The disk as the block layer sees it. -/
def RdT.device (rd : RdT) (mem : Memory) : Blkfs.Rd where
  size := rd.size
  mem a := mem (rd.start + BitVec.ofNat 32 a)
  word := by
    have sum := size_small rd
    have top := rd.stop.isLt
    omega

theorem device_place (rd : RdT) (offset : BitVec 32) (i : Nat) :
    rd.start + BitVec.ofNat 32 (offset.toNat + i) = rdAddress rd offset i := by
  rw [rdAddress, BitVec.ofNat_add, BitVec.ofNat_toNat, BitVec.setWidth_eq, BitVec.add_assoc]

theorem device_amount (inside : offset.toNat ≤ rd.size) : (clampCount rd offset count).toNat =
    min count.toNat (Blkfs.boundaryCheck (rd.device mem) offset.toNat) := by
  have sum := size_small rd
  have top := rd.stop.isLt
  have size : (rd.device mem).size = rd.size := rfl
  rw [clamp_word, boundary_word, if_pos inside, Blkfs.boundaryCheck, size]
  unfold sub32 u32
  omega

theorem rd_read_device (inside : offset.toNat ≤ rd.size) : (rdRead mem rd offset count).1 =
    Blkfs.rdRead (rd.device mem) offset.toNat count.toNat := by
  rw [rdRead, Blkfs.rdRead, ← device_amount inside, touched, List.map_map]
  refine List.map_congr_left fun i _ => ?_
  exact congrArg mem (device_place rd offset i).symm

theorem rd_write_device (inside : offset.toNat ≤ rd.size) {a : Nat} (place : a < rd.size) :
    (rd.device (rdWrite mem rd offset buf count).1).mem a =
      (Blkfs.rdWrite (rd.device mem) offset.toNat ((List.range count.toNat).map buf)).1.mem a := by
  have sum := size_small rd
  have top := rd.stop.isLt
  have amount := @device_amount mem rd offset count inside
  have within : (clampCount rd offset count).toNat ≤ rd.size - offset.toNat := by
    rw [clamp_word, boundary_word, if_pos inside]
    exact Nat.min_le_right _ _
  have few : (clampCount rd offset count).toNat ≤ count.toNat := by
    rw [clamp_word]
    exact Nat.min_le_left _ _
  have payload : ((List.range count.toNat).map buf).take (min ((List.range count.toNat).map buf).length
      (Blkfs.boundaryCheck (rd.device mem) offset.toNat)) =
        (List.range (clampCount rd offset count).toNat).map buf := by
    rw [List.length_map, List.length_range, ← amount, ← List.map_take, List.take_range,
      Nat.min_eq_left few]
  have length : ((List.range (clampCount rd offset count).toNat).map buf).length =
      (clampCount rd offset count).toNat := by rw [List.length_map, List.length_range]
  rw [Blkfs.rdWrite]
  dsimp only
  rw [payload, Blkfs.Rd.store_mem]
  by_cases here : offset.toNat ≤ a ∧ a < offset.toNat + (clampCount rd offset count).toNat
  · obtain ⟨i, rfl⟩ := Nat.exists_eq_add_of_le here.1
    have stored := @copy_to_inside rd offset mem
      ((List.range (clampCount rd offset count).toNat).map buf) 0 i (by rw [length]; omega)
      (by rw [length]; omega)
    rw [Nat.zero_add] at stored
    rw [overlay_inside (by rw [length]; omega)]
    refine (congrArg _ (device_place rd offset i)).trans (stored.trans ?_)
    exact List.getD_eq_getElem _ _ _
  · have before : (rd.device mem).mem a =
        overlay (rd.device mem).mem offset.toNat
          ((List.range (clampCount rd offset count).toNat).map buf) a := by
      rcases Nat.lt_or_ge a offset.toNat with low | high
      · exact (overlay_before low).symm
      · exact (overlay_after (by rw [length]; omega)).symm
    rw [← before]
    refine copy_to_outside fun j below same => here ?_
    rw [length] at below
    have words := congrArg BitVec.toNat same
    rw [Nat.zero_add, address_word, BitVec.toNat_add, BitVec.toNat_ofNat] at words
    omega

end Device

end OsWorkbench.Ramdisk
