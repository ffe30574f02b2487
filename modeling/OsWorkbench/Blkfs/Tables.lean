import OsWorkbench.Blkfs.Directories

/-!
# What the directory operations rely on

The records of the inode table, the slots of a directory and the blocks that hold names. `Sound` is
kept by every operation that creates or removes entries as long as there is room for what it takes.
It leaves open what the contents of files are.
-/

namespace OsWorkbench.Blkfs

open Kernel ByteStore

def slotCount : Nat := 30

def slotPlace (b k : Nat) : Nat := b + 4 + 4 * k

def slotAt (dev : Rd) (b k : Nat) : Nat := word dev.mem (slotPlace b k)

/-- A record of the inode table that is in use. -/
def Kept (dev : Rd) (i : Nat) : Prop := i < inodeCount ∧ (nodeAt dev i).refcnt ≠ 0

/-- The record of a directory. -/
structure Directory (dev : Rd) (i : Nat) : Prop where
  kept : Kept dev i
  type : (nodeAt dev i).type = ylsDir

/-- A block that holds a name. -/
structure NameBlock (dev : Rd) (b : Nat) : Prop where
  block : Block dev b
  later : inodeEnd ≤ b
  taken : b ∉ freeBlocks dev
  target : Kept dev (word dev.mem b)

/-- The block of a directory: its slots are in use, wiped or zero, and behind a slot that is zero all
are. -/
structure Slots (dev : Rd) (b : Nat) : Prop where
  block : Block dev b
  later : inodeEnd ≤ b
  final : nextOf dev b = 0
  filled : ∀ k < slotCount, slotAt dev b k = 0 ∨ slotAt dev b k = ylsWipe ∨ NameBlock dev (slotAt dev b k)
  ended : ∀ k m, k ≤ m → m < slotCount → slotAt dev b k = 0 → slotAt dev b m = 0

/-- The invariant. A directory may still be without a mark if its block is the second one that will
be given out: on a fresh device that of the root is. -/
structure Sound (fs : Fs) : Prop where
  table : ∀ i < inodeCount, fs.nodes i = nodeAt fs.dev i
  placed : ∀ b ∈ freeBlocks fs.dev, Block fs.dev b ∧ inodeEnd ≤ b
  blank : ∀ b ∈ freeBlocks fs.dev, ∀ skip, 4 ≤ skip → skip < blkSz → fs.dev.mem (b + skip) = 0
  root : Directory fs.dev 0
  slots : ∀ i, Directory fs.dev i → Slots fs.dev (nodeAt fs.dev i).info
  parents : ∀ i, Directory fs.dev i → Directory fs.dev (word fs.dev.mem (nodeAt fs.dev i).info)
  apart : ∀ i j, Directory fs.dev i → Directory fs.dev j → ∀ k < slotCount,
    slotAt fs.dev (nodeAt fs.dev i).info k ≠ (nodeAt fs.dev j).info
  reserved : ∀ i, Directory fs.dev i → (nodeAt fs.dev i).info ∈ freeBlocks fs.dev →
    (freeBlocks fs.dev)[1]? = some (nodeAt fs.dev i).info

section Records

variable {dev next : Rd} {i : Nat}

theorem kept_of_records (records : ∀ i < inodeCount, nodeAt next i = nodeAt dev i) :
    Kept next i ↔ Kept dev i :=
  and_congr_right fun bound => by rw [records i bound]

theorem directory_of_records (records : ∀ i < inodeCount, nodeAt next i = nodeAt dev i) :
    Directory next i ↔ Directory dev i := by
  constructor
  · intro after
    exact ⟨(kept_of_records records).mp after.kept, records i after.kept.1 ▸ after.type⟩
  · intro before
    exact ⟨(kept_of_records records).mpr before.kept, (records i before.kept.1).symm ▸ before.type⟩

end Records

section Bytes

variable {dev : Rd} {i : Nat}

theorem word_zero {store : Bytes} {base : Nat} (zero : ∀ a, base ≤ a → a < base + 4 → store a = 0) :
    word store base = 0 := by
  simp only [word]
  rw [zero base (by omega) (by omega), zero (base + 1) (by omega) (by omega),
    zero (base + 2) (by omega) (by omega), zero (base + 3) (by omega) (by omega)]
  rfl

@[simp] theorem node_bytes_length (node : YlsNode) : (nodeBytes node).length = sizeofNode := rfl

/-- A node that was just written is what its record holds. -/
theorem node_at_store {node : YlsNode} (refcnt : node.refcnt < 2 ^ 32) (info : node.info < 2 ^ 32)
    (size : node.size < 2 ^ 32) (type : node.type < 2 ^ 32) :
    nodeAt (dev.store (nodePlace i) (nodeBytes node)) i = node := by
  have field (skip value : Nat) (first last : List UInt8)
      (parts : nodeBytes node = first ++ (wordBytes value ++ last)) (place : first.length = skip)
      (inside : skip + 4 ≤ 16) (bound : value < 2 ^ 32) :
      word (overlay dev.mem (nodePlace i) (nodeBytes node)) (nodePlace i + skip) = value := by
    rw [word_overlay_inside _ _ _ _ (by rw [node_bytes_length]; exact inside), parts]
    subst place
    simp only [wordOf, List.getD_append_right _ _ _ _ (Nat.le_refl first.length),
      List.getD_append_right _ _ _ _ (show first.length ≤ first.length + _ from Nat.le_add_right _ _),
      Nat.sub_self, Nat.add_sub_cancel_left]
    simp only [wordBytes, List.cons_append, List.getD_cons_zero, List.getD_cons_succ,
      UInt8.toNat_ofNat']
    omega
  have first := field 0 node.refcnt [] _ rfl rfl (by decide) refcnt
  rw [Nat.add_zero] at first
  rw [nodeAt, Rd.store_mem, first, field 4 node.info (wordBytes node.refcnt) _ rfl rfl (by decide) info,
    field 8 node.size (wordBytes node.refcnt ++ wordBytes node.info)
      (wordBytes node.type) (by rw [nodeBytes, List.append_assoc]) rfl (by decide) size,
    field 12 node.type (wordBytes node.refcnt ++ wordBytes node.info ++ wordBytes node.size) []
      (by simp only [nodeBytes, List.append_assoc, List.append_nil]) rfl (by decide) type]

end Bytes

section Places

variable {dev : Rd} {b c i k : Nat}

theorem record_inside (bound : i < inodeCount) :
    inodeStart ≤ nodePlace i ∧ nodePlace i + sizeofNode ≤ inodeEnd := by
  have few : i < 60 := bound
  unfold nodePlace inodeStart inodeEnd sizeofNode
  omega

theorem slot_inside (bound : k < slotCount) : b + 4 ≤ slotPlace b k ∧ slotPlace b k + 4 ≤ b + blkMem := by
  have few : k < 30 := bound
  unfold slotPlace blkMem
  omega

/-- No block is where the mark of a wiped slot points to. -/
theorem Block.not_wipe (block : Block dev b) : b ≠ ylsWipe := by
  intro same
  have aligned := block.aligned
  rw [same] at aligned
  exact absurd aligned (by decide)

theorem Block.small (block : Block dev b) : b < 2 ^ 32 := by
  have last := block.inside
  have bound := dev.word
  unfold blkSz at last
  omega

/-- The place behind a slot is that of the next one, or of the link. -/
theorem slot_after (block : Block dev b) (bound : k < slotCount) :
    u32 (slotPlace b k + 4) = slotPlace b (k + 1) := by
  have few : k < 30 := bound
  have last := block.inside
  have word := dev.word
  unfold u32 slotPlace blkSz at *
  omega

/-- Where the loops over the slots take a place for that of the link. -/
theorem slot_border (block : Block dev b) (bound : k ≤ slotCount) :
    slotPlace b k % blkSz = blkMem ↔ k = slotCount := by
  have few : k ≤ 30 := bound
  obtain ⟨index, rfl⟩ := block.aligned
  unfold slotPlace blkSz blkMem slotCount
  omega

theorem read_slot (block : Block dev b) (bound : k < slotCount) (value : Nat) :
    readWord dev (slotPlace b k) value = (slotAt dev b k, 4) := by
  have place := @slot_inside b k bound
  have last := block.inside
  unfold blkMem blkSz at *
  exact read_word_inside (by omega) value

theorem read_block (block : Block dev b) (value : Nat) : readWord dev b value = (word dev.mem b, 4) := by
  have last := block.inside
  unfold blkSz at last
  exact read_word_inside (by omega) value

end Places

section Searching

variable {dev : Rd} {b k fuel : Nat} {stack : Nat → List UInt8} {name : List UInt8} {slot : Slot}

/-- The slot after the last one would be in the next block. -/
theorem next_slot (block : Block dev b) (bound : k < slotCount) :
    nextSlot dev (slotPlace b k) = if k + 1 < slotCount then slotPlace b (k + 1) else nextOf dev b := by
  rw [nextSlot, slot_after block bound]
  by_cases final : k + 1 = slotCount
  · have link : slotPlace b (k + 1) = b + blkMem := by
      unfold slotPlace blkMem slotCount at *
      omega
    rw [if_pos ((slot_border block bound).mpr final), if_neg (by omega), link,
      read_word_inside block.next_inside]
    rfl
  · rw [if_neg fun same => final ((slot_border block bound).mp same), if_pos (by omega)]

/-- A search of a directory ends at one of its slots or behind the last one. -/
theorem slot_search_ends (slots : Slots dev b) (bound : k < slotCount)
    (ended : slotSearch stack fuel dev (slotPlace b k) name = some slot) :
    slot = .ended ∨ ∃ m < slotCount,
      slot = .unused (slotPlace b m) ∧ slotAt dev b m = 0 ∧
        (∀ j, k ≤ j → j < m → slotAt dev b j ≠ 0) ∨
      slot = .found (slotPlace b m) (slotAt dev b m) ∧ NameBlock dev (slotAt dev b m) := by
  induction fuel generalizing k with
  | zero => exact nomatch ended
  | succ fuel hypothesis =>
      have positive : slotPlace b k ≠ 0 := by
        unfold slotPlace
        omega
      rw [slotSearch, if_neg positive, read_slot slots.block bound] at ended
      dsimp only at ended
      by_cases zero : slotAt dev b k = 0
      · rw [if_pos (Or.inr zero)] at ended
        refine Or.inr ⟨k, bound, Or.inl ⟨(Option.some.inj ended).symm, zero, ?_⟩⟩
        omega
      · rw [if_neg fun missing => missing.elim (absurd rfl) zero] at ended
        obtain ⟨ret, compared, went⟩ := Option.bind_eq_some_iff.mp ended
        split at went
        · rw [next_slot slots.block bound] at went
          split at went
          · next further =>
              refine (hypothesis further went).imp_right fun ⟨m, last, outcome⟩ => ⟨m, last, ?_⟩
              refine outcome.imp_left fun ⟨unused, empty, before⟩ => ⟨unused, empty, fun j from_k => ?_⟩
              by_cases here : j = k
              · exact fun _ => here ▸ zero
              · exact before j (by omega)
          · rw [slots.final] at went
            cases fuel with
            | zero => exact nomatch went
            | succ fuel =>
                rw [slotSearch, if_pos rfl] at went
                exact Or.inl (Option.some.inj went).symm
        next matched =>
          have found := (Option.some.inj went).symm
          refine Or.inr ⟨k, bound, Or.inr ⟨found, ?_⟩⟩
          rcases slots.filled k bound with empty | wiped | named
          · exact absurd empty zero
          · rw [wiped, slotCmp, if_pos rfl] at compared
            rw [← Option.some.inj compared] at matched
            exact absurd one_ne_zero matched
          · exact named

end Searching

end OsWorkbench.Blkfs
