import OsWorkbench.Blkfs.InodeTable
import OsWorkbench.Blkfs.Linking
import OsWorkbench.Blkfs.Owners

/-!
# Blocks stay owned

Once the blocks of the root are marked, every operation that finds the blocks it asks for leaves each
block with the owner that it has. What an operation takes was free before, is marked afterwards and
has one new owner; inodes that no path leads to count as well, since a link may lead to them again.
-/

namespace OsWorkbench.Blkfs

open Kernel ByteStore Library LinkedList

/-- What owns a block, be there a path to it or not. -/
inductive Belongs (fs : Fs) : Owner → Nat → Prop
  | name {d k : Nat} (directory : Directory fs.dev d) (bound : k < slotCount)
      (named : NameBlock fs.dev (slotAt fs.dev (nodeAt fs.dev d).info k)) :
      Belongs fs (.slot (slotPlace (nodeAt fs.dev d).info k)) (slotAt fs.dev (nodeAt fs.dev d).info k)
  | content {i b : Nat} (kept : Kept fs.dev i) (part : Follows fs.dev (nodeAt fs.dev i).info b) :
      Belongs fs (.inode i) b

/-- The invariant. The bitmap has a bit for every block of the device. -/
structure Allotted (fs : Fs) : Prop extends Sound fs where
  covered : fs.dev.size ≤ 8 * bitmapLen * blkSz
  chained : ∀ i, Kept fs.dev i → ∃ rest, Chained fs.dev (nodeAt fs.dev i).info rest ∧
    ∀ b ∈ (nodeAt fs.dev i).info :: rest, inodeEnd ≤ b
  single : ∀ owner other b, Belongs fs owner b → Belongs fs other b → other = owner

section Chains

variable {dev next : Rd} {first b : Nat} {rest more : List Nat}

theorem follows_chained (chained : Chained dev first rest) :
    Follows dev first b ↔ b ∈ first :: rest := by
  induction rest generalizing first with
  | nil =>
      obtain ⟨block, -, last⟩ := chained_nil.mp chained
      rw [List.mem_singleton]
      constructor
      · intro follows
        cases follows with
        | self => rfl
        | next _ further =>
            rw [last] at further
            cases further with
            | self wrong => exact absurd rfl wrong
            | next wrong _ => exact absurd rfl wrong
      · rintro rfl
        exact .self (Nat.pos_iff_ne_zero.mp block.later)
  | cons c rest hypothesis =>
      obtain ⟨block, -, -, linked, further⟩ := chained_cons.mp chained
      have positive := Nat.pos_iff_ne_zero.mp block.later
      rw [List.mem_cons, ← hypothesis further]
      constructor
      · intro follows
        cases follows with
        | self => exact Or.inl rfl
        | next _ behind => exact Or.inr (linked ▸ behind)
      · rintro (rfl | behind)
        · exact .self positive
        · exact .next positive (linked.symm ▸ behind)

/-- A block has one chain. -/
theorem chain_unique (one : Chained dev first rest) (two : Chained dev first more) : rest = more := by
  induction rest generalizing first more with
  | nil =>
      cases more with
      | nil => rfl
      | cons c more =>
          have last := (chained_nil.mp one).2.2
          obtain ⟨-, -, -, linked, further⟩ := chained_cons.mp two
          exact absurd (linked.symm.trans last) (Nat.pos_iff_ne_zero.mp further.block.later)
  | cons c rest hypothesis =>
      obtain ⟨-, -, -, linked, onward⟩ := chained_cons.mp one
      cases more with
      | nil =>
          have last := (chained_nil.mp two).2.2
          exact absurd (linked.symm.trans last) (Nat.pos_iff_ne_zero.mp onward.block.later)
      | cons d more =>
          obtain ⟨-, -, -, also, further⟩ := chained_cons.mp two
          obtain rfl : c = d := linked.symm.trans also
          rw [hypothesis onward further]

/-- A chain stays if its links do and no more blocks are free. -/
theorem Chained.moved (chained : Chained dev first rest) (size : next.size = dev.size)
    (links : ∀ b ∈ first :: rest, nextOf next b = nextOf dev b)
    (fewer : ∀ b ∈ freeBlocks next, b ∈ freeBlocks dev) : Chained next first rest where
  path := chained.path.congr links
  distinct := chained.distinct
  placed c member := (chained.placed c member).congr size
  used c member free := chained.used c member (fewer c free)

/-- A chain behind the inode table that is there on both devices. -/
def Unmoved (dev next : Rd) (first : Nat) : Prop :=
  ∃ rest, Chained dev first rest ∧ (∀ b ∈ first :: rest, inodeEnd ≤ b) ∧ Chained next first rest

theorem Unmoved.chained (unmoved : Unmoved dev next first) :
    ∃ rest, Chained next first rest ∧ ∀ b ∈ first :: rest, inodeEnd ≤ b := by
  obtain ⟨rest, -, behind, after⟩ := unmoved
  exact ⟨rest, after, behind⟩

theorem Unmoved.follows (unmoved : Unmoved dev next first) (part : Follows next first b) :
    Follows dev first b := by
  obtain ⟨rest, before, -, after⟩ := unmoved
  exact (follows_chained before).mpr ((follows_chained after).mp part)

theorem Block.bit_set (block : Block dev b) (covered : dev.size ≤ 8 * bitmapLen * blkSz)
    (taken : b ∉ freeBlocks dev) : marked dev (b / blkSz) = true := by
  obtain ⟨n, rfl⟩ := block.aligned
  have inside := block.inside
  have index : blkSz * n / blkSz = n := Nat.mul_div_cancel_left n (by decide)
  have bound : n < 8 * bitmapLen := by
    unfold blkSz bitmapLen at *
    omega
  rw [index]
  by_contra clear
  refine taken (List.mem_map.mpr ⟨n, List.mem_filter.mpr ⟨List.mem_range.mpr bound, ?_⟩, ?_⟩)
  · rw [Bool.eq_false_of_not_eq_true clear]
    rfl
  · exact Nat.mul_comm n blkSz

end Chains

section Owned

variable {fs : Fs} {owner : Owner} {b d i place : Nat}

/-- A directory has one block. -/
theorem Slots.follows {dev : Rd} {c : Nat} (slots : Slots dev b) (follows : Follows dev b c) : c = b := by
  cases follows with
  | self => rfl
  | next _ further =>
      rw [slots.final] at further
      cases further with
      | self wrong => exact absurd rfl wrong
      | next wrong _ => exact absurd rfl wrong

/-- A slot that is a block holds a name. -/
theorem Slots.named {dev other : Rd} {k : Nat} (slots : Slots dev b) (bound : k < slotCount)
    (block : Block other (slotAt dev b k)) : NameBlock dev (slotAt dev b k) := by
  have positive := Nat.pos_iff_ne_zero.mp block.later
  exact ((slots.filled k bound).resolve_left positive).resolve_left block.not_wipe

/-- What a search of a directory reads are its slots. -/
theorem Sound.slot_in (sound : Sound fs) (directory : Directory fs.dev d)
    (slot : SlotIn fs.dev (nodeAt fs.dev d).info place) (live : word fs.dev.mem place ≠ ylsWipe) :
    ∃ k < slotCount, place = slotPlace (nodeAt fs.dev d).info k ∧
      NameBlock fs.dev (slotAt fs.dev (nodeAt fs.dev d).info k) := by
  obtain ⟨c, k, follows, bound, rfl, used⟩ := slot
  have slots := sound.slots d directory
  obtain rfl := slots.follows follows
  refine ⟨k, bound, rfl, ?_⟩
  exact ((slots.filled k bound).resolve_left (used k (Nat.le_refl k))).resolve_left live

theorem Sound.reached_kept (sound : Sound fs) (reached : Reached fs i) : Kept fs.dev i := by
  induction reached with
  | root => exact sound.root.kept
  | @entry d place _ isDirectory slot live hypothesis =>
      have node := sound.table d hypothesis.1
      have directory : Directory fs.dev d := ⟨hypothesis, node ▸ isDirectory⟩
      rw [node] at slot
      obtain ⟨k, -, rfl, named⟩ := sound.slot_in directory slot live
      exact named.target

theorem Sound.owns_belongs (sound : Sound fs) (owns : Owns fs owner b) : Belongs fs owner b := by
  cases owns with
  | @name d place reached isDirectory slot live =>
      have kept := sound.reached_kept reached
      have node := sound.table d kept.1
      have directory : Directory fs.dev d := ⟨kept, node ▸ isDirectory⟩
      rw [node] at slot
      obtain ⟨k, bound, rfl, named⟩ := sound.slot_in directory slot live
      exact .name directory bound named
  | @content i b reached part =>
      have kept := sound.reached_kept reached
      exact .content kept (sound.table i kept.1 ▸ part)

/-- What belongs to an owner is a block in use. -/
theorem Allotted.taken (allotted : Allotted fs) (belongs : Belongs fs owner b) :
    Block fs.dev b ∧ b ∉ freeBlocks fs.dev := by
  cases belongs with
  | name directory bound named => exact ⟨named.block, named.taken⟩
  | content kept part =>
      obtain ⟨rest, chained, -⟩ := allotted.chained _ kept
      have member := (follows_chained chained).mp part
      exact ⟨chained.placed b member, chained.used b member⟩

/-- In the invariant every block that can be reached is marked and has one owner. -/
theorem Allotted.owned (allotted : Allotted fs) : BlocksOwned fs := by
  intro owner b owns
  have belongs := allotted.owns_belongs owns
  obtain ⟨block, taken⟩ := allotted.taken belongs
  refine ⟨block.bit_set allotted.covered taken, fun other also => ?_⟩
  exact allotted.single owner other b belongs (allotted.owns_belongs also)

/-- No directory lives in a free block. -/
theorem Allotted.settled (allotted : Allotted fs) : Settled fs.dev := by
  intro i directory
  obtain ⟨rest, chained, -⟩ := allotted.chained i directory.kept
  exact chained.taken

/-- Each block keeps its owner if what is owned afterwards was before, or was free and has one taker. -/
theorem Allotted.step_single {next : Fs} (allotted : Allotted fs) (taker : Nat → Owner)
    (steps : ∀ owner b, Belongs next owner b →
      Belongs fs owner b ∨ b ∈ freeBlocks fs.dev ∧ taker b = owner) :
    ∀ owner other b, Belongs next owner b → Belongs next other b → other = owner := by
  intro owner other b one two
  rcases steps owner b one with old | ⟨free, new⟩
  · rcases steps other b two with also | ⟨free, -⟩
    · exact allotted.single owner other b old also
    · exact absurd free (allotted.taken old).2
  · rcases steps other b two with also | ⟨-, same⟩
    · exact absurd free (allotted.taken also).2
    · exact same.symm.trans new

end Owned

section Entries

variable {fs : Fs} {dev next : Rd} {b cur k m n named first head type : Nat} {name : List UInt8}
  {rest chain : List Nat} {others : Set Nat} {nodes : Nat → YlsNode}

/-- A new entry leaves the links of the chains alone. -/
theorem chained_entered (spot : Spot dev b k named others)
    (entered : Entered dev next (slotPlace b k) named n name rest others)
    (fewer : ∀ c ∈ freeBlocks next, c ∈ freeBlocks dev) (chained : Chained dev first chain)
    (behind : ∀ c ∈ first :: chain, inodeEnd ≤ c) : Chained next first chain := by
  refine chained.moved entered.size (fun c member => ?_) fewer
  have few : k < 30 := spot.bound
  have unlike : c ≠ named := fun same => chained.used c member (same ▸ spot.fresh)
  exact entered_word spot entered (chained.placed c member) (behind c member) unlike (by decide)
    (Or.inl (by decide)) (Or.inr (Or.inr (by unfold blkMem; omega)))

/-- The names that a directory holds after a new entry. -/
theorem names_entered (spot : Spot dev b k named others)
    (entered : Entered dev next (slotPlace b k) named n name rest others) {c : Nat}
    (slots : Slots dev c) (unlike : c ≠ named) (bound : m < slotCount)
    (used : NameBlock next (slotAt next c m)) :
    NameBlock dev (slotAt dev c m) ∧ slotAt next c m = slotAt dev c m ∨
      slotPlace c m = slotPlace b k ∧ slotAt next c m = named := by
  have slot := slot_entered spot entered slots.block slots.later unlike bound
  split at slot
  next here => exact Or.inr ⟨by rw [here.1, here.2], slot⟩
  next =>
    rw [slot] at used
    exact Or.inl ⟨slots.named bound used.block, slot⟩

/-- What a creation takes goes to the new name and the new inode. -/
theorem Made.allotted (allotted : Allotted ⟨dev, nodes⟩) (directory : Directory dev cur)
    (place : b = (nodeAt dev cur).info) (earlier : ∀ j < k, slotAt dev b j ≠ 0)
    (site : Site dev b k named n first name rest)
    (made : Made dev next (slotPlace b k) named n first type head name rest)
    (typed : head = cur ∨ head = word dev.mem first ∧ type ≠ ylsDir) :
    Allotted ⟨next, Function.update nodes n ⟨1, first, 0, type⟩⟩ := by
  have sound := allotted.toSound
  have spot := site.spot
  obtain ⟨unlike, -, final⟩ := site.distinct
  have fewer : ∀ c ∈ freeBlocks next, c ∈ freeBlocks dev := by
    intro c member
    rw [made.free] at member
    rw [site.free]
    exact List.mem_cons_of_mem _ (List.mem_cons_of_mem _ member)
  have firstFree : first ∈ freeBlocks dev := by
    rw [site.free]
    exact List.mem_cons_of_mem _ List.mem_cons_self
  have blank := sound.blank_slots firstFree
  have info : (nodeAt next n).info = first := by rw [made.record]
  have own : Chained next first [] := by
    have few : k < 30 := site.bound
    refine chained_nil.mpr ⟨site.first_block.1.congr made.size, ?_, ?_⟩
    · rw [made.free]
      exact final
    · rw [nextOf, entered_word spot made.toEntered site.first_block.1 site.first_block.2 unlike.symm
        (by decide) (Or.inl (by decide)) (Or.inr (Or.inr (by unfold blkMem; omega)))]
      exact blank.1.final
  have old {i : Nat} (kept : Kept dev i) : Unmoved dev next (nodeAt dev i).info := by
    obtain ⟨chain, chained, behind⟩ := allotted.chained i kept
    exact ⟨chain, chained, behind, chained_entered spot made.toEntered fewer chained behind⟩
  refine ⟨made.sound sound directory place earlier site typed, ?_, ?_, ?_⟩
  · exact made.size.symm ▸ allotted.covered
  · intro i kept
    rcases (made.kept site).mp kept with before | rfl
    · exact (made.old site before).symm ▸ (old before).chained
    · refine ⟨[], info.symm ▸ ⟨own, fun c member => ?_⟩⟩
      rw [List.mem_singleton.mp member]
      exact site.first_block.2
  · refine allotted.step_single (fun c => if c = first then .inode n else .slot (slotPlace b k)) ?_
    intro owner c belongs
    cases belongs with
    | @name d m after bound used =>
        dsimp only at after used ⊢
        obtain ⟨c, block, slots, notNamed, -, origin⟩ :=
          made.block sound directory place site after
        rw [block] at used ⊢
        rcases names_entered spot made.toEntered slots notNamed bound used with
          ⟨before, same⟩ | ⟨there, here⟩
        · rcases origin with ⟨listed, rfl⟩ | zero
          · rw [same]
            exact Or.inl (.name listed bound before)
          · exact absurd (zero m bound) (Nat.pos_iff_ne_zero.mp before.block.later)
        · rw [here, there, if_neg unlike]
          exact Or.inr ⟨spot.fresh, rfl⟩
    | @content i c kept part =>
        dsimp only at kept part ⊢
        rcases (made.kept site).mp kept with before | rfl
        · rw [made.old site before] at part
          exact Or.inl (.content before ((old before).follows part))
        · rw [info] at part
          rw [List.mem_singleton.mp ((follows_chained own).mp part), if_pos rfl]
          exact Or.inr ⟨firstFree, rfl⟩

/-- The block that a link takes goes to the new name. -/
theorem LinkSite.allotted (allotted : Allotted fs) (directory : Directory fs.dev cur)
    (target : Kept fs.dev n) (site : LinkSite fs.dev (nodeAt fs.dev cur).info k named n name rest)
    (entered : Entered fs.dev next (slotPlace (nodeAt fs.dev cur).info k) named n name rest ∅)
    (records : ∀ i < inodeCount, nodeAt next i = nodeAt fs.dev i) : Allotted (fs.setDev next) := by
  have sound := allotted.toSound
  have spot := site.spot
  have fewer : ∀ c ∈ freeBlocks next, c ∈ freeBlocks fs.dev := by
    intro c member
    rw [entered.free] at member
    rw [site.free]
    exact List.mem_cons_of_mem _ member
  have kept {i : Nat} (after : Kept next i) : Kept fs.dev i := (kept_of_records records).mp after
  have old {i : Nat} (before : Kept fs.dev i) : Unmoved fs.dev next (nodeAt fs.dev i).info := by
    obtain ⟨chain, chained, behind⟩ := allotted.chained i before
    exact ⟨chain, chained, behind, chained_entered spot entered fewer chained behind⟩
  refine ⟨(site.sound sound directory allotted.settled target entered records).1, ?_, ?_, ?_⟩
  · exact entered.size.symm ▸ allotted.covered
  · intro i after
    exact (records i after.1).symm ▸ (old (kept after)).chained
  · refine allotted.step_single (fun _ => .slot (slotPlace (nodeAt fs.dev cur).info k)) ?_
    intro owner c belongs
    cases belongs with
    | @name d m after bound used =>
        have listed := (directory_of_records records).mp after
        have notNamed : (nodeAt fs.dev d).info ≠ named :=
          fun same => allotted.settled d listed (same ▸ spot.fresh)
        rw [Fs.setDev_dev, records d after.kept.1] at used ⊢
        rcases names_entered spot entered (sound.slots d listed) notNamed bound used with
          ⟨before, same⟩ | ⟨there, here⟩
        · rw [same]
          exact Or.inl (.name listed bound before)
        · rw [here, there]
          exact Or.inr ⟨spot.fresh, rfl⟩
    | @content i c after part =>
        rw [Fs.setDev_dev, records i after.1] at part
        exact Or.inl (.content (kept after) ((old (kept after)).follows part))

/-- Wiping a slot gives no block to anyone. -/
theorem Allotted.wipe (allotted : Allotted fs) (directory : Directory fs.dev cur) (bound : k < slotCount)
    (live : slotAt fs.dev (nodeAt fs.dev cur).info k ≠ 0) :
    Allotted (fs.setDev
      (fs.dev.store (slotPlace (nodeAt fs.dev cur).info k) (wordBytes ylsWipe))) := by
  have sound := allotted.toSound
  have slots := sound.slots cur directory
  have records := wiped_records sound directory bound
  have free := @free_store fs.dev (slotPlace (nodeAt fs.dev cur).info k) (wordBytes ylsWipe) (by
    have place := @slot_inside (nodeAt fs.dev cur).info k bound
    have later := slots.later
    have table : bitmapLen ≤ inodeEnd := by decide
    omega)
  have kept {i : Nat} := @kept_of_records _ _ i records
  have old {i : Nat} (before : Kept fs.dev i) : Unmoved fs.dev
      (fs.dev.store (slotPlace (nodeAt fs.dev cur).info k) (wordBytes ylsWipe)) (nodeAt fs.dev i).info := by
    obtain ⟨chain, chained, behind⟩ := allotted.chained i before
    refine ⟨chain, chained, behind, chained.moved rfl (fun c member => ?_) fun c member => free ▸ member⟩
    have few : k < 30 := bound
    exact wiped_word slots.block bound (chained.placed c member) (by decide)
      (Or.inr (Or.inr (by unfold blkMem; omega)))
  refine ⟨sound.wipe directory bound live, allotted.covered, ?_, ?_⟩
  · intro i after
    exact (records i after.1).symm ▸ (old (kept.mp after)).chained
  · refine allotted.step_single (fun _ => .inode 0) ?_
    intro owner c belongs
    refine Or.inl ?_
    cases belongs with
    | @name d m after inside used =>
        have listed := (directory_of_records records).mp after
        have table := sound.slots d listed
        rw [Fs.setDev_dev, records d after.kept.1] at used ⊢
        have slot := slot_wiped slots.block bound table.block inside
        split at slot
        · rw [slot] at used
          exact absurd rfl used.block.not_wipe
        · rw [slot] at used ⊢
          exact .name listed inside (table.named inside used.block)
    | @content i c after part =>
        rw [Fs.setDev_dev, records i after.1] at part
        exact .content (kept.mp after) ((old (kept.mp after)).follows part)

end Entries

end OsWorkbench.Blkfs
