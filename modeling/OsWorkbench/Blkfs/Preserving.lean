import OsWorkbench.Blkfs.Creating

/-!
# The invariant is kept

A new entry changes one slot of one directory. All other slots, and the blocks of the names that are
in use, are as they were; so the invariant survives every operation on entries.
-/

namespace OsWorkbench.Blkfs

open Kernel ByteStore

/-- Where a new entry goes: the slot `k` of the directory block `b` gets the free block `named`. -/
structure Spot (dev : Rd) (b k named : Nat) (others : Set Nat) : Prop where
  block : Block dev b
  later : inodeEnd ≤ b
  bound : k < slotCount
  placed : ∀ c ∈ freeBlocks dev, Block dev c ∧ inodeEnd ≤ c
  fresh : named ∈ freeBlocks dev
  unlike : named ≠ b
  heads : ∀ a ∈ others, ∃ c ∈ freeBlocks dev, a ∈ span c 4

section Entries

variable {dev next : Rd} {b k named n c m skip : Nat} {name : List UInt8} {rest : List Nat}
  {others : Set Nat}

theorem Site.spot {first : Nat} (site : Site dev b k named n first name rest) :
    Spot dev b k named (span first 4) where
  block := site.block
  later := site.later
  bound := site.bound
  placed c member := ⟨site.formatted.placed c member, site.supply c member⟩
  fresh := by
    rw [site.free]
    exact List.mem_cons_self
  unlike := site.unlike
  heads a member := by
    refine ⟨first, ?_, member⟩
    rw [site.free]
    exact List.mem_cons_of_mem _ List.mem_cons_self

/-- The bytes of a block that a new entry does not touch. -/
theorem entered_byte (spot : Spot dev b k named others)
    (entered : Entered dev next (slotPlace b k) named n name rest others) (block : Block dev c)
    (later : inodeEnd ≤ c) (unlike : c ≠ named) (inside : skip < blkSz)
    (low : 4 ≤ skip ∨ c ∉ freeBlocks dev) (other : c ≠ b ∨ skip < 4 + 4 * k ∨ 8 + 4 * k ≤ skip) :
    next.mem (c + skip) = dev.mem (c + skip) := by
  have place := @slot_inside b k spot.bound
  refine entered.frame _ (by omega) ?_ ?_ ?_
  · have apart := Block.apart block.aligned (spot.placed named spot.fresh).1.aligned unlike
    rw [mem_span]
    omega
  · rw [mem_span]
    by_cases same : c = b
    · subst same
      unfold slotPlace
      omega
    · have apart := Block.apart block.aligned spot.block.aligned same
      unfold blkMem blkSz at *
      omega
  · intro member
    obtain ⟨d, free, within⟩ := spot.heads _ member
    rw [mem_span] at within
    by_cases same : d = c
    · subst same
      rcases low with high | taken
      · omega
      · exact taken free
    · have apart := Block.apart (spot.placed d free).1.aligned block.aligned same
      unfold blkSz at *
      omega

theorem entered_word (spot : Spot dev b k named others)
    (entered : Entered dev next (slotPlace b k) named n name rest others) (block : Block dev c)
    (later : inodeEnd ≤ c) (unlike : c ≠ named) (inside : skip + 4 ≤ blkSz)
    (low : 4 ≤ skip ∨ c ∉ freeBlocks dev)
    (other : c ≠ b ∨ skip + 4 ≤ 4 + 4 * k ∨ 8 + 4 * k ≤ skip) :
    word next.mem (c + skip) = word dev.mem (c + skip) := by
  refine word_congr fun a within => ?_
  rw [mem_span] at within
  obtain ⟨i, rfl⟩ := Nat.exists_eq_add_of_le within.1
  rw [Nat.add_assoc]
  exact entered_byte spot entered block later unlike (by omega) (low.imp_left fun _ => by omega)
    (by omega)

/-- Only one slot is filled. -/
theorem slot_entered (spot : Spot dev b k named others)
    (entered : Entered dev next (slotPlace b k) named n name rest others) (block : Block dev c)
    (later : inodeEnd ≤ c) (unlike : c ≠ named) (bound : m < slotCount) :
    slotAt next c m = if c = b ∧ m = k then named else slotAt dev c m := by
  split
  next here =>
    obtain ⟨rfl, rfl⟩ := here
    exact entered.slot
  next other =>
    have few : m < 30 := bound
    have place := @entered_word dev next b k named n c (4 + 4 * m) name rest others spot entered block
      later unlike (by unfold blkSz; omega) (by omega) (by omega)
    rw [← Nat.add_assoc] at place
    exact place

theorem name_entered (spot : Spot dev b k named others)
    (entered : Entered dev next (slotPlace b k) named n name rest others)
    (fewer : ∀ d ∈ rest, d ∈ freeBlocks dev) (kept : ∀ i, Kept dev i → Kept next i)
    (used : NameBlock dev c) (other : c ≠ b) : NameBlock next c := by
  have unlike : c ≠ named := fun same => used.taken (same ▸ spot.fresh)
  have target := @entered_word dev next b k named n c 0 name rest others spot entered used.block
    used.later unlike (by decide) (Or.inr used.taken) (Or.inl other)
  rw [Nat.add_zero] at target
  refine ⟨used.block.congr entered.size, used.later, fun free => used.taken ?_, ?_⟩
  · exact fewer c (entered.free ▸ free)
  · rw [target]
    exact kept _ used.target

/-- The blocks that stay free stay blank. -/
theorem supply_entered {fs : Fs} (sound : Sound fs) (spot : Spot fs.dev b k named others)
    (entered : Entered fs.dev next (slotPlace b k) named n name rest others)
    (fewer : ∀ d ∈ rest, d ∈ freeBlocks fs.dev) (new : named ∉ rest) (other : b ∉ rest)
    (free : c ∈ freeBlocks next) : (Block next c ∧ inodeEnd ≤ c) ∧
      ∀ skip, 4 ≤ skip → skip < blkSz → next.mem (c + skip) = 0 := by
  have remaining : c ∈ rest := entered.free ▸ free
  have listed := fewer c remaining
  obtain ⟨block, later⟩ := sound.placed c listed
  refine ⟨⟨block.congr entered.size, later⟩, fun skip low inside => ?_⟩
  have untouched := entered_byte spot entered block later (fun same => new (same ▸ remaining)) inside
    (Or.inl low) (Or.inl fun same => other (same ▸ remaining))
  exact untouched.trans (sound.blank c listed skip low inside)

/-- The block of a directory stays one. -/
theorem slots_entered (spot : Spot dev b k named others)
    (entered : Entered dev next (slotPlace b k) named n name rest others)
    (fewer : ∀ d ∈ rest, d ∈ freeBlocks dev) (new : named ∉ rest)
    (kept : ∀ i, Kept dev i → Kept next i) (target : Kept next n)
    (earlier : ∀ j < k, slotAt dev b j ≠ 0) (slots : Slots dev c) (unlike : c ≠ named)
    (apart : ∀ m < slotCount, slotAt dev c m ≠ b) : Slots next c := by
  have slot {m : Nat} (bound : m < slotCount) :=
    @slot_entered dev next b k named n c m name rest others spot entered slots.block slots.later unlike
      bound
  have block := (spot.placed named spot.fresh).1
  constructor
  case block => exact slots.block.congr entered.size
  case later => exact slots.later
  case final =>
    have few : k < 30 := spot.bound
    rw [nextOf, entered_word spot entered slots.block slots.later unlike (by decide)
      (Or.inl (by decide)) (by unfold blkMem; omega)]
    exact slots.final
  case filled =>
    intro m bound
    rw [slot bound]
    split
    · refine Or.inr (Or.inr ⟨block.congr entered.size, (spot.placed named spot.fresh).2, ?_, ?_⟩)
      · rw [entered.free]
        exact new
      · rw [entered.target]
        exact target
    · refine (slots.filled m bound).imp_right (Or.imp_right fun used => ?_)
      exact name_entered spot entered fewer kept used (apart m bound)
  case ended =>
    intro i m before bound zero
    have positive : named ≠ 0 := Nat.pos_iff_ne_zero.mp block.later
    rw [slot (by omega)] at zero
    rw [slot bound]
    split at zero
    · exact absurd zero positive
    next other =>
      have all := slots.ended i m before bound zero
      split
      next here =>
        obtain ⟨rfl, rfl⟩ := here
        have less : i < m := by omega
        exact absurd zero (earlier i less)
      next => exact all

end Entries

section Making

variable {dev next : Rd} {b k named n first type head : Nat} {name : List UInt8} {rest : List Nat}
  {nodes : Nat → YlsNode}

theorem Made.kept (site : Site dev b k named n first name rest)
    (made : Made dev next (slotPlace b k) named n first type head name rest) {i : Nat} :
    Kept next i ↔ Kept dev i ∨ i = n := by
  constructor
  · intro kept
    refine or_iff_not_imp_right.mpr fun other => ⟨kept.1, ?_⟩
    rw [← made.records i kept.1 other]
    exact kept.2
  · rintro (kept | rfl)
    · refine ⟨kept.1, ?_⟩
      rw [made.records i kept.1 fun same => kept.2 (same ▸ site.unused)]
      exact kept.2
    · exact ⟨site.number, by rw [made.record]; exact one_ne_zero⟩

theorem Made.old (site : Site dev b k named n first name rest)
    (made : Made dev next (slotPlace b k) named n first type head name rest) {i : Nat}
    (kept : Kept dev i) : nodeAt next i = nodeAt dev i :=
  made.records i kept.1 fun same => kept.2 (same ▸ site.unused)

theorem Made.directory (site : Site dev b k named n first name rest)
    (made : Made dev next (slotPlace b k) named n first type head name rest) {i : Nat} :
    Directory next i ↔ Directory dev i ∨ i = n ∧ type = ylsDir := by
  constructor
  · intro directory
    rcases (made.kept site).mp directory.kept with kept | rfl
    · exact Or.inl ⟨kept, made.old site kept ▸ directory.type⟩
    · refine Or.inr ⟨rfl, ?_⟩
      have same := directory.type
      rwa [made.record] at same
  · rintro (directory | ⟨rfl, type⟩)
    · exact ⟨(made.kept site).mpr (Or.inl directory.kept),
        (made.old site directory.kept).symm ▸ directory.type⟩
    · refine ⟨(made.kept site).mpr (Or.inr rfl), ?_⟩
      rw [made.record]
      exact type

/-- A free block has the form of an empty directory. -/
theorem Sound.blank_slots {fs : Fs} (sound : Sound fs) {c : Nat} (free : c ∈ freeBlocks fs.dev) :
    Slots fs.dev c ∧ ∀ m < slotCount, slotAt fs.dev c m = 0 := by
  have zero (skip : Nat) (low : 4 ≤ skip) (inside : skip + 4 ≤ blkSz) : word fs.dev.mem (c + skip) = 0 := by
    refine word_zero fun a above below => ?_
    obtain ⟨i, rfl⟩ := Nat.exists_eq_add_of_le above
    rw [Nat.add_assoc]
    exact sound.blank c free _ (by omega) (by omega)
  have slot (m : Nat) (bound : m < slotCount) : slotAt fs.dev c m = 0 := by
    have few : m < 30 := bound
    have empty := zero (4 + 4 * m) (by omega) (by unfold blkSz; omega)
    rwa [← Nat.add_assoc] at empty
  refine ⟨⟨(sound.placed c free).1, (sound.placed c free).2, zero blkMem (by decide) (by decide), ?_, ?_⟩,
    slot⟩
  · exact fun m bound => Or.inl (slot m bound)
  · exact fun _ m _ bound _ => slot m bound

theorem Sound.formatted {fs : Fs} (sound : Sound fs) : Formatted fs.dev :=
  ⟨fun c free => (sound.placed c free).1, fun _ free => (sound.blank_slots free).1.final⟩

/-- The only directory block that may be free is the one that is given out second. -/
theorem Site.second (sound : Sound ⟨dev, nodes⟩) (site : Site dev b k named n first name rest) {i : Nat}
    (old : Directory dev i) (free : (nodeAt dev i).info ∈ freeBlocks dev) :
    (nodeAt dev i).info = first := by
  have listed := sound.reserved i old free
  rw [show (freeBlocks dev)[1]? = some first by rw [site.free]; rfl] at listed
  exact (Option.some.inj listed).symm

theorem Site.not_named (sound : Sound ⟨dev, nodes⟩) (site : Site dev b k named n first name rest)
    {i : Nat} (old : Directory dev i) : (nodeAt dev i).info ≠ named := by
  intro same
  exact site.distinct.1 (same.symm.trans (site.second sound old (same ▸ site.spot.fresh)))

/-- The directories afterwards: those there were, and the new inode if it is one. -/
theorem Made.cases (site : Site dev b k named n first name rest)
    (made : Made dev next (slotPlace b k) named n first type head name rest) {i : Nat}
    (new : Directory next i) : Directory dev i ∧ nodeAt next i = nodeAt dev i ∨
      i = n ∧ type = ylsDir ∧ (nodeAt next i).info = first := by
  rcases (made.directory site).mp new with old | ⟨rfl, type⟩
  · exact Or.inl ⟨old, made.old site old.kept⟩
  · exact Or.inr ⟨rfl, type, by rw [made.record]⟩

/-- What the block of a directory was before: the block of the same directory, or blank. -/
theorem Made.block {cur : Nat} (sound : Sound ⟨dev, nodes⟩) (directory : Directory dev cur)
    (place : b = (nodeAt dev cur).info) (site : Site dev b k named n first name rest)
    (made : Made dev next (slotPlace b k) named n first type head name rest) {i : Nat}
    (new : Directory next i) : ∃ c, (nodeAt next i).info = c ∧ Slots dev c ∧ c ≠ named ∧
      (∀ m < slotCount, slotAt dev c m ≠ b) ∧
      (Directory dev i ∧ (nodeAt dev i).info = c ∨ ∀ m < slotCount, slotAt dev c m = 0) := by
  rcases made.cases site new with ⟨old, same⟩ | ⟨-, -, info⟩
  · refine ⟨_, congrArg YlsNode.info same, sound.slots i old, site.not_named sound old, ?_,
      Or.inl ⟨old, rfl⟩⟩
    rw [place]
    exact sound.apart i cur old directory
  · have firstFree : first ∈ freeBlocks dev := by
      rw [site.free]
      exact List.mem_cons_of_mem _ List.mem_cons_self
    have free := sound.blank_slots firstFree
    refine ⟨first, info, free.1, site.distinct.1.symm, fun m bound same => ?_, Or.inr free.2⟩
    rw [free.2 m bound] at same
    exact absurd site.block.later (by omega)

/-- Creating an entry keeps the invariant. -/
theorem Made.sound {cur : Nat} (sound : Sound ⟨dev, nodes⟩) (directory : Directory dev cur)
    (place : b = (nodeAt dev cur).info) (earlier : ∀ j < k, slotAt dev b j ≠ 0)
    (site : Site dev b k named n first name rest)
    (made : Made dev next (slotPlace b k) named n first type head name rest)
    (typed : head = cur ∨ head = word dev.mem first ∧ type ≠ ylsDir) :
    Sound ⟨next, Function.update nodes n ⟨1, first, 0, type⟩⟩ := by
  have spot := site.spot
  obtain ⟨unlike, new, final⟩ := site.distinct
  have fewer : ∀ d ∈ rest, d ∈ freeBlocks dev := by
    intro d member
    rw [site.free]
    exact List.mem_cons_of_mem _ (List.mem_cons_of_mem _ member)
  have firstFree : first ∈ freeBlocks dev := by
    rw [site.free]
    exact List.mem_cons_of_mem _ List.mem_cons_self
  have second {i : Nat} (old : Directory dev i) (free : (nodeAt dev i).info ∈ freeBlocks dev) :
      (nodeAt dev i).info = first := site.second sound old free
  have notNamed {i : Nat} (old : Directory dev i) : (nodeAt dev i).info ≠ named :=
    site.not_named sound old
  have kept (i : Nat) (old : Kept dev i) : Kept next i := (made.kept site).mpr (Or.inl old)
  have target : Kept next n := (made.kept site).mpr (Or.inr rfl)
  have slots {c : Nat} (old : Slots dev c) (other : c ≠ named)
      (apart : ∀ m < slotCount, slotAt dev c m ≠ b) : Slots next c :=
    slots_entered spot made.toEntered fewer new kept target earlier old other apart
  have marked : b ∉ rest := by
    intro remaining
    rw [place] at remaining
    exact final (second directory (fewer _ remaining) ▸ remaining)
  have supply {c : Nat} (member : c ∈ freeBlocks next) :=
    supply_entered sound spot made.toEntered fewer new marked member
  constructor
  case table =>
    intro i bound
    by_cases here : i = n
    · subst here
      exact (Function.update_self ..).trans made.record.symm
    · exact (Function.update_of_ne here ..).trans
        ((sound.table i bound).trans (made.records i bound here).symm)
  case placed => exact fun c member => (supply member).1
  case blank => exact fun c member => (supply member).2
  case root => exact (made.directory site).mpr (Or.inl sound.root)
  case slots =>
    intro i after
    obtain ⟨c, info, old, other, apart, -⟩ := made.block sound directory place site after
    exact info.symm ▸ slots old other apart
  case parents =>
    intro i after
    refine (made.directory site).mpr (Or.inl ?_)
    rcases made.cases site after with ⟨old, same⟩ | ⟨rfl, type, info⟩
    · rw [congrArg YlsNode.info same]
      by_cases here : (nodeAt dev i).info = first
      · rw [here, made.parent]
        rcases typed with rfl | ⟨rfl, -⟩
        · exact directory
        · rw [← here]
          exact sound.parents i old
      · have unmoved := @entered_word dev next b k named n (nodeAt dev i).info 0 name rest (span first 4)
          spot made.toEntered (sound.slots i old).block (sound.slots i old).later (notNamed old)
          (by decide) (Or.inr fun listed => here (second old listed)) (Or.inr (Or.inl (by omega)))
        rw [Nat.add_zero] at unmoved
        rw [unmoved]
        exact sound.parents i old
    · rw [info, made.parent]
      rcases typed with rfl | ⟨-, file⟩
      · exact directory
      · exact absurd type file
  case apart =>
    intro i j one two m bound
    obtain ⟨c, info, old, other, -, origin⟩ := made.block sound directory place site one
    rw [info, slot_entered spot made.toEntered old.block old.later other bound]
    rcases made.cases site two with ⟨past, same⟩ | ⟨-, -, head⟩
    · rw [congrArg YlsNode.info same]
      split
      · exact (notNamed past).symm
      · rcases origin with ⟨before, rfl⟩ | zeros
        · exact sound.apart i j before past m bound
        · rw [zeros m bound]
          exact Nat.ne_of_lt (sound.slots j past).block.later
    · rw [head]
      split
      · exact unlike
      · intro same
        rcases old.filled m bound with zero | wiped | used
        · exact absurd (sound.placed first firstFree).1.later (by omega)
        · exact (sound.placed first firstFree).1.not_wipe (same.symm.trans wiped)
        · exact used.taken (same.symm ▸ firstFree)
  case reserved =>
    intro i after member
    have remaining : (nodeAt next i).info ∈ rest := made.free ▸ member
    rcases made.cases site after with ⟨old, same⟩ | ⟨-, -, head⟩
    · rw [congrArg YlsNode.info same] at remaining
      exact absurd (second old (fewer _ remaining) ▸ remaining) final
    · exact absurd (head ▸ remaining) final

end Making

section Wiping

variable {fs : Fs} {cur k c m skip : Nat}

theorem wiped_byte (block : Block fs.dev (nodeAt fs.dev cur).info) (bound : k < slotCount)
    (other : Block fs.dev c) (inside : skip < blkSz)
    (apart : c ≠ (nodeAt fs.dev cur).info ∨ skip < 4 + 4 * k ∨ 8 + 4 * k ≤ skip) :
    (fs.dev.store (slotPlace (nodeAt fs.dev cur).info k) (wordBytes ylsWipe)).mem (c + skip) =
      fs.dev.mem (c + skip) := by
  have place := @slot_inside (nodeAt fs.dev cur).info k bound
  refine store_outside ?_
  rw [word_bytes_length]
  by_cases same : c = (nodeAt fs.dev cur).info
  · subst same
    unfold slotPlace
    omega
  · have away := Block.apart other.aligned block.aligned same
    unfold blkMem blkSz at *
    omega

theorem wiped_word (block : Block fs.dev (nodeAt fs.dev cur).info) (bound : k < slotCount)
    (other : Block fs.dev c) (inside : skip + 4 ≤ blkSz)
    (apart : c ≠ (nodeAt fs.dev cur).info ∨ skip + 4 ≤ 4 + 4 * k ∨ 8 + 4 * k ≤ skip) :
    word (fs.dev.store (slotPlace (nodeAt fs.dev cur).info k) (wordBytes ylsWipe)).mem (c + skip) =
      word fs.dev.mem (c + skip) := by
  refine word_congr fun a within => ?_
  rw [mem_span] at within
  obtain ⟨i, rfl⟩ := Nat.exists_eq_add_of_le within.1
  rw [Nat.add_assoc]
  exact wiped_byte block bound other (by omega) (by omega)

theorem slot_wiped (block : Block fs.dev (nodeAt fs.dev cur).info) (bound : k < slotCount)
    (other : Block fs.dev c) (inside : m < slotCount) :
    slotAt (fs.dev.store (slotPlace (nodeAt fs.dev cur).info k) (wordBytes ylsWipe)) c m =
      if c = (nodeAt fs.dev cur).info ∧ m = k then ylsWipe else slotAt fs.dev c m := by
  split
  next here =>
    obtain ⟨rfl, rfl⟩ := here
    rw [slotAt, Rd.store_mem, word_overlay_self]
    rfl
  next away =>
    have few : m < 30 := inside
    have place := @wiped_word fs cur k c (4 + 4 * m) block bound other (by unfold blkSz; omega) (by omega)
    rw [← Nat.add_assoc] at place
    exact place

/-- The records are not where the slots are. -/
theorem wiped_records (sound : Sound fs) (directory : Directory fs.dev cur) (bound : k < slotCount)
    (i : Nat) (listed : i < inodeCount) :
    nodeAt (fs.dev.store (slotPlace (nodeAt fs.dev cur).info k) (wordBytes ylsWipe)) i =
      nodeAt fs.dev i := by
  have later := (sound.slots cur directory).later
  have place := @slot_inside (nodeAt fs.dev cur).info k bound
  have inside := record_inside listed
  exact node_at_outside (Or.inl (by omega))

/-- Wiping a slot keeps the invariant. -/
theorem Sound.wipe (sound : Sound fs) (directory : Directory fs.dev cur) (bound : k < slotCount)
    (live : slotAt fs.dev (nodeAt fs.dev cur).info k ≠ 0) :
    Sound (fs.setDev
      (fs.dev.store (slotPlace (nodeAt fs.dev cur).info k) (wordBytes ylsWipe))) := by
  have slots := sound.slots cur directory
  have place := @slot_inside (nodeAt fs.dev cur).info k bound
  have later := slots.later
  have table : bitmapLen ≤ inodeEnd := by decide
  have free := @free_store fs.dev (slotPlace (nodeAt fs.dev cur).info k) (wordBytes ylsWipe) (by omega)
  have records := wiped_records sound directory bound
  have record {i : Nat} (listed : i < inodeCount) := records i listed
  have kept {i : Nat} := @kept_of_records _ _ i records
  have same {i : Nat} := @directory_of_records _ _ i records
  have slot {c m : Nat} (other : Block fs.dev c) (inside : m < slotCount) :=
    slot_wiped slots.block bound other inside
  constructor
  case table => exact fun i listed => (sound.table i listed).trans (record listed).symm
  case placed =>
    intro c member
    rw [Fs.setDev_dev, free] at member
    exact ⟨(sound.placed c member).1.congr rfl, (sound.placed c member).2⟩
  case blank =>
    intro c member skip low inside
    rw [Fs.setDev_dev, free] at member
    have unlike : c ≠ (nodeAt fs.dev cur).info := by
      rintro rfl
      exact live ((sound.blank_slots member).2 k bound)
    exact (wiped_byte slots.block bound (sound.placed c member).1 inside (Or.inl unlike)).trans
      (sound.blank c member skip low inside)
  case root => exact same.mpr sound.root
  case slots =>
    intro i after
    have before := same.mp after
    have old := sound.slots i before
    rw [Fs.setDev_dev, record before.kept.1]
    constructor
    case block => exact old.block.congr rfl
    case later => exact old.later
    case final =>
      have few : k < 30 := bound
      rw [nextOf, wiped_word slots.block bound old.block (by decide) (by unfold blkMem; omega)]
      exact old.final
    case filled =>
      intro m inside
      rw [slot old.block inside]
      split
      · exact Or.inr (Or.inl rfl)
      · refine (old.filled m inside).imp_right (Or.imp_right fun used => ?_)
        have apart := sound.apart i cur before directory m inside
        have target := @wiped_word fs cur k _ 0 slots.block bound used.block (by decide) (Or.inl apart)
        rw [Nat.add_zero] at target
        refine ⟨used.block.congr rfl, used.later, ?_, ?_⟩
        · rw [free]
          exact used.taken
        · rw [target]
          exact kept.mpr used.target
    case ended =>
      intro j m before inside zero
      rw [slot old.block (by omega)] at zero
      rw [slot old.block inside]
      split at zero
      · exact absurd zero (by decide)
      · have all := old.ended j m before inside zero
        split
        next here => exact absurd (here.1 ▸ here.2 ▸ all) live
        next => exact all
  case parents =>
    intro i after
    have before := same.mp after
    have old := sound.slots i before
    have head := @wiped_word fs cur k _ 0 slots.block bound old.block (by decide)
      (Or.inr (Or.inl (by omega)))
    rw [Nat.add_zero] at head
    rw [Fs.setDev_dev, record before.kept.1, head]
    exact same.mpr (sound.parents i before)
  case apart =>
    intro i j one two m inside
    have old := sound.slots i (same.mp one)
    have target := sound.slots j (same.mp two)
    rw [Fs.setDev_dev, record one.kept.1, record two.kept.1, slot old.block inside]
    split
    · exact target.block.not_wipe.symm
    · exact sound.apart i j (same.mp one) (same.mp two) m inside
  case reserved =>
    intro i after member
    have before := same.mp after
    rw [Fs.setDev_dev, record before.kept.1, free] at member
    rw [Fs.setDev_dev, record before.kept.1, free]
    exact sound.reserved i before member

end Wiping

end OsWorkbench.Blkfs
