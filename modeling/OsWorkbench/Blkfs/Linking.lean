import OsWorkbench.Blkfs.Entries

/-!
# `blkfs_ilink`

A link takes one block and no record, and goes into the first slot that is zero or wiped. A directory
whose block is not marked yet must not be linked into: its block would become the next name.
-/

namespace OsWorkbench.Blkfs

open Kernel ByteStore

section Search

variable {dev : Rd} {b j k fuel : Nat}

/-- The first slot that `find_empty` accepts. -/
theorem find_empty_first (block : Block dev b) (before : j ≤ k) (bound : k < slotCount)
    (goes : ∀ m, j ≤ m → m < k → slotAt dev b m ≠ 0 ∧ slotAt dev b m ≠ ylsWipe)
    (empty : slotAt dev b k = 0 ∨ slotAt dev b k = ylsWipe) (enough : k - j < fuel) :
    findEmpty fuel dev (slotPlace b j) = some (slotPlace b k) := by
  induction fuel generalizing j with
  | zero => omega
  | succ fuel hypothesis =>
      rw [findEmpty, read_slot block (by omega)]
      dsimp only
      by_cases here : j = k
      · subst here
        rw [if_pos empty]
      · have passes := goes j le_rfl (by omega)
        have more : slotPlace b (j + 1) % blkSz ≠ blkMem := fun border =>
          absurd ((slot_border block (by omega)).mp border) (by omega)
        rw [if_neg fun either => either.elim passes.1 passes.2, slot_after block (by omega), if_neg more]
        exact hypothesis (by omega) (fun m from_j => goes m (by omega)) (by omega)

/-- `find_empty` halts in a directory whose slots are all in use. -/
theorem find_empty_full (block : Block dev b) (bound : j < slotCount)
    (goes : ∀ m, j ≤ m → m < slotCount → slotAt dev b m ≠ 0 ∧ slotAt dev b m ≠ ylsWipe) :
    findEmpty fuel dev (slotPlace b j) = none := by
  induction fuel generalizing j with
  | zero => rfl
  | succ fuel hypothesis =>
      have passes := goes j le_rfl bound
      rw [findEmpty, read_slot block bound]
      dsimp only
      rw [if_neg fun either => either.elim passes.1 passes.2, slot_after block bound]
      split
      · rfl
      next more =>
        have further : j + 1 ≠ slotCount := fun last => more ((slot_border block bound).mpr last)
        exact hypothesis (by omega) fun m from_j => goes m (by omega)

end Search

section Linking

variable {fs : Fs} {cur k named n fuel : Nat} {name : List UInt8} {rest : List Nat}

/-- What a link takes and where it goes. -/
structure LinkSite (dev : Rd) (b k named n : Nat) (name : List UInt8) (rest : List Nat) : Prop where
  block : Block dev b
  later : inodeEnd ≤ b
  bound : k < slotCount
  formatted : Formatted dev
  supply : ∀ c ∈ freeBlocks dev, inodeEnd ≤ c
  free : freeBlocks dev = named :: rest
  unlike : named ≠ b
  goes : ∀ m < k, slotAt dev b m ≠ 0 ∧ slotAt dev b m ≠ ylsWipe
  empty : slotAt dev b k = 0 ∨ slotAt dev b k = ylsWipe
  number : n < inodeCount
  short : name.length ≤ blkMem

variable {dev : Rd} {b : Nat}

theorem LinkSite.spot (site : LinkSite dev b k named n name rest) : Spot dev b k named ∅ where
  block := site.block
  later := site.later
  bound := site.bound
  placed c member := ⟨site.formatted.placed c member, site.supply c member⟩
  fresh := by
    rw [site.free]
    exact List.mem_cons_self
  unlike := site.unlike
  heads _ member := member.elim

theorem LinkSite.linked (site : LinkSite dev b k named n name rest) (device : fs.dev = dev)
    (info : (fs.nodes cur).info = b) (enough : slotCount ≤ fuel) :
    ∃ next, blkfsIlink fuel fs cur name n = some (fs.setDev next, 0) ∧
      Entered dev next (slotPlace b k) named n name rest ∅ ∧
      ∀ i < inodeCount, nodeAt next i = nodeAt dev i := by
  have place := @slot_inside b k site.bound
  have later := site.later
  have spot := site.spot
  obtain ⟨namedBlock, namedLater⟩ := spot.placed named spot.fresh
  have apart := Block.apart namedBlock.aligned site.block.aligned site.unlike
  have short := site.short
  have few : n < 60 := site.number
  have low : named < 2 ^ 32 := namedBlock.small
  obtain ⟨i, x, gave, bitmap, remaining⟩ := new_block_fresh site.formatted site.free
  have table : bitmapLen ≤ inodeStart := by decide
  have blocks : inodeStart ≤ inodeEnd := by decide
  have slot {m : Nat} (bound : m < slotCount) : slotAt (dev.store i [x]) b m = slotAt dev b m := by
    have inside := @slot_inside b m bound
    exact word_store_outside (Or.inr (by rw [List.length_singleton]; omega))
  have block : Block (dev.store i [x]) b := site.block.congr rfl
  have search : findEmpty fuel (dev.store i [x]) (slotPlace b 0) = some (slotPlace b k) := by
    have last := site.bound
    refine find_empty_first block (Nat.zero_le k) site.bound (fun m _ less => ?_) ?_ (by omega)
    · rw [slot (by omega)]
      exact site.goes m less
    · rw [slot site.bound]
      exact site.empty
  have first : u32 ((fs.nodes cur).info + 4) = slotPlace b 0 := by
    rw [info]
    exact site.block.place_word (by decide)
  have fits : Block ((dev.store i [x]).store (slotPlace b k) (wordBytes named)) named :=
    namedBlock.congr rfl
  refine ⟨(((dev.store i [x]).store (slotPlace b k) (wordBytes named)).store named
    (wordBytes n)).store (named + 4) name, ?_, ?_, ?_⟩
  · rw [blkfsIlink, device, gave]
    dsimp only
    rw [first, search, Option.map_some, set_entry_inside block site.bound, set_name_inside fits short]
  · refine entered_named rfl (by rw [free_store (by omega), remaining])
      (by rw [Rd.store_mem, word_overlay_self, Nat.mod_eq_of_lt low]) (fun a above outside => ?_)
      namedLater (by unfold blkSz blkMem at *; omega) (by omega) short
    rw [mem_span] at outside
    rw [store_outside (by rw [word_bytes_length]; omega),
      store_outside (by rw [List.length_singleton]; omega)]
  · intro m bound
    have inside := record_inside bound
    rw [node_at_outside (by omega), node_at_outside (by omega), node_at_outside (by omega),
      node_at_outside (by rw [List.length_singleton]; omega)]

/-- A link into a directory whose slots are all in use halts. -/
theorem ilink_full (block : Block fs.dev b) (info : (fs.nodes cur).info = b) (later : inodeEnd ≤ b)
    (formatted : Formatted fs.dev) (free : freeBlocks fs.dev = named :: rest)
    (full : ∀ m < slotCount, slotAt fs.dev b m ≠ 0 ∧ slotAt fs.dev b m ≠ ylsWipe) :
    blkfsIlink fuel fs cur name n = none := by
  obtain ⟨i, x, gave, bitmap, remaining⟩ := new_block_fresh formatted free
  have slot {m : Nat} (bound : m < slotCount) :
      slotAt (fs.dev.store i [x]) b m = slotAt fs.dev b m := by
    have inside := @slot_inside b m bound
    have table : bitmapLen ≤ inodeEnd := by decide
    exact word_store_outside (Or.inr (by rw [List.length_singleton]; omega))
  have moved : Block (fs.dev.store i [x]) b := block.congr rfl
  have first : u32 ((fs.nodes cur).info + 4) = slotPlace b 0 := by
    rw [info]
    exact block.place_word (by decide)
  rw [blkfsIlink, gave]
  dsimp only
  rw [first, find_empty_full moved (by decide) fun m _ bound => by rw [slot bound]; exact full m bound,
    Option.map_none]

end Linking

section Preserving

variable {fs : Fs} {next : Rd} {cur k named n : Nat} {name : List UInt8} {rest : List Nat}

/-- No directory lives in a block that may still be given out. -/
def Settled (dev : Rd) : Prop := ∀ i, Directory dev i → (nodeAt dev i).info ∉ freeBlocks dev

/-- A link keeps the invariant. -/
theorem LinkSite.sound (sound : Sound fs) (directory : Directory fs.dev cur)
    (settled : Settled fs.dev) (target : Kept fs.dev n)
    (site : LinkSite fs.dev (nodeAt fs.dev cur).info k named n name rest)
    (entered : Entered fs.dev next (slotPlace (nodeAt fs.dev cur).info k) named n name rest ∅)
    (records : ∀ i < inodeCount, nodeAt next i = nodeAt fs.dev i) :
    Sound (fs.setDev next) ∧ Settled next := by
  have spot := site.spot
  have nodup := free_blocks_nodup fs.dev
  rw [site.free] at nodup
  have new : named ∉ rest := (List.nodup_cons.mp nodup).1
  have fewer : ∀ d ∈ rest, d ∈ freeBlocks fs.dev := by
    intro d member
    rw [site.free]
    exact List.mem_cons_of_mem _ member
  have kept {i : Nat} : Kept next i ↔ Kept fs.dev i := kept_of_records records
  have same {i : Nat} : Directory next i ↔ Directory fs.dev i := directory_of_records records
  have notNamed {i : Nat} (old : Directory fs.dev i) : (nodeAt fs.dev i).info ≠ named :=
    fun equal => settled i old (equal ▸ spot.fresh)
  have info {i : Nat} (after : Directory next i) : (nodeAt next i).info = (nodeAt fs.dev i).info :=
    congrArg YlsNode.info (records i after.kept.1)
  have slots {i : Nat} (old : Directory fs.dev i) : Slots next (nodeAt fs.dev i).info :=
    slots_entered spot entered fewer new (fun _ used => kept.mpr used) (kept.mpr target)
      (fun j less => (site.goes j less).1) (sound.slots i old) (notNamed old)
      (sound.apart i cur old directory)
  have marked : (nodeAt fs.dev cur).info ∉ rest := fun listed => settled cur directory (fewer _ listed)
  have supply {c : Nat} (member : c ∈ freeBlocks next) :=
    supply_entered sound spot entered fewer new marked member
  refine ⟨⟨?_, ?_, ?_, same.mpr sound.root, ?_, ?_, ?_, ?_⟩, ?_⟩
  · exact fun i bound => (sound.table i bound).trans (records i bound).symm
  · exact fun c member => (supply member).1
  · exact fun c member => (supply member).2
  · intro i after
    exact (info after).symm ▸ slots (same.mp after)
  · intro i after
    have old := same.mp after
    have unmoved := @entered_word fs.dev next (nodeAt fs.dev cur).info k named n (nodeAt fs.dev i).info 0
      name rest ∅ spot entered (sound.slots i old).block (sound.slots i old).later (notNamed old)
      (by decide) (Or.inr (settled i old)) (Or.inr (Or.inl (by omega)))
    rw [Nat.add_zero] at unmoved
    rw [Fs.setDev_dev, info after, unmoved]
    exact same.mpr (sound.parents i old)
  · intro i j one two m bound
    have old := sound.slots i (same.mp one)
    rw [Fs.setDev_dev, info one, info two,
      slot_entered spot entered old.block old.later (notNamed (same.mp one)) bound]
    split
    · exact (notNamed (same.mp two)).symm
    · exact sound.apart i j (same.mp one) (same.mp two) m bound
  · intro i after member
    rw [Fs.setDev_dev, info after, entered.free] at member
    exact absurd (fewer _ member) (settled i (same.mp after))
  · intro i after member
    rw [info after, entered.free] at member
    exact settled i (same.mp after) (fewer _ member)

theorem LinkSite.titles (sound : Sound fs) (titles : Titles fs.dev) (directory : Directory fs.dev cur)
    (settled : Settled fs.dev)
    (site : LinkSite fs.dev (nodeAt fs.dev cur).info k named n name rest)
    (entered : Entered fs.dev next (slotPlace (nodeAt fs.dev cur).info k) named n name rest ∅)
    (records : ∀ i < inodeCount, nodeAt next i = nodeAt fs.dev i) (short : name.length < 80)
    (live : 0 ∉ name) : Titles next := by
  intro i after
  have spot := site.spot
  have record := records i after.kept.1
  have old : Directory fs.dev i := (directory_of_records records).mp after
  have title := (entered_name entered (sound.blank named spot.fresh) short live).2
  rw [record]
  exact titles_entered spot entered title (sound.slots i old)
    (fun equal => settled i old (equal ▸ spot.fresh)) (sound.apart i cur old directory)
    (titles i old)

/-- The first slot that a link takes. -/
theorem first_empty {dev : Rd} {b : Nat}
    (some : ∃ m < slotCount, slotAt dev b m = 0 ∨ slotAt dev b m = ylsWipe) : ∃ k < slotCount,
      (slotAt dev b k = 0 ∨ slotAt dev b k = ylsWipe) ∧
        ∀ j < k, slotAt dev b j ≠ 0 ∧ slotAt dev b j ≠ ylsWipe := by
  obtain ⟨m, bound, empty⟩ := some
  have exists_one : ∃ k, slotAt dev b k = 0 ∨ slotAt dev b k = ylsWipe := ⟨m, empty⟩
  refine ⟨Nat.find exists_one, Nat.lt_of_le_of_lt (Nat.find_min' exists_one empty) bound,
    Nat.find_spec exists_one, fun j less => ?_⟩
  exact not_or.mp (Nat.find_min exists_one less)

theorem Sound.link_site (sound : Sound fs) (directory : Directory fs.dev cur)
    (free : freeBlocks fs.dev = named :: rest) (unlike : named ≠ (nodeAt fs.dev cur).info)
    (target : Kept fs.dev n) (short : name.length < 80) (bound : k < slotCount)
    (empty : slotAt fs.dev (nodeAt fs.dev cur).info k = 0 ∨
      slotAt fs.dev (nodeAt fs.dev cur).info k = ylsWipe)
    (goes : ∀ j < k, slotAt fs.dev (nodeAt fs.dev cur).info j ≠ 0 ∧
      slotAt fs.dev (nodeAt fs.dev cur).info j ≠ ylsWipe) :
    LinkSite fs.dev (nodeAt fs.dev cur).info k named n name rest where
  block := (sound.slots cur directory).block
  later := (sound.slots cur directory).later
  bound := bound
  formatted := sound.formatted
  supply c member := (sound.placed c member).2
  free := free
  unlike := unlike
  goes := goes
  empty := empty
  number := target.1
  short := by
    unfold blkMem
    omega

/-- Where a link went that was made. -/
theorem Sound.links {next : Fs} {fuel : Nat} {value : Int} (sound : Sound fs) (enough : slotCount ≤ fuel)
    (directory : Directory fs.dev cur) (target : Kept fs.dev n) (short : name.length < 80)
    (room : freeBlocks fs.dev ≠ []) (settled : Settled fs.dev)
    (linked : blkfsIlink fuel fs cur name n = some (next, value)) : ∃ k named rest device,
      LinkSite fs.dev (nodeAt fs.dev cur).info k named n name rest ∧ next = fs.setDev device ∧
        Entered fs.dev device (slotPlace (nodeAt fs.dev cur).info k) named n name rest ∅ ∧
        ∀ i < inodeCount, nodeAt device i = nodeAt fs.dev i := by
  obtain ⟨named, rest, free⟩ := List.exists_cons_of_ne_nil room
  have info := congrArg YlsNode.info (sound.table cur directory.kept.1)
  have unlike : named ≠ (nodeAt fs.dev cur).info := by
    rintro rfl
    exact settled cur directory (free ▸ List.mem_cons_self)
  have slot : ∃ m < slotCount, slotAt fs.dev (nodeAt fs.dev cur).info m = 0 ∨
      slotAt fs.dev (nodeAt fs.dev cur).info m = ylsWipe := by
    by_contra full
    push Not at full
    have slots := sound.slots cur directory
    have halts := @ilink_full fs cur named n fuel name rest (nodeAt fs.dev cur).info slots.block info
      slots.later sound.formatted free full
    exact nomatch halts.symm.trans linked
  obtain ⟨k, bound, empty, goes⟩ := first_empty slot
  have site := sound.link_site directory free unlike target short bound empty goes
  obtain ⟨device, did, entered, records⟩ := site.linked rfl info enough
  rw [did] at linked
  exact ⟨k, named, rest, device, site, (congrArg Prod.fst (Option.some.inj linked)).symm, entered, records⟩

end Preserving

end OsWorkbench.Blkfs
