import OsWorkbench.Blkfs.Names

/-!
# The entries of a directory

A directory stands for the list of its names and the inodes they lead to, in the order of the slots.
A new entry is added at one place of this list, and a wiped one is taken out.
-/

namespace OsWorkbench.Blkfs

open Kernel ByteStore

section Lists

/-- What a search sees of a list of slots, the wiped ones left out. -/
def liveOf (slots : List Nat) : List Nat :=
  (slots.takeWhile fun c => c != 0).filter fun c => c != ylsWipe

theorem live_append {before : List Nat} (used : ∀ c ∈ before, c ≠ 0) (rest : List Nat) :
    liveOf (before ++ rest) = liveOf before ++ liveOf rest := by
  have whole : ∀ c ∈ before, (c != 0) = true := fun c member => by simpa using used c member
  rw [liveOf, List.takeWhile_append_of_pos whole, List.filter_append, liveOf,
    List.takeWhile_eq_self_iff.mpr whole]
  rfl

theorem live_zero (rest : List Nat) : liveOf (0 :: rest) = [] := rfl

theorem live_wipe (rest : List Nat) : liveOf (ylsWipe :: rest) = liveOf rest := by
  rw [liveOf, List.takeWhile_cons_of_pos (by decide), List.filter_cons_of_neg (by decide)]
  rfl

theorem live_cons {c : Nat} (used : c ≠ 0) (kept : c ≠ ylsWipe) (rest : List Nat) :
    liveOf (c :: rest) = c :: liveOf rest := by
  rw [liveOf, List.takeWhile_cons_of_pos (by simpa using used),
    List.filter_cons_of_pos (by simpa using kept)]
  rfl

theorem live_zeros {rest : List Nat} (zeros : ∀ c ∈ rest, c = 0) : liveOf rest = [] := by
  cases rest with
  | nil => rfl
  | cons c rest =>
      obtain rfl := zeros c List.mem_cons_self
      exact live_zero rest

theorem mem_live {c : Nat} {slots : List Nat} (live : c ∈ liveOf slots) :
    c ∈ slots ∧ c ≠ 0 ∧ c ≠ ylsWipe := by
  obtain ⟨taken, kept⟩ := List.mem_filter.mp live
  refine ⟨(List.takeWhile_prefix _).subset taken, ?_, by simpa using kept⟩
  simpa using List.mem_takeWhile_imp taken

end Lists

def slotList (dev : Rd) (b : Nat) : List Nat := (List.range slotCount).map (slotAt dev b)

def liveSlots (dev : Rd) (b : Nat) : List Nat := liveOf (slotList dev b)

/-- The names in the slots of a directory block, and the numbers of their inodes. -/
def blockEntries (dev : Rd) (b : Nat) : List (List UInt8 × Nat) :=
  (liveSlots dev b).map fun c => (nameOf dev c, word dev.mem c)

def entriesOf (fs : Fs) (d : Nat) : List (List UInt8 × Nat) := blockEntries fs.dev (fs.nodes d).info

section Slots

variable {dev next : Rd} {b c k m value : Nat}

/-- The slots before one, and those after it. -/
theorem slot_list_split (dev : Rd) (b : Nat) (bound : k < slotCount) : slotList dev b =
    (List.range k).map (slotAt dev b) ++
      slotAt dev b k :: (List.range (slotCount - (k + 1))).map fun j => slotAt dev b (k + 1 + j) := by
  have parts : slotCount = k + 1 + (slotCount - (k + 1)) := by omega
  rw [slotList]
  conv_lhs => rw [parts, List.range_add, List.range_succ]
  rw [List.map_append, List.map_append, List.map_map, List.append_assoc]
  rfl

theorem live_slot (live : c ∈ liveSlots dev b) :
    ∃ k < slotCount, slotAt dev b k = c ∧ c ≠ 0 ∧ c ≠ ylsWipe := by
  obtain ⟨member, kept⟩ := mem_live live
  obtain ⟨k, ranged, rfl⟩ := List.mem_map.mp member
  exact ⟨k, List.mem_range.mp ranged, rfl, kept⟩

/-- The entries that are live are in the slots that a search reads. -/
theorem slot_live (slots : Slots dev b) (bound : k < slotCount) (used : slotAt dev b k ≠ 0)
    (kept : slotAt dev b k ≠ ylsWipe) : slotAt dev b k ∈ liveSlots dev b := by
  have before : ∀ x ∈ (List.range k).map (slotAt dev b), x ≠ 0 := by
    intro x member zero
    obtain ⟨j, ranged, rfl⟩ := List.mem_map.mp member
    exact used (slots.ended j k (List.mem_range.mp ranged).le bound zero)
  rw [liveSlots, slot_list_split dev b bound, live_append before, live_cons used kept]
  exact List.mem_append_right _ List.mem_cons_self

/-- One slot is changed. -/
structure SlotSet (dev next : Rd) (b k value : Nat) : Prop where
  here : slotAt next b k = value
  others : ∀ m < slotCount, m ≠ k → slotAt next b m = slotAt dev b m

theorem SlotSet.lists (set : SlotSet dev next b k value) (bound : k < slotCount)
    (earlier : ∀ j < k, slotAt dev b j ≠ 0) :
    ∃ after, (∀ c ∈ after, ∃ m, k < m ∧ m < slotCount ∧ slotAt dev b m = c) ∧
      liveSlots dev b = liveOf ((List.range k).map (slotAt dev b)) ++ liveOf (slotAt dev b k :: after) ∧
      liveSlots next b = liveOf ((List.range k).map (slotAt dev b)) ++ liveOf (value :: after) := by
  have used : ∀ c ∈ (List.range k).map (slotAt dev b), c ≠ 0 := by
    intro c member
    obtain ⟨j, ranged, rfl⟩ := List.mem_map.mp member
    exact earlier j (List.mem_range.mp ranged)
  have front : (List.range k).map (slotAt next b) = (List.range k).map (slotAt dev b) := by
    refine List.map_congr_left fun j member => ?_
    have less := List.mem_range.mp member
    exact set.others j (by omega) (by omega)
  have back : ((List.range (slotCount - (k + 1))).map fun j => slotAt next b (k + 1 + j)) =
      (List.range (slotCount - (k + 1))).map fun j => slotAt dev b (k + 1 + j) := by
    refine List.map_congr_left fun j member => ?_
    have less := List.mem_range.mp member
    exact set.others _ (by omega) (by omega)
  refine ⟨(List.range (slotCount - (k + 1))).map fun j => slotAt dev b (k + 1 + j), ?_, ?_, ?_⟩
  · intro c member
    obtain ⟨j, ranged, rfl⟩ := List.mem_map.mp member
    have less := List.mem_range.mp ranged
    exact ⟨k + 1 + j, by omega, by omega, rfl⟩
  · rw [liveSlots, slot_list_split dev b bound, live_append used]
  · rw [liveSlots, slot_list_split next b bound, front, back, set.here, live_append used]

/-- A slot that is filled adds one entry, at the end if the slot was never used. -/
theorem SlotSet.filled (set : SlotSet dev next b k value) (bound : k < slotCount)
    (earlier : ∀ j < k, slotAt dev b j ≠ 0)
    (ended : ∀ m, k ≤ m → m < slotCount → slotAt dev b k = 0 → slotAt dev b m = 0)
    (empty : slotAt dev b k = 0 ∨ slotAt dev b k = ylsWipe) (used : value ≠ 0) (kept : value ≠ ylsWipe) :
    ∃ before after, liveSlots dev b = before ++ after ∧ liveSlots next b = before ++ value :: after ∧
      (slotAt dev b k = 0 → after = []) := by
  obtain ⟨after, places, old, new⟩ := set.lists bound earlier
  have zeros (zero : slotAt dev b k = 0) : liveOf after = [] := by
    refine live_zeros fun c member => ?_
    obtain ⟨m, later, inside, rfl⟩ := places c member
    exact ended m later.le inside zero
  refine ⟨liveOf ((List.range k).map (slotAt dev b)), liveOf after, ?_, ?_, zeros⟩
  · rw [old]
    rcases empty with zero | wiped
    · rw [zero, live_zero, zeros zero]
    · rw [wiped, live_wipe]
  · rw [new, live_cons used kept]

/-- A slot that is wiped takes out one entry. -/
theorem SlotSet.wiped (set : SlotSet dev next b k ylsWipe) (bound : k < slotCount)
    (earlier : ∀ j < k, slotAt dev b j ≠ 0) (used : slotAt dev b k ≠ 0)
    (kept : slotAt dev b k ≠ ylsWipe) :
    ∃ after, liveSlots dev b = liveOf ((List.range k).map (slotAt dev b)) ++ slotAt dev b k :: after ∧
      liveSlots next b = liveOf ((List.range k).map (slotAt dev b)) ++ after := by
  obtain ⟨after, -, old, new⟩ := set.lists bound earlier
  exact ⟨liveOf after, by rw [old, live_cons used kept], by rw [new, live_wipe]⟩

end Slots

section Entering

variable {dev next : Rd} {b k named n c : Nat} {name : List UInt8} {rest : List Nat} {others : Set Nat}

/-- The name that was written is what is read. -/
theorem entered_name (entered : Entered dev next (slotPlace b k) named n name rest others)
    (blank : ∀ skip, 4 ≤ skip → skip < blkSz → dev.mem (named + skip) = 0) (short : name.length < 80)
    (live : 0 ∉ name) : nameOf next named = name ∧ Titled next named := by
  have zero (skip : Nat) (after : 4 + name.length ≤ skip) (inside : skip < blkSz) :
      next.mem (named + skip) = 0 := by
    rw [entered.tail skip after inside]
    exact blank skip (by omega) inside
  have read : nameOf next named = name := by
    have parts : slice next.mem (named + 4) 80 =
        name ++ slice next.mem (named + 4 + name.length) (80 - name.length) := by
      rw [show (80 : Nat) = name.length + (80 - name.length) by omega, slice_append, entered.text,
        Nat.add_sub_cancel_left]
    obtain ⟨further, same⟩ := Nat.exists_eq_add_one.mpr (show 0 < 80 - name.length by omega)
    rw [nameOf, parts, string_of_append live]
    rw [same, show further + 1 = 1 + further by omega, slice_append]
    have first := zero (4 + name.length) le_rfl (by unfold blkSz; omega)
    rw [← Nat.add_assoc] at first
    exact first
  refine ⟨read, by rw [read]; exact short, word_zero fun a above below => ?_⟩
  obtain ⟨i, rfl⟩ := Nat.exists_eq_add_of_le above
  unfold blkMem at *
  rw [Nat.add_assoc]
  exact zero _ (by omega) (by unfold blkSz; omega)

/-- The names in use are what they were. -/
theorem entered_names (spot : Spot dev b k named others)
    (entered : Entered dev next (slotPlace b k) named n name rest others) (used : NameBlock dev c)
    (other : c ≠ b) :
    nameOf next c = nameOf dev c ∧ word next.mem c = word dev.mem c ∧ nextOf next c = nextOf dev c := by
  have unlike : c ≠ named := fun same => used.taken (same ▸ spot.fresh)
  have byte {skip : Nat} (inside : skip < blkSz) : next.mem (c + skip) = dev.mem (c + skip) :=
    entered_byte spot entered used.block used.later unlike inside (Or.inr used.taken) (Or.inl other)
  refine ⟨?_, ?_, ?_⟩
  · refine congrArg stringOf (slice_congr fun a inside => ?_)
    rw [mem_span] at inside
    obtain ⟨i, rfl⟩ := Nat.exists_eq_add_of_le inside.1
    rw [Nat.add_assoc]
    exact byte (by unfold blkSz; omega)
  · refine word_congr fun a inside => ?_
    rw [mem_span] at inside
    obtain ⟨i, rfl⟩ := Nat.exists_eq_add_of_le inside.1
    exact byte (by unfold blkSz; omega)
  · refine word_congr fun a inside => ?_
    rw [mem_span] at inside
    obtain ⟨i, rfl⟩ := Nat.exists_eq_add_of_le inside.1
    unfold blkMem at *
    rw [Nat.add_assoc]
    exact byte (by unfold blkSz; omega)

theorem entered_slots (spot : Spot dev b k named others)
    (entered : Entered dev next (slotPlace b k) named n name rest others) :
    SlotSet dev next b k named := by
  constructor
  case here => exact entered.slot
  case others =>
    intro m bound other
    rw [slot_entered spot entered spot.block spot.later spot.unlike.symm bound,
      if_neg fun both => other both.2]

/-- One entry is added to the directory. -/
theorem entered_entries (spot : Spot dev b k named others)
    (entered : Entered dev next (slotPlace b k) named n name rest others) (slots : Slots dev b)
    (apart : ∀ m < slotCount, slotAt dev b m ≠ b) (earlier : ∀ j < k, slotAt dev b j ≠ 0)
    (empty : slotAt dev b k = 0 ∨ slotAt dev b k = ylsWipe)
    (blank : ∀ skip, 4 ≤ skip → skip < blkSz → dev.mem (named + skip) = 0) (short : name.length < 80)
    (live : 0 ∉ name) : ∃ before after, blockEntries dev b = before ++ after ∧
      blockEntries next b = before ++ (name, n) :: after ∧ (slotAt dev b k = 0 → after = []) := by
  have block := (spot.placed named spot.fresh).1
  obtain ⟨before, after, old, new, last⟩ := (entered_slots spot entered).filled spot.bound earlier
    (fun m => slots.ended k m) empty (Nat.pos_iff_ne_zero.mp block.later) block.not_wipe
  have same {part : List Nat} (inside : ∀ e ∈ part, e ∈ liveSlots dev b) :
      part.map (fun e => (nameOf next e, word next.mem e)) =
        part.map fun e => (nameOf dev e, word dev.mem e) := by
    refine List.map_congr_left fun e member => ?_
    obtain ⟨m, bound, rfl, used, kept⟩ := live_slot (inside e member)
    have named := ((slots.filled m bound).resolve_left used).resolve_left kept
    obtain ⟨title, target, -⟩ := entered_names spot entered named (apart m bound)
    rw [title, target]
  refine ⟨before.map fun e => (nameOf dev e, word dev.mem e),
    after.map fun e => (nameOf dev e, word dev.mem e), ?_, ?_, fun zero => ?_⟩
  · rw [blockEntries, old, List.map_append]
  · rw [blockEntries, new, List.map_append, List.map_cons, (entered_name entered blank short live).1,
      entered.target, same fun e member => old ▸ List.mem_append_left _ member,
      same fun e member => old ▸ List.mem_append_right _ member]
  · rw [last zero, List.map_nil]

/-- The names of a directory block stay complete, and the new one is. -/
theorem titles_entered (spot : Spot dev b k named others)
    (entered : Entered dev next (slotPlace b k) named n name rest others) (title : Titled next named)
    (slots : Slots dev c) (unlike : c ≠ named) (apart : ∀ m < slotCount, slotAt dev c m ≠ b)
    (titled : ∀ m < slotCount, NameBlock dev (slotAt dev c m) → Titled dev (slotAt dev c m)) :
    ∀ m < slotCount, NameBlock next (slotAt next c m) → Titled next (slotAt next c m) := by
  intro m bound
  rw [slot_entered spot entered slots.block slots.later unlike bound]
  split
  · exact fun _ => title
  · intro used
    have before : NameBlock dev (slotAt dev c m) :=
      ((slots.filled m bound).resolve_left (Nat.pos_iff_ne_zero.mp used.block.later)).resolve_left
        used.block.not_wipe
    obtain ⟨same, -, link⟩ := entered_names spot entered before (apart m bound)
    have old := titled m bound before
    exact ⟨by rw [same]; exact old.short, by rw [link]; exact old.final⟩

end Entering

section Titling

variable {dev next : Rd} {nodes : Nat → YlsNode} {cur b k named n first type head : Nat}
  {name : List UInt8} {rest : List Nat}

theorem Made.titles (sound : Sound ⟨dev, nodes⟩) (titles : Titles dev) (directory : Directory dev cur)
    (place : b = (nodeAt dev cur).info) (site : Site dev b k named n first name rest)
    (made : Made dev next (slotPlace b k) named n first type head name rest) (short : name.length < 80)
    (live : 0 ∉ name) : Titles next := by
  intro i new
  obtain ⟨c, info, slots, unlike, apart, origin⟩ := made.block sound directory place site new
  have title := (entered_name made.toEntered (sound.blank named site.spot.fresh) short live).2
  rw [info]
  refine titles_entered site.spot made.toEntered title slots unlike apart fun m bound used => ?_
  rcases origin with ⟨old, rfl⟩ | zeros
  · exact titles i old m bound used
  · exact absurd (zeros m bound) (Nat.pos_iff_ne_zero.mp used.block.later)

end Titling

section Wiping

variable {fs : Fs} {cur k c : Nat}

/-- A name block is not touched where a slot is wiped. -/
theorem wiped_names (sound : Sound fs) (directory : Directory fs.dev cur) (bound : k < slotCount)
    (used : NameBlock fs.dev c) (other : c ≠ (nodeAt fs.dev cur).info) :
    nameOf (fs.dev.store (slotPlace (nodeAt fs.dev cur).info k) (wordBytes ylsWipe)) c =
        nameOf fs.dev c ∧
      word (fs.dev.store (slotPlace (nodeAt fs.dev cur).info k) (wordBytes ylsWipe)).mem c =
        word fs.dev.mem c ∧
      nextOf (fs.dev.store (slotPlace (nodeAt fs.dev cur).info k) (wordBytes ylsWipe)) c =
        nextOf fs.dev c := by
  have block := (sound.slots cur directory).block
  refine ⟨?_, ?_, wiped_word block bound used.block (by decide) (Or.inl other)⟩
  · refine congrArg stringOf (slice_congr fun a inside => ?_)
    rw [mem_span] at inside
    obtain ⟨i, rfl⟩ := Nat.exists_eq_add_of_le inside.1
    rw [Nat.add_assoc]
    exact wiped_byte block bound used.block (by unfold blkSz; omega) (Or.inl other)
  · have target := @wiped_word fs cur k c 0 block bound used.block (by decide) (Or.inl other)
    rwa [Nat.add_zero] at target

theorem Sound.wipe_titles (sound : Sound fs) (titles : Titles fs.dev) (directory : Directory fs.dev cur)
    (bound : k < slotCount) :
    Titles (fs.dev.store (slotPlace (nodeAt fs.dev cur).info k) (wordBytes ylsWipe)) := by
  intro i after m inside used
  have slots := sound.slots cur directory
  have records := wiped_records sound directory bound
  have old : Directory fs.dev i := (directory_of_records records).mp after
  rw [records i old.kept.1]
  rw [records i old.kept.1] at used
  rw [slot_wiped slots.block bound (sound.slots i old).block inside] at used ⊢
  split at used
  · exact absurd rfl used.block.not_wipe
  next other =>
    rw [if_neg other]
    have before : NameBlock fs.dev (slotAt fs.dev (nodeAt fs.dev i).info m) :=
      (((sound.slots i old).filled m inside).resolve_left
        (Nat.pos_iff_ne_zero.mp used.block.later)).resolve_left used.block.not_wipe
    obtain ⟨same, -, link⟩ :=
      wiped_names sound directory bound before (sound.apart i cur old directory m inside)
    have titled := titles i old m inside before
    exact ⟨by rw [same]; exact titled.short, by rw [link]; exact titled.final⟩

end Wiping

end OsWorkbench.Blkfs
