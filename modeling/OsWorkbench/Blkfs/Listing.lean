import OsWorkbench.Blkfs.Entries
import OsWorkbench.Library.Fuel

/-!
# `blkfs_ireaddir`

Calls of it on a fresh descriptor give the names of a directory in the order of its slots, as long as
the directory has a slot that was never used and the buffer is larger than each name. With a buffer
that is larger than what is left of a block the reading goes on behind the block, along links that are
looked for where no links are. It ends, unless it comes to the places of links that lead to each other
for ever.
-/

namespace OsWorkbench.Blkfs

open Kernel ByteStore Library

/-- The names that calls with a buffer of `size` bytes give, up to the call that gives 0. -/
def readNames (fuel : Nat) (fs : Fs) (size : Nat) : Nat → VFile → Option (List (List UInt8))
  | 0, _ => none
  | turns + 1, file =>
      (blkfsIreaddir fuel fs file size).bind fun got =>
        if got.2.1 = 0 then some []
        else (readNames fuel fs size turns got.1).map fun names => stringOf got.2.2 :: names

section Links

/-- Where the reading of a block goes on behind the part of a block that begins at `off`. -/
def hop (dev : Rd) (off : Nat) : Option Nat :=
  if (readWord dev (u32 (off + blkMem)) off).2 ≠ 4 ∨ (readWord dev (u32 (off + blkMem)) off).1 = 0 then
    none
  else some (readWord dev (u32 (off + blkMem)) off).1

/-- What is read there, of `rest` bytes that are still asked for. -/
def portion (off rest : Nat) : Nat := min (sub32 blkMem (off % blkSz)) rest

def hops (dev : Rd) : Nat → Nat → Option Nat
  | 0, off => some off
  | n + 1, off => (hop dev off).bind (hops dev n)

/-- The links from `off` never end, and all lead to places of links, where nothing is to be read. -/
def Stuck (dev : Rd) (off : Nat) : Prop := ∀ n, ∃ place ∈ hops dev n off, place % blkSz = blkMem

/-- Reading `rest` bytes from `off` comes to such a place with bytes still to be read. -/
inductive Caught (dev : Rd) : Nat → Nat → Prop
  | stuck {off rest} : 0 < rest → Stuck dev off → Caught dev off rest
  | next {off rest next} : (rdRead dev off (portion off rest)).length = portion off rest →
      hop dev off = some next → Caught dev next (rest - portion off rest) → Caught dev off rest

variable {dev : Rd} {off rest next fuel : Nat} {got : List UInt8}

/-- One turn of the loop of `block_read`. -/
theorem read_loop_turn (more : 0 < rest) : blockReadLoop (fuel + 1) dev off rest got =
    if (rdRead dev off (portion off rest)).length = portion off rest then
      match hop dev off with
      | none => some (got ++ rdRead dev off (portion off rest), rest - portion off rest)
      | some next =>
          blockReadLoop fuel dev next (rest - portion off rest)
            (got ++ rdRead dev off (portion off rest))
    else some (got ++ rdRead dev off (portion off rest), rest) := by
  rw [blockReadLoop, if_pos more, hop]
  dsimp only
  change (if (rdRead dev off (portion off rest)).length ≠ portion off rest then _ else _) = _
  by_cases full : (rdRead dev off (portion off rest)).length = portion off rest
  · rw [if_neg (not_not.mpr full), if_pos full]
    by_cases ended : (readWord dev (u32 (off + blkMem)) off).2 ≠ 4 ∨
        (readWord dev (u32 (off + blkMem)) off).1 = 0
    · rw [if_pos ended, if_pos ended]
      rfl
    · rw [if_neg ended, if_neg ended]
      rfl
  · rw [if_pos full, if_neg full]
    rfl

theorem portion_zero (place : off % blkSz = blkMem) : portion off rest = 0 := by
  rw [portion, place]
  exact Nat.zero_min rest

theorem portion_pos (more : 0 < rest) (other : off % blkSz ≠ blkMem) : 0 < portion off rest := by
  have below : off % blkSz < blkSz := Nat.mod_lt _ (by decide)
  refine Nat.lt_min.mpr ⟨?_, more⟩
  unfold sub32 u32 blkMem blkSz at *
  omega

theorem Stuck.place (stuck : Stuck dev off) : off % blkSz = blkMem := by
  obtain ⟨place, same, border⟩ := stuck 0
  exact Option.some.inj same ▸ border

theorem Stuck.hop (stuck : Stuck dev off) : ∃ next, hop dev off = some next ∧ Stuck dev next := by
  obtain ⟨place, leads, -⟩ := stuck 1
  obtain ⟨next, hopped, -⟩ := Option.bind_eq_some_iff.mp leads
  refine ⟨next, hopped, fun n => ?_⟩
  obtain ⟨place, member, border⟩ := stuck (n + 1)
  rw [hops, hopped, Option.bind_some] at member
  exact ⟨place, member, border⟩

theorem nothing_read (dev : Rd) (place : off % blkSz = blkMem) :
    (rdRead dev off (portion off rest)).length = portion off rest := by
  rw [portion_zero place, rdRead, Nat.zero_min]
  rfl

theorem stuck_loops (more : 0 < rest) (stuck : Stuck dev off) :
    blockReadLoop fuel dev off rest got = none := by
  induction fuel generalizing off got with
  | zero => rfl
  | succ fuel hypothesis =>
      obtain ⟨next, hopped, further⟩ := stuck.hop
      rw [read_loop_turn more, if_pos (nothing_read dev stuck.place), hopped]
      dsimp only
      rw [portion_zero stuck.place, Nat.sub_zero]
      exact hypothesis further

theorem Caught.more (caught : Caught dev off rest) : 0 < rest := by
  induction caught with
  | stuck more _ => exact more
  | next _ _ _ fewer => exact Nat.lt_of_lt_of_le fewer (Nat.sub_le _ _)

/-- A reading that is caught does not end. -/
theorem caught_loops (caught : Caught dev off rest) : blockReadLoop fuel dev off rest got = none := by
  induction caught generalizing fuel got with
  | stuck more stuck => exact stuck_loops more stuck
  | next full hopped onward hypothesis =>
      cases fuel with
      | zero => rfl
      | succ fuel =>
          rw [read_loop_turn (Nat.lt_of_lt_of_le onward.more (Nat.sub_le _ _)), if_pos full, hopped]
          exact hypothesis

/-- A turn ends where what follows it does. -/
theorem free_turn_ends (more : 0 < rest) (free : ¬Caught dev off rest)
    (onward : ∀ next, hop dev off = some next → ¬Caught dev next (rest - portion off rest) →
      ∃ ended, Ends (fun fuel => blockReadLoop fuel dev next (rest - portion off rest)
        (got ++ rdRead dev off (portion off rest))) ended) :
    ∃ ended, Ends (fun fuel => blockReadLoop fuel dev off rest got) ended := by
  by_cases full : (rdRead dev off (portion off rest)).length = portion off rest
  · cases hopped : hop dev off with
    | none =>
        refine ⟨(got ++ rdRead dev off (portion off rest), rest - portion off rest),
          Ends.last fun fuel (_ : 0 ≤ fuel) => ?_⟩
        rw [read_loop_turn more, if_pos full, hopped]
    | some next =>
        obtain ⟨ended, ends⟩ := onward next hopped fun caught => free (.next full hopped caught)
        refine ⟨ended, Ends.turn ends fun fuel (_ : 0 ≤ fuel) => ?_⟩
        rw [read_loop_turn more, if_pos full, hopped]
  · refine ⟨(got ++ rdRead dev off (portion off rest), rest), Ends.last fun fuel (_ : 0 ≤ fuel) => ?_⟩
    rw [read_loop_turn more, if_neg full]

/-- Every other one does: each turn reads something, or leaves fewer links to a place where something is
read. -/
theorem free_loop_ends (rest : Nat) : ∀ off got, ¬Caught dev off rest →
    ∃ ended, Ends (fun fuel => blockReadLoop fuel dev off rest got) ended := by
  induction rest using Nat.strong_induction_on with
  | _ rest hypothesis =>
      intro off got free
      rcases Nat.eq_zero_or_pos rest with rfl | more
      · refine ⟨(got, 0), Ends.last fun fuel (_ : 0 ≤ fuel) => ?_⟩
        rw [blockReadLoop, if_neg (Nat.lt_irrefl 0)]
      have moving : ∃ n, ¬∃ place ∈ hops dev n off, place % blkSz = blkMem := by
        by_contra never
        exact free (.stuck more fun n => not_not.mp (not_exists.mp never n))
      obtain ⟨n, leaves⟩ := moving
      induction n generalizing off got with
      | zero =>
          have other : off % blkSz ≠ blkMem := fun border => leaves ⟨off, rfl, border⟩
          apply free_turn_ends more free
          intro next _ onward
          exact hypothesis _ (Nat.sub_lt more (portion_pos more other)) next _ onward
      | succ n fewer =>
          apply free_turn_ends more free
          intro next hopped onward
          by_cases border : off % blkSz = blkMem
          · rw [portion_zero border, Nat.sub_zero] at onward ⊢
            refine fewer next _ onward ?_
            rintro ⟨place, member, there⟩
            refine leaves ⟨place, ?_, there⟩
            rw [hops, hopped]
            exact member
          · exact hypothesis _ (Nat.sub_lt more (portion_pos more border)) next _ onward

end Links

section Reading

variable {dev : Rd} {b k skip count fuel : Nat}

/-- Reading inside a block looks for a link behind it, which does not matter. -/
theorem block_read_part (block : Block dev b) (positive : 0 < count) (inside : skip + count ≤ blkMem)
    (enough : 2 ≤ fuel) : blockRead fuel dev b skip count = some (count, slice dev.mem (b + skip) count) := by
  obtain ⟨fuel, rfl⟩ := Nat.exists_eq_add_of_le' enough
  have last := block.next_inside
  have place : findBlock (fuel + 2) dev skip b = some (skip, b) := by
    rw [findBlock, if_neg (by omega)]
  have space : min (sub32 blkMem ((b + skip) % blkSz)) count = count := by
    rw [block.space (by omega)]
    omega
  have length : (slice dev.mem (b + skip) count).length = count := slice_length _ _ _
  rw [blockRead, place, Option.bind_some]
  dsimp only
  rw [block.place_word (by omega), blockReadLoop, if_pos positive, space]
  dsimp only
  rw [rd_read_inside (by omega), if_neg (not_not.mpr length), List.nil_append, Nat.sub_self]
  split
  · rw [Option.map_some, Nat.sub_zero]
  · rw [blockReadLoop, if_neg (Nat.lt_irrefl 0), Option.map_some, Nat.sub_zero]

/-- Whatever else the loop reads, it keeps what it has. -/
theorem block_read_loop_keeps {off : Nat} {got : List UInt8} {ended : List UInt8 × Nat}
    (ran : blockReadLoop fuel dev off count got = some ended) : got <+: ended.1 ∧ ended.2 ≤ count := by
  induction fuel generalizing off count got with
  | zero => exact nomatch ran
  | succ fuel hypothesis =>
      rw [blockReadLoop] at ran
      split at ran
      next more =>
        dsimp only at ran
        split at ran
        · rw [← Option.some.inj ran]
          exact ⟨List.prefix_append _ _, Nat.le_refl _⟩
        · split at ran
          · rw [← Option.some.inj ran]
            exact ⟨List.prefix_append _ _, Nat.sub_le _ _⟩
          · obtain ⟨kept, fewer⟩ := hypothesis ran
            exact ⟨(List.prefix_append _ _).trans kept, Nat.le_trans fewer (Nat.sub_le _ _)⟩
      next done =>
        rw [← Option.some.inj ran]
        exact ⟨List.prefix_refl _, Nat.le_refl _⟩

theorem string_of_take {bytes : List UInt8} {n : Nat} (shorter : (stringOf bytes).length < n) :
    stringOf (bytes.take n) = stringOf bytes := by
  induction bytes generalizing n with
  | nil => rw [List.take_nil]
  | cons c bytes hypothesis =>
      obtain ⟨n, rfl⟩ := Nat.exists_eq_add_one.mpr (Nat.zero_lt_of_lt shorter)
      by_cases live : c = 0
      · subst live
        exact (string_of_ended rfl).trans (string_of_ended rfl).symm
      · rw [string_of_cons live, List.length_cons] at shorter
        rw [List.take_succ_cons, string_of_cons live, string_of_cons live, hypothesis (by omega)]

/-- The name is what any number of bytes behind the number of the inode begin with. -/
theorem name_of_slice (titled : Titled dev b) {size : Nat} (fits : (nameOf dev b).length < size) :
    stringOf (slice dev.mem (b + 4) size) = nameOf dev b := by
  rcases Nat.le_total size 80 with small | large
  · obtain ⟨further, same⟩ := Nat.exists_eq_add_of_le small
    have part : slice dev.mem (b + 4) size = (slice dev.mem (b + 4) 80).take size := by
      rw [same, slice_append]
      exact (List.take_left' (slice_length _ _ _)).symm
    rw [part]
    exact string_of_take fits
  · obtain ⟨further, rfl⟩ := Nat.exists_eq_add_of_le large
    rw [slice_append]
    refine string_of_longer ?_ _
    rw [slice_length]
    exact titled.short

/-- A name is read whole into a buffer that is larger than it, however the reading goes on. -/
theorem block_read_title (block : Block dev b) (titled : Titled dev b)
    {size : Nat} (fits : (nameOf dev b).length < size) {got : Nat × List UInt8}
    (read : blockRead fuel dev b 4 size = some got) : got.1 ≠ 0 ∧ stringOf got.2 = nameOf dev b := by
  cases fuel with
  | zero => exact nomatch read
  | succ fuel =>
      have last := block.next_inside
      have short := titled.short
      have place : findBlock (fuel + 1) dev 4 b = some (4, b) := by
        rw [findBlock, if_neg (by decide)]
      have space : min (sub32 blkMem ((b + 4) % blkSz)) size = min 120 size := by
        rw [block.space (by decide)]
        rfl
      have length : (slice dev.mem (b + 4) (min 120 size)).length = min 120 size := slice_length _ _ _
      have inside : b + 4 + min 120 size ≤ dev.size := by
        unfold blkMem at last
        omega
      have begun : stringOf (slice dev.mem (b + 4) (min 120 size)) = nameOf dev b :=
        name_of_slice titled (by omega)
      rw [blockRead, place, Option.bind_some] at read
      dsimp only at read
      rw [block.place_word (by decide)] at read
      obtain ⟨⟨bytes, rest⟩, ran, rfl⟩ := Option.map_eq_some_iff.mp read
      rw [blockReadLoop, if_pos (by omega), space] at ran
      dsimp only at ran
      rw [rd_read_inside inside, if_neg (not_not.mpr length), List.nil_append] at ran
      have kept : slice dev.mem (b + 4) (min 120 size) <+: bytes ∧ rest ≤ size - min 120 size := by
        split at ran
        · obtain ⟨rfl, rfl⟩ := Prod.mk.inj (Option.some.inj ran)
          exact ⟨List.prefix_refl _, Nat.le_refl _⟩
        · exact block_read_loop_keeps ran
      obtain ⟨⟨tail, rfl⟩, fewer⟩ := kept
      dsimp only
      refine ⟨by omega, ?_⟩
      rw [string_of_longer (by rw [begun, length]; omega), begun]

/-- What a listing from the slot `k` on still has to give. -/
def pending (dev : Rd) (b k : Nat) : List Nat :=
  liveOf ((List.range (slotCount - k)).map fun j => slotAt dev b (k + j))

theorem pending_zero (dev : Rd) (b : Nat) : pending dev b 0 = liveSlots dev b := by
  rw [pending, liveSlots, slotList, Nat.sub_zero]
  exact congrArg liveOf (List.map_congr_left fun j _ => by rw [Nat.zero_add])

theorem pending_step (bound : k < slotCount) : pending dev b k =
    liveOf (slotAt dev b k :: (List.range (slotCount - (k + 1))).map fun j => slotAt dev b (k + 1 + j)) := by
  have one : slotCount - k = slotCount - (k + 1) + 1 := by omega
  rw [pending, one, List.range_succ_eq_map, List.map_cons, List.map_map, Nat.add_zero]
  refine congrArg (fun rest => liveOf (slotAt dev b k :: rest)) (List.map_congr_left fun j _ => ?_)
  exact congrArg (slotAt dev b) (by omega)

/-- One turn of the loop over wiped slots. -/
theorem read_slot_turn (block : Block dev b) (bound : k < slotCount) (enough : 2 ≤ fuel) :
    readSlot (fuel + 1) dev b (4 + 4 * k) =
      if slotAt dev b k = 0 then some (4 + 4 * k, none)
      else if slotAt dev b k = ylsWipe then readSlot fuel dev b (4 + 4 * (k + 1))
      else some (4 + 4 * (k + 1), some (slotAt dev b k)) := by
  have few : k < 30 := bound
  have read := @block_read_part dev b (4 + 4 * k) 4 fuel block (by decide)
    (by unfold blkMem; omega) enough
  have value : wordOf (slice dev.mem (b + (4 + 4 * k)) 4) 0 = slotAt dev b k := by
    rw [word_of_slice _ _ _ _ (by decide), Nat.add_zero, ← Nat.add_assoc]
    rfl
  have next : u32 (4 + 4 * k + 4) = 4 + 4 * (k + 1) := by
    unfold u32
    omega
  rw [readSlot, read, Option.bind_some]
  dsimp only
  rw [if_neg (fun other => other rfl), value, next]

/-- The loop over wiped slots ends at the first entry that is still to come. -/
theorem read_slot_pending {last : Nat} (slots : Slots dev b) (from_k : k ≤ last)
    (bound : last < slotCount) (zero : slotAt dev b last = 0) :
    (pending dev b k = [] ∧
        ∃ place, Ends (fun fuel => readSlot fuel dev b (4 + 4 * k)) (place, none)) ∨
      ∃ c rest m, pending dev b k = c :: rest ∧ NameBlock dev c ∧ m ≤ last ∧ pending dev b m = rest ∧
        Ends (fun fuel => readSlot fuel dev b (4 + 4 * k)) (4 + 4 * m, some c) ∧
          ∃ j < slotCount, slotAt dev b j = c := by
  obtain ⟨left, distance⟩ := Nat.exists_eq_add_of_le from_k
  induction left generalizing k with
  | zero =>
      obtain rfl : k = last := distance.symm
      have ends : Ends (fun fuel => readSlot fuel dev b (4 + 4 * k)) (4 + 4 * k, none) := by
        apply Ends.last
        intro fuel enough
        rw [read_slot_turn slots.block bound enough, if_pos zero]
      rw [pending_step bound, zero]
      exact Or.inl ⟨live_zero _, _, ends⟩
  | succ left hypothesis =>
      have inside : k < slotCount := by omega
      rw [pending_step inside]
      by_cases here : slotAt dev b k = 0
      · have ends : Ends (fun fuel => readSlot fuel dev b (4 + 4 * k)) (4 + 4 * k, none) := by
          apply Ends.last
          intro fuel enough
          rw [read_slot_turn slots.block inside enough, if_pos here]
        rw [here]
        exact Or.inl ⟨live_zero _, _, ends⟩
      by_cases wiped : slotAt dev b k = ylsWipe
      · have on {ended : Nat × Option Nat}
            (ends : Ends (fun fuel => readSlot fuel dev b (4 + 4 * (k + 1))) ended) :
            Ends (fun fuel => readSlot fuel dev b (4 + 4 * k)) ended := by
          apply ends.turn
          intro fuel enough
          rw [read_slot_turn slots.block inside enough, if_neg here, if_pos wiped]
        rw [wiped, live_wipe]
        rcases @hypothesis (k + 1) (by omega) (by omega) with
          ⟨nothing, place, ends⟩ | ⟨c, rest, m, some, named, before, later, ends, found⟩
        · exact Or.inl ⟨nothing, place, on ends⟩
        · exact Or.inr ⟨c, rest, m, some, named, before, later, on ends, found⟩
      · have ends : Ends (fun fuel => readSlot fuel dev b (4 + 4 * k))
            (4 + 4 * (k + 1), some (slotAt dev b k)) := by
          apply Ends.last
          intro fuel enough
          rw [read_slot_turn slots.block inside enough, if_neg here, if_neg wiped]
        have named := ((slots.filled k inside).resolve_left here).resolve_left wiped
        rw [live_cons here wiped]
        exact Or.inr ⟨_, _, k + 1, rfl, named, by omega, rfl, ends, k, inside, rfl⟩

/-- Reading the name in a block ends if the reading is not caught, and with the name. -/
theorem title_read_ends (block : Block dev b) (titled : Titled dev b) {size : Nat}
    (fits : (nameOf dev b).length < size) (free : ¬Caught dev (b + 4) size) :
    ∃ got : Nat × List UInt8, Ends (fun fuel => blockRead fuel dev b 4 size) got ∧ got.1 ≠ 0 ∧
      stringOf got.2 = nameOf dev b := by
  obtain ⟨ended, ends⟩ := @free_loop_ends dev size (b + 4) [] free
  have place : Ends (fun fuel => findBlock fuel dev 4 b) (4, b) := by
    apply Ends.last
    intro fuel (_ : 0 ≤ fuel)
    have shift : ¬4 > blkMem := by decide
    rw [findBlock, if_neg shift]
  have reads : Ends (fun fuel => blockRead fuel dev b 4 size) (size - ended.2, ended.1) := by
    apply place.bind
    dsimp only
    rw [block.place_word (by decide)]
    exact ends.map fun ended => (size - ended.2, ended.1)
  obtain ⟨enough, at_last⟩ := reads
  exact ⟨_, ⟨enough, at_last⟩, block_read_title block titled fits (at_last enough (Nat.le_refl _))⟩

theorem title_read_caught (block : Block dev b) {size : Nat} (caught : Caught dev (b + 4) size) :
    blockRead fuel dev b 4 size = none := by
  cases fuel with
  | zero => rfl
  | succ fuel =>
      have place : findBlock (fuel + 1) dev 4 b = some (4, b) := by
        rw [findBlock, if_neg (by decide)]
      rw [blockRead, place, Option.bind_some]
      dsimp only
      rw [block.place_word (by decide), caught_loops caught]
      rfl

/-- A buffer that is not larger than what is left of the block is never caught. -/
theorem caught_long (block : Block dev b) {size : Nat} (caught : Caught dev (b + 4) size) : 120 < size := by
  have aligned := block.aligned
  have inside : (b + 4) % blkSz = 4 := by
    unfold blkSz at *
    omega
  cases caught with
  | stuck _ stuck => exact absurd (inside.symm.trans stuck.place) (by decide)
  | next _ _ onward =>
      have more := onward.more
      have part : portion (b + 4) size = min 120 size := by
        rw [portion, inside]
        rfl
      omega

end Reading

section Listing

variable {fs : Fs} {d k fuel flags size turns last : Nat}

theorem ireaddir_last (sound : Sound fs) (directory : Directory fs.dev d) {offset place : Nat}
    (read : readSlot fuel fs.dev (nodeAt fs.dev d).info offset = some (place, none)) :
    blkfsIreaddir fuel fs ⟨d, offset, flags⟩ size = some (⟨d, place, flags⟩, 0, []) := by
  rw [blkfsIreaddir]
  dsimp only
  rw [sound.table d directory.kept.1, if_pos directory.type, read]
  rfl

theorem ireaddir_entry (sound : Sound fs) (directory : Directory fs.dev d) {offset place c : Nat}
    (read : readSlot fuel fs.dev (nodeAt fs.dev d).info offset = some (place, some c)) :
    blkfsIreaddir fuel fs ⟨d, offset, flags⟩ size =
      (blockRead fuel fs.dev c 4 size).map fun nread => (VFile.mk d place flags, ↑nread.1, nread.2) := by
  rw [blkfsIreaddir]
  dsimp only
  rw [sound.table d directory.kept.1, if_pos directory.type, read]
  rfl

/-- The rest of a listing, where no name that is still to come is caught. -/
theorem read_names_pending (sound : Sound fs) (titles : Titles fs.dev) (directory : Directory fs.dev d)
    (fits : ∀ c ∈ pending fs.dev (nodeAt fs.dev d).info k, (nameOf fs.dev c).length < size)
    (free : ∀ c ∈ pending fs.dev (nodeAt fs.dev d).info k, ¬Caught fs.dev (c + 4) size)
    (from_k : k ≤ last) (bound : last < slotCount)
    (zero : slotAt fs.dev (nodeAt fs.dev d).info last = 0)
    (more : (pending fs.dev (nodeAt fs.dev d).info k).length < turns) :
    Ends (fun fuel => readNames fuel fs size turns ⟨d, 4 + 4 * k, flags⟩)
      ((pending fs.dev (nodeAt fs.dev d).info k).map (nameOf fs.dev)) := by
  have slots := sound.slots d directory
  induction turns generalizing k with
  | zero => omega
  | succ turns hypothesis =>
      rcases @read_slot_pending fs.dev (nodeAt fs.dev d).info k last slots from_k bound zero with
        ⟨nothing, place, enough, read⟩ | ⟨c, rest, m, some, named, inside, later, read, j, few, rfl⟩
      · refine ⟨enough, fun fuel many => ?_⟩
        dsimp only
        rw [readNames, ireaddir_last sound directory (read fuel many), nothing]
        rfl
      · rw [some] at fits free more
        rw [some, List.map_cons]
        rw [List.length_cons] at more
        have onward := hypothesis (fun c member => fits c (List.mem_cons_of_mem _ (later ▸ member)))
          (fun c member => free c (List.mem_cons_of_mem _ (later ▸ member))) inside
          (by rw [later]; omega)
        obtain ⟨got, text, given, name⟩ := title_read_ends named.block (titles d directory j few named)
          (fits _ List.mem_cons_self) (free _ List.mem_cons_self)
        obtain ⟨early, read⟩ := read.both text
        obtain ⟨late, names⟩ := onward
        refine ⟨max early late, fun fuel many => ?_⟩
        have both := Nat.max_le.mp many
        obtain ⟨slot, text⟩ := read fuel both.1
        have positive : ((got.1 : Nat) : Int) ≠ 0 := by omega
        have others := names fuel both.2
        dsimp only at others ⊢
        rw [readNames, ireaddir_entry sound directory slot, text, Option.map_some, Option.bind_some]
        dsimp only
        rw [if_neg positive, others, Option.map_some, name, later]

/-- A listing that ends has been caught at none of the names. -/
theorem listed_free (sound : Sound fs) (titles : Titles fs.dev) (directory : Directory fs.dev d)
    (fits : ∀ c ∈ pending fs.dev (nodeAt fs.dev d).info k, (nameOf fs.dev c).length < size)
    (from_k : k ≤ last) (bound : last < slotCount)
    (zero : slotAt fs.dev (nodeAt fs.dev d).info last = 0) {names : List (List UInt8)}
    (listed : Ends (fun fuel => readNames fuel fs size turns ⟨d, 4 + 4 * k, flags⟩) names) :
    ∀ c ∈ pending fs.dev (nodeAt fs.dev d).info k, ¬Caught fs.dev (c + 4) size := by
  have slots := sound.slots d directory
  induction turns generalizing k names with
  | zero =>
      obtain ⟨enough, ends⟩ := listed
      exact nomatch ends enough (Nat.le_refl _)
  | succ turns hypothesis =>
      rcases @read_slot_pending fs.dev (nodeAt fs.dev d).info k last slots from_k bound zero with
        ⟨nothing, -⟩ | ⟨c, rest, m, some, named, inside, later, read, j, few, rfl⟩
      · rw [nothing]
        exact fun c member => absurd member List.not_mem_nil
      · obtain ⟨enough, both⟩ := read.both listed
        rw [some] at fits ⊢
        have titled := titles d directory j few named
        -- what a call gives for the first name, and what the calls after it give
        have turn (fuel : Nat) (many : enough ≤ fuel) : ∃ got others,
            blockRead fuel fs.dev (slotAt fs.dev (nodeAt fs.dev d).info j) 4 size = .some got ∧
              readNames fuel fs size turns ⟨d, 4 + 4 * m, flags⟩ = .some others ∧
                names = nameOf fs.dev (slotAt fs.dev (nodeAt fs.dev d).info j) :: others := by
          obtain ⟨slot, ended⟩ := both fuel many
          rw [readNames, ireaddir_entry sound directory slot] at ended
          obtain ⟨value, called, went⟩ := Option.bind_eq_some_iff.mp ended
          obtain ⟨got, text, rfl⟩ := Option.map_eq_some_iff.mp called
          obtain ⟨given, name⟩ := block_read_title named.block titled (fits _ List.mem_cons_self) text
          have positive : ((got.1 : Nat) : Int) ≠ 0 := by omega
          dsimp only at went
          rw [if_neg positive] at went
          obtain ⟨others, listed, same⟩ := Option.map_eq_some_iff.mp went
          exact ⟨got, others, text, listed, name ▸ same.symm⟩
        obtain ⟨got, others, text, -, first⟩ := turn enough (Nat.le_refl _)
        have rest : Ends (fun fuel => readNames fuel fs size turns ⟨d, 4 + 4 * m, flags⟩) others := by
          refine ⟨enough, fun fuel many => ?_⟩
          obtain ⟨_, also, -, ended, second⟩ := turn fuel many
          rw [(List.cons.inj (first.symm.trans second)).2]
          exact ended
        intro c member
        rcases List.mem_cons.mp member with rfl | member
        · exact fun caught =>
            absurd (text.symm.trans (title_read_caught named.block caught)) (Option.some_ne_none _)
        · exact hypothesis (fun c member => fits c (List.mem_cons_of_mem _ (later ▸ member))) inside rest c
            (later ▸ member)

/-- A fresh descriptor lists the directory, if and only if none of its names is caught. -/
theorem read_names_entries (sound : Sound fs) (titles : Titles fs.dev) (directory : Directory fs.dev d)
    (fits : ∀ entry ∈ entriesOf fs d, entry.1.length < size) (bound : last < slotCount)
    (zero : slotAt fs.dev (nodeAt fs.dev d).info last = 0) :
    Ends (fun fuel => readNames fuel fs size (slotCount + 1) (blkfsIopen fs d flags).2)
        ((entriesOf fs d).map Prod.fst) ↔
      ∀ c ∈ liveSlots fs.dev (nodeAt fs.dev d).info, ¬Caught fs.dev (c + 4) size := by
  have node := sound.table d directory.kept.1
  have opened : (blkfsIopen fs d flags).2 = ⟨d, 4 + 4 * 0, flags⟩ := by
    rw [blkfsIopen, node, if_pos directory.type]
  have length : (pending fs.dev (nodeAt fs.dev d).info 0).length < slotCount + 1 := by
    refine Nat.lt_succ_of_le (Nat.le_trans (List.length_filter_le _ _) ?_)
    refine Nat.le_trans (List.takeWhile_prefix _).length_le ?_
    rw [List.length_map, List.length_range]
    exact Nat.sub_le _ _
  have names : (entriesOf fs d).map Prod.fst =
      (pending fs.dev (nodeAt fs.dev d).info 0).map (nameOf fs.dev) := by
    rw [pending_zero, entriesOf, node, blockEntries, List.map_map]
    rfl
  have short : ∀ c ∈ pending fs.dev (nodeAt fs.dev d).info 0, (nameOf fs.dev c).length < size := by
    intro c member
    rw [pending_zero] at member
    refine fits (nameOf fs.dev c, word fs.dev.mem c) ?_
    rw [entriesOf, node]
    exact List.mem_map_of_mem member
  rw [opened, names, ← pending_zero]
  constructor
  · exact listed_free sound titles directory short (Nat.zero_le last) bound zero
  · intro free
    exact read_names_pending sound titles directory short free (Nat.zero_le last) bound zero length

end Listing

end OsWorkbench.Blkfs
