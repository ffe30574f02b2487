import OsWorkbench.Kvdb.Recovery
import OsWorkbench.Kvdb.Contents

/-!
# Puts that die

When the file a dying put leaves behind is repaired by `recov_backup`. The put
must not die between noting a block and moving the head on, nor after cutting the
free list at a block that is not noted, and as long as no block is noted the
first block of the file must not be in use.
-/

namespace OsWorkbench.Kvdb

open ByteStore WriteTrace Regions

/-- `alloc_str`, cut off after `done` writes, leaves a free list that can be mended. -/
def Restorable (free : List Nat) (src : List UInt8) (done : Nat) : Prop :=
  free.length = 1 ∨
    if Noted free src then done ≠ 2 * chunks src + 1
    else done ≤ 2 * min (chunks src) (free.length - 1) +
      if free.length ≤ chunks src + 1 then 1 else 0

/-- `alloc_str` has noted its last block and moved the head on. -/
def Named (free : List Nat) (src : List UInt8) (done : Nat) : Prop :=
  Noted free src ∧ 2 * chunks src + 2 ≤ done

/-- A second allocation, cut off after `done` writes, does not note another block. -/
def Unnamed (free : List Nat) (src : List UInt8) (done : Nat) : Prop :=
  free.length = 1 ∨ ¬ Noted free src ∨ done ≤ 2 * chunks src

/-- How many writes a put performs. -/
def putLength (layout : Layout) (put : Assignment) : Nat :=
  match layout.find put.1 with
  | some _ => (layout.valueTaken put.2).writes.length + 5
  | none => (layout.valueTaken put.2).writes.length +
      (layout.keyTaken put.1 put.2).writes.length + 5

/-- The put dies after `count` writes, at a point from which recovery works. -/
def Recoverable (layout : Layout) (put : Assignment) (count : Nat) : Prop :=
  count = 0 ∨ putLength layout put ≤ count ∨
    Restorable layout.free put.2 (count - 1) ∧
      (Named layout.free put.2 (count - 1) ∨ StrayClear layout) ∧
      (layout.find put.1 = none → Unnamed (layout.valueTaken put.2).free put.1
        (count - 1 - (layout.valueTaken put.2).writes.length))

/-- The key has taken blocks off the list behind the block noted for the value: they are lost. -/
def Leaks (layout : Layout) (put : Assignment) (done : Nat) : Prop :=
  layout.find put.1 = none ∧ Noted layout.free put.2 ∧
    1 < (layout.valueTaken put.2).free.length ∧
    ¬ Noted (layout.valueTaken put.2).free put.1 ∧
    (layout.valueTaken put.2).writes.length +
      2 * min (chunks put.1) ((layout.valueTaken put.2).free.length - 1) ≤ done

instance (layout : Layout) (put : Assignment) (done : Nat) : Decidable (Leaks layout put done) :=
  inferInstanceAs (Decidable (_ ∧ _ ∧ _ ∧ _ ∧ _))

/-- The layout that recovery brings back after `count` writes of a put. -/
def Layout.recovered (layout : Layout) (put : Assignment) (count : Nat) : Layout :=
  if putLength layout put ≤ count then layout.put put.1 put.2
  else layout.withFree (if Leaks layout put (count - 1) then
    layout.free.take (chunks put.2) ++ (layout.keyTaken put.1 put.2).free else layout.free)

section Mending

variable {bytes other : Bytes} {free front back kept part : List Nat} {last size : Nat}

theorem Untouched.mends (untouched : Untouched bytes other free)
    (linked : Linked bytes free size) (some : free ≠ []) (noted : word bytes backupPrev = 0)
    (nonzero : 0 ∉ free) : Mends free free other where
  sublist := List.Sublist.refl _
  some := some
  head := rfl
  tail := rfl
  linked := by
    refine chain_congr ?_ linked.chain
    intro block member
    unfold mended
    rw [untouched.prev, noted, if_neg]
    · exact untouched.links block member
    · rintro rfl
      exact nonzero (List.mem_of_mem_dropLast member)

theorem Patched.mends (patched : Patched bytes other front last kept)
    (linked : Linked bytes free size) (whole : free = front ++ last :: back)
    (suffix : kept <:+ back) (some : kept ≠ []) : Mends free (front ++ last :: kept) other where
  sublist := by
    rw [whole]
    exact (suffix.sublist.cons_cons last).append_left front
  some := by simp
  head := by
    rw [whole]
    cases front <;> rfl
  tail := by
    rcases suffix with ⟨lost, rfl⟩
    rw [whole]
    simp only [List.getLastD_eq_getLast?, List.getLast?_append_of_ne_nil _ (List.cons_ne_nil _ _)]
    rw [← List.cons_append, List.getLast?_append_of_ne_nil _ some, List.getLast?_cons,
      List.getLast?_eq_some_getLast some]
    rfl
  linked := by
    have apart := linked.apart
    have chain := linked.chain
    rw [whole, List.pairwise_append, List.pairwise_cons] at apart
    rw [whole, List.isChain_split] at chain
    have unlike {block : Nat} (separate : Apart last block ∨ Apart block last) : block ≠ last := by
      rintro rfl
      simp only [Apart, sizeofString] at separate
      omega
    have elsewhere {block : Nat} (separate : block ≠ last) :
        mended other block = link other block := by
      unfold mended
      rw [patched.prev, if_neg separate]
    rw [List.isChain_split]
    constructor
    · refine chain_congr ?_ chain.1
      intro block member
      rw [List.dropLast_concat] at member
      rw [elsewhere (unlike (Or.inr (apart.2.2 block member last (by simp))))]
      exact patched.links block (List.mem_append_left _ member)
    · obtain ⟨first, rest, rfl⟩ := List.exists_cons_of_ne_nil some
      rw [List.isChain_cons_cons]
      constructor
      · unfold mended
        rw [patched.prev, if_pos rfl]
        exact patched.head
      · refine chain_congr ?_ (chain.2.tail.suffix suffix)
        intro block member
        have inBack := suffix.subset (List.mem_of_mem_dropLast member)
        rw [elsewhere (unlike (Or.inl (apart.2.1.1 block inBack)))]
        exact patched.links block (List.mem_append_right _ member)

/-- Later writes that leave the head, `backup_prev` and the links alone. -/
theorem Mends.keep (mends : Mends free part bytes)
    (head : word other freeHead = word bytes freeHead)
    (prev : word other backupPrev = word bytes backupPrev)
    (links : ∀ block ∈ part.dropLast, link other block = link bytes block) :
    Mends free part other where
  sublist := mends.sublist
  some := mends.some
  head := mends.head
  tail := mends.tail
  linked := by
    refine chain_congr ?_ mends.linked
    intro block member
    unfold mended
    rw [head, prev, links block member]

end Mending

section Stages

variable {layout : Layout} {file : File} {free : List Nat} {size : Nat}
variable {key value : List UInt8} {done : Nat}

theorem Ready.linked (ready : Ready file free size) : Linked file.bytes free size where
  chain := ready.supply.linked
  below := ready.supply.below
  apart := ready.supply.apart
  room := ready.room

theorem chunks_positive (some : value ≠ []) : 0 < chunks value := by
  have positive := List.length_pos_iff.mpr some
  simp only [chunks, blockLen]
  omega

theorem named_unlike_single (single : free.length = 1) : ¬ Named free value done := by
  intro named
  have positive := chunks_positive (noted_some named.1)
  have few := named.1.2
  omega

/-- What the free list and `backup_prev` look like while the value is stored. -/
inductive ValueTorn (bytes other : Bytes) (free rest : List Nat) (src : List UInt8) (done : Nat) :
    Prop where
  | untouched (unnamed : ¬ Named free src done) (clean : Untouched bytes other free)
  | patched (front : List Nat) (last : Nat) (whole : free = front ++ last :: rest)
      (place : front.length + 1 = chunks src) (named : Named free src done)
      (torn : Patched bytes other front last rest)

theorem Served.some (served : Served free value) (spare : free.length ≠ 1) : value ≠ [] := by
  rcases served with present | ⟨tail, rfl⟩
  · exact present
  · exact absurd rfl spare

theorem value_torn (ready : Ready file free size) (small : size < 2 ^ 32)
    (served : Served free value)
    (restorable : Restorable free value done) :
    ValueTorn file.bytes (applyAll ((plan free size value).writes.take done) file).bytes free
      (plan free size value).free value done := by
  have linked := ready.linked
  by_cases single : free.length = 1
  · rcases List.length_eq_one_iff.mp single with ⟨tail, rfl⟩
    have tailSmall := linked.small small (List.mem_singleton_self tail)
    have kept := @plan_single_part file size done value tail tailSmall ready.head
    exact ValueTorn.untouched (named_unlike_single rfl) ⟨kept.2, by simp⟩
  · have some := served.some single
    have bound := restorable.resolve_left single
    have positive := List.length_pos_iff.mpr ready.some
    have spare : 1 < free.length := by omega
    by_cases noted : Noted free value
    · rw [if_pos noted] at bound
      rcases Nat.lt_or_ge (2 * chunks value) done with late | early
      · rcases @plan_noted_part file free size done value linked small noted (by omega) with
          ⟨front, last, whole, place, torn⟩
        exact ValueTorn.patched front last whole place ⟨noted, by omega⟩ torn
      · have quiet := @plan_calm_part file free size done value linked spare some
          (by rwa [if_pos noted])
        apply ValueTorn.untouched
        · intro named
          have late := named.2
          omega
        · exact ⟨quiet.prev, quiet.links⟩
    · rw [if_neg noted] at bound
      apply ValueTorn.untouched
      · exact fun named => noted named.1
      · exact plan_uncut_part linked spare some noted bound

/-- A restorable allocation that is over has used the end of the file only, or has noted its
last block. -/
theorem restorable_beyond (ready : Ready file free size) (served : Served free value)
    (restorable : Restorable free value done) (beyond : (plan free size value).writes.length ≤ done) :
    free.length = 1 ∨ Named free value done := by
  by_cases single : free.length = 1
  · left
    exact single
  · right
    have some := served.some single
    have bound := restorable.resolve_left single
    have positive := List.length_pos_iff.mpr ready.some
    rw [plan_writes some, List.length_append, List.length_singleton] at beyond
    by_cases noted : Noted free value
    · rcases plan_noted ready.linked noted with ⟨front, last, calm, moved, -, writes, long, -⟩
      rw [writes] at beyond
      simp only [List.length_append, List.length_cons] at beyond
      exact ⟨noted, by omega⟩
    · rcases plan_unnoted ready.linked (by omega) some noted with
        ⟨calm, moved, rest, writes, long, extra, -⟩
      rw [if_neg noted, ← extra] at bound
      rw [writes] at beyond
      simp only [List.length_append, List.length_cons] at beyond
      omega

/-- The list behind the noted block while the key is stored. -/
def keptFree (back : List Nat) (size : Nat) (key : List UInt8) (done : Nat) : List Nat :=
  if 1 < back.length ∧ ¬ Noted back key ∧ 2 * min (chunks key) (back.length - 1) ≤ done then
    (plan back size key).free
  else back

theorem kept_free_suffix {back : List Nat} (some : back ≠ []) :
    keptFree back size key done <:+ back ∧ keptFree back size key done ≠ [] := by
  unfold keptFree
  split
  · exact plan_suffix some
  · exact ⟨List.suffix_rfl, some⟩

theorem key_torn {bytes : Bytes} {front back : List Nat} {last : Nat}
    (ready : Ready file back size) (small : size < 2 ^ 32) (served : Served back key)
    (below : ∀ block ∈ front, headerLen + block + sizeofString ≤ size)
    (apart : ∀ block ∈ front, ∀ other ∈ back, Apart other block)
    (torn : Patched bytes file.bytes front last back) (unnamed : Unnamed back key done) :
    Patched bytes (applyAll ((plan back size key).writes.take done) file).bytes front last
      (keptFree back size key done) := by
  have linked := ready.linked
  have fronts : ∀ block ∈ front, link (applyAll ((plan back size key).writes.take done)
      file).bytes block = link bytes block := by
    intro block member
    refine Eq.trans (plan_link_kept ?_) (torn.links block (List.mem_append_left _ member))
    exact plan_unused ready.room ready.some (below block member) (apart block member)
  unfold keptFree
  by_cases single : back.length = 1
  · rcases List.length_eq_one_iff.mp single with ⟨tail, rfl⟩
    have tailSmall := linked.small small (List.mem_singleton_self tail)
    have kept := @plan_single_part file size done key tail tailSmall ready.head
    rw [if_neg (by simp)]
    refine ⟨kept.2.trans torn.prev, kept.1, ?_⟩
    intro block member
    exact fronts block (by simpa using member)
  · have some := served.some single
    have positive := List.length_pos_iff.mpr ready.some
    have spare : 1 < back.length := by omega
    by_cases moved : ¬ Noted back key ∧ 2 * min (chunks key) (back.length - 1) ≤ done
    · have kept := plan_moved_part linked small spare some moved.1 moved.2
      rw [if_pos ⟨spare, moved⟩]
      refine ⟨kept.2.trans torn.prev, kept.1, ?_⟩
      intro block member
      rcases List.mem_append.mp member with ahead | behind
      · exact fronts block ahead
      · have suffix := @plan_suffix back size key ready.some
        have separate := @plan_apart back size key ready.room ready.some ready.supply.below
          ready.supply.apart
        have inKept := List.mem_of_mem_dropLast behind
        refine Eq.trans (plan_link_kept fun used taken =>
          (List.pairwise_append.mp separate).2.2 used taken block inKept) ?_
        apply torn.links
        apply List.mem_append_right
        obtain ⟨lost, whole⟩ := suffix.1
        rw [← whole, List.dropLast_append_of_ne_nil suffix.2]
        exact List.mem_append_right _ behind
    · have quiet : Quiet back file.bytes
          (applyAll ((plan back size key).writes.take done) file).bytes := by
        apply plan_calm_part linked spare some
        rcases unnamed with alone | unnoted | early
        · exact absurd alone single
        · rw [if_neg unnoted]
          exact Nat.lt_of_not_le fun late => moved ⟨unnoted, late⟩
        · split
          next => exact early
          next unnoted => exact Nat.lt_of_not_le fun late => moved ⟨unnoted, late⟩
      rw [if_neg fun all => moved all.2]
      refine ⟨quiet.prev.trans torn.prev, quiet.head.trans torn.head, ?_⟩
      intro block member
      rcases List.mem_append.mp member with ahead | behind
      · exact fronts block ahead
      · exact (quiet.links block behind).trans
          (torn.links block (List.mem_append_right _ behind))

end Stages

section Suspension

variable {layout : Layout} {file : File} {pos : Nat} {changes : List Pwrite}

/-- Writes that stay clear of the saved list, entry, offset and flag. -/
def KeepsSaved (changes : List Pwrite) : Prop :=
  ∀ change ∈ changes, Disjoint (touches change) (span backupList 36) ∧
    Disjoint (touches change) (span backupFlag 1)

theorem KeepsSaved.append {more : List Pwrite} (keeps : KeepsSaved changes)
    (also : KeepsSaved more) : KeepsSaved (changes ++ more) := by
  intro change member
  rcases List.mem_append.mp member with left | right
  · exact keeps change left
  · exact also change right

theorem keeps_saved_above {change : Pwrite} (above : headerLen ≤ change.offset) :
    KeepsSaved [change] := by
  intro other member
  rw [List.mem_singleton.mp member]
  constructor
  · apply span_disjoint
    simp only [backupList, headerLen] at above ⊢
    omega
  · apply span_disjoint
    simp only [backupFlag, headerLen] at above ⊢
    omega

theorem keeps_saved_list {value spot : Nat} (inside : spot + 4 ≤ backupList) :
    KeepsSaved [⟨spot, wordBytes value⟩] := by
  intro other member
  rw [List.mem_singleton.mp member]
  constructor
  · exact span_disjoint (Or.inl inside)
  · apply span_disjoint
    simp only [word_bytes_length, backupFlag, backupList] at inside ⊢
    omega

theorem keeps_saved_of_confined {blocks : List Nat} (confined : Confined changes blocks) :
    KeepsSaved changes := by
  intro change member
  have apart (spot count : Nat) (low : freeSize + 4 ≤ spot) (high : spot + count ≤ headerLen)
      (beside : spot + count ≤ backupPrev ∨ backupPrev + 4 ≤ spot) :
      Disjoint (touches change) (span spot count) := by
    rw [Set.disjoint_left]
    intro address touched inside
    rw [mem_span] at inside
    rcases confined change member touched with head | size | prev | ⟨block, used, within⟩
    · simp only [mem_span, freeHead, freeSize] at head low
      omega
    · simp only [mem_span, freeSize] at size low
      omega
    · simp only [mem_span] at prev
      omega
    · simp only [mem_span, headerLen] at within high
      omega
  constructor
  · exact apart backupList 36 (by simp [freeSize, backupList]) (by simp [backupList])
      (by simp [backupList, backupPrev])
  · exact apart backupFlag 1 (by simp [freeSize, backupFlag]) (by simp [backupFlag])
      (by simp [backupPrev, backupFlag])

theorem KeepsSaved.part {spot count : Nat} (keeps : KeepsSaved changes)
    (low : backupList ≤ spot) (high : spot + count ≤ backupList + 36) :
    Set.EqOn (applyAll changes file).bytes file.bytes (span spot count) := by
  have record : Set.EqOn (applyAll changes file).bytes file.bytes (span backupList 36) :=
    applyAll_eqOn fun change member => (keeps change member).1
  intro address inside
  apply record
  rw [mem_span] at inside ⊢
  omega

/-- Writes that leave the undo record intact. -/
theorem Suspended.after {crashed : File} (suspended : Suspended layout pos file crashed)
    (keeps : KeepsSaved changes)
    (avoids : ∀ region ∈ layout.live, region ≠ tabRegion pos → ∀ change ∈ changes,
      Disjoint (touches change) region.addresses) :
    Suspended layout pos file (applyAll changes crashed) where
  flag := by
    have flag : (applyAll changes crashed).bytes backupFlag = crashed.bytes backupFlag :=
      applyAll_eqOn (fun change member => (keeps change member).2) (by simp)
    rw [flag]
    exact suspended.flag
  lists := (slice_congr (keeps.part le_rfl (by simp))).trans suspended.lists
  tab := (slice_congr (keeps.part (by simp [backupList, backupTab])
    (by simp [backupList, backupTab]))).trans suspended.tab
  place := (word_congr (keeps.part (by simp [backupList, backupPos])
    (by simp [backupList, backupPos]))).trans suspended.place
  grown := suspended.grown.trans (size_le_applyAll _ _)
  live region live unlike :=
    (applyAll_eqOn (avoids region live unlike)).trans (suspended.live region live unlike)

theorem saved_suspended (sound : layout.Sound) (small : layout.size < 2 ^ 32)
    (place : tabRegion pos ∈ layout.live) :
    Suspended layout pos file (applyAll [saveHeader file pos] file) where
  flag := by
    change (Store.apply file (saveHeader file pos)).bytes backupFlag ≠ 0
    rw [saved_flag]
    decide
  lists := saved_copy
  tab := saved_tab
  place := by
    have bounds := sound.live.inside _ place
    apply saved_pos
    simp only [tabRegion] at bounds
    omega
  grown := size_le_applyAll file _
  live region live _ := applyAll_eqOn (save_live sound.live region live)

/-- Any of the writes after the first one leave the undo record intact. -/
theorem suspended_of (sound : layout.Sound) (small : layout.size < 2 ^ 32)
    (place : tabRegion pos ∈ layout.live) (keeps : KeepsSaved changes)
    (avoids : ∀ region ∈ layout.live, region ≠ tabRegion pos → ∀ change ∈ changes,
      Disjoint (touches change) region.addresses) :
    Suspended layout pos file (applyAll changes (applyAll [saveHeader file pos] file)) :=
  (saved_suspended sound small place).after keeps avoids

end Suspension

section Branches

variable {layout : Layout} {file : File} {key value : List UInt8} {done : Nat}

/-- The free list that recovery finds. -/
def tornFree (layout : Layout) (put : Assignment) (done : Nat) : List Nat :=
  if Leaks layout put done then
    layout.free.take (chunks put.2) ++ (layout.keyTaken put.1 put.2).free
  else layout.free

theorem saved_prev_zero (file : File) (pos : Nat) :
    word (applyAll [saveHeader file pos] file).bytes backupPrev = 0 := saved_prev

theorem Represents.nonzero (represents : Represents layout file) : 0 ∉ layout.free := by
  intro member
  have above := represents.shown.block_above represents.sound member
  simp only [sizeofTab] at above
  omega

/-- While the value is stored the whole free list can be recovered. -/
theorem value_mends (represents : Represents layout file) (pos : Nat)
    (served : Served layout.free value) (restorable : Restorable layout.free value done)
    (aim : Named layout.free value done ∨ StrayClear layout) :
    Mends layout.free layout.free
        (applyAll ((layout.valueTaken value).writes.take done)
          (applyAll [saveHeader file pos] file)).bytes ∧
      Aimed layout layout.free (applyAll ((layout.valueTaken value).writes.take done)
        (applyAll [saveHeader file pos] file)).bytes := by
  have ready := represents.ready.saved pos
  have supply := represents.sound.supply
  rcases value_torn ready represents.shown.small served restorable with
    ⟨unnamed, clean⟩ | ⟨front, last, whole, place, named, torn⟩
  · constructor
    · exact clean.mends ready.linked supply (saved_prev_zero file pos) represents.nonzero
    · right
      exact ⟨clean.prev.trans (saved_prev_zero file pos), aim.resolve_left unnamed⟩
  · have kept := (@plan_suffix layout.free layout.size value supply).2
    have mends := torn.mends ready.linked whole List.suffix_rfl kept
    rw [← whole] at mends
    constructor
    · exact mends
    · left
      rw [torn.prev, whole]
      simp

theorem leaks_late (servedKey : layout.find key = none → Served (layout.valueTaken value).free key)
    (leaks : Leaks layout (key, value) done) :
    (layout.valueTaken value).writes.length < done := by
  have spare := leaks.2.2.1
  have positive := chunks_positive ((servedKey leaks.1).some (Nat.ne_of_gt spare))
  have late := leaks.2.2.2.2
  simp only at spare late
  omega

/-- The key is being stored behind the block noted for the value. -/
theorem key_mends (represents : Represents layout file) (pos : Nat)
    (servedKey : Served (layout.valueTaken value).free key) (served : Served layout.free value)
    (small : (layout.keyTaken key value).size < 2 ^ 32)
    (new : layout.find key = none) (restorable : Restorable layout.free value done)
    (aim : Named layout.free value done ∨ StrayClear layout)
    (unnamed : Unnamed (layout.valueTaken value).free key
      (done - (layout.valueTaken value).writes.length))
    (late : (layout.valueTaken value).writes.length < done) :
    Mends layout.free (tornFree layout (key, value) done)
        (applyAll ((layout.keyTaken key value).writes.take
            (done - (layout.valueTaken value).writes.length))
          (applyAll (layout.valueTaken value).writes (applyAll [saveHeader file pos] file))).bytes ∧
      Aimed layout (tornFree layout (key, value) done)
        (applyAll ((layout.keyTaken key value).writes.take
            (done - (layout.valueTaken value).writes.length))
          (applyAll (layout.valueTaken value).writes
            (applyAll [saveHeader file pos] file))).bytes := by
  have ready := represents.ready.saved pos
  have supply := represents.sound.supply
  have grown : (layout.valueTaken value).size ≤ (layout.keyTaken key value).size :=
    plan_size _ _ _
  have valueSmall : (layout.valueTaken value).size < 2 ^ 32 := grown.trans_lt small
  have between := (ready.alloc served valueSmall).2
  have taken := value_torn ready represents.shown.small served restorable
  rw [List.take_of_length_le (Nat.le_of_lt late)] at taken
  rcases taken with ⟨unlike, clean⟩ | ⟨front, last, whole, place, named, torn⟩
  · have single := (restorable_beyond ready served restorable (Nat.le_of_lt late)).resolve_right unlike
    have whole : tornFree layout (key, value) done = layout.free := by
      apply if_neg
      intro leaks
      have positive : 0 < chunks value := chunks_positive (noted_some leaks.2.1)
      have few := leaks.2.1.2
      simp only at few
      omega
    rcases List.length_eq_one_iff.mp single with ⟨tail, alone⟩
    have rest : (layout.valueTaken value).free = [tail] := by
      have suffix := @plan_suffix layout.free layout.size value supply
      rw [alone] at suffix
      rcases List.suffix_cons_iff.mp suffix.1 with same | none
      · simpa only [Layout.valueTaken, alone] using same
      · exact absurd (List.suffix_nil.mp none) suffix.2
    have listed : tail ∈ (layout.valueTaken value).free := by
      rw [rest]
      exact List.mem_singleton_self tail
    have tailSmall := between.linked.small valueSmall listed
    have head := between.head
    rw [rest] at head
    have kept := @plan_single_part _ (layout.valueTaken value).size
      (done - (layout.valueTaken value).writes.length) key tail tailSmall head
    have keyed : layout.keyTaken key value = plan [tail] (layout.valueTaken value).size key := by
      rw [Layout.keyTaken, rest]
    have still : Untouched (applyAll [saveHeader file pos] file).bytes
        (applyAll ((layout.keyTaken key value).writes.take
            (done - (layout.valueTaken value).writes.length))
          (applyAll (layout.valueTaken value).writes (applyAll [saveHeader file pos] file))).bytes
        layout.free := by
      rw [keyed]
      refine ⟨kept.2.trans clean.prev, ?_⟩
      rw [alone]
      intro block member
      cases member
    rw [whole]
    constructor
    · exact still.mends ready.linked supply (saved_prev_zero file pos) represents.nonzero
    · right
      exact ⟨still.prev.trans (saved_prev_zero file pos), aim.resolve_left unlike⟩
  · have apart := ready.supply.apart
    rw [whole, List.pairwise_append, List.pairwise_cons] at apart
    have frontBelow : ∀ block ∈ front,
        headerLen + block + sizeofString ≤ (layout.valueTaken value).size := by
      intro block member
      have below := ready.below (show block ∈ layout.free by rw [whole]; simp [member])
      exact below.trans (plan_size _ _ _)
    have torn := key_torn between valueSmall servedKey frontBelow
      (fun block member other inside =>
        (apart.2.2 block member other (List.mem_cons_of_mem _ inside)).symm) torn unnamed
    have suffix := @kept_free_suffix (layout.valueTaken value).size key
      (done - (layout.valueTaken value).writes.length) _ between.some
    have mends := torn.mends ready.linked whole suffix.1 suffix.2
    have part : tornFree layout (key, value) done = front ++ last ::
        keptFree (layout.valueTaken value).free (layout.valueTaken value).size key
          (done - (layout.valueTaken value).writes.length) := by
      have leaks : Leaks layout (key, value) done ↔
          (1 < (layout.valueTaken value).free.length ∧
            ¬ Noted (layout.valueTaken value).free key ∧
            2 * min (chunks key) ((layout.valueTaken value).free.length - 1) ≤
              done - (layout.valueTaken value).writes.length) := by
        constructor
        · intro leaks
          have enough := leaks.2.2.2.2
          change (layout.valueTaken value).writes.length +
            2 * min (chunks key) ((layout.valueTaken value).free.length - 1) ≤ done at enough
          exact ⟨leaks.2.2.1, leaks.2.2.2.1, by omega⟩
        · intro moved
          have enough := moved.2.2
          refine ⟨new, named.1, moved.1, moved.2.1, ?_⟩
          change (layout.valueTaken value).writes.length +
            2 * min (chunks key) ((layout.valueTaken value).free.length - 1) ≤ done
          omega
      unfold tornFree keptFree
      by_cases lost : Leaks layout (key, value) done
      · rw [if_pos lost, if_pos (leaks.mp lost)]
        have upTo : layout.free.take (chunks value) = front ++ [last] := by
          rw [whole, ← place, List.take_append, List.take_of_length_le (Nat.le_succ _),
            Nat.add_sub_cancel_left]
          rfl
        change layout.free.take (chunks value) ++ (layout.keyTaken key value).free = _
        rw [upTo, List.append_assoc]
        rfl
      · rw [if_neg lost, if_neg fun moved => lost (leaks.mpr moved)]
        exact whole
    rw [part]
    constructor
    · exact mends
    · left
      rw [torn.prev]
      simp

end Branches

end OsWorkbench.Kvdb
