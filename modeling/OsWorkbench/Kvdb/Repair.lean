import OsWorkbench.Kvdb.Restart

/-!
# Recoveries that die

`recov_backup` reads the head of the free list that it then overwrites. If it dies in between and
`backup_prev` names a block, the next recovery links that block to the front of the list. With no
block named, a second recovery does what the first one would have done.
-/

namespace OsWorkbench.Kvdb

open ByteStore WriteTrace Regions

section Interruption

variable {layout : Layout} {file crashed : File} {pos count : Nat} {part : List Nat}

theorem tab_place (place : tabRegion pos ∈ layout.live) :
    (∃ entry ∈ layout.entries, entry.off = pos) ∨ pos = layout.last := by
  unfold Layout.live at place
  rcases List.mem_append.mp place with inside | last
  · left
    rcases List.mem_flatMap.mp inside with ⟨entry, member, listed⟩
    rcases List.mem_cons.mp listed with same | block
    · refine ⟨entry, member, ?_⟩
      simp only [tabRegion, Region.mk.injEq] at same
      omega
    · rcases List.mem_map.mp block with ⟨other, -, same⟩
      simp [blockRegion, tabRegion, sizeofString, sizeofTab] at same
  · right
    have same := List.mem_singleton.mp last
    simp only [tabRegion, Region.mk.injEq] at same
    omega

/-- Recovery, short of clearing the flag, leaves the undo record intact. -/
theorem recover_keeps_saved (crashed : File) :
    KeepsSaved [restoreLists crashed, restoreTab crashed, relink crashed] := by
  have lists : KeepsSaved [restoreLists crashed] := by
    intro change member
    rw [List.mem_singleton.mp member]
    constructor
    · exact span_disjoint (Or.inl (by simp [restoreLists, backupList]))
    · exact span_disjoint (Or.inl (by simp [restoreLists, backupFlag]))
  have tab := @keeps_saved_above (restoreTab crashed) (by simp [restoreTab])
  have link := @keeps_saved_above (relink crashed) (by
    simp only [relink]
    omega)
  exact lists.append (tab.append link)

theorem recover_keeps_prev {change : Pwrite}
    (member : change ∈ [restoreLists crashed, restoreTab crashed, relink crashed]) :
    Disjoint (touches change) (span backupPrev 4) := by
  simp only [List.mem_cons, List.not_mem_nil, or_false] at member
  rcases member with rfl | rfl | rfl
  · exact span_disjoint (Or.inl (by simp [restoreLists, backupPrev]))
  · apply span_disjoint
    simp only [restoreTab, backupPrev, headerLen]
    omega
  · apply span_disjoint
    simp only [relink, backupPrev, headerLen]
    omega

theorem recover_take (crashed : File) (early : count < 4) :
    (recoverWrites crashed).take count =
      [restoreLists crashed, restoreTab crashed, relink crashed].take count := by
  have shape : recoverWrites crashed =
      [restoreLists crashed, restoreTab crashed, relink crashed] ++ [clearFlag] := rfl
  rw [shape, List.take_append_of_le_length]
  simp only [List.length_cons, List.length_nil]
  omega

theorem Mends.unnoted {free : List Nat} {bytes other : Bytes} (mends : Mends free part bytes)
    (nonzero : 0 ∉ part) (before : word bytes backupPrev = 0) (after : word other backupPrev = 0)
    (links : ∀ block ∈ part.dropLast, link other block = link bytes block) :
    Mends free part other where
  sublist := mends.sublist
  some := mends.some
  head := mends.head
  tail := mends.tail
  linked := by
    refine chain_congr ?_ mends.linked
    intro block member
    have positive : block ≠ 0 := by
      rintro rfl
      exact nonzero (List.mem_of_mem_dropLast member)
    unfold mended
    rw [before, after, if_neg positive, if_neg positive, links block member]

/-- What is live lies outside the places that recovery writes, the saved entry aside. -/
theorem Torn.avoids (torn : Torn layout pos part file crashed) {region : Region}
    (live : region ∈ layout.live) (unlike : region ≠ tabRegion pos) {change : Pwrite}
    (member : change ∈ [restoreLists crashed, restoreTab crashed, relink crashed]) :
    Disjoint (touches change) region.addresses := by
  have sound := torn.represents.sound
  have bounds := sound.live.inside region live
  simp only [List.mem_cons, List.not_mem_nil, or_false] at member
  rcases member with rfl | rfl | rfl
  · apply span_disjoint
    simp only [restoreLists, slice_length, headerLen] at bounds ⊢
    omega
  · have clear := (sound.live.clear_of_ne torn.place live (Ne.symm unlike)).disjoint
    simp only [touches, restoreTab, slice_length, torn.suspended.place]
    exact clear
  · simpa [touches, relink] using aimed_clear sound torn.mends.sublist torn.aimed live

theorem Torn.link_kept (torn : Torn layout pos part file crashed)
    (unnoted : word crashed.bytes backupPrev = 0) {block : Nat} (listed : block ∈ layout.free)
    {change : Pwrite}
    (member : change ∈ [restoreLists crashed, restoreTab crashed, relink crashed]) :
    Disjoint (touches change) (span (headerLen + block + blockLen) 4) := by
  have sound := torn.represents.sound
  have above := torn.represents.shown.block_above sound listed
  simp only [List.mem_cons, List.not_mem_nil, or_false] at member
  rcases member with rfl | rfl | rfl
  · apply span_disjoint
    simp only [restoreLists, slice_length, headerLen]
    omega
  · have clear := sound.packed.cross torn.place (List.mem_map_of_mem listed)
    simp only [touches, restoreTab, slice_length, torn.suspended.place]
    refine clear.disjoint.mono_right ?_
    intro address inside
    simp only [Region.addresses, blockRegion, mem_span, headerLen, blockLen,
      sizeofString] at inside ⊢
    omega
  · apply span_disjoint
    simp only [relink, slice_length, unnoted]
    simp only [sizeofTab] at above
    omega

theorem Torn.interrupted (torn : Torn layout pos part file crashed)
    (unnoted : word crashed.bytes backupPrev = 0) (early : count < 4) :
    Torn layout pos part file (applyAll ((recoverWrites crashed).take count) crashed) := by
  rw [recover_take crashed early]
  have subset : ∀ change ∈ [restoreLists crashed, restoreTab crashed, relink crashed].take count,
      change ∈ [restoreLists crashed, restoreTab crashed, relink crashed] :=
    fun change member => List.mem_of_mem_take member
  have keeps := (recover_keeps_saved crashed).take count
  have prev : word (applyAll ([restoreLists crashed, restoreTab crashed, relink crashed].take
      count) crashed).bytes backupPrev = 0 :=
    (word_applyAll fun change member => recover_keeps_prev (subset change member)).trans unnoted
  constructor
  · exact torn.represents
  · exact torn.idle
  · exact torn.place
  · apply torn.suspended.after keeps
    intro region live unlike change member
    exact torn.avoids live unlike (subset change member)
  · apply torn.mends.unnoted _ unnoted prev
    · intro block member
      apply word_congr
      apply applyAll_eqOn
      intro change written
      have listed := torn.mends.sublist.subset (List.mem_of_mem_dropLast member)
      exact torn.link_kept unnoted listed (subset change written)
    · exact fun member => torn.represents.nonzero (torn.mends.sublist.subset member)
  · rcases torn.aimed with noted | ⟨zero, stray⟩
    · exact absurd (torn.mends.sublist.subset (unnoted ▸ noted)) torn.represents.nonzero
    · exact Or.inr ⟨prev, stray⟩

/-- Once the saved entry is back, readers see the layout before the put. -/
theorem Torn.shown (torn : Torn layout pos part file crashed)
    (unnoted : word crashed.bytes backupPrev = 0) (late : 2 ≤ count) (early : count < 4) :
    Shown layout (applyAll ((recoverWrites crashed).take count) crashed) := by
  have later := torn.interrupted unnoted early
  have suspended := later.suspended
  have sound := torn.represents.sound
  have shown := torn.represents.shown
  have whole := recover_take crashed early
  have entry : Set.EqOn (applyAll ((recoverWrites crashed).take count) crashed).bytes
      file.bytes (tabRegion pos).addresses := by
    obtain ⟨rest, rfl⟩ : ∃ rest, count = 2 + rest := ⟨count - 2, by omega⟩
    have split : (recoverWrites crashed).take (2 + rest) =
        [restoreLists crashed, restoreTab crashed] ++ [relink crashed].take rest := by
      rw [whole, Nat.add_comm, List.take_succ_cons, List.take_succ_cons]
      rfl
    have written := slice_overlay_self (applyAll [restoreLists crashed] crashed).bytes
      (headerLen + word crashed.bytes backupPos) (slice crashed.bytes backupTab sizeofTab)
    rw [slice_length] at written
    have restored : slice (applyAll [restoreLists crashed, restoreTab crashed] crashed).bytes
        (headerLen + pos) sizeofTab = slice file.bytes (headerLen + pos) sizeofTab := by
      rw [← torn.suspended.place]
      exact written.trans (torn.suspended.place ▸ torn.suspended.tab)
    rw [split, applyAll_append]
    refine Set.EqOn.trans (applyAll_eqOn ?_) (eqOn_of_slice restored)
    intro change member
    rw [List.mem_singleton.mp (List.mem_of_mem_take member)]
    simpa [touches, relink] using aimed_clear sound torn.mends.sublist torn.aimed torn.place
  have same : ∀ region ∈ layout.live, Set.EqOn
      (applyAll ((recoverWrites crashed).take count) crashed).bytes file.bytes
      region.addresses := by
    intro region live
    by_cases here : region = tabRegion pos
    · rw [here]
      exact entry
    · exact suspended.live region live here
  apply shown.congr same _ suspended.grown
  intro listed member
  apply shown.current_saved torn.idle (tab_place torn.place) _ member
    (layout.tab_same same member)
  exact ⟨suspended.flag, congrArg Tab.ofBytes suspended.tab⟩

/-- A recovery that dies can be repeated, if no block is named. -/
theorem Resting.interrupted (resting : Resting layout file)
    (unnoted : word file.bytes backupPrev = 0) (early : count < (repairWrites file).length) :
    Resting layout (applyAll ((repairWrites file).take count) file) := by
  rcases resting.settled with ⟨represents, idle⟩ | ⟨old, pos, part, base, rfl, torn⟩
  · have none : repairWrites file = [] := if_pos idle
    rw [none] at early
    exact absurd early (Nat.not_lt_zero _)
  · have all : repairWrites file = recoverWrites file := if_neg torn.suspended.flag
    rw [all] at early ⊢
    have few : count < 4 := early
    constructor
    · rcases Nat.lt_or_ge count 2 with before | after
      · rcases resting.shown with ⟨view, shown⟩
        have first : ∀ change ∈ (recoverWrites file).take count, change = restoreLists file := by
          intro change member
          have listed := List.take_subset_take_left (recoverWrites file) (Nat.le_of_lt_succ before)
            member
          exact List.mem_singleton.mp listed
        have avoids : Avoids ((recoverWrites file).take count) view.live := by
          intro region live change member
          rw [first change member]
          have bounds := shown.packed.inside region live
          apply span_disjoint
          simp only [restoreLists, slice_length, headerLen] at bounds ⊢
          omega
        have keeps : KeepsBackup ((recoverWrites file).take count) := by
          intro change member
          rw [first change member]
          constructor
          · exact span_disjoint (Or.inl (by simp [restoreLists, backupTab]))
          · exact span_disjoint (Or.inl (by simp [restoreLists, backupFlag]))
        refine ⟨view, shown.after avoids ?_⟩
        intro entry member
        apply current_congr keeps
        exact tab_congr (applyAll_eqOn (avoids _ (view.entry_live member (by
          simp [Entry.regions]))))
      · exact ⟨old, torn.shown unnoted after few⟩
    · right
      exact ⟨old, pos, part, base, rfl, torn.interrupted unnoted few⟩

end Interruption

end OsWorkbench.Kvdb
