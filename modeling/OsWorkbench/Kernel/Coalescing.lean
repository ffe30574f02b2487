import OsWorkbench.Kernel.HeapSafe

/-!
# Free blocks that meet

`kfree_real` looks for the neighbours of a block in a list that it takes to be sorted. `kalloc_real`
puts a new page at the end, though pages are cut from the heap downwards.
-/

namespace OsWorkbench.Kernel

open Library Regions LinkedList

/-- The list is sorted by address, and no block ends where another one starts. -/
structure Coalesced (size : Nat → Nat) (list : List Nat) : Prop where
  sorted : list.Pairwise (· < ·)
  apart : ∀ p ∈ list, ∀ q ∈ list, p + sizeofHeader + size p ≠ q

/-- A page is asked for only with an empty list, or to be handed out as it is. -/
def RefillsAlone (boot : Boot) (act : HeapAct) (heap : Heap) : Prop :=
  InRange act heap ∧ match act with
    | .kalloc cpu size =>
        (∃ p ∈ heap.free boot cpu, align size 0x10 ≤ sizes heap.pmm.memory p) ∨
          heap.free boot cpu = [] ∨ pgSize < align size 0x10 + sizeofHeader
    | .kfree _ _ => True

instance (boot : Boot) (act : HeapAct) : DecidablePred (RefillsAlone boot act) := fun heap =>
  match act with
  | .kalloc cpu size => inferInstanceAs (Decidable (InRange (.kalloc cpu size) heap ∧
      ((∃ p ∈ heap.free boot cpu, align size 0x10 ≤ sizes heap.pmm.memory p) ∨
        heap.free boot cpu = [] ∨ pgSize < align size 0x10 + sizeofHeader)))
  | .kfree cpu ptr => inferInstanceAs (Decidable (InRange (.kfree cpu ptr) heap ∧ True))

section Gaps

variable {size other : Nat → Nat} {list old : List Nat}

theorem Gapped.coalesced (gapped : Gapped size list) : Coalesced size list where
  sorted := gapped.imp fun {p q} less => by omega
  apart p left q right meets := by
    have sorted : list.Pairwise (· < ·) := gapped.imp fun {p q} less => by omega
    have nodup : list.Nodup := sorted.imp fun {p q} less => Nat.ne_of_lt less
    have unlike : p ≠ q := by
      simp only [sizeofHeader] at meets
      omega
    obtain ⟨i, small, rfl⟩ := List.mem_iff_getElem.mp left
    obtain ⟨j, less, rfl⟩ := List.mem_iff_getElem.mp right
    rcases Nat.lt_trichotomy i j with before | same | after
    · have gap := List.pairwise_iff_getElem.mp gapped i j small less before
      omega
    · subst same
      exact unlike rfl
    · have gap := List.pairwise_iff_getElem.mp gapped j i less small after
      simp only [sizeofHeader] at *
      omega

/-- Smaller blocks, or fewer of them. -/
theorem Gapped.shrink (gapped : Gapped size old) (sublist : list.Sublist old)
    (less : ∀ p ∈ list, other p ≤ size p) : Gapped other list := by
  refine List.Pairwise.imp_of_mem ?_ (List.Pairwise.sublist sublist gapped)
  intro p q left _ gap
  have smaller := less p left
  omega

end Gaps

section Runs

variable {boot : Boot} {heap next : Heap}

structure HeapSorted (boot : Boot) (heap : Heap) : Prop where
  sound : HeapSound boot heap
  gapped : ∀ cpu < boot.ncpu, Gapped (sizes heap.pmm.memory) (heap.free boot cpu)

/-- After a call on one CPU the other lists are as they were. -/
theorem gapped_after {cpu : Nat} {list inUse used : List Nat} {after : Memory}
    (sorted : HeapSorted boot heap)
    (tiling : Tiling boot after (Function.update (heap.free boot) cpu list) inUse)
    (kept : ∀ q ∈ boot.others (heap.free boot) cpu ++ used,
      sizes after q = sizes heap.pmm.memory q)
    (here : Gapped (sizes after) list) :
    ∀ other < boot.ncpu, Gapped (sizes after) (freeBlocks boot after other) := by
  intro other there
  rw [tiling.free_blocks there]
  by_cases same : other = cpu
  · subst same
    rw [Function.update_self]
    exact here
  · rw [Function.update_of_ne same]
    refine gapped_congr ?_ (sorted.gapped other there)
    intro q member
    apply kept
    apply List.mem_append_left
    exact List.mem_flatMap.mpr
      ⟨other, (List.mem_erase_of_ne same).mpr (List.mem_range.mpr there), member⟩

theorem heap_step_sorted {act : HeapAct} (sorted : HeapSorted boot heap)
    (alone : RefillsAlone boot act heap) (stepped : heapStep boot act heap = some next) :
    HeapSorted boot next := by
  refine ⟨heap_step_sound sorted.sound alone.1 stepped, ?_⟩
  cases act with
  | kalloc cpu size =>
      obtain ⟨here, pmm, ptr, returned, rfl⟩ := heap_step_kalloc stepped
      rcases sorted.sound.kalloc here alone.1 with none | ⟨after, p, list, ran, -, -, handed⟩
      · rw [none] at returned
        cases returned
      · rw [ran] at returned
        cases returned
        apply gapped_after sorted handed.tiling handed.kept
        rcases handed.taken with ⟨sublist, less⟩ | ⟨short, cut, page, grown⟩
        · exact (sorted.gapped cpu here).shrink sublist less
        · rcases alone.2 with ⟨q, member, enough⟩ | empty | whole
          · have less := short q member
            omega
          · rw [grown, empty, List.nil_append]
            exact List.pairwise_singleton _ _
          · omega
  | kfree cpu ptr =>
      obtain ⟨here, held, member, rfl, pmm, returned, rfl⟩ := heap_step_kfree stepped
      obtain ⟨after, list, ran, tiling, kept, gapped⟩ := sorted.sound.kfree here member
      rw [ran] at returned
      cases returned
      exact gapped_after sorted tiling kept (gapped (sorted.gapped cpu here))

theorem init_sorted (boot : Boot) (memory : Memory) : HeapSorted boot (heapInit boot memory) where
  sound := init_sound boot memory
  gapped cpu here := by
    have none : Heap.free boot (heapInit boot memory) cpu = [] :=
      (init_tiling boot memory).free_blocks here
    rw [none]
    exact List.Pairwise.nil

/-- In a run in which no page is put behind other blocks, free blocks never meet. -/
theorem free_blocks_coalesced (boot : Boot) (memory : Memory) (acts : List HeapAct) (heap : Heap)
    (guarded : GuardedRun (heapStep boot) (RefillsAlone boot) acts (heapInit boot memory))
    (ran : runSteps (heapStep boot) acts (heapInit boot memory) = some heap) :
    ∀ cpu < boot.ncpu, Coalesced (sizes heap.pmm.memory) (heap.free boot cpu) := by
  have sorted := run_invariant (heapStep boot)
    (fun _ _ _ sorted alone stepped => heap_step_sorted sorted alone stepped) acts _ heap
    (init_sorted boot memory) guarded ran
  exact fun cpu here => (sorted.gapped cpu here).coalesced

theorem free_blocks_coalesced_once : ∃ heap,
    runSteps (heapStep smallBoot) [.kalloc 0 5000, .kalloc 0 100, .kfree 0 0x2fec70]
      (heapInit smallBoot zeroMemory) = some heap ∧
    ∀ cpu < smallBoot.ncpu, Coalesced (sizes heap.pmm.memory) (heap.free smallBoot cpu) := by
  have ran : ∃ heap, runSteps (heapStep smallBoot)
      [.kalloc 0 5000, .kalloc 0 100, .kfree 0 0x2fec70] (heapInit smallBoot zeroMemory) =
        some heap := Option.isSome_iff_exists.mp (by decide +kernel)
  obtain ⟨heap, ran⟩ := ran
  exact ⟨heap, ran, free_blocks_coalesced smallBoot zeroMemory _ heap (by decide +kernel) ran⟩

/-- The second page is put behind the first one; the block that is freed then follows the rest of
the first page and is not joined with it. -/
theorem second_page_unsorted :
    ((runSteps (heapStep smallBoot) [.kalloc 0 5000, .kalloc 0 5000, .kfree 0 0x2fec70]
      (heapInit smallBoot zeroMemory)).map fun heap => (heap.free smallBoot 0).map fun p =>
        (p, p + sizeofHeader + sizes heap.pmm.memory p)) =
      some [(0x2fdff0, 0x2fec60), (0x2fbfe0, 0x2fcc50), (0x2fec60, 0x300000)] ∧
    ¬ ∀ heap, runSteps (heapStep smallBoot) [.kalloc 0 5000, .kalloc 0 5000, .kfree 0 0x2fec70]
      (heapInit smallBoot zeroMemory) = some heap →
        Coalesced (sizes heap.pmm.memory) (heap.free smallBoot 0) := by
  have blocks : ((runSteps (heapStep smallBoot) [.kalloc 0 5000, .kalloc 0 5000,
      .kfree 0 0x2fec70] (heapInit smallBoot zeroMemory)).map fun heap =>
        (heap.free smallBoot 0).map fun p =>
          (p, p + sizeofHeader + sizes heap.pmm.memory p)) =
      some [(0x2fdff0, 0x2fec60), (0x2fbfe0, 0x2fcc50), (0x2fec60, 0x300000)] := by
    decide +kernel
  refine ⟨blocks, ?_⟩
  intro claimed
  obtain ⟨heap, ran, listed⟩ := Option.map_eq_some_iff.mp blocks
  have sorted := (claimed heap ran).sorted
  have starts := congrArg (List.map Prod.fst) listed
  rw [List.map_map] at starts
  have same : heap.free smallBoot 0 = [0x2fdff0, 0x2fbfe0, 0x2fec60] := by
    simpa [Function.comp_def] using starts
  rw [same] at sorted
  exact absurd sorted (by decide)

end Runs

end OsWorkbench.Kernel
