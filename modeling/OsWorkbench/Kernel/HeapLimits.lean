import OsWorkbench.Kernel.HeapSafe

/-!
# Requests near 2^32

The last 31 sizes wrap when they are rounded up or when a header is added. Such a request is granted
whatever it finds first, and what it gets is too small or does not fit in the heap.
-/

namespace OsWorkbench.Kernel

open Library Regions LinkedList

/-- A call halts for lack of memory or returns a block of the heap that is large enough. -/
def Grants (boot : Boot) (pmm : Pmm) (cpu size : Nat) : Prop :=
  match kalloc boot pmm cpu size with
  | .error stop => stop = .noSpace
  | .ok (after, ptr) =>
      let header := sub32 ptr sizeofHeader
      size ≤ (after.memory header).size ∧ boot.pmStart ≤ header ∧
        header + sizeofHeader + (after.memory header).size ≤ boot.pmEnd

/-- The CPU has no free block, and the global block is too small for what is asked of it. -/
def Exhausted (boot : Boot) (memory : Memory) (cpu size : Nat) : Prop :=
  (memory (boot.sentinel cpu)).next = boot.sentinel cpu ∧
    (memory boot.global).size ≤ u32 (neededFor (align size 0x10) + sizeofHeader)

section Wrapped

variable {boot : Boot} {memory after : Memory} {cpu size p : Nat}

/-- The last sizes are rounded to 0 or to a size whose sum with a header is 0. -/
theorem align_wraps (large : 2 ^ 32 ≤ size + 31) (word : size < 2 ^ 32) :
    (align size 0x10 = 0 ∧ 0x10 ≤ size) ∨
      align size 0x10 = 0xfffffff0 ∧ u32 (align size 0x10 + sizeofHeader) = 0 := by
  unfold align u32 sizeofHeader
  omega

/-- A block that is handed out as it is has the size that the walk looked for. -/
theorem scan_whole {sentinel prevp q fuel prev : Nat}
    (went : scan memory sentinel size fuel prevp p = some (.whole prev q)) :
    sizes memory q < u32 (size + sizeofHeader) := by
  induction fuel generalizing prevp p with
  | zero => simp [scan] at went
  | succ fuel hypothesis =>
      rw [scan] at went
      split_ifs at went with ended fits enough
      · simp at went
      · simp at went
      · simp only [Option.some.injEq, Scan.whole.injEq] at went
        rw [← went.2]
        exact Nat.lt_of_not_le fits
      · exact hypothesis went

/-- The recorded size is the one asked for, or less than a header more. -/
theorem kalloc_loop_size {rounds prevp : Nat}
    (ran : kallocLoop boot cpu size rounds memory prevp = .ok (after, p)) :
    sizes after p = size ∨ sizes after p < u32 (size + sizeofHeader) := by
  induction rounds generalizing memory prevp with
  | zero => simp [kallocLoop] at ran
  | succ rounds hypothesis =>
      cases went : scan memory (boot.sentinel cpu) size (boot.pmEnd + 1) prevp
          (nexts memory (boot.sentinel cpu)) with
      | none =>
          unfold nexts at went
          rw [kallocLoop] at ran
          simp only [went] at ran
          cases ran
      | some ending =>
          rw [kalloc_round _ _ _ went] at ran
          cases ending with
          | cut q =>
              left
              simp only [Except.ok.injEq, cutTail, Prod.mk.injEq] at ran
              obtain ⟨rfl, rfl⟩ := ran
              rw [sizes_set_size, Function.update_self]
          | whole prev q =>
              right
              simp only [Except.ok.injEq, Prod.mk.injEq] at ran
              obtain ⟨rfl, rfl⟩ := ran
              rw [sizes_set_next]
              exact scan_whole went
          | missed prev =>
              dsimp only at ran
              cases filled : refill boot memory (boot.sentinel cpu) prev size with
              | error stop =>
                  rw [filled] at ran
                  cases ran
              | ok refilled =>
                  rw [filled] at ran
                  exact hypothesis ran

/-- What `Grants` says of the block that `kalloc_real` returns. -/
theorem grants_iff {pmm : Pmm} (ran : kallocReal boot pmm.memory cpu size = .ok (after, p))
    (small : p < 2 ^ 32) : Grants boot pmm cpu size ↔
      size ≤ sizes after p ∧ boot.pmStart ≤ p ∧ p + sizeofHeader + sizes after p ≤ boot.pmEnd := by
  have header : sub32 (u32 (p + sizeofHeader)) sizeofHeader = p := by
    unfold sub32 u32 sizeofHeader
    omega
  have same (value : Nat) : ((setFence after p value) p).size = sizes after p :=
    congrFun (sizes_set_fence after p value) p
  unfold Grants
  rw [kalloc_of_real ran]
  dsimp only
  rw [header, same]

/-- Where a wrapped request returns, the claim on its block fails. -/
theorem wrapped_fails {pmm : Pmm} (large : 2 ^ 32 ≤ size + 31) (word : size < 2 ^ 32)
    (ran : kallocReal boot pmm.memory cpu size = .ok (after, p)) (small : p < 2 ^ 32) :
    ¬ Grants boot pmm cpu size := by
  have recorded := kalloc_loop_size ran
  have ended := boot.end_lt
  rw [grants_iff ran small]
  rintro ⟨enough, -, inside⟩
  rcases align_wraps large word with ⟨zero, some⟩ | ⟨top, none⟩
  · rw [zero] at recorded
    simp only [u32, sizeofHeader] at recorded
    omega
  · rw [none, top] at recorded
    simp only [sizeofHeader] at inside
    omega

end Wrapped

section Limits

variable {boot : Boot} {memory : Memory} {free : Nat → List Nat} {held : List Nat}
  {cpu size p : Nat}

theorem cut_tail_lt (memory : Memory) (p size : Nat) : (cutTail memory p size).2 < 2 ^ 32 :=
  u32_lt _

/-- A wrapped request takes the first block of the list. -/
theorem wrapped_listed (tiling : Tiling boot memory free held) (here : cpu < boot.ncpu)
    (large : 2 ^ 32 ≤ size + 31) (word : size < 2 ^ 32) (some : free cpu ≠ []) :
    ∃ after p, kallocReal boot memory cpu size = .ok (after, p) ∧ p < 2 ^ 32 := by
  obtain ⟨ending, went, ends⟩ := @scan_ends memory (boot.sentinel cpu) (align size 0x10)
    (boot.sentinel cpu) (free cpu) (tiling.lists cpu here)
    (List.nodup_cons.mp (tiling.distinct here)).1 (boot.pmEnd + 1) (tiling.length here)
    (boot.sentinel cpu)
  unfold kallocReal
  rw [kalloc_round _ _ _ went]
  cases ends with
  | @cut p member fits => exact ⟨_, _, rfl, cut_tail_lt memory p _⟩
  | @whole left right p shape enough tight =>
      have listed : p ∈ free cpu := by
        rw [shape]
        simp
      have above := tiling.above (Or.inl (block_listed here listed))
      have ended := boot.end_lt
      exact ⟨_, p, rfl, by omega⟩
  | missed short unfit =>
      exfalso
      obtain ⟨p, member⟩ := List.exists_mem_of_ne_nil _ some
      rcases align_wraps large word with ⟨zero, -⟩ | ⟨-, none⟩
      · have less := short p member
        omega
      · have less := unfit p member
        omega

/-- With an empty list the page is looked at next. -/
theorem wrapped_refill (tiling : Tiling boot memory free held) (here : cpu < boot.ncpu)
    (large : 2 ^ 32 ≤ size + 31) (word : size < 2 ^ 32) (empty : free cpu = [])
    (left : u32 (neededFor (align size 0x10) + sizeofHeader) < sizes memory boot.global) :
    ∃ after p, kallocReal boot memory cpu size = .ok (after, p) ∧ p < 2 ^ 32 := by
  have path := tiling.lists cpu here
  rw [empty] at path
  have start : nexts memory (boot.sentinel cpu) = boot.sentinel cpu := path
  have bounds := tiling.tiled.bounds (List.mem_cons_self ..)
  have below := boot.sentinel_below here
  have ended := boot.end_lt
  have room := boot.start_room
  have missed : scan memory (boot.sentinel cpu) (align size 0x10) (boot.pmEnd + 1)
      (boot.sentinel cpu) (nexts memory (boot.sentinel cpu)) =
      some (.missed (boot.sentinel cpu)) := by
    rw [start, scan, if_pos rfl]
  generalize placed : sub32 (u32 (boot.global + sizes memory boot.global))
    (neededFor (align size 0x10)) = page
  have above : boot.pmStart < page := by
    rcases align_wraps large word with ⟨zero, -⟩ | ⟨top, -⟩
    · have needed : neededFor 0 = 0x2000 := by decide
      rw [zero, needed] at left placed
      simp only [sub32, u32, sizeofHeader, Boot.global] at *
      omega
    · have needed : neededFor 0xfffffff0 = 0xfffffff0 := by decide
      rw [top, needed] at left placed
      simp only [sub32, u32, sizeofHeader, Boot.global] at *
      omega
  have fits : u32 (align size 0x10 + sizeofHeader) ≤ neededFor (align size 0x10) := by
    rcases align_wraps large word with ⟨zero, -⟩ | ⟨-, none⟩
    · rw [zero]
      decide
    · rw [none]
      exact Nat.zero_le _
  obtain ⟨cut, cuts⟩ : ∃ cut,
      globalAllocReal boot memory (neededFor (align size 0x10)) = (cut, page) := by
    rw [← placed]
    exact ⟨_, if_pos left⟩
  have unlike : boot.sentinel cpu ≠ page := by
    simp only [sizeofHeader] at below
    omega
  obtain ⟨refilled, filled, first, size'⟩ : ∃ refilled,
      refill boot memory (boot.sentinel cpu) (boot.sentinel cpu) (align size 0x10) = .ok refilled ∧
        nexts refilled (boot.sentinel cpu) = page ∧
        sizes refilled page = neededFor (align size 0x10) := by
    refine ⟨setSize (setNext (setNext cut (boot.sentinel cpu) page) page (boot.sentinel cpu)) page
      (neededFor (align size 0x10)), ?_, ?_, ?_⟩
    · unfold refill
      rw [cuts]
      exact if_neg (by omega)
    · simp only [nexts_set_size, nexts_set_next]
      rw [Function.update_of_ne unlike, Function.update_self]
    · simp only [sizes_set_size, Function.update_self]
  obtain ⟨less, more⟩ : ∃ less, boot.pmEnd = less + 1 :=
    ⟨boot.pmEnd - 1, by
      simp only [sizeofHeader] at room
      omega⟩
  have again : scan refilled (boot.sentinel cpu) (align size 0x10) (boot.pmEnd + 1)
      (boot.sentinel cpu) (nexts refilled (boot.sentinel cpu)) = some (.cut page) := by
    rw [first, scan, if_neg (Ne.symm unlike)]
    apply if_pos
    change u32 (align size 0x10 + sizeofHeader) ≤ sizes refilled page
    rw [size']
    exact fits
  refine ⟨(cutTail refilled page (align size 0x10)).1, (cutTail refilled page (align size 0x10)).2,
    ?_, cut_tail_lt _ _ _⟩
  unfold kallocReal
  rw [kalloc_round _ _ _ missed]
  dsimp only
  rw [filled, more]
  exact kalloc_round less _ _ again

/-- A wrapped request halts only if nothing is left to grant it from. -/
theorem wrapped_grants (tiling : Tiling boot memory free held) (here : cpu < boot.ncpu)
    (large : 2 ^ 32 ≤ size + 31) (word : size < 2 ^ 32) {pmm : Pmm} (stored : pmm.memory = memory) :
    Grants boot pmm cpu size ↔ Exhausted boot memory cpu size := by
  subst stored
  have path := tiling.lists cpu here
  constructor
  · intro grants
    by_contra unexhausted
    have returns : ∃ after p, kallocReal boot pmm.memory cpu size = .ok (after, p) ∧
        p < 2 ^ 32 := by
      by_cases empty : free cpu = []
      · apply wrapped_refill tiling here large word empty
        by_contra less
        rw [empty] at path
        exact unexhausted ⟨path, Nat.le_of_not_lt less⟩
      · exact wrapped_listed tiling here large word empty
    obtain ⟨after, p, ran, small⟩ := returns
    exact wrapped_fails large word ran small grants
  · rintro ⟨empty, less⟩
    have missed : scan pmm.memory (boot.sentinel cpu) (align size 0x10) (boot.pmEnd + 1)
        (boot.sentinel cpu) (nexts pmm.memory (boot.sentinel cpu)) =
        some (.missed (boot.sentinel cpu)) := by
      unfold nexts
      rw [empty, scan, if_pos rfl]
    have cuts : globalAllocReal boot pmm.memory (neededFor (align size 0x10)) =
        (pmm.memory, 0) := if_neg (Nat.not_lt.mpr less)
    have filled : refill boot pmm.memory (boot.sentinel cpu) (boot.sentinel cpu)
        (align size 0x10) = .error .noSpace := by
      unfold refill
      rw [cuts]
      exact if_pos rfl
    have ended : kallocReal boot pmm.memory cpu size = .error .noSpace := by
      unfold kallocReal
      rw [kalloc_round _ _ _ missed]
      dsimp only
      rw [filled]
      rfl
    unfold Grants kalloc
    rw [ended]
    rfl

/-- After any run without such requests, `kalloc` meets its purpose for every size up to 2^32 - 32,
and for the others only if it halts. -/
theorem kalloc_grants (boot : Boot) (memory : Memory) (acts : List HeapAct) (heap : Heap)
    (guarded : GuardedRun (heapStep boot) InRange acts (heapInit boot memory))
    (ran : runSteps (heapStep boot) acts (heapInit boot memory) = some heap) :
    ∀ cpu < boot.ncpu, ∀ size < 2 ^ 32, Grants boot heap.pmm cpu size ↔
      size ≤ 0xffffffe0 ∨ Exhausted boot heap.pmm.memory cpu size := by
  intro cpu here size word
  have sound := run_sound memory guarded ran
  rcases Nat.lt_or_ge (size + 31) (2 ^ 32) with small | large
  · constructor
    · exact fun _ => Or.inl (by omega)
    · intro _
      have bound : size + 0x10 + sizeofHeader ≤ 2 ^ 32 := by
        simp only [sizeofHeader]
        omega
      rcases kalloc_real_returns sound.tiling here bound with none | ⟨after, p, list, does, handed⟩
      · unfold Grants kalloc
        rw [none]
        rfl
      · have bounds := handed.tiling.above (Or.inr (List.mem_cons_self ..))
        have ended := boot.end_lt
        rw [grants_iff does (by omega)]
        refine ⟨?_, by omega, bounds.2⟩
        exact (align_le (by omega) (by decide)).trans handed.enough
  · rw [wrapped_grants sound.tiling here large word rfl]
    constructor
    · exact Or.inr
    · rintro (less | exhausted)
      · omega
      · exact exhausted

theorem kalloc_grants_once : ∃ heap,
    runSteps (heapStep smallBoot) [.kalloc 0 5000] (heapInit smallBoot zeroMemory) = some heap ∧
    ∀ cpu < smallBoot.ncpu, ∀ size < 2 ^ 32, Grants smallBoot heap.pmm cpu size ↔
      size ≤ 0xffffffe0 ∨ Exhausted smallBoot heap.pmm.memory cpu size := by
  have ran : ∃ heap, runSteps (heapStep smallBoot) [.kalloc 0 5000]
      (heapInit smallBoot zeroMemory) = some heap := Option.isSome_iff_exists.mp (by decide +kernel)
  obtain ⟨heap, ran⟩ := ran
  exact ⟨heap, ran, kalloc_grants smallBoot zeroMemory _ heap (by decide +kernel) ran⟩

/-- The largest request gets a block of no bytes. -/
theorem largest_request_empty :
    ((kalloc smallBoot (pmmInit smallBoot zeroMemory) 0 0xffffffff).toOption.map fun returned =>
      sizes returned.1.memory (sub32 returned.2 sizeofHeader)) = some 0 ∧
      ¬ Grants smallBoot (pmmInit smallBoot zeroMemory) 0 0xffffffff := by
  have empty : ((kalloc smallBoot (pmmInit smallBoot zeroMemory) 0 0xffffffff).toOption.map
      fun returned => sizes returned.1.memory (sub32 returned.2 sizeofHeader)) = some 0 := by
    decide +kernel
  refine ⟨empty, ?_⟩
  unfold Grants
  cases returned : kalloc smallBoot (pmmInit smallBoot zeroMemory) 0 0xffffffff with
  | error stop =>
      rw [returned] at empty
      cases empty
  | ok result =>
      rw [returned] at empty
      rintro ⟨enough, -⟩
      have none : sizes result.1.memory (sub32 result.2 sizeofHeader) = 0 := Option.some.inj empty
      unfold sizes at none
      rw [none] at enough
      exact absurd enough (by decide)

end Limits

end OsWorkbench.Kernel
