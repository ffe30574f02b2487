import OsWorkbench.Kernel.HeapAlloc
import OsWorkbench.Kernel.HeapFree

/-!
# Runs of the memory manager

From `pmm_init` on the headers tile the heap, as long as no request is so near to 2^32 that its sum
with a header wraps. The lists are those that the headers themselves lead through.
-/

namespace OsWorkbench.Kernel

open Library Regions LinkedList

/-- The blocks that a walk from `p` to the sentinel meets. -/
def listFrom (memory : Memory) (sentinel : Nat) : Nat → Nat → List Nat
  | 0, _ => []
  | fuel + 1, p =>
      if p = sentinel then [] else p :: listFrom memory sentinel fuel (memory p).next

def freeBlocks (boot : Boot) (memory : Memory) (cpu : Nat) : List Nat :=
  listFrom memory (boot.sentinel cpu) (boot.pmEnd + 1) (memory (boot.sentinel cpu)).next

/-- The header of a block in use. -/
def Held.header (held : Held) : Nat := held.ptr - sizeofHeader

def Heap.free (boot : Boot) (heap : Heap) : Nat → List Nat := freeBlocks boot heap.pmm.memory

def Heap.headers (heap : Heap) : List Nat := heap.live.map Held.header

/-- What holds between two calls. -/
structure HeapSound (boot : Boot) (heap : Heap) : Prop where
  tiling : Tiling boot heap.pmm.memory (heap.free boot) heap.headers
  granted : ∀ held ∈ heap.live,
    sizeofHeader ≤ held.ptr ∧ held.request ≤ sizes heap.pmm.memory held.header

section Lists

variable {boot : Boot} {memory : Memory} {free : Nat → List Nat} {held : List Nat} {cpu : Nat}

theorem list_from_path {sentinel a : Nat} {nodes : List Nat}
    (path : Path (nexts memory) a nodes sentinel) (outside : sentinel ∉ nodes) {fuel : Nat}
    (enough : nodes.length < fuel) : listFrom memory sentinel fuel (nexts memory a) = nodes := by
  induction nodes generalizing a fuel with
  | nil =>
      obtain ⟨fuel, rfl⟩ : ∃ less, fuel = less + 1 := ⟨fuel - 1, by simp at enough; omega⟩
      have here : nexts memory a = sentinel := path
      rw [listFrom, here, if_pos rfl]
  | cons p rest hypothesis =>
      obtain ⟨fuel, rfl⟩ : ∃ less, fuel = less + 1 := ⟨fuel - 1, by simp at enough; omega⟩
      have here : nexts memory a = p := path.1
      have unlike : p ≠ sentinel := fun same => outside (by simp [same])
      have further := hypothesis path.2 (fun member => outside (List.mem_cons_of_mem _ member))
        (Nat.lt_of_succ_lt_succ enough)
      unfold nexts at further
      rw [listFrom, here, if_neg unlike, further]

/-- The lists that the headers lead through are the lists. -/
theorem Tiling.free_blocks (tiling : Tiling boot memory free held) (here : cpu < boot.ncpu) :
    freeBlocks boot memory cpu = free cpu :=
  list_from_path (tiling.lists cpu here) (List.nodup_cons.mp (tiling.distinct here)).1
    (tiling.length here)

theorem Tiling.own (tiling : Tiling boot memory free held) :
    Tiling boot memory (freeBlocks boot memory) held where
  lists cpu here := by
    rw [tiling.free_blocks here]
    exact tiling.lists cpu here
  guards := tiling.guards
  tiled := by
    have same : boot.blocks (freeBlocks boot memory) = boot.blocks free := by
      apply List.flatMap_congr
      intro cpu member
      exact tiling.free_blocks (List.mem_range.mp member)
    rw [same]
    exact tiling.tiled

end Lists

section Starting

variable (boot : Boot) (memory : Memory)

/-- The loop of `pmm_init`, for the first `count` CPUs. -/
theorem init_lists (count : Nat) : ∀ cpu < count,
    nexts ((List.range count).foldl (fun memory i =>
      setSize (setNext memory (boot.sentinel i) (boot.sentinel i)) (boot.sentinel i) 0) memory)
        (boot.sentinel cpu) = boot.sentinel cpu ∧
    sizes ((List.range count).foldl (fun memory i =>
      setSize (setNext memory (boot.sentinel i) (boot.sentinel i)) (boot.sentinel i) 0) memory)
        (boot.sentinel cpu) = 0 := by
  induction count with
  | zero => exact fun cpu less => absurd less (Nat.not_lt_zero cpu)
  | succ count hypothesis =>
      intro cpu less
      rw [List.range_succ, List.foldl_append]
      simp only [List.foldl_cons, List.foldl_nil, nexts_set_size, nexts_set_next, sizes_set_size,
        sizes_set_next]
      by_cases same : cpu = count
      · subst same
        simp only [Function.update_self, and_self]
      · have unlike : boot.sentinel cpu ≠ boot.sentinel count :=
          fun equal => same (boot.sentinel_inj equal)
        rw [Function.update_of_ne unlike, Function.update_of_ne unlike]
        exact hypothesis cpu (by omega)

theorem init_tiling : Tiling boot (pmmInit boot memory).memory (fun _ => []) [] := by
  have room := boot.start_room
  have ended := boot.end_lt
  have size : sub32 (sub32 boot.pmEnd boot.pmStart) sizeofHeader =
      boot.pmEnd - boot.pmStart - sizeofHeader := by
    rw [sub32_small (by omega) ended, sub32_small (by omega) (by omega)]
  have apart (cpu : Nat) (here : cpu < boot.ncpu) : boot.sentinel cpu ≠ boot.global := by
    have below := boot.sentinel_below here
    simp only [Boot.global, sizeofHeader] at below ⊢
    omega
  constructor
  · intro cpu here
    simp only [pmmInit, nexts_set_size, nexts_set_next, path_nil]
    rw [Function.update_of_ne (apart cpu here)]
    exact (init_lists boot memory boot.ncpu cpu here).1
  · intro cpu here
    simp only [pmmInit, sizes_set_size, sizes_set_next]
    rw [Function.update_of_ne (apart cpu here)]
    exact (init_lists boot memory boot.ncpu cpu here).2
  · have none : boot.blocks (fun _ => []) = [] := by simp [Boot.blocks]
    have here : sizes (pmmInit boot memory).memory boot.global =
        boot.pmEnd - boot.pmStart - sizeofHeader := by
      simp only [pmmInit, sizes_set_size, Function.update_self]
      exact size
    rw [none]
    constructor
    · have whole : regionAt (sizes (pmmInit boot memory).memory) boot.global =
          ⟨boot.pmStart, boot.pmEnd - boot.pmStart⟩ := by
        unfold regionAt
        rw [here, Nat.add_comm, Nat.sub_add_cancel (by omega)]
        rfl
      simp only [List.append_nil, List.map_cons, List.map_nil, whole]
      apply tiles_single
      simp only [sizeofHeader] at room
      omega
    · intro aligned p member
      have same : p = boot.global := by simpa using member
      have start : 0x10 ∣ boot.pmStart :=
        (Dvd.intro 512 rfl : 0x10 ∣ pgSize).trans (dvd_align boot.heapStart pgSize)
      rw [same, here]
      exact ⟨start, Nat.dvd_sub (Nat.dvd_sub aligned start) (Nat.dvd_refl 0x10)⟩

theorem init_sound : HeapSound boot (heapInit boot memory) where
  tiling := (init_tiling boot memory).own
  granted := nofun

end Starting

section Stepping

variable {boot : Boot} {heap : Heap} {cpu : Nat}

/-- No sum with the request wraps. -/
def InRange (act : HeapAct) (_ : Heap) : Prop :=
  match act with
  | .kalloc _ size => size + 31 < 2 ^ 32
  | .kfree _ _ => True

instance (act : HeapAct) : DecidablePred (InRange act) := fun _ =>
  match act with
  | .kalloc _ size => inferInstanceAs (Decidable (size + 31 < 2 ^ 32))
  | .kfree _ _ => inferInstanceAs (Decidable True)

/-- A call of `kalloc` that stays in range. -/
theorem HeapSound.kalloc (sound : HeapSound boot heap) (here : cpu < boot.ncpu) {size : Nat}
    (small : size + 31 < 2 ^ 32) :
    Kernel.kalloc boot heap.pmm cpu size = .error .noSpace ∨
      ∃ pmm p list, Kernel.kalloc boot heap.pmm cpu size = .ok (pmm, p + sizeofHeader) ∧
        sizeofHeader ≤ p ∧ size ≤ sizes pmm.memory p ∧
        Handed boot heap.pmm.memory pmm.memory (heap.free boot) heap.headers cpu
          (align size 0x10) p list := by
  have bound : size + 0x10 + sizeofHeader ≤ 2 ^ 32 := by
    simp only [sizeofHeader]
    omega
  rcases kalloc_real_returns sound.tiling here bound with none | ⟨after, p, list, ran, handed⟩
  · left
    unfold Kernel.kalloc
    rw [none]
    rfl
  · right
    have above := handed.tiling.above (Or.inr (List.mem_cons_self ..))
    have ended := boot.end_lt
    refine ⟨⟨setFence after p 0x13579ace,
      u32 (heap.pmm.allocCnt + (setFence after p 0x13579ace p).size), heap.pmm.freeCnt⟩, p, list,
      ?_, ?_, ?_, ?_, ?_, ?_, ?_⟩
    · rw [kalloc_of_real ran, @u32_small (p + sizeofHeader) (by omega)]
    · omega
    · rw [sizes_set_fence]
      exact (align_le (by omega) (by decide)).trans handed.enough
    · exact handed.tiling.congr (by simp) (by simp)
    · rw [sizes_set_fence]
      exact handed.enough
    · unfold Taken
      rw [sizes_set_fence]
      exact handed.taken
    · rw [sizes_set_fence]
      exact handed.kept

/-- A call of `kfree` for a block in use. -/
theorem HeapSound.kfree (sound : HeapSound boot heap) (here : cpu < boot.ncpu) {held : Held}
    (member : held ∈ heap.live) :
    ∃ pmm list, Kernel.kfree boot heap.pmm cpu held.ptr = .ok pmm ∧
      Tiling boot pmm.memory (Function.update (heap.free boot) cpu list)
        (heap.headers.erase held.header) ∧
      (∀ q ∈ boot.others (heap.free boot) cpu ++ heap.headers.erase held.header,
        sizes pmm.memory q = sizes heap.pmm.memory q) ∧
      (Gapped (sizes heap.pmm.memory) (heap.free boot cpu) → Gapped (sizes pmm.memory) list) := by
  have above := (sound.granted held member).1
  have place : held.header + sizeofHeader = held.ptr := Nat.sub_add_cancel above
  obtain ⟨after, list, ran, tiling, kept, gapped⟩ :=
    kfree_real_returns sound.tiling here (List.mem_map_of_mem (f := Held.header) member)
  rw [place] at ran
  refine ⟨⟨after, heap.pmm.allocCnt,
    u32 (heap.pmm.freeCnt + (heap.pmm.memory (sub32 held.ptr sizeofHeader)).size)⟩, list, ?_,
    tiling, kept, gapped⟩
  unfold Kernel.kfree
  rw [if_neg (by simp only [sizeofHeader] at above; omega), ran]
  rfl

theorem headers_erase {live : List Held} (distinct : (live.map Held.header).Nodup) {held : Held}
    (member : held ∈ live) :
    (live.map Held.header).erase held.header = (live.erase held).map Held.header := by
  induction live with
  | nil => simp at member
  | cons first rest hypothesis =>
      obtain ⟨outside, later⟩ := List.nodup_cons.mp distinct
      by_cases same : first = held
      · subst same
        rw [List.map_cons, List.erase_cons_head, List.erase_cons_head]
      · have further : held ∈ rest := (List.mem_cons.mp member).resolve_left (Ne.symm same)
        have unlike : first.header ≠ held.header := by
          intro equal
          exact outside (equal ▸ List.mem_map_of_mem further)
        rw [List.map_cons, List.erase_cons_tail (by simpa using unlike),
          List.erase_cons_tail (by simpa using same), List.map_cons, hypothesis later further]

/-- What the step of a call is. -/
theorem heap_step_kalloc {size : Nat} {next : Heap}
    (stepped : heapStep boot (.kalloc cpu size) heap = some next) :
    cpu < boot.ncpu ∧ ∃ pmm ptr, Kernel.kalloc boot heap.pmm cpu size = .ok (pmm, ptr) ∧
      next = ⟨pmm, ⟨ptr, size⟩ :: heap.live⟩ := by
  simp only [heapStep] at stepped
  split at stepped
  next allowed =>
    refine ⟨allowed.1, ?_⟩
    split at stepped
    next pmm ptr returned => exact ⟨pmm, ptr, returned, (Option.some.inj stepped).symm⟩
    next => simp at stepped
  next => simp at stepped

theorem heap_step_kfree {ptr : Nat} {next : Heap}
    (stepped : heapStep boot (.kfree cpu ptr) heap = some next) :
    cpu < boot.ncpu ∧ ∃ held ∈ heap.live, held.ptr = ptr ∧
      ∃ pmm, Kernel.kfree boot heap.pmm cpu ptr = .ok pmm ∧
        next = ⟨pmm, heap.live.erase held⟩ := by
  simp only [heapStep] at stepped
  split at stepped
  next allowed =>
    refine ⟨allowed, ?_⟩
    split at stepped
    next => simp at stepped
    next held found =>
      refine ⟨held, List.mem_of_find?_eq_some found, by simpa using List.find?_some found, ?_⟩
      split at stepped
      next pmm returned => exact ⟨pmm, returned, (Option.some.inj stepped).symm⟩
      next => simp at stepped
  next => simp at stepped

/-- One call, by its kind. -/
theorem heap_step_sound {act : HeapAct} {next : Heap} (sound : HeapSound boot heap)
    (inRange : InRange act heap) (stepped : heapStep boot act heap = some next) :
    HeapSound boot next := by
  cases act with
  | kalloc cpu size =>
      obtain ⟨here, pmm, ptr, returned, rfl⟩ := heap_step_kalloc stepped
      rcases sound.kalloc here inRange with none | ⟨after, p, list, ran, above, enough, handed⟩
      · rw [none] at returned
        cases returned
      · rw [ran] at returned
        cases returned
        have header : Held.header ⟨p + sizeofHeader, size⟩ = p := Nat.add_sub_cancel p sizeofHeader
        constructor
        · have tiling := handed.tiling.own
          simp only [Heap.headers, List.map_cons, header]
          exact tiling
        · intro held member
          rcases List.mem_cons.mp member with rfl | old
          · rw [header]
            exact ⟨Nat.le_add_left _ _, enough⟩
          · obtain ⟨place, granted⟩ := sound.granted held old
            refine ⟨place, ?_⟩
            rw [handed.kept _ (List.mem_append_right _ (List.mem_map_of_mem old))]
            exact granted
  | kfree cpu ptr =>
      obtain ⟨here, held, member, rfl, pmm, returned, rfl⟩ := heap_step_kfree stepped
      obtain ⟨after, list, ran, tiling, kept, -⟩ := sound.kfree here member
      rw [ran] at returned
      cases returned
      have distinct := (List.nodup_append.mp
        (List.nodup_cons.mp sound.tiling.tiled.nodup).2).2.1
      have erased := headers_erase distinct member
      rw [show heap.headers.erase held.header = (heap.live.erase held).map Held.header from erased]
        at tiling kept
      refine ⟨tiling.own, ?_⟩
      intro other inside
      obtain ⟨place, granted⟩ := sound.granted other (List.mem_of_mem_erase inside)
      refine ⟨place, ?_⟩
      rw [kept _ (List.mem_append_right _ (List.mem_map_of_mem inside))]
      exact granted

theorem run_sound (memory : Memory) {acts : List HeapAct}
    (guarded : GuardedRun (heapStep boot) InRange acts (heapInit boot memory))
    (ran : runSteps (heapStep boot) acts (heapInit boot memory) = some heap) :
    HeapSound boot heap :=
  run_invariant (heapStep boot)
    (fun _ _ _ sound inRange stepped => heap_step_sound sound inRange stepped) acts _ heap
    (init_sound boot memory) guarded ran

end Stepping

section Tiling

variable {boot : Boot} {heap : Heap}

/-- The heap as a whole: the global block, the free blocks and the blocks in use fill it, each block
is in one list at most, and a pointer leads to a block that is large enough. -/
structure HeapTiled (boot : Boot) (heap : Heap) : Prop where
  tiles : Tiles ((boot.global :: (boot.blocks (heap.free boot) ++ heap.headers)).map
    (regionAt (sizes heap.pmm.memory))) boot.pmStart boot.pmEnd
  once : (boot.blocks (heap.free boot) ++ heap.headers).Nodup
  granted : ∀ held ∈ heap.live, 0x10 ∣ held.ptr ∧ held.ptr = held.header + sizeofHeader ∧
    held.request ≤ sizes heap.pmm.memory held.header

/-- No call runs out of fuel. -/
structure CallsEnd (boot : Boot) (heap : Heap) : Prop where
  kalloc : ∀ cpu < boot.ncpu, ∀ size, size + 31 < 2 ^ 32 →
    Kernel.kalloc boot heap.pmm cpu size ≠ .error .fuel
  kfree : ∀ cpu < boot.ncpu, ∀ held ∈ heap.live,
    ∃ pmm, Kernel.kfree boot heap.pmm cpu held.ptr = .ok pmm

theorem HeapSound.tiled (sound : HeapSound boot heap) (aligned : 0x10 ∣ boot.pmEnd) :
    HeapTiled boot heap where
  tiles := sound.tiling.tiled.tiles
  once := (List.nodup_cons.mp sound.tiling.tiled.nodup).2
  granted held member := by
    obtain ⟨above, enough⟩ := sound.granted held member
    have listed : held.header ∈ boot.global :: (boot.blocks (heap.free boot) ++ heap.headers) :=
      List.mem_cons_of_mem _ (List.mem_append_right _ (List.mem_map_of_mem member))
    have place : held.ptr = held.header + sizeofHeader := (Nat.sub_add_cancel above).symm
    refine ⟨?_, place, enough⟩
    rw [place]
    exact Nat.dvd_add (sound.tiling.tiled.aligned aligned _ listed).1 (Nat.dvd_refl 0x10)

theorem HeapSound.calls_end (sound : HeapSound boot heap) : CallsEnd boot heap where
  kalloc cpu here size small := by
    rcases sound.kalloc here small with none | ⟨after, p, list, ran, -⟩
    · rw [none]
      nofun
    · rw [ran]
      nofun
  kfree cpu here held member := by
    obtain ⟨pmm, list, ran, -⟩ := sound.kfree here member
    exact ⟨pmm, ran⟩

/-- After any run of calls on any CPUs the blocks tile the heap. -/
theorem heap_tiled (boot : Boot) (aligned : 0x10 ∣ boot.heapEnd) (memory : Memory)
    (acts : List HeapAct) (heap : Heap)
    (guarded : GuardedRun (heapStep boot) InRange acts (heapInit boot memory))
    (ran : runSteps (heapStep boot) acts (heapInit boot memory) = some heap) :
    HeapTiled boot heap ∧ CallsEnd boot heap :=
  ⟨(run_sound memory guarded ran).tiled aligned, (run_sound memory guarded ran).calls_end⟩

/-- One CPU and a heap of one megabyte. -/
def smallBoot : Boot where
  ncpu := 1
  freeList := 0x100000
  heapStart := 0x200000
  heapEnd := 0x300000
  image := by decide
  reach := by decide
  room := by decide
  word := by decide

def zeroMemory : Memory := fun _ => ⟨0, 0, 0⟩

theorem heap_tiled_once : ∃ heap,
    runSteps (heapStep smallBoot) [.kalloc 0 5000, .kfree 0 0x2fec70]
      (heapInit smallBoot zeroMemory) = some heap ∧
    HeapTiled smallBoot heap ∧ CallsEnd smallBoot heap := by
  have ran : ∃ heap, runSteps (heapStep smallBoot) [.kalloc 0 5000, .kfree 0 0x2fec70]
      (heapInit smallBoot zeroMemory) = some heap := Option.isSome_iff_exists.mp (by decide +kernel)
  obtain ⟨heap, ran⟩ := ran
  exact ⟨heap, ran, heap_tiled smallBoot (by decide) zeroMemory _ heap
    (by decide +kernel) ran⟩

end Tiling

end OsWorkbench.Kernel
