import OsWorkbench.Kernel.Heap

/-!
# The blocks of the heap

Headers tile the heap: the global block, the blocks of the free lists and those in use. The edits of
`alloc.c` cut a block, join two of them, or move one from a list to its user and back.
-/

namespace OsWorkbench.Kernel

open Library Regions LinkedList

def nexts (memory : Memory) (p : Nat) : Nat := (memory p).next

def sizes (memory : Memory) (p : Nat) : Nat := (memory p).size

section Fields

variable (memory : Memory) (p value : Nat)

@[simp] theorem nexts_set_next :
    nexts (setNext memory p value) = Function.update (nexts memory) p value := by
  funext q
  by_cases same : q = p <;> simp [nexts, setNext, same]

@[simp] theorem nexts_set_size : nexts (setSize memory p value) = nexts memory := by
  funext q
  by_cases same : q = p <;> simp [nexts, setSize, same]

@[simp] theorem nexts_set_fence : nexts (setFence memory p value) = nexts memory := by
  funext q
  by_cases same : q = p <;> simp [nexts, setFence, same]

@[simp] theorem sizes_set_next : sizes (setNext memory p value) = sizes memory := by
  funext q
  by_cases same : q = p <;> simp [sizes, setNext, same]

@[simp] theorem sizes_set_size :
    sizes (setSize memory p value) = Function.update (sizes memory) p value := by
  funext q
  by_cases same : q = p <;> simp [sizes, setSize, same]

@[simp] theorem sizes_set_fence : sizes (setFence memory p value) = sizes memory := by
  funext q
  by_cases same : q = p <;> simp [sizes, setFence, same]

end Fields

section Words

variable {value other unit : Nat}

theorem u32_small (small : value < 2 ^ 32) : u32 value = value := Nat.mod_eq_of_lt small

theorem u32_lt (value : Nat) : u32 value < 2 ^ 32 := Nat.mod_lt _ (by decide)

theorem sub32_small (less : other ≤ value) (small : value < 2 ^ 32) :
    sub32 value other = value - other := by
  unfold sub32 u32
  omega

theorem align_le (small : value + unit ≤ 2 ^ 32) (some : 0 < unit) :
    value ≤ align value unit := by
  unfold align
  rw [u32_small (by omega)]
  have split := Nat.div_add_mod (value + unit - 1) unit
  have bound := Nat.mod_lt (value + unit - 1) some
  rw [Nat.mul_comm] at split
  omega

theorem align_lt (small : value + unit ≤ 2 ^ 32) (some : 0 < unit) :
    align value unit < value + unit := by
  unfold align
  rw [u32_small (by omega)]
  have bound := Nat.div_mul_le_self (value + unit - 1) unit
  omega

theorem dvd_align (value unit : Nat) : unit ∣ align value unit := Dvd.intro_left _ rfl

end Words

section Boot

variable (boot : Boot)

theorem Boot.start_le : boot.heapStart ≤ boot.pmStart :=
  align_le boot.reach (by decide)

theorem Boot.start_room : boot.pmStart + sizeofHeader ≤ boot.pmEnd := boot.room

theorem Boot.end_lt : boot.pmEnd < 2 ^ 32 := boot.word

theorem Boot.sentinel_below {cpu : Nat} (here : cpu < boot.ncpu) :
    boot.sentinel cpu + sizeofHeader ≤ boot.pmStart := by
  have above := boot.start_le
  have image := boot.image
  have slot : (cpu + 1) * sizeofHeader ≤ boot.ncpu * sizeofHeader :=
    Nat.mul_le_mul_right _ here
  simp only [Boot.sentinel, sizeofHeader] at *
  omega

theorem Boot.sentinel_inj {cpu other : Nat} (same : boot.sentinel cpu = boot.sentinel other) :
    cpu = other := by
  simp only [Boot.sentinel, sizeofHeader] at same
  omega

end Boot

section Tiles

variable {size : Nat → Nat} {low high p q : Nat} {rest : List Nat}

/-- The header and the payload of a block. -/
def regionAt (size : Nat → Nat) (p : Nat) : Region := ⟨p, sizeofHeader + size p⟩

theorem regions_congr {other : Nat → Nat} {headers : List Nat}
    (same : ∀ p ∈ headers, other p = size p) :
    headers.map (regionAt other) = headers.map (regionAt size) := by
  apply List.map_congr_left
  intro p member
  simp only [regionAt, same p member]

theorem tiles_headers {headers : List Nat} (tiles : Tiles (headers.map (regionAt size)) low high) :
    headers.Nodup := by
  have starts := tiles.starts
  rw [List.map_map] at starts
  have same : Region.start ∘ regionAt size = id := rfl
  rwa [same, List.map_id] at starts

/-- The tail of a block becomes a block. -/
theorem tiles_cut {needed : Nat} (tiles : Tiles ((p :: rest).map (regionAt size)) low high)
    (fits : needed + sizeofHeader ≤ size p) :
    Tiles ((p :: (p + size p - needed) :: rest).map (regionAt
      (Function.update (Function.update size p (size p - (needed + sizeofHeader)))
        (p + size p - needed) needed))) low high := by
  have whole : regionAt size p = ⟨p, (sizeofHeader + (size p - (needed + sizeofHeader))) +
      (sizeofHeader + needed)⟩ := by
    simp only [regionAt, Region.mk.injEq, true_and]
    omega
  have place : p + (sizeofHeader + (size p - (needed + sizeofHeader))) = p + size p - needed := by
    omega
  rw [List.map_cons, whole] at tiles
  have cut := tiles.split (by simp [sizeofHeader]) (by simp [sizeofHeader])
  rw [place] at cut
  have distinct := cut.starts
  simp only [List.map_cons, List.map_map, List.nodup_cons, List.mem_cons, not_or] at distinct
  obtain ⟨⟨unlike, outside⟩, newOutside, -⟩ := distinct
  have starts : rest.map (Region.start ∘ regionAt size) = rest := List.map_id rest
  rw [starts] at outside newOutside
  convert cut using 1
  rw [List.map_cons, List.map_cons]
  congr 1
  · simp only [regionAt, Function.update_of_ne unlike, Function.update_self]
  · congr 1
    · simp only [regionAt, Function.update_self]
    · apply regions_congr
      intro other member
      rw [Function.update_of_ne, Function.update_of_ne]
      · rintro rfl
        exact outside member
      · rintro rfl
        exact newOutside member

/-- A block takes in the one that follows it. -/
theorem tiles_join (tiles : Tiles ((p :: q :: rest).map (regionAt size)) low high)
    (meets : q = p + sizeofHeader + size p) :
    Tiles ((p :: rest).map (regionAt
      (Function.update size p (size p + sizeofHeader + size q)))) low high := by
  have distinct := tiles_headers tiles
  simp only [List.nodup_cons, List.mem_cons, not_or] at distinct
  have follows : regionAt size q = ⟨p + (sizeofHeader + size p), sizeofHeader + size q⟩ := by
    simp only [regionAt, Region.mk.injEq, and_true]
    omega
  rw [List.map_cons, List.map_cons, follows] at tiles
  have joined := Tiles.merge tiles
  convert joined using 1
  rw [List.map_cons]
  congr 1
  · simp only [regionAt, Function.update_self, Region.mk.injEq, true_and]
    omega
  · apply regions_congr
    intro other member
    rw [Function.update_of_ne]
    rintro rfl
    exact distinct.1.2 member

end Tiles

end OsWorkbench.Kernel
