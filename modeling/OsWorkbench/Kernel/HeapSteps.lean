import OsWorkbench.Kernel.HeapBlocks

/-!
# What `kalloc` and `kfree` do to the heap

`free` names the blocks of each free list in the order of the list, `held` those in use. One lemma
for each way in which the two calls edit the headers.
-/

namespace OsWorkbench.Kernel

open Library Regions LinkedList

/-- The blocks tile the heap; if its end is aligned then so are they. -/
structure Tiled (boot : Boot) (size : Nat → Nat) (headers : List Nat) : Prop where
  tiles : Tiles (headers.map (regionAt size)) boot.pmStart boot.pmEnd
  aligned : 0x10 ∣ boot.pmEnd → ∀ p ∈ headers, 0x10 ∣ p ∧ 0x10 ∣ size p

def Boot.blocks (boot : Boot) (free : Nat → List Nat) : List Nat :=
  (List.range boot.ncpu).flatMap free

/-- The blocks in the lists of the other CPUs. -/
def Boot.others (boot : Boot) (free : Nat → List Nat) (cpu : Nat) : List Nat :=
  ((List.range boot.ncpu).erase cpu).flatMap free

structure Tiling (boot : Boot) (memory : Memory) (free : Nat → List Nat) (held : List Nat) :
    Prop where
  lists : ∀ cpu < boot.ncpu,
    Path (nexts memory) (boot.sentinel cpu) (free cpu) (boot.sentinel cpu)
  guards : ∀ cpu < boot.ncpu, sizes memory (boot.sentinel cpu) = 0
  tiled : Tiled boot (sizes memory) (boot.global :: (boot.blocks free ++ held))

section Tiled

variable {boot : Boot} {size : Nat → Nat} {headers others : List Nat} {p q needed : Nat}

theorem Tiled.perm (tiled : Tiled boot size headers) (perm : others.Perm headers) :
    Tiled boot size others where
  tiles := tiled.tiles.perm (perm.map _)
  aligned ended p member := tiled.aligned ended p (perm.subset member)

theorem Tiled.bounds (tiled : Tiled boot size headers) (member : p ∈ headers) :
    boot.pmStart ≤ p ∧ p + sizeofHeader + size p ≤ boot.pmEnd := by
  have inside := tiled.tiles.packed.inside _ (List.mem_map_of_mem member)
  simp only [regionAt] at inside
  omega

theorem Tiled.nodup (tiled : Tiled boot size headers) : headers.Nodup := tiles_headers tiled.tiles

/-- Two blocks do not overlap. -/
theorem Tiled.apart (tiled : Tiled boot size headers) (left : p ∈ headers) (right : q ∈ headers)
    (unlike : p ≠ q) : p + sizeofHeader + size p ≤ q ∨ q + sizeofHeader + size q ≤ p := by
  have clear := tiled.tiles.packed.clear_of_ne (List.mem_map_of_mem (f := regionAt size) left)
    (List.mem_map_of_mem (f := regionAt size) right) (by
      intro same
      exact unlike (congrArg Region.start same))
  simp only [Clear, regionAt] at clear
  omega

theorem Tiled.cut (tiled : Tiled boot size (p :: others)) (fits : needed + sizeofHeader ≤ size p)
    (unit : 0x10 ∣ needed) :
    Tiled boot (Function.update (Function.update size p (size p - (needed + sizeofHeader)))
      (p + size p - needed) needed) (p :: (p + size p - needed) :: others) where
  tiles := tiles_cut tiled.tiles fits
  aligned ended q member := by
    have distinct := tiles_headers (tiles_cut tiled.tiles fits)
    simp only [List.nodup_cons, List.mem_cons, not_or] at distinct
    obtain ⟨first, second⟩ := tiled.aligned ended p (by simp)
    rcases List.mem_cons.mp member with rfl | later
    · rw [Function.update_of_ne distinct.1.1, Function.update_self]
      refine ⟨first, Nat.dvd_sub second (Nat.dvd_add unit ?_)⟩
      exact Nat.dvd_refl 0x10
    · rcases List.mem_cons.mp later with rfl | further
      · rw [Function.update_self]
        exact ⟨Nat.dvd_sub (Nat.dvd_add first second) unit, unit⟩
      · rw [Function.update_of_ne, Function.update_of_ne]
        · exact tiled.aligned ended q (List.mem_cons_of_mem _ further)
        · rintro rfl
          exact distinct.1.2 further
        · rintro rfl
          exact distinct.2.1 further

/-- Any of the blocks is cut. -/
theorem Tiled.cut_at (tiled : Tiled boot size headers) (member : p ∈ headers)
    (fits : needed + sizeofHeader ≤ size p) (unit : 0x10 ∣ needed) :
    p + size p - needed ∉ headers ∧
      Tiled boot (Function.update (Function.update size p (size p - (needed + sizeofHeader)))
        (p + size p - needed) needed) ((p + size p - needed) :: headers) := by
  have perm := List.perm_cons_erase member
  have cut := (tiled.perm perm.symm).cut fits unit
  have swapped := cut.perm ((perm.cons (p + size p - needed)).trans (List.Perm.swap _ _ _))
  exact ⟨(List.nodup_cons.mp swapped.nodup).1, swapped⟩

theorem Tiled.join (tiled : Tiled boot size (p :: q :: others))
    (meets : q = p + sizeofHeader + size p) :
    Tiled boot (Function.update size p (size p + sizeofHeader + size q)) (p :: others) where
  tiles := tiles_join tiled.tiles meets
  aligned ended other member := by
    have distinct := tiled.nodup
    simp only [List.nodup_cons, List.mem_cons, not_or] at distinct
    rcases List.mem_cons.mp member with rfl | further
    · rw [Function.update_self]
      have first := tiled.aligned ended other (by simp)
      have second := tiled.aligned ended q (by simp)
      exact ⟨first.1, Nat.dvd_add (Nat.dvd_add first.2 (Nat.dvd_refl 0x10)) second.2⟩
    · rw [Function.update_of_ne]
      · exact tiled.aligned ended other (by simp [further])
      · rintro rfl
        exact distinct.1.2 further

/-- A block is joined with the one that follows it in the heap. -/
theorem Tiled.join_at (tiled : Tiled boot size headers) (member : p ∈ headers) (also : q ∈ headers)
    (meets : q = p + sizeofHeader + size p) :
    Tiled boot (Function.update size p (size p + sizeofHeader + size q)) (headers.erase q) := by
  have unlike : p ≠ q := by
    simp only [sizeofHeader] at meets
    omega
  have left := List.perm_cons_erase also
  have inside : p ∈ headers.erase q := (List.mem_erase_of_ne unlike).mpr member
  have right := List.perm_cons_erase inside
  have both := left.trans ((right.cons q).trans (List.Perm.swap _ _ _))
  exact ((tiled.perm both.symm).join meets).perm right

end Tiled

section Lists

variable {boot : Boot} {memory after : Memory} {free : Nat → List Nat} {held : List Nat}
  {cpu other p : Nat}

theorem blocks_perm (boot : Boot) (free : Nat → List Nat) (here : cpu < boot.ncpu) :
    (boot.blocks free).Perm (free cpu ++ boot.others free cpu) :=
  (List.perm_cons_erase (List.mem_range.mpr here)).flatMap_right free

theorem others_update (boot : Boot) (free : Nat → List Nat) (list : List Nat) :
    boot.others (Function.update free cpu list) cpu = boot.others free cpu := by
  unfold Boot.others
  apply List.flatMap_congr
  intro visited member
  apply Function.update_of_ne
  rintro rfl
  exact (List.nodup_range.not_mem_erase) member

theorem blocks_update_perm (boot : Boot) (free : Nat → List Nat) (list : List Nat)
    (here : cpu < boot.ncpu) :
    (boot.blocks (Function.update free cpu list)).Perm (list ++ boot.others free cpu) := by
  have perm := blocks_perm boot (Function.update free cpu list) here
  rwa [others_update, Function.update_self] at perm

theorem block_listed (here : cpu < boot.ncpu) (member : p ∈ free cpu) : p ∈ boot.blocks free :=
  List.mem_flatMap.mpr ⟨cpu, List.mem_range.mpr here, member⟩

/-- The lists seen from one CPU. -/
theorem Tiling.focus (tiling : Tiling boot memory free held) (here : cpu < boot.ncpu) :
    Tiled boot (sizes memory)
      (boot.global :: (free cpu ++ (boot.others free cpu ++ held))) := by
  refine tiling.tiled.perm (List.Perm.cons _ ?_)
  rw [← List.append_assoc]
  exact ((blocks_perm boot free here).append_right held).symm

theorem Tiling.above (tiling : Tiling boot memory free held) (member : p ∈ boot.blocks free ∨ p ∈ held) :
    boot.pmStart + sizeofHeader ≤ p ∧ p + sizeofHeader + sizes memory p ≤ boot.pmEnd := by
  have listed : p ∈ boot.blocks free ++ held := List.mem_append.mpr member
  have bounds := tiling.tiled.bounds (List.mem_cons_of_mem boot.global listed)
  have unlike : boot.global ≠ p := by
    rintro rfl
    exact (List.nodup_cons.mp tiling.tiled.nodup).1 listed
  have apart := tiling.tiled.apart (List.mem_cons_self ..) (List.mem_cons_of_mem _ listed) unlike
  simp only [Boot.global, sizeofHeader] at *
  omega

theorem Tiling.outside (tiling : Tiling boot memory free held) (here : cpu < boot.ncpu)
    (member : p ∈ boot.blocks free ∨ p ∈ held) : boot.sentinel cpu ≠ p := by
  have below := boot.sentinel_below here
  have above := tiling.above member
  simp only [sizeofHeader] at below above
  omega

theorem Tiling.distinct (tiling : Tiling boot memory free held) (here : cpu < boot.ncpu) :
    (boot.sentinel cpu :: free cpu).Nodup := by
  refine List.nodup_cons.mpr ⟨?_, ?_⟩
  · intro member
    exact tiling.outside here (Or.inl (block_listed here member)) rfl
  · have nodup := (List.nodup_cons.mp (tiling.focus here).nodup).2
    exact (List.nodup_append.mp nodup).1

/-- The lists are shorter than the heap. -/
theorem Tiling.length (tiling : Tiling boot memory free held) (here : cpu < boot.ncpu) :
    (free cpu).length < boot.pmEnd + 1 := by
  have subset : free cpu ⊆ List.range boot.pmEnd := by
    intro p member
    have above := tiling.above (Or.inl (block_listed here member))
    simp only [sizeofHeader] at above
    exact List.mem_range.mpr (by omega)
  have fewer := (List.subperm_of_subset (List.nodup_cons.mp (tiling.distinct here)).2 subset).length_le
  rw [List.length_range] at fewer
  omega

/-- What one CPU's list consists of is in no other list. -/
theorem Tiling.elsewhere (tiling : Tiling boot memory free held) (here : cpu < boot.ncpu)
    (there : other < boot.ncpu) (unlike : other ≠ cpu)
    (placed : p ∈ boot.sentinel cpu :: free cpu ∨ p ∈ held) :
    p ∉ boot.sentinel other :: free other := by
  intro member
  have nodup := (List.nodup_cons.mp (tiling.focus here).nodup).2
  obtain ⟨-, later, apart⟩ := List.nodup_append.mp nodup
  obtain ⟨-, -, apartHeld⟩ := List.nodup_append.mp later
  have listed (inside : p ∈ free other) : p ∈ boot.others free cpu :=
    List.mem_flatMap.mpr ⟨other, (List.mem_erase_of_ne unlike).mpr (List.mem_range.mpr there),
      inside⟩
  rcases placed with own | inUse
  · rcases List.mem_cons.mp own with rfl | inside
    · rcases List.mem_cons.mp member with same | inOther
      · exact unlike (boot.sentinel_inj same).symm
      · exact tiling.outside here (Or.inl (block_listed there inOther)) rfl
    · rcases List.mem_cons.mp member with rfl | inOther
      · exact tiling.outside there (Or.inl (block_listed here inside)) rfl
      · exact apart p inside p (List.mem_append_left _ (listed inOther)) rfl
  · rcases List.mem_cons.mp member with rfl | inOther
    · exact tiling.outside there (Or.inr inUse) rfl
    · exact apartHeld p (listed inOther) p inUse rfl

/-- One CPU's list, the sizes and the blocks in use have changed. -/
theorem Tiling.edit (tiling : Tiling boot memory free held) (here : cpu < boot.ncpu)
    {list inUse : List Nat}
    (path : Path (nexts after) (boot.sentinel cpu) list (boot.sentinel cpu))
    (frame : ∀ other < boot.ncpu, other ≠ cpu → ∀ p ∈ boot.sentinel other :: free other,
      nexts after p = nexts memory p)
    (guards : ∀ p < boot.pmStart, sizes after p = sizes memory p)
    (tiled : Tiled boot (sizes after) (boot.global :: (list ++ (boot.others free cpu ++ inUse)))) :
    Tiling boot after (Function.update free cpu list) inUse where
  lists other there := by
    by_cases same : other = cpu
    · subst same
      rw [Function.update_self]
      exact path
    · rw [Function.update_of_ne same]
      exact (tiling.lists other there).congr (frame other there same)
  guards other there := by
    have below := boot.sentinel_below there
    rw [guards _ (by simp only [sizeofHeader] at below; omega)]
    exact tiling.guards other there
  tiled := by
    refine tiled.perm (List.Perm.cons _ ?_)
    rw [← List.append_assoc]
    exact (blocks_update_perm boot free list here).append_right inUse

theorem Tiling.congr (tiling : Tiling boot memory free held) (next : nexts after = nexts memory)
    (size : sizes after = sizes memory) : Tiling boot after free held where
  lists := by
    rw [next]
    exact tiling.lists
  guards := by
    rw [size]
    exact tiling.guards
  tiled := by
    rw [size]
    exact tiling.tiled

end Lists

end OsWorkbench.Kernel
