import OsWorkbench.Kvdb.Contents

/-!
# Comparing a key with a string just stored

`string_cmp` on what `alloc_str` has stored, whatever the free list was: it takes the string for
every longer one that goes on where its last block is full, and for no other.
-/

namespace OsWorkbench.Kvdb

open ByteStore WriteTrace Regions

/-- Stores a string, and compares a key with it as the table walks do. -/
def storedCmp (fuel : Nat) (src key : List UInt8) : Db Int := do
  let block ← allocStr fuel src
  let str ← readStr block
  stringCmp fuel key str

section Comparing

variable {file : File} {free : List Nat} {size : Nat} {src key : List UInt8}

/-- The blocks of an allocation lie behind the table entry at offset 0. -/
theorem plan_nonzero (ready : Ready file free size) (nonzero : ∀ block ∈ free, block ≠ 0) :
    ∀ block ∈ (plan free size src).blocks, block ≠ 0 := by
  intro block member
  obtain ⟨fresh, perm, isFresh⟩ := @plan_perm free size src ready.room ready.some
  rcases List.mem_append.mp (perm.subset (List.mem_append_left _ member)) with old | new
  · exact nonzero block old
  · have above := isFresh.above block new
    have below := ready.below (headD_mem ready.some)
    simp only [sizeofString] at below
    omega

theorem stored_cmp_returns (ready : Ready file free size) (nonzero : ∀ block ∈ free, block ≠ 0)
    (present : src ≠ []) (srcPlain : 0 ∉ src) (keyPlain : 0 ∉ key)
    (small : (plan free size src).size < 2 ^ 32) :
    ∃ ret, Returns (fun fuel => storedCmp fuel src key) file (plan free size src).writes ret ∧
      (ret = 0 ↔ Matches src key) := by
  obtain ⟨allocated, after⟩ := ready.alloc (Or.inl present) small
  have stored := plan_stored ready.supply ready.room ready.some small
    (fun empty => absurd empty present)
  have inFile := plan_inFile file free size src present
  have below : ∀ block ∈ (plan free size src).blocks,
      headerLen + block + sizeofString < 2 ^ 32 := by
    intro block member
    have packed : Packed ([] ++ free.map blockRegion) headerLen size := by
      refine ⟨pairwise_blocks.mpr ready.supply.apart, ?_⟩
      intro region inside
      obtain ⟨other, listed, rfl⟩ := List.mem_map.mp inside
      exact ⟨Nat.le_add_right _ _, ready.below listed⟩
    have taken := packed_plan src packed ready.room ready.some
    have bounds := taken.inside (blockRegion block)
      (List.mem_append_left _ (List.mem_append_right _ (List.mem_map_of_mem member)))
    exact Nat.lt_of_le_of_lt bounds.2 small
  have plain := @plan_nonzero _ _ _ src ready nonzero
  obtain ⟨first, rest, whole⟩ : ∃ first rest, (plan free size src).blocks = first :: rest :=
    List.exists_cons_of_ne_nil (stored_ne_nil stored)
  rw [whole] at stored inFile below plain
  have returned : (plan free size src).blocks.headD 0 = first := by rw [whole]; rfl
  rw [returned] at allocated
  obtain ⟨ret, compared, meaning⟩ := string_cmp_returns stored srcPlain keyPlain
    (fun block member => ⟨inFile block (List.mem_cons_of_mem _ member),
      below block (List.mem_cons_of_mem _ member)⟩)
    (fun block member => plain block (List.mem_cons_of_mem _ member))
  have read := read_str_does (inFile first List.mem_cons_self) (below first List.mem_cons_self)
  refine ⟨ret, ?_, meaning⟩
  have later : Returns (fun fuel => readStr first >>= fun str => stringCmp fuel key str)
      (applyAll (plan free size src).writes file) [] ret :=
    returns_bind_read read.returns compared
  have both : Returns (fun fuel => storedCmp fuel src key) file
      ((plan free size src).writes ++ []) ret := returns_bind allocated later
  rwa [List.append_nil] at both

/-- The comparison is exact if and only if the string does not shadow the key. -/
theorem string_cmp_exact (ready : Ready file free size) (nonzero : ∀ block ∈ free, block ≠ 0)
    (present : src ≠ []) (srcPlain : 0 ∉ src) (keyPlain : 0 ∉ key)
    (small : (plan free size src).size < 2 ^ 32) :
    ∃ writes ret, Returns (fun fuel => storedCmp fuel src key) file writes ret ∧
      ((ret = 0 ↔ key = src) ↔ ¬Shadows src key) := by
  obtain ⟨ret, compared, meaning⟩ :=
    stored_cmp_returns ready nonzero present srcPlain keyPlain small
  refine ⟨_, ret, compared, ?_⟩
  rw [meaning, matches_iff]
  constructor
  · intro exact shadows
    have same := exact.mp (Or.inr shadows)
    exact shadows.2.2.2 same.symm
  · intro apart
    exact ⟨fun either => either.resolve_right apart, Or.inl⟩

end Comparing

section Examples

theorem init_plan_size {src : List UInt8} (present : src ≠ []) (short : src.length ≤ 28) :
    (plan Layout.init.free Layout.init.size src).size < 2 ^ 32 := by
  have last : ¬28 < src.length := not_lt.mpr short
  simp [plan, present, planFree, planEnd, last, Layout.init]

theorem init_nonzero : ∀ block ∈ Layout.init.free, block ≠ 0 := by simp [Layout.init]

theorem string_cmp_exact_once :
    ∃ writes ret, Returns (fun fuel => storedCmp fuel [107] [107]) fresh writes ret ∧
      ((ret = 0 ↔ [107] = [(107 : UInt8)]) ↔ ¬Shadows [107] [107]) :=
  @string_cmp_exact _ _ _ [107] [107] fresh_represents.ready init_nonzero (by decide) (by decide)
    (by decide) (init_plan_size (by decide) (by decide))

/-- 28 characters are taken for 29. -/
theorem longer_key_equal :
    ∃ writes, Returns (fun fuel => storedCmp fuel (List.replicate 28 65)
      (List.replicate 28 65 ++ [66])) fresh writes 0 ∧
      List.replicate 28 65 ++ [66] ≠ List.replicate 28 (65 : UInt8) := by
  obtain ⟨ret, compared, meaning⟩ := @stored_cmp_returns _ _ _ (List.replicate 28 65)
    (List.replicate 28 65 ++ [66]) fresh_represents.ready init_nonzero (by decide) (by decide)
    (by decide) (init_plan_size (by decide) (by decide))
  have equal : ret = 0 := meaning.mpr (by decide)
  rw [equal] at compared
  exact ⟨_, compared, by decide⟩

end Examples

end OsWorkbench.Kvdb
