import OsWorkbench.Kvdb.KeyCompare

/-!
# What a put wastes

`alloc_str` fetches the next block before it knows whether it needs one. As long as the free list
lasts that is a look at a link; past its end the recorded size moves on once more than the string
needs, and the block in between belongs to nothing from then on.
-/

namespace OsWorkbench.Kvdb

open ByteStore WriteTrace Regions

/-- The blocks that the characters of a string fill. -/
def needed (src : List UInt8) : Nat := (src.length + blockLen - 1) / blockLen

/-- The blocks of the free list that can be handed out. -/
def available (free : List Nat) : Nat := free.length - 1

/-- The bytes by which the recorded size moves on too far. -/
def wasted (free : List Nat) (src : List UInt8) : Nat :=
  if needed src < available free then 0 else sizeofString

section Allocating

variable {free : List Nat} {size : Nat} {src : List UInt8}

theorem needed_drop (long : blockLen < src.length) :
    needed src = needed (src.drop blockLen) + 1 := by
  simp only [needed, List.length_drop, blockLen] at long ⊢
  omega

theorem needed_one (present : src ≠ []) (short : ¬blockLen < src.length) : needed src = 1 := by
  have positive := List.length_pos_iff.mpr present
  simp only [needed, blockLen] at short ⊢
  omega

theorem plan_end_grows (tail cur size : Nat) (src : List UInt8) (present : src ≠ []) :
    (planEnd tail cur size src).size = size + sizeofString * needed src ∧
      (planEnd tail cur size src).blocks.length = needed src := by
  fun_induction planEnd tail cur size src with
  | case1 cur size src more later ih =>
      obtain ⟨grown, count⟩ := ih (by
        rw [ne_eq, List.drop_eq_nil_iff]
        exact not_le.mpr more)
      rw [needed_drop more]
      constructor
      · rw [grown, Nat.mul_succ]
        omega
      · rw [List.length_cons, count]
  | case2 cur size src last =>
      rw [needed_one present last]
      exact ⟨rfl, rfl⟩

/-- How far the recorded size moves on. -/
theorem plan_free_grows (free : List Nat) (size : Nat) (src : List UInt8) (present : src ≠ [])
    (some : free ≠ []) :
    (planFree free size src).size =
      size + sizeofString * (needed src - available free) + wasted free src := by
  fun_induction planFree free size src with
  | case1 size src => exact absurd rfl some
  | case2 tail size src later =>
      have grown := (plan_end_grows tail (size - headerLen) (size + sizeofString) src present).1
      simp only [later, grown, available, wasted]
      simp
      omega
  | case3 cur next size src more later =>
      have left : src.drop blockLen ≠ [] := by
        rw [ne_eq, List.drop_eq_nil_iff]
        exact not_le.mpr more
      have grown :=
        (plan_end_grows next (size - headerLen) (size + sizeofString) (src.drop blockLen) left).1
      simp only [later, grown, available, wasted, needed_drop more]
      simp
      omega
  | case4 cur next rest size src more further later ih =>
      have left : src.drop blockLen ≠ [] := by
        rw [ne_eq, List.drop_eq_nil_iff]
        exact not_le.mpr more
      have grown := ih left (by simp)
      have positive := List.length_pos_iff.mpr further
      have sameNeed : needed src - available (cur :: next :: rest) =
          needed (src.drop blockLen) - available (next :: rest) := by
        simp only [needed_drop more, available, List.length_cons]
        omega
      have sameWaste : wasted (cur :: next :: rest) src =
          wasted (next :: rest) (src.drop blockLen) := by
        simp only [wasted, needed_drop more, available, List.length_cons, Nat.add_sub_cancel,
          Nat.add_lt_add_iff_right]
      rw [sameNeed, sameWaste]
      exact grown
  | case5 cur next size src last saved =>
      simp [available, wasted, needed_one present last]
  | case6 cur next rest size src last saved further =>
      have positive := List.length_pos_iff.mpr further
      simp only [available, wasted, needed_one present last, List.length_cons, sizeofString]
      split_ifs <;> omega

theorem plan_grows (present : src ≠ []) (some : free ≠ []) :
    (plan free size src).size =
      size + sizeofString * (needed src - available free) + wasted free src := by
  rw [plan, if_neg present]
  exact plan_free_grows free size src present some

/-- How many blocks are handed out, and how many are left. -/
theorem plan_free_counts (free : List Nat) (size : Nat) (src : List UInt8) (present : src ≠ [])
    (some : free ≠ []) :
    (planFree free size src).blocks.length = needed src ∧
      (planFree free size src).free.length = free.length - min (needed src) (available free) := by
  fun_induction planFree free size src with
  | case1 size src => exact absurd rfl some
  | case2 tail size src later =>
      have count := (plan_end_grows tail (size - headerLen) (size + sizeofString) src present).2
      refine ⟨count, ?_⟩
      simp [later, plan_end_free, available]
  | case3 cur next size src more later =>
      have left : src.drop blockLen ≠ [] := by
        rw [ne_eq, List.drop_eq_nil_iff]
        exact not_le.mpr more
      have count :=
        (plan_end_grows next (size - headerLen) (size + sizeofString) (src.drop blockLen) left).2
      rw [needed_drop more, ← count]
      refine ⟨rfl, ?_⟩
      simp [later, plan_end_free, available]
  | case4 cur next rest size src more further later ih =>
      have left : src.drop blockLen ≠ [] := by
        rw [ne_eq, List.drop_eq_nil_iff]
        exact not_le.mpr more
      obtain ⟨count, remaining⟩ := ih left (by simp)
      have positive := List.length_pos_iff.mpr further
      rw [needed_drop more]
      refine ⟨congrArg (· + 1) count, ?_⟩
      simp only [later, remaining, available, List.length_cons]
      omega
  | case5 cur next size src last saved =>
      rw [needed_one present last]
      exact ⟨rfl, rfl⟩
  | case6 cur next rest size src last saved further =>
      have positive := List.length_pos_iff.mpr further
      rw [needed_one present last]
      refine ⟨rfl, ?_⟩
      simp only [available, List.length_cons]
      omega

/-- The blocks handed out and kept account for the growth up to what is wasted. -/
theorem plan_accounts (present : src ≠ []) (some : free ≠ []) :
    sizeofString * ((plan free size src).blocks.length + (plan free size src).free.length) + size +
        wasted free src =
      sizeofString * free.length + (plan free size src).size := by
  obtain ⟨blocks, kept⟩ := plan_free_counts free size src present some
  have positive := List.length_pos_iff.mpr some
  rw [plan_grows present some]
  simp only [plan, present, if_false, blocks, kept, available, sizeofString]
  omega

end Allocating

section Layouts

/-- The bytes that belong to something, without the header. -/
def Layout.total (layout : Layout) : Nat := (layout.regions.map Region.count).sum

/-- What a put of strings that are not empty wastes. -/
def Layout.putWaste (layout : Layout) (key value : List UInt8) : Nat :=
  match layout.find key with
  | some _ => wasted layout.free value
  | none => wasted layout.free value + wasted (layout.valueTaken value).free key

variable {layout : Layout} {key value : List UInt8}

theorem blocks_total (blocks : List Nat) :
    ((blocks.map blockRegion).map Region.count).sum = sizeofString * blocks.length := by
  induction blocks with
  | nil => rfl
  | cons block rest ih =>
      simp only [List.map_cons, List.sum_cons, ih, blockRegion, List.length_cons]
      rw [Nat.mul_succ, Nat.add_comm]

theorem layout_total (layout : Layout) :
    layout.total = (layout.live.map Region.count).sum + sizeofString * layout.free.length := by
  rw [Layout.total, Layout.regions, List.map_append, List.sum_append, blocks_total]

/-- A put moves the recorded size by what it uses and what it wastes. -/
theorem put_total (some : layout.free ≠ []) (keyPresent : key ≠ []) (valuePresent : value ≠ []) :
    (layout.put key value).total + layout.size + layout.putWaste key value =
      layout.total + (layout.put key value).size := by
  have valueAccounts : sizeofString * ((layout.valueTaken value).blocks.length +
      (layout.valueTaken value).free.length) + layout.size + wasted layout.free value =
        sizeofString * layout.free.length + (layout.valueTaken value).size :=
    plan_accounts valuePresent some
  rw [Nat.mul_add] at valueAccounts
  cases found : layout.find key with
  | some entry =>
      have perm := (@update_regions layout entry key value found).map Region.count
      have total : (layout.update entry key value).total =
          (layout.live.map Region.count).sum +
            sizeofString * (layout.valueTaken value).blocks.length +
            sizeofString * (layout.valueTaken value).free.length := by
        rw [Layout.total, perm.sum_eq]
        simp only [List.map_append, List.sum_append, blocks_total]
      simp only [Layout.put, Layout.putWaste, found]
      rw [total, layout_total layout]
      simp only [Layout.update]
      omega
  | none =>
      have left := (@plan_suffix layout.free layout.size value some).2
      have keyAccounts : sizeofString * ((layout.keyTaken key value).blocks.length +
          (layout.keyTaken key value).free.length) + (layout.valueTaken value).size +
            wasted (layout.valueTaken value).free key =
          sizeofString * (layout.valueTaken value).free.length + (layout.keyTaken key value).size :=
        plan_accounts keyPresent left
      have perm := (append_regions layout key value).map Region.count
      have total : (layout.append key value).total =
          (layout.live.map Region.count).sum +
            sizeofString * (layout.valueTaken value).blocks.length +
            sizeofString * (layout.keyTaken key value).blocks.length +
            sizeofString * (layout.keyTaken key value).free.length + sizeofTab := by
        rw [Layout.total, perm.sum_eq]
        simp only [List.map_append, List.sum_append, blocks_total, List.map_cons, List.map_nil,
          List.sum_singleton, tabRegion]
      simp only [Layout.put, Layout.putWaste, found]
      rw [total, layout_total layout]
      simp only [Layout.append]
      rw [Nat.mul_add] at keyAccounts
      omega

/-- The slack below the recorded size never shrinks. -/
theorem put_all_total (puts : List Assignment) (proper : ∀ put ∈ puts, Proper put)
    (sound : layout.Sound) :
    layout.total + (layout.putAll puts).size ≥ (layout.putAll puts).total + layout.size := by
  induction puts generalizing layout with
  | nil => exact le_rfl
  | cons put rest ih =>
      have first := proper put List.mem_cons_self
      have moved := @put_total layout put.1 put.2 sound.supply first.key.2 first.value.2
      have later := ih (fun other member => proper other (List.mem_cons_of_mem _ member))
        (sound.put put.1 put.2)
      simp only [Layout.putAll]
      omega

theorem init_total : Layout.init.total + headerLen = Layout.init.size := rfl

/-- The first put finds the tail alone in the free list. -/
theorem init_wastes (key value : List UInt8) : sizeofString ≤ Layout.init.putWaste key value := by
  have found : Layout.init.find key = none := rfl
  have all : wasted Layout.init.free value = sizeofString := by
    simp [wasted, available, Layout.init]
  simp only [Layout.putWaste, found, all]
  exact Nat.le_add_right _ _

end Layouts

section Tiling

/-- Every byte below the recorded size belongs to the header, a table entry, a block of a string
or a block of the free list. -/
def Tiled (layout : Layout) (file : File) : Prop :=
  ∀ address, address < word file.bytes freeSize →
    address < headerLen ∨ ∃ region ∈ layout.regions, address ∈ region.addresses

theorem init_tiled {file : File} (sized : word file.bytes freeSize = Layout.init.size) :
    Tiled Layout.init file := by
  intro address below
  rw [sized] at below
  simp only [Layout.init, headerLen, sizeofTab, sizeofString] at below
  rcases Nat.lt_or_ge address headerLen with header | beyond
  · exact Or.inl header
  · right
    simp only [headerLen] at beyond
    rcases Nat.lt_or_ge address (headerLen + sizeofTab) with table | block
    · refine ⟨tabRegion 0, by simp [Layout.regions, Layout.live, Layout.init], ?_⟩
      simp only [headerLen, sizeofTab, Region.addresses, tabRegion, mem_span] at table ⊢
      omega
    · refine ⟨blockRegion sizeofTab, by simp [Layout.regions, Layout.live, Layout.init], ?_⟩
      simp only [headerLen, sizeofTab, Region.addresses, blockRegion, mem_span, sizeofString]
        at block ⊢
      omega

theorem Tiled.total {layout : Layout} {file : File} (tiled : Tiled layout file)
    (sized : word file.bytes freeSize = layout.size) :
    layout.size ≤ layout.total + headerLen := by
  have covers : Covers layout.regions headerLen layout.size := by
    intro address low high
    rw [← sized] at high
    exact (tiled address high).resolve_left (not_lt.mpr low)
  have room := covers.room
  rw [Layout.total]
  omega

/-- After a run of puts all bytes are accounted for if and only if there was none; and a further
allocation moves the recorded size by what it needs beyond the free list if and only if it does
not use the list up. -/
theorem session_space (puts : List Assignment) (proper : ∀ put ∈ puts, Proper put)
    (bounded : (Layout.init.putAll puts).size < 2 ^ 32) :
    ∃ writes, Returns (fun fuel => session fuel puts) File.empty writes () ∧
      Intact (Layout.init.putAll puts) (applyAll writes File.empty) ∧
      (Tiled (Layout.init.putAll puts) (applyAll writes File.empty) ↔ puts = []) ∧
      ∀ src, src ≠ [] →
        (plan (Layout.init.putAll puts).free (Layout.init.putAll puts).size src).size < 2 ^ 32 →
        ∃ more block, Returns (fun fuel => allocStr fuel src) (applyAll writes File.empty) more
            block ∧
          (word (applyAll more (applyAll writes File.empty)).bytes freeSize =
              word (applyAll writes File.empty).bytes freeSize +
                sizeofString * (needed src - available (Layout.init.putAll puts).free) ↔
            needed src < available (Layout.init.putAll puts).free) := by
  obtain ⟨writes, ran, represents, idle⟩ := session_returns puts proper bounded
  have sized := represents.ready.supply.sized
  refine ⟨writes, ran, represents.intact idle, ?_, ?_⟩
  · constructor
    · intro tiled
      have full := tiled.total sized
      cases puts with
      | nil => rfl
      | cons put rest =>
          have first := proper put List.mem_cons_self
          have moved := @put_total Layout.init put.1 put.2 init_sound.supply first.key.2
            first.value.2
          have later := put_all_total rest
            (fun other member => proper other (List.mem_cons_of_mem _ member))
            (init_sound.put put.1 put.2)
          have lost := init_wastes put.1 put.2
          have start := init_total
          simp only [Layout.putAll] at full
          simp only [sizeofString] at lost
          omega
    · rintro rfl
      exact init_tiled sized
  · intro src present small
    obtain ⟨allocated, after⟩ := represents.ready.alloc (Or.inl present) small
    refine ⟨_, _, allocated, ?_⟩
    rw [after.supply.sized, sized, plan_grows present represents.ready.some]
    unfold wasted
    split_ifs with fewer
    · exact ⟨fun _ => fewer, fun _ => rfl⟩
    · constructor
      · intro same
        simp only [sizeofString] at same
        omega
      · exact fun less => absurd less fewer

theorem session_space_reuse :
    ∃ writes, Returns (fun fuel => session fuel reusing) File.empty writes () ∧
      ¬Tiled reused (applyAll writes File.empty) ∧
      ∃ more block, Returns (fun fuel => allocStr fuel [100]) (applyAll writes File.empty) more
          block ∧
        word (applyAll more (applyAll writes File.empty)).bytes freeSize ≠
          word (applyAll writes File.empty).bytes freeSize + sizeofString := by
  obtain ⟨writes, ran, -, tiled, moves⟩ := session_space reusing (by decide) reusing_small
  rw [reusing_layout] at tiled moves
  refine ⟨writes, ran, fun whole => ?_, ?_⟩
  · exact List.cons_ne_nil _ _ (tiled.mp whole)
  obtain ⟨more, block, allocated, grows⟩ := moves [100] (by decide)
    (by simp [plan, planFree, planEnd, reused])
  exact ⟨more, block, allocated, fun grown => absurd (grows.mp grown) (by decide)⟩

/-- A string of one character moves the size of a new database by two blocks. -/
theorem one_block_wasted :
    ∃ more block, Returns (fun fuel => allocStr fuel [97]) fresh more block ∧
      word (applyAll more fresh).bytes freeSize ≠
        word fresh.bytes freeSize + sizeofString * (needed [97] - available Layout.init.free) := by
  have ready := fresh_represents.ready
  obtain ⟨allocated, after⟩ := @Ready.alloc _ _ _ ready [97] (Or.inl (by decide))
    (init_plan_size (by decide) (by decide))
  refine ⟨_, _, allocated, ?_⟩
  rw [after.supply.sized, ready.supply.sized, plan_grows (by decide) ready.some]
  decide

end Tiling

end OsWorkbench.Kvdb
