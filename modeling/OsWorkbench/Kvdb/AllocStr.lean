import OsWorkbench.Kvdb.AllocRun

/-!
# What a call of `alloc_str` leaves behind

The call performs its plan. Afterwards the string is stored in the blocks of the
plan, the rest of the free list is linked as before and the header describes it.
-/

namespace OsWorkbench.Kvdb

open ByteStore WriteTrace

/-- An empty string gets a block of its own only while the free list holds its
tail alone; with more blocks it shares the first of them with the next string. -/
def Served (free : List Nat) (src : List UInt8) : Prop := src ≠ [] ∨ ∃ tail, free = [tail]

section Shape

variable {free : List Nat} {size : Nat} {src : List UInt8}

theorem plan_size (free : List Nat) (size : Nat) (src : List UInt8) :
    size ≤ (plan free size src).size := by
  unfold plan
  split_ifs
  · exact Nat.le_add_right _ _
  · exact plan_free_size _ _ _

theorem plan_suffix (some : free ≠ []) :
    (plan free size src).free <:+ free ∧ (plan free size src).free ≠ [] := by
  unfold plan
  split_ifs
  · exact ⟨List.suffix_rfl, some⟩
  · exact plan_free_suffix _ _ _ some

/-- The tail is never handed out. -/
theorem plan_tail (some : free ≠ []) :
    (plan free size src).free.getLastD 0 = free.getLastD 0 := by
  obtain ⟨⟨front, whole⟩, kept⟩ := @plan_suffix free size src some
  have same := congrArg (fun blocks : List Nat => blocks.getLastD 0) whole
  simp only [List.getLastD_eq_getLast?, List.getLast?_append_of_ne_nil _ kept] at same ⊢
  exact same

theorem plan_perm (room : headerLen ≤ size) (some : free ≠ []) :
    ∃ fresh, ((plan free size src).blocks ++ (plan free size src).free).Perm (free ++ fresh) ∧
      Fresh fresh size (plan free size src).size := by
  unfold plan
  split_ifs
  · refine ⟨[size - headerLen], List.perm_append_comm, ?_⟩
    exact (fresh_nil _ _).extend room le_rfl
  · exact plan_free_perm _ _ _ room some

theorem plan_blocks_ne_nil (some : free ≠ []) : (plan free size src).blocks ≠ [] := by
  unfold plan
  split_ifs
  · simp
  · match free, some with
    | [tail], _ =>
        simp only [planFree]
        unfold planEnd
        split_ifs <;> simp
    | cur :: next :: rest, _ =>
        obtain ⟨others, blocks⟩ := plan_free_head cur next rest size src
        simp [blocks]

/-- Fresh blocks lie apart from everything below the old size. -/
theorem Fresh.apart_below {blocks : List Nat} {low high : Nat} (fresh : Fresh blocks low high)
    {block : Nat} (below : headerLen + block + sizeofString ≤ low) :
    ∀ other ∈ blocks, Apart block other := by
  intro other member
  have above := fresh.above other member
  exact Or.inl (by omega)

theorem plan_apart (room : headerLen ≤ size) (some : free ≠ [])
    (below : ∀ block ∈ free, headerLen + block + sizeofString ≤ size)
    (apart : free.Pairwise Apart) :
    ((plan free size src).blocks ++ (plan free size src).free).Pairwise Apart := by
  obtain ⟨fresh, perm, isFresh⟩ := @plan_perm free size src room some
  rw [perm.pairwise_iff Apart.symm, List.pairwise_append]
  exact ⟨apart, isFresh.apart, fun block member => isFresh.apart_below (below block member)⟩

/-- No block handed out overlaps a block that is not in the free list. -/
theorem plan_unused {block : Nat} (room : headerLen ≤ size) (some : free ≠ [])
    (below : headerLen + block + sizeofString ≤ size) (apart : ∀ other ∈ free, Apart other block) :
    ∀ other ∈ (plan free size src).blocks, Apart other block := by
  intro other member
  obtain ⟨fresh, perm, isFresh⟩ := @plan_perm free size src room some
  rcases List.mem_append.mp (perm.subset (List.mem_append_left _ member)) with old | new
  · exact apart other old
  · have above := isFresh.above other new
    exact Or.inr (by omega)

/-- Every block handed out lies below the new size. -/
theorem plan_below (room : headerLen ≤ size) (some : free ≠ [])
    (below : ∀ block ∈ free, headerLen + block + sizeofString ≤ size) :
    ∀ block ∈ (plan free size src).blocks,
      headerLen + block + sizeofString ≤ (plan free size src).size := by
  intro block member
  obtain ⟨fresh, perm, isFresh⟩ := @plan_perm free size src room some
  rcases List.mem_append.mp (perm.subset (List.mem_append_left _ member)) with old | new
  · exact (below block old).trans (plan_size _ _ _)
  · exact isFresh.below block new

end Shape

section Links

/-- Every block handed out gets its link. -/
theorem plan_end_links (tail cur size : Nat) (src : List UInt8) :
    ∀ block ∈ (planEnd tail cur size src).blocks,
      ∃ value, setLink block value ∈ (planEnd tail cur size src).writes := by
  fun_induction planEnd tail cur size src with
  | case1 cur size src more later ih =>
      intro block member
      rcases List.mem_cons.mp member with rfl | inside
      · exact ⟨size - headerLen, by simp⟩
      · obtain ⟨value, written⟩ := ih block inside
        exact ⟨value, List.mem_append_right _ written⟩
  | case2 cur size src last =>
      intro block member
      rw [List.mem_singleton.mp member]
      exact ⟨0, by simp⟩

theorem plan_free_links (free : List Nat) (size : Nat) (src : List UInt8) :
    ∀ block ∈ (planFree free size src).blocks,
      ∃ value, setLink block value ∈ (planFree free size src).writes := by
  fun_induction planFree free size src with
  | case1 size src => simp
  | case2 tail size src later =>
      intro block member
      obtain ⟨value, written⟩ := plan_end_links _ _ _ _ block member
      exact ⟨value, List.mem_cons_of_mem _ written⟩
  | case3 cur next size src more later =>
      intro block member
      rcases List.mem_cons.mp member with rfl | inside
      · exact ⟨size - headerLen, by simp⟩
      · obtain ⟨value, written⟩ := plan_end_links _ _ _ _ block inside
        exact ⟨value, List.mem_append_right _ written⟩
  | case4 cur next rest size src more further later ih =>
      intro block member
      rcases List.mem_cons.mp member with rfl | inside
      · exact ⟨next, by simp⟩
      · obtain ⟨value, written⟩ := ih block inside
        exact ⟨value, List.mem_append_right _ written⟩
  | case5 cur next size src last saved =>
      intro block member
      rw [List.mem_singleton.mp member]
      exact ⟨0, by simp⟩
  | case6 cur next rest size src last saved further =>
      intro block member
      rw [List.mem_singleton.mp member]
      exact ⟨0, by simp⟩

/-- The blocks of a string that is not empty are inside the file. -/
theorem plan_inFile (file : File) (free : List Nat) (size : Nat) (src : List UInt8)
    (present : src ≠ []) : ∀ block ∈ (plan free size src).blocks,
      headerLen + block + sizeofString ≤ (applyAll (plan free size src).writes file).size := by
  intro block member
  simp only [plan, present, if_false] at member ⊢
  obtain ⟨value, written⟩ := plan_free_links free size src block member
  have inside := @written_inside file _ _ (List.mem_append_left
    [setHead ((planFree free size src).free.headD 0)] written) (by simp [setLink, wordBytes])
  simpa [setLink, Nat.add_assoc] using inside

end Links

section Recorded

theorem plan_end_sized (file : File) (tail cur size : Nat) (src : List UInt8)
    (small : (planEnd tail cur size src).size < 2 ^ 32) :
    word (applyAll (planEnd tail cur size src).writes file).bytes freeSize =
      (planEnd tail cur size src).size := by
  fun_induction planEnd tail cur size src generalizing file with
  | case1 cur size src more later ih =>
      have continued := ih (applyAll (chunkWrites cur src ++ [setSize (size + sizeofString),
        setLink cur (size - headerLen)]) file) small
      rwa [← applyAll_append] at continued
  | case2 cur size src last =>
      rw [applyAll_append]
      exact sized_after_link (sized_after_set (applyAll (chunkWrites cur src) file) small)

theorem plan_free_sized (file : File) (free : List Nat) (size : Nat) (src : List UInt8)
    (sized : word file.bytes freeSize = size) (small : (planFree free size src).size < 2 ^ 32) :
    word (applyAll (planFree free size src).writes file).bytes freeSize =
      (planFree free size src).size := by
  fun_induction planFree free size src generalizing file with
  | case1 size src => exact sized
  | case2 tail size src later => exact plan_end_sized _ _ _ _ _ small
  | case3 cur next size src more later =>
      rw [applyAll_append]
      exact plan_end_sized _ _ _ _ _ small
  | case4 cur next rest size src more further later ih =>
      rw [applyAll_append]
      refine ih _ ?_ small
      rw [applyAll_append]
      exact sized_after_link (sized_after_chunk sized)
  | case5 cur next size src last saved =>
      rw [show chunkWrites cur src ++ saved ++ [setHead next, setSize (size + sizeofString),
        setLink cur 0] = (chunkWrites cur src ++ saved ++ [setHead next]) ++
          ([setSize (size + sizeofString)] ++ [setLink cur 0]) by simp, applyAll_append,
        applyAll_append]
      exact sized_after_link (sized_after_set _ small)
  | case6 cur next rest size src last saved further =>
      rw [show chunkWrites cur src ++ saved ++ [setHead next, setLink cur 0] =
        chunkWrites cur src ++ ((saved ++ [setHead next]) ++ [setLink cur 0]) by simp,
        applyAll_append, applyAll_append]
      refine sized_after_link (sized_after_headers (saved_outside_size ?_)
        (sized_after_chunk sized))
      intro change member
      rw [List.mem_singleton.mp member]
      exact ⟨freeHead, next, rfl, by simp [freeHead, freeSize]⟩

theorem sized_after_head (store : File) {value size : Nat}
    (sized : word store.bytes freeSize = size) :
    word (applyAll [setHead value] store).bytes freeSize = size := by
  refine sized_after_headers ?_ sized
  intro change member
  rw [List.mem_singleton.mp member]
  exact ⟨freeHead, value, rfl, by simp [freeHead, freeSize]⟩

theorem plan_sized (file : File) (free : List Nat) (size : Nat) (src : List UInt8)
    (sized : word file.bytes freeSize = size) (small : (plan free size src).size < 2 ^ 32) :
    word (applyAll (plan free size src).writes file).bytes freeSize =
      (plan free size src).size := by
  unfold plan at small ⊢
  split_ifs at small ⊢ with empty
  · exact sized_after_head _ (sized_after_set file small)
  · rw [applyAll_append]
    exact sized_after_head _ (plan_free_sized _ _ _ _ sized small)

theorem plan_head (file : File) (free : List Nat) (size : Nat) (src : List UInt8)
    (small : (plan free size src).free.headD 0 < 2 ^ 32) :
    word (applyAll (plan free size src).writes file).bytes freeHead =
      (plan free size src).free.headD 0 := by
  unfold plan at small ⊢
  split_ifs at small ⊢ with empty
  · exact (word_overlay_self _ _ _).trans (Nat.mod_eq_of_lt small)
  · rw [applyAll_append]
    exact (word_overlay_self _ _ _).trans (Nat.mod_eq_of_lt small)

/-- Outside the fields it owns, an allocation leaves the header alone. -/
theorem confined_header {file : File} {changes : List Pwrite} {blocks : List Nat} {spot count : Nat}
    (confined : Confined changes blocks) (inside : spot + count ≤ headerLen)
    (outside : ∀ field ∈ [freeHead, freeSize, backupPrev],
      field + 4 ≤ spot ∨ spot + count ≤ field) :
    Set.EqOn (applyAll changes file).bytes file.bytes (span spot count) := by
  apply applyAll_eqOn
  intro change member
  rw [Set.disjoint_left]
  intro address touched within
  have heads := outside freeHead (by simp)
  have sizes := outside freeSize (by simp)
  have prevs := outside backupPrev (by simp)
  simp only [mem_span] at within
  rcases confined change member touched with head | size | prev | ⟨other, used, block⟩
  · simp only [mem_span] at head
    omega
  · simp only [mem_span] at size
    omega
  · simp only [mem_span] at prev
    omega
  · simp only [mem_span] at block
    omega

theorem plan_keeps_tail (file : File) (free : List Nat) (size : Nat) (src : List UInt8) :
    word (applyAll (plan free size src).writes file).bytes freeTail = word file.bytes freeTail :=
  word_congr (confined_header (plan_confined _ _ _) (by simp [freeTail])
    (by simp [freeHead, freeTail, freeSize, backupPrev]))

end Recorded

section Calls

variable {file : File} {free : List Nat} {size : Nat} {src : List UInt8}

theorem Supply.keeps (supply : Supply file free size) (room : headerLen ≤ size)
    (some : free ≠ []) (small : (plan free size src).size < 2 ^ 32) :
    Supply (applyAll (plan free size src).writes file) (plan free size src).free
      (plan free size src).size := by
  refine supply.after (plan_suffix some).1 (plan_confined _ _ _) ?_
    (plan_sized _ _ _ _ supply.sized small) (plan_size _ _ _)
  intro block used other member
  exact (List.pairwise_append.mp (plan_apart room some supply.below supply.apart)).2.2 block used
    other (List.mem_of_mem_dropLast member)

/-- An empty string leaves its fresh block as it is: zero, in a file without
anything beyond its recorded size. -/
theorem plan_stored (supply : Supply file free size) (room : headerLen ≤ size) (some : free ≠ [])
    (small : (plan free size src).size < 2 ^ 32)
    (blank : src = [] → ∀ address, size ≤ address → file.bytes address = 0) :
    Stored (applyAll (plan free size src).writes file).bytes src (plan free size src).blocks := by
  by_cases empty : src = []
  · subst empty
    have untouched : Set.EqOn (applyAll [setSize (size + sizeofString), setHead (free.headD 0)]
        file).bytes (fun _ => 0) (span size sizeofString) := by
      refine (applyAll_eqOn ?_).trans fun address inside => blank rfl address inside.1
      intro change member
      simp only [List.mem_cons, List.not_mem_nil, or_false] at member
      rcases member with rfl | rfl
      · apply span_disjoint
        simp only [setSize, word_bytes_length, freeSize, headerLen] at room ⊢
        omega
      · apply span_disjoint
        simp only [setHead, word_bytes_length, freeHead, headerLen] at room ⊢
        omega
    have here : headerLen + (size - headerLen) = size := by omega
    have infoZero : info (applyAll [setSize (size + sizeofString), setHead (free.headD 0)]
        file).bytes (size - headerLen) = zeros blockLen := by
      rw [info, here]
      refine (slice_congr (untouched.mono ?_)).trans (by simp [slice, zeros])
      intro address inside
      simp only [mem_span, blockLen, sizeofString] at inside ⊢
      omega
    have linkZero : link (applyAll [setSize (size + sizeofString), setHead (free.headD 0)]
        file).bytes (size - headerLen) = 0 := by
      rw [link, here]
      refine (word_congr (untouched.mono ?_)).trans (by simp [word])
      intro address inside
      simp only [mem_span, blockLen, sizeofString] at inside ⊢
      omega
    simp only [plan, if_true]
    exact ⟨by simp, by simpa using infoZero, linkZero⟩
  · have loop := plan_free_stored file free size src some room supply.below supply.apart
      (by simpa [plan, empty] using small)
    simp only [plan, empty, if_false, applyAll_append]
    refine stored_congr ?_ loop
    intro block member
    apply applyAll_eqOn
    intro change written
    rw [List.mem_singleton.mp written]
    exact header_avoids (by simp [freeHead])

/-- A call of `alloc_str` performs its plan and returns the first block. -/
theorem alloc_str_returns (supply : Supply file free size) (room : headerLen ≤ size)
    (some : free ≠ []) (head : word file.bytes freeHead = free.headD 0)
    (tail : word file.bytes freeTail = free.getLastD 0) (served : Served free src)
    (small : (plan free size src).size < 2 ^ 32) :
    Returns (fun fuel => allocStr fuel src) file (plan free size src).writes
      ((plan free size src).blocks.headD 0) := by
  have listed := @pread_unchecked_does file freeHead 8 (by
    have header := supply.header
    simp only [freeHead, headerLen] at header ⊢
    omega)
  have first : wordOf (slice file.bytes freeHead 8) 0 = free.headD 0 := by
    rw [word_of_slice _ _ _ _ (by omega)]
    exact head
  have second : wordOf (slice file.bytes freeHead 8) 4 = free.getLastD 0 := by
    rw [word_of_slice _ _ _ _ (by omega)]
    exact tail
  refine returns_bind_read listed.returns ?_
  simp only [first, second]
  cases free with
  | nil => exact absurd rfl some
  | cons cur rest =>
  cases rest with
  | nil =>
      have alike : (([cur] : List Nat).headD 0 != ([cur] : List Nat).getLastD 0) = false := by
        simp
      have sizeLater := plan_size [cur] size src
      rw [alike]
      by_cases empty : src = []
      · subst empty
        have fresh := new_block_does supply.header supply.sized room
          (by simpa [plan] using small)
        have loop (store : File) : Returns (fun fuel => allocLoop cur fuel false
            (size - headerLen) []) store [] (false, size - headerLen) := by
          apply returns_of_succ
          simp only [allocLoop, if_true]
          exact (does_ret _ _).returns
        have headed (store : File) : Does (pwrite freeHead (wordBytes cur) >>= fun _ =>
            pure (size - headerLen)) store [setHead cur] (size - headerLen) :=
          does_bind (pwrite_does _ _ _) (does_ret _ _)
        exact returns_bind fresh.returns (returns_bind (loop _) (headed _).returns)
      · have smallLoop : (planEnd cur (size - headerLen) (size + sizeofString) src).size <
            2 ^ 32 := by simpa [plan, empty, planFree] using small
        have grown := plan_end_size cur (size - headerLen) (size + sizeofString) src
        have fresh := new_block_does supply.header supply.sized room (by omega)
        have loop := alloc_end_returns (applyAll [setSize (size + sizeofString)] file) cur
          (size - headerLen) (size + sizeofString) src empty (header_after _ supply.header)
          (sized_after_set file (by omega)) (by omega) (by omega) smallLoop
        have headed (store : File) : Does (pwrite freeHead (wordBytes cur) >>= fun _ =>
            pure (size - headerLen)) store [setHead cur] (size - headerLen) :=
          does_bind (pwrite_does _ _ _) (does_ret _ _)
        obtain ⟨later, blocks, -⟩ := plan_end_blocks cur (size - headerLen)
          (size + sizeofString) src (by omega)
        simp only [plan, empty, if_false, planFree, blocks, List.headD_cons, plan_end_free]
        change Returns _ file ([setSize (size + sizeofString)] ++ ((planEnd cur
          (size - headerLen) (size + sizeofString) src).writes ++ [setHead cur])) _
        exact returns_bind fresh.returns (returns_bind loop (headed _).returns)
  | cons next rest =>
      have present : src ≠ [] := by
        rcases served with present | ⟨tail, single⟩
        · exact present
        · simp at single
      have unlike : ((cur :: next :: rest).headD 0 != (cur :: next :: rest).getLastD 0) = true := by
        have separate := (List.pairwise_cons.mp supply.apart).1
          ((next :: rest).getLast (by simp)) (List.getLast_mem _)
        have last : (cur :: next :: rest).getLastD 0 = (next :: rest).getLast (by simp) := rfl
        rw [last, bne_iff_ne, List.headD_cons]
        intro same
        rw [← same] at separate
        simp only [sizeofString] at separate
        omega
      rw [unlike]
      obtain ⟨ended, loop, ending⟩ := alloc_free_returns file (cur :: next :: rest) size src
        present (by simp) room supply (by simpa [plan, present] using small)
      obtain ⟨others, blocks⟩ := plan_free_head cur next rest size src
      have headed (store : File) : Does (pwrite freeHead (wordBytes (if ended.1 then ended.2
          else (cur :: next :: rest).getLastD 0)) >>= fun _ => pure cur) store
          [setHead ((planFree (cur :: next :: rest) size src).free.headD 0)] cur := by
        rw [ending]
        exact does_bind (pwrite_does _ _ _) (does_ret _ _)
      simp only [plan, present, if_false, blocks, List.headD_cons]
      exact returns_bind_read (does_ret _ _).returns (returns_bind loop (headed _).returns)

end Calls

end OsWorkbench.Kvdb
