import OsWorkbench.Kvdb.Cut

/-!
# The free list of a crashed put

What `backup_prev`, the head and the links are after any number of writes of
`alloc_str`, and when redirecting the noted block to the head gives a free list.
-/

namespace OsWorkbench.Kvdb

open ByteStore WriteTrace Regions

/-- Neither `backup_prev` nor a link has changed. -/
structure Untouched (bytes other : Bytes) (free : List Nat) : Prop where
  prev : word other backupPrev = word bytes backupPrev
  links : ∀ block ∈ free.dropLast, link other block = link bytes block

/-- The block `last` is noted; the head is that of the list `kept` behind it. -/
structure Patched (bytes other : Bytes) (front : List Nat) (last : Nat) (kept : List Nat) :
    Prop where
  prev : word other backupPrev = last
  head : word other freeHead = kept.headD 0
  links : ∀ block ∈ front ++ kept.dropLast, link other block = link bytes block

section Prefixes

variable {file : File} {free : List Nat} {size count : Nat} {src : List UInt8}

theorem take_beyond {α : Type} {first second : List α} (inside : first.length ≤ count) :
    (first ++ second).take count = first ++ second.take (count - first.length) := by
  rw [List.take_append, List.take_of_length_le inside]

theorem plan_writes (some : src ≠ []) : (plan free size src).writes =
    (planFree free size src).writes ++ [setHead ((planFree free size src).free.headD 0)] := by
  simp only [plan, if_neg some]

theorem plan_rest (some : src ≠ []) :
    (plan free size src).free = (planFree free size src).free := by
  simp only [plan, if_neg some]

theorem noted_some (noted : Noted free src) : src ≠ [] := by
  rintro rfl
  exact noted.1 rfl

/-- The head is written with one value only. -/
theorem head_settled {value : Nat} {changes : List Pwrite} (small : value < 2 ^ 32)
    (each : ∀ change ∈ changes, change = setHead value ∨
      Disjoint (touches change) (span freeHead 4))
    (settled : word file.bytes freeHead = value) :
    word (applyAll changes file).bytes freeHead = value := by
  refine @applyAll_preserves _ _ _ (fun store : File => word store.bytes freeHead = value)
    changes ?_ file settled
  intro change member store kept
  rcases each change member with rfl | avoids
  · exact (word_overlay_self _ _ _).trans (Nat.mod_eq_of_lt small)
  · exact (word_congr (apply_eqOn avoids)).trans kept

theorem set_head_avoids_prev (value : Nat) :
    Disjoint (touches (setHead value)) (span backupPrev 4) :=
  span_disjoint (Or.inl (by simp [setHead, freeHead, backupPrev]))

theorem header_avoids_link {spot value block : Nat} (inside : spot + 4 ≤ headerLen) :
    Disjoint (touches ⟨spot, wordBytes value⟩) (span (headerLen + block + blockLen) 4) :=
  link_of_block (header_avoids inside)

/-- Before a noting allocation notes its block, and before another one cuts the list. -/
theorem plan_calm_part (linked : Linked file.bytes free size) (spare : 1 < free.length)
    (some : src ≠ [])
    (early : if Noted free src then count ≤ 2 * chunks src
      else count < 2 * min (chunks src) (free.length - 1)) :
    Quiet free file.bytes (applyAll ((plan free size src).writes.take count) file).bytes := by
  rw [plan_writes some]
  by_cases noted : Noted free src
  · rw [if_pos noted] at early
    rcases plan_noted linked noted with ⟨front, last, calm, moved, -, writes, long, calmly, -, -⟩
    rw [writes, List.append_assoc, List.take_append_of_le_length (by omega)]
    apply calm_quiet
    intro change member
    exact calmly change (List.mem_of_mem_take member)
  · rw [if_neg noted] at early
    rcases plan_unnoted linked spare some noted with ⟨calm, moved, rest, writes, long, -, calmly, -⟩
    rw [writes, List.append_assoc, List.take_append_of_le_length (by omega)]
    apply calm_quiet
    intro change member
    exact calmly change (List.mem_of_mem_take member)

/-- An allocation that does not note its block, up to its first cut. -/
theorem plan_uncut_part (linked : Linked file.bytes free size) (spare : 1 < free.length)
    (some : src ≠ []) (unnoted : ¬ Noted free src)
    (early : count ≤ 2 * min (chunks src) (free.length - 1) +
      if free.length ≤ chunks src + 1 then 1 else 0) :
    Untouched file.bytes (applyAll ((plan free size src).writes.take count) file).bytes free := by
  rcases plan_unnoted linked spare some unnoted with
    ⟨calm, moved, rest, writes, long, extra, calmly, sizes, -⟩
  have part : ∀ change ∈ (plan free size src).writes.take count,
      change ∈ calm ++ setHead ((planFree free size src).free.headD 0) :: moved := by
    intro change member
    have shape : (plan free size src).writes =
        (calm ++ setHead ((planFree free size src).free.headD 0) :: moved) ++
          (rest ++ [setHead ((planFree free size src).free.headD 0)]) := by
      rw [plan_writes some, writes]
      simp
    rw [shape, List.take_append_of_le_length] at member
    · exact List.mem_of_mem_take member
    · simp only [List.length_append, List.length_cons]
      omega
  constructor
  · apply word_applyAll
    intro change member
    rcases List.mem_append.mp (part change member) with early | late
    · exact (calmly change early).prev
    · rcases List.mem_cons.mp late with rfl | size
      · exact set_head_avoids_prev _
      · rcases sizes change size with ⟨grown, rfl⟩
        exact (keeps_head_size grown _ (List.mem_singleton_self _)).2
  · intro block inside
    apply link_kept
    intro change member
    rcases List.mem_append.mp (part change member) with early | late
    · exact (calmly change early).links block inside
    · right
      rcases List.mem_cons.mp late with rfl | size
      · exact header_avoids_link (by simp [freeHead])
      · rcases sizes change size with ⟨grown, rfl⟩
        exact header_avoids_link (by simp [freeSize])

/-- With the tail alone, an allocation leaves the list as it is. -/
theorem plan_single_part {tail : Nat} (small : tail < 2 ^ 32)
    (head : word file.bytes freeHead = tail) :
    word (applyAll ((plan [tail] size src).writes.take count) file).bytes freeHead = tail ∧
      word (applyAll ((plan [tail] size src).writes.take count) file).bytes backupPrev =
        word file.bytes backupPrev := by
  have each : ∀ change ∈ (plan [tail] size src).writes, change = setHead tail ∨
      (Disjoint (touches change) (span freeHead 4) ∧
        Disjoint (touches change) (span backupPrev 4)) := by
    intro change member
    by_cases some : src = []
    · simp only [plan, if_pos some, List.mem_cons, List.not_mem_nil, or_false] at member
      rcases member with rfl | rfl
      · right
        exact keeps_head_size _ _ (List.mem_singleton_self _)
      · left; rfl
    · rw [plan_writes some] at member
      rcases List.mem_append.mp member with loop | final
      · right
        exact ((keeps_head_size _).append (plan_end_keeps_head _ _ _ _)) change loop
      · left
        rw [List.mem_singleton.mp final]
        simp [planFree, plan_end_free]
  constructor
  · apply head_settled small _ head
    intro change member
    rcases each change (List.mem_of_mem_take member) with same | avoids
    · left
      exact same
    · right
      exact avoids.1
  · apply word_applyAll
    intro change member
    rcases each change (List.mem_of_mem_take member) with rfl | avoids
    · exact set_head_avoids_prev _
    · exact avoids.2

theorem Linked.small (linked : Linked file.bytes free size) (bounded : size < 2 ^ 32) {block : Nat}
    (member : block ∈ free) : block < 2 ^ 32 := by
  have below := linked.below block member
  omega

/-- Once its block is noted and the head has moved on, an allocation can be undone. -/
theorem plan_noted_part (linked : Linked file.bytes free size) (bounded : size < 2 ^ 32)
    (noted : Noted free src) (late : 2 * chunks src + 2 ≤ count) :
    ∃ front last, free = front ++ last :: (plan free size src).free ∧
      front.length + 1 = chunks src ∧
      Patched file.bytes (applyAll ((plan free size src).writes.take count) file).bytes front last
        (plan free size src).free := by
  have some := noted_some noted
  rcases plan_noted linked noted with
    ⟨front, last, calm, moved, whole, writes, long, calmly, sizes, place⟩
  have kept := (plan_free_suffix free size src (by rw [whole]; simp)).2
  rw [plan_writes some, plan_rest some, writes]
  generalize (planFree free size src).free = back at whole kept writes ⊢
  have lastSmall : last < 2 ^ 32 := linked.small bounded (by rw [whole]; simp)
  have headSmall : back.headD 0 < 2 ^ 32 := by
    apply linked.small bounded
    rw [whole]
    exact List.mem_append_right _ (List.mem_cons_of_mem _ (headD_mem kept))
  have shape : (calm ++ setPrev last :: setHead (back.headD 0) :: (moved ++ [setLink last 0]) ++
      [setHead (back.headD 0)]).take count = calm ++ [setPrev last] ++ setHead (back.headD 0) ::
        ((moved ++ [setLink last 0]) ++ [setHead (back.headD 0)]).take (count - calm.length - 2) := by
    rw [List.append_assoc, take_beyond (by omega)]
    obtain ⟨more, enough⟩ : ∃ more, count - calm.length = more + 2 := ⟨count - calm.length - 2, by omega⟩
    rw [enough]
    simp
  rw [shape]
  have after : ∀ change ∈ ((moved ++ [setLink last 0]) ++ [setHead (back.headD 0)]).take
      (count - calm.length - 2), (∃ grown, change = setSize grown) ∨ change = setLink last 0 ∨
        change = setHead (back.headD 0) := by
    intro change member
    rcases List.mem_append.mp (List.mem_of_mem_take member) with loop | final
    · rcases List.mem_append.mp loop with size | cut
      · left
        exact sizes change size
      · right; left
        exact List.mem_singleton.mp cut
    · right; right
      exact List.mem_singleton.mp final
  generalize ((moved ++ [setLink last 0]) ++ [setHead (back.headD 0)]).take
    (count - calm.length - 2) = done at after
  refine ⟨front, last, whole, place, ?_, ?_, ?_⟩
  · rw [List.append_assoc]
    apply @word_written _ calm (setHead (back.headD 0) :: done) backupPrev last lastSmall
    intro change member
    rcases List.mem_cons.mp member with rfl | later
    · exact set_head_avoids_prev _
    · rcases after change later with ⟨grown, rfl⟩ | rfl | rfl
      · exact (keeps_head_size grown _ (List.mem_singleton_self _)).2
      · exact (keeps_head_link last 0 _ (List.mem_singleton_self _)).2
      · exact set_head_avoids_prev _
  · rw [applyAll_append, applyAll_cons]
    apply head_settled headSmall
    · intro change later
      rcases after change later with ⟨grown, rfl⟩ | rfl | rfl
      · right
        exact (keeps_head_size grown _ (List.mem_singleton_self _)).1
      · right
        exact (keeps_head_link last 0 _ (List.mem_singleton_self _)).1
      · left; rfl
    · exact (word_overlay_self _ _ _).trans (Nat.mod_eq_of_lt headSmall)
  · intro block inside
    have listed : block ∈ free.dropLast ∧ Apart last block := by
      rw [whole, List.dropLast_append_of_ne_nil (by simp), List.dropLast_cons_of_ne_nil kept]
      have apart := linked.apart
      rw [whole, List.pairwise_append, List.pairwise_cons] at apart
      rcases List.mem_append.mp inside with ahead | behind
      · constructor
        · exact List.mem_append_left _ ahead
        · exact (apart.2.2 block ahead last (by simp)).symm
      · constructor
        · exact List.mem_append_right _ (List.mem_cons_of_mem _ behind)
        · exact apart.2.1.1 block (List.mem_of_mem_dropLast behind)
    apply link_kept
    intro change member
    rcases List.mem_append.mp member with early | late
    · rcases List.mem_append.mp early with calmed | prev
      · exact (calmly change calmed).links block listed.1
      · right
        rw [List.mem_singleton.mp prev]
        exact header_avoids_link (by simp [backupPrev])
    · right
      rcases List.mem_cons.mp late with rfl | later
      · exact header_avoids_link (by simp [freeHead])
      · rcases after change later with ⟨grown, rfl⟩ | rfl | rfl
        · exact header_avoids_link (by simp [freeSize])
        · exact link_span_disjoint listed.2
        · exact header_avoids_link (by simp [freeHead])

/-- An allocation that does not note its block moves the head on before its first cut. -/
theorem plan_moved_part (linked : Linked file.bytes free size) (bounded : size < 2 ^ 32)
    (spare : 1 < free.length) (some : src ≠ []) (unnoted : ¬ Noted free src)
    (late : 2 * min (chunks src) (free.length - 1) ≤ count) :
    word (applyAll ((plan free size src).writes.take count) file).bytes freeHead =
        (plan free size src).free.headD 0 ∧
      word (applyAll ((plan free size src).writes.take count) file).bytes backupPrev =
        word file.bytes backupPrev := by
  have present : free ≠ [] := List.ne_nil_of_length_pos (by omega)
  rcases plan_unnoted linked spare some unnoted with
    ⟨calm, moved, rest, writes, long, -, calmly, sizes, keeps⟩
  have suffix := plan_free_suffix free size src present
  rw [plan_writes some, plan_rest some, writes]
  generalize (planFree free size src).free = back at suffix writes ⊢
  have headSmall : back.headD 0 < 2 ^ 32 :=
    linked.small bounded (suffix.1.subset (headD_mem suffix.2))
  have shape : (calm ++ setHead (back.headD 0) :: (moved ++ rest) ++
      [setHead (back.headD 0)]).take count = calm ++ setHead (back.headD 0) ::
        ((moved ++ rest) ++ [setHead (back.headD 0)]).take (count - calm.length - 1) := by
    rw [List.append_assoc, take_beyond (by omega)]
    obtain ⟨more, enough⟩ : ∃ more, count - calm.length = more + 1 := ⟨count - calm.length - 1, by omega⟩
    rw [enough]
    simp
  rw [shape]
  have after : ∀ change ∈ ((moved ++ rest) ++ [setHead (back.headD 0)]).take
      (count - calm.length - 1), change = setHead (back.headD 0) ∨
        (Disjoint (touches change) (span freeHead 4) ∧
          Disjoint (touches change) (span backupPrev 4)) := by
    intro change member
    rcases List.mem_append.mp (List.mem_of_mem_take member) with loop | final
    · right
      rcases List.mem_append.mp loop with size | cut
      · rcases sizes change size with ⟨grown, rfl⟩
        exact keeps_head_size grown _ (List.mem_singleton_self _)
      · exact keeps change cut
    · left
      exact List.mem_singleton.mp final
  generalize ((moved ++ rest) ++ [setHead (back.headD 0)]).take
    (count - calm.length - 1) = done at after
  constructor
  · rw [applyAll_append, applyAll_cons]
    apply head_settled headSmall
    · intro change later
      rcases after change later with same | avoids
      · left
        exact same
      · right
        exact avoids.1
    · exact (word_overlay_self _ _ _).trans (Nat.mod_eq_of_lt headSmall)
  · apply word_applyAll
    intro change member
    rcases List.mem_append.mp member with calmed | late
    · exact (calmly change calmed).prev
    · rcases List.mem_cons.mp late with rfl | later
      · exact set_head_avoids_prev _
      · rcases after change later with rfl | avoids
        · exact set_head_avoids_prev _
        · exact avoids.2

/-- No write of an allocation changes the link of a block it does not use. -/
theorem plan_link_kept {block : Nat}
    (apart : ∀ used ∈ (plan free size src).blocks, Apart used block) :
    link (applyAll ((plan free size src).writes.take count) file).bytes block =
      link file.bytes block := by
  apply word_applyAll
  intro change member
  exact link_of_block (confined_avoids (plan_confined _ _ _) apart change
    (List.mem_of_mem_take member))

end Prefixes

end OsWorkbench.Kvdb
