import OsWorkbench.Kvdb.Frames

/-!
# Where `alloc_str` cuts the free list

Up to a certain write an allocation leaves the links of the free list as they
were. It then moves the head on and cuts the last block taken off. If the string
ends inside that block, the block is first noted in `backup_prev`.
-/

namespace OsWorkbench.Kvdb

open ByteStore WriteTrace Regions

/-- The blocks a string fills. -/
def chunks (src : List UInt8) : Nat := (src.length + blockLen - 1) / blockLen

/-- The string ends inside a block of the free list that is not its tail. -/
def Noted (free : List Nat) (src : List UInt8) : Prop :=
  src.length % blockLen ≠ 0 ∧ chunks src < free.length

instance (free : List Nat) (src : List UInt8) : Decidable (Noted free src) :=
  inferInstanceAs (Decidable (_ ∧ _))

/-- A write that leaves the head, `backup_prev` and all links of the free list alone. -/
structure Calm (bytes : Bytes) (free : List Nat) (change : Pwrite) : Prop where
  head : Disjoint (touches change) (span freeHead 4)
  prev : Disjoint (touches change) (span backupPrev 4)
  links : ∀ block ∈ free.dropLast, change = setLink block (link bytes block) ∨
    Disjoint (touches change) (span (headerLen + block + blockLen) 4)

section Calmness

variable {bytes : Bytes} {file : File} {cur next : Nat} {free rest : List Nat} {src : List UInt8}

theorem link_span_disjoint {block other value : Nat} (apart : Apart block other) :
    Disjoint (touches (setLink block value)) (span (headerLen + other + blockLen) 4) := by
  apply span_disjoint
  simp only [setLink, word_bytes_length, Apart, headerLen, blockLen, sizeofString] at apart ⊢
  omega

theorem chunk_link_disjoint {other : Nat} (apart : cur = other ∨ Apart cur other) :
    ∀ change ∈ chunkWrites cur src,
      Disjoint (touches change) (span (headerLen + other + blockLen) 4) := by
  apply chunk_writes_avoid
  apply span_disjoint
  simp only [Apart, headerLen, blockLen, sizeofString] at apart ⊢
  omega

theorem chunk_calm (apart : ∀ block ∈ free.dropLast, cur = block ∨ Apart cur block) :
    ∀ change ∈ chunkWrites cur src, Calm bytes free change := by
  intro change member
  constructor
  · exact chunk_avoids_header (by simp [freeHead]) change member
  · exact chunk_avoids_header (by simp [backupPrev]) change member
  · intro block inside
    right
    exact chunk_link_disjoint (apart block inside) change member

theorem Calm.cons {change : Pwrite} (calm : Calm bytes (next :: rest) change)
    (avoids : Disjoint (touches change) (span (headerLen + cur) sizeofString)) :
    Calm bytes (cur :: next :: rest) change where
  head := calm.head
  prev := calm.prev
  links := by
    intro block inside
    rcases List.mem_cons.mp inside with rfl | later
    · right
      exact link_of_block avoids
    · exact calm.links block later

/-- The link that a round in the middle of the list writes is the one already there. -/
theorem relink_calm (linked : link bytes cur = next)
    (apart : ∀ block ∈ (next :: rest).dropLast, Apart cur block) :
    Calm bytes (cur :: next :: rest) (setLink cur next) where
  head := link_avoids_header (by simp [freeHead])
  prev := link_avoids_header (by simp [backupPrev])
  links := by
    intro block inside
    rcases List.mem_cons.mp inside with rfl | later
    · left
      rw [linked]
    · right
      exact link_span_disjoint (apart block later)

/-- A link is the same if every write leaves it alone or writes what is there. -/
theorem link_kept {block : Nat} {changes : List Pwrite}
    (each : ∀ change ∈ changes, change = setLink block (link file.bytes block) ∨
      Disjoint (touches change) (span (headerLen + block + blockLen) 4)) :
    link (applyAll changes file).bytes block = link file.bytes block := by
  refine @applyAll_preserves _ _ _ (fun store : File =>
    link store.bytes block = link file.bytes block) changes ?_ file rfl
  intro change member store kept
  rcases each change member with same | avoids
  · rw [same]
    exact (word_overlay_self _ _ _).trans (Nat.mod_eq_of_lt (word_lt _ _))
  · exact (word_congr (apply_eqOn avoids)).trans kept

/-- What calm writes leave as it was. -/
structure Quiet (free : List Nat) (bytes other : Bytes) : Prop where
  head : word other freeHead = word bytes freeHead
  prev : word other backupPrev = word bytes backupPrev
  links : ∀ block ∈ free.dropLast, link other block = link bytes block

theorem calm_quiet {changes : List Pwrite}
    (calm : ∀ change ∈ changes, Calm file.bytes free change) :
    Quiet free file.bytes (applyAll changes file).bytes where
  head := word_applyAll fun change member => (calm change member).head
  prev := word_applyAll fun change member => (calm change member).prev
  links := by
    intro block inside
    apply link_kept
    intro change member
    exact (calm change member).links block inside

end Calmness

section Cutting

variable {bytes : Bytes} {free : List Nat} {size : Nat} {src : List UInt8}

/-- The blocks of the free list, as an allocation meets them. -/
structure Linked (bytes : Bytes) (free : List Nat) (size : Nat) : Prop where
  chain : free.IsChain fun block next => link bytes block = next
  below : ∀ block ∈ free, headerLen + block + sizeofString ≤ size
  apart : free.Pairwise Apart
  room : headerLen ≤ size

theorem Linked.rest {cur : Nat} {rest : List Nat} (linked : Linked bytes (cur :: rest) size) :
    Linked bytes rest size where
  chain := linked.chain.tail
  below := fun block member => linked.below block (List.mem_cons_of_mem _ member)
  apart := (List.pairwise_cons.mp linked.apart).2
  room := linked.room

theorem Linked.next {cur next : Nat} {rest : List Nat}
    (linked : Linked bytes (cur :: next :: rest) size) : link bytes cur = next :=
  (List.isChain_cons_cons.mp linked.chain).1

theorem Linked.head_apart {cur : Nat} {rest : List Nat}
    (linked : Linked bytes (cur :: rest) size) : ∀ block ∈ rest, Apart cur block :=
  (List.pairwise_cons.mp linked.apart).1

/-- The chunk written to the head of the list. -/
theorem Linked.chunk_calm {cur : Nat} {rest : List Nat}
    (linked : Linked bytes (cur :: rest) size) :
    ∀ change ∈ chunkWrites cur src, Calm bytes (cur :: rest) change := by
  apply OsWorkbench.Kvdb.chunk_calm
  intro block inside
  rcases List.mem_cons.mp (List.mem_of_mem_dropLast inside) with rfl | later
  · left; rfl
  · right
    exact linked.head_apart block later

/-- Calm writes of the later rounds are calm for the whole list. -/
theorem Linked.later_calm {cur next : Nat} {rest : List Nat} {changes : List Pwrite}
    (linked : Linked bytes (cur :: next :: rest) size)
    (part : changes ⊆ (planFree (next :: rest) size src).writes)
    (calm : ∀ change ∈ changes, Calm bytes (next :: rest) change) :
    ∀ change ∈ changes, Calm bytes (cur :: next :: rest) change := by
  have separate : ∀ other ∈ (planFree (next :: rest) size src).blocks, Apart other cur := by
    apply plan_free_apart linked.room (by simp) (linked.below cur (by simp))
    intro other member
    exact (linked.head_apart other member).symm
  intro change member
  exact (calm change member).cons
    (confined_avoids (plan_free_confined _ _ _) separate change (part member))

theorem chunk_length_short {cur : Nat} (short : src.length < blockLen) :
    (chunkWrites cur src).length = 2 := by
  simp only [chunkWrites, if_pos short, List.length_cons, List.length_nil]

theorem chunk_length_full {cur : Nat} (full : blockLen ≤ src.length) :
    (chunkWrites cur src).length = 1 := by
  simp only [chunkWrites, if_neg (Nat.not_lt.mpr full), List.length_cons, List.length_nil]

theorem chunks_drop (more : blockLen < src.length) :
    chunks src = chunks (src.drop blockLen) + 1 := by
  simp only [chunks, List.length_drop, blockLen] at more ⊢
  omega

theorem noted_drop {cur next : Nat} {rest : List Nat} (more : blockLen < src.length) :
    Noted (cur :: next :: rest) src ↔ Noted (next :: rest) (src.drop blockLen) := by
  have fewer := chunks_drop more
  simp only [Noted, List.length_drop, List.length_cons, blockLen] at more fewer ⊢
  omega

/-- An allocation that notes its last block. -/
theorem plan_noted (linked : Linked bytes free size) (noted : Noted free src) :
    ∃ front last calm moved, free = front ++ last :: (planFree free size src).free ∧
      (planFree free size src).writes = calm ++ setPrev last ::
        setHead ((planFree free size src).free.headD 0) :: (moved ++ [setLink last 0]) ∧
      calm.length = 2 * chunks src ∧ (∀ change ∈ calm, Calm bytes free change) ∧
      (∀ change ∈ moved, ∃ grown, change = setSize grown) ∧ front.length + 1 = chunks src := by
  fun_induction planFree free size src with
  | case1 size src =>
      have none := noted.2
      simp at none
  | case2 tail size src later =>
      exfalso
      have some := noted.1
      have few := noted.2
      simp only [chunks, List.length_cons, List.length_nil, blockLen] at some few
      omega
  | case3 cur next size src more later =>
      exfalso
      have few := noted.2
      simp only [chunks, List.length_cons, List.length_nil, blockLen] at more few
      omega
  | case4 cur next rest size src more further later ih =>
      rcases ih linked.rest ((noted_drop more).mp noted) with
        ⟨front, last, calm, moved, whole, writes, count, calmly, sizes, place⟩
      have part : calm ⊆ later.writes := by
        rw [writes]
        exact List.subset_append_left _ _
      refine ⟨cur :: front, last, chunkWrites cur src ++ [setLink cur next] ++ calm, moved,
        ?_, ?_, ?_, ?_, sizes, ?_⟩
      · rw [List.cons_append]
        exact congrArg (cur :: ·) whole
      · simp only [List.append_assoc]
        exact congrArg (fun more => chunkWrites cur src ++ ([setLink cur next] ++ more)) writes
      · have full := @chunk_length_full src cur (Nat.le_of_lt more)
        have fewer := chunks_drop more
        simp only [List.length_append, List.length_cons, List.length_nil, full, count]
        omega
      · intro change member
        rcases List.mem_append.mp member with early | late
        · rcases List.mem_append.mp early with chunk | relink
          · exact linked.chunk_calm change chunk
          · rw [List.mem_singleton.mp relink]
            apply relink_calm linked.next
            intro block inside
            exact linked.head_apart block (List.mem_of_mem_dropLast inside)
        · exact linked.later_calm part calmly change late
      · rw [List.length_cons, place, chunks_drop more]
  | case5 cur next size src last saved =>
      have short : src.length < blockLen := by
        have loose := noted.1
        simp only [blockLen] at loose last ⊢
        omega
      refine ⟨[], cur, chunkWrites cur src, [setSize (size + sizeofString)], rfl, ?_, ?_,
        linked.chunk_calm, ?_, ?_⟩
      · simp only [saved, if_pos short, List.append_assoc]
        rfl
      · have some := noted.1
        rw [chunk_length_short short]
        simp only [chunks, blockLen] at some short ⊢
        omega
      · intro change member
        exact ⟨_, List.mem_singleton.mp member⟩
      · have some := noted.1
        simp only [chunks, List.length_nil, blockLen] at some short ⊢
        omega
  | case6 cur next rest size src last saved further =>
      have short : src.length < blockLen := by
        have loose := noted.1
        simp only [blockLen] at loose last ⊢
        omega
      refine ⟨[], cur, chunkWrites cur src, [], rfl, ?_, ?_, linked.chunk_calm, ?_, ?_⟩
      · simp only [saved, if_pos short, List.append_assoc]
        rfl
      · have some := noted.1
        rw [chunk_length_short short]
        simp only [chunks, blockLen] at some short ⊢
        omega
      · intro change member
        cases member
      · have some := noted.1
        simp only [chunks, List.length_nil, blockLen] at some short ⊢
        omega

/-- Writes that leave the head and `backup_prev` alone. -/
def KeepsHead (changes : List Pwrite) : Prop :=
  ∀ change ∈ changes, Disjoint (touches change) (span freeHead 4) ∧
    Disjoint (touches change) (span backupPrev 4)

theorem KeepsHead.append {first second : List Pwrite} (left : KeepsHead first)
    (right : KeepsHead second) : KeepsHead (first ++ second) := by
  intro change member
  rcases List.mem_append.mp member with inside | inside
  · exact left change inside
  · exact right change inside

theorem keeps_head_size (grown : Nat) : KeepsHead [setSize grown] := by
  intro change member
  rw [List.mem_singleton.mp member]
  constructor
  · exact span_disjoint (Or.inr (by simp [setSize, freeHead, freeSize]))
  · exact span_disjoint (Or.inl (by simp [setSize, backupPrev, freeSize]))

theorem keeps_head_above {change : Pwrite} (above : headerLen ≤ change.offset) :
    KeepsHead [change] := by
  intro other member
  rw [List.mem_singleton.mp member]
  constructor
  · apply span_disjoint
    simp only [freeHead, headerLen] at above ⊢
    omega
  · apply span_disjoint
    simp only [backupPrev, headerLen] at above ⊢
    omega

theorem keeps_head_chunk (cur : Nat) (src : List UInt8) : KeepsHead (chunkWrites cur src) := by
  intro change member
  constructor
  · exact chunk_avoids_header (by simp [freeHead]) change member
  · exact chunk_avoids_header (by simp [backupPrev]) change member

theorem keeps_head_link (block value : Nat) : KeepsHead [setLink block value] := by
  apply keeps_head_above
  simp only [setLink]
  omega

/-- Past the free list no write concerns it. -/
theorem plan_end_keeps_head (tail cur size : Nat) (src : List UInt8) :
    KeepsHead (planEnd tail cur size src).writes := by
  fun_induction planEnd tail cur size src with
  | case1 cur size src more later ih =>
      apply KeepsHead.append
      · apply (keeps_head_chunk cur src).append
        exact (keeps_head_size _).append (keeps_head_link _ _)
      · exact ih
  | case2 cur size src last =>
      apply (keeps_head_chunk cur src).append
      exact (keeps_head_size _).append (keeps_head_link _ _)

/-- An allocation that cuts the list without noting where: the head has moved on when the
first link changes. -/
theorem plan_unnoted (linked : Linked bytes free size) (spare : 1 < free.length)
    (some : src ≠ []) (unnoted : ¬ Noted free src) :
    ∃ calm moved rest, (planFree free size src).writes = calm ++
        setHead ((planFree free size src).free.headD 0) :: (moved ++ rest) ∧
      calm.length + 1 = 2 * min (chunks src) (free.length - 1) ∧
      moved.length = (if free.length ≤ chunks src + 1 then 1 else 0) ∧
      (∀ change ∈ calm, Calm bytes free change) ∧
      (∀ change ∈ moved, ∃ grown, change = setSize grown) ∧ KeepsHead rest := by
  fun_induction planFree free size src with
  | case1 size src => simp at spare
  | case2 tail size src later => simp at spare
  | case3 cur next size src more later =>
      refine ⟨chunkWrites cur src, [setSize (size + sizeofString)],
        setLink cur (size - headerLen) :: later.writes, ?_, ?_, ?_, linked.chunk_calm, ?_, ?_⟩
      · simp only [later, plan_end_free, List.append_assoc]
        rfl
      · rw [chunk_length_full (Nat.le_of_lt more)]
        simp only [chunks, List.length_cons, List.length_nil, blockLen] at more ⊢
        omega
      · rw [if_pos]
        · rfl
        · simp only [chunks, List.length_cons, List.length_nil, blockLen] at more ⊢
          omega
      · intro change member
        exact ⟨_, List.mem_singleton.mp member⟩
      · exact (keeps_head_link _ _).append (plan_end_keeps_head _ _ _ _)
  | case4 cur next rest size src more further later ih =>
      have positive := List.length_pos_iff.mpr further
      have spareLater : 1 < (next :: rest).length := by
        rw [List.length_cons]
        omega
      have someLater : src.drop blockLen ≠ [] := by
        rw [ne_eq, List.drop_eq_nil_iff]
        omega
      rcases ih linked.rest spareLater someLater (fun noted => unnoted ((noted_drop more).mpr noted))
        with ⟨calm, moved, others, writes, count, extra, calmly, sizes, keeps⟩
      have part : calm ⊆ later.writes := by
        simp only [later, writes]
        exact List.subset_append_left _ _
      have fewer := chunks_drop more
      refine ⟨chunkWrites cur src ++ [setLink cur next] ++ calm, moved, others, ?_, ?_, ?_, ?_,
        sizes, keeps⟩
      · simp only [List.append_assoc]
        exact congrArg (fun more => chunkWrites cur src ++ ([setLink cur next] ++ more)) writes
      · have full := @chunk_length_full src cur (Nat.le_of_lt more)
        simp only [List.length_append, List.length_cons, List.length_nil, full] at count ⊢
        omega
      · rw [extra, fewer]
        simp only [List.length_cons]
        split_ifs <;> omega
      · intro change member
        rcases List.mem_append.mp member with early | late
        · rcases List.mem_append.mp early with chunk | relink
          · exact linked.chunk_calm change chunk
          · rw [List.mem_singleton.mp relink]
            apply relink_calm linked.next
            intro block inside
            exact linked.head_apart block (List.mem_of_mem_dropLast inside)
        · exact linked.later_calm part calmly change late
  | case5 cur next size src last saved =>
      have full : src.length = blockLen := by
        have positive := List.length_pos_iff.mpr some
        simp only [Noted, chunks, List.length_cons, List.length_nil, blockLen] at unnoted last ⊢
        omega
      refine ⟨chunkWrites cur src, [setSize (size + sizeofString)], [setLink cur 0], ?_, ?_, ?_,
        linked.chunk_calm, ?_, keeps_head_link _ _⟩
      · simp only [saved, if_neg (Nat.not_lt.mpr full.ge), List.append_assoc]
        rfl
      · rw [chunk_length_full full.ge]
        simp only [chunks, List.length_cons, List.length_nil, blockLen] at full ⊢
        omega
      · rw [if_pos]
        · rfl
        · simp only [chunks, List.length_cons, List.length_nil, blockLen] at full ⊢
          omega
      · intro change member
        exact ⟨_, List.mem_singleton.mp member⟩
  | case6 cur next rest size src last saved further =>
      have positive := List.length_pos_iff.mpr some
      have longer := List.length_pos_iff.mpr further
      have full : src.length = blockLen := by
        simp only [Noted, chunks, List.length_cons, blockLen] at unnoted last ⊢
        omega
      refine ⟨chunkWrites cur src, [], [setLink cur 0], ?_, ?_, ?_, linked.chunk_calm, ?_,
        keeps_head_link _ _⟩
      · simp only [saved, if_neg (Nat.not_lt.mpr full.ge), List.append_assoc]
        rfl
      · rw [chunk_length_full full.ge]
        simp only [chunks, List.length_cons, blockLen] at full ⊢
        omega
      · rw [if_neg]
        · rfl
        · simp only [chunks, List.length_cons, blockLen] at full ⊢
          omega
      · intro change member
        cases member

end Cutting

end OsWorkbench.Kvdb
