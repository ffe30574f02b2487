import OsWorkbench.Kernel.HeapSteps

/-!
# `kfree_real`

The walk stops where the addresses pass the block that is freed; there the block is put in, or
joined with the blocks on either side if they meet.
-/

namespace OsWorkbench.Kernel

open Library Regions LinkedList

section Walking

variable {memory : Memory} {sentinel ptr a : Nat} {nodes : List Nat}

theorem find_place_ends (path : Path (nexts memory) a nodes sentinel) (outside : sentinel ∉ nodes)
    (small : ∀ p ∈ nodes, p + sizeofHeader < 2 ^ 32) {fuel : Nat} (enough : nodes.length < fuel)
    (prevp : Nat) :
    ∃ left right, nodes = left ++ right ∧
      findPlace memory sentinel ptr fuel prevp (nexts memory a) =
        some (left.getLastD prevp, right.headD sentinel) ∧
      (∀ p ∈ left, p + sizeofHeader ≤ ptr) ∧ ∀ p ∈ right.head?, ptr < p + sizeofHeader := by
  induction nodes generalizing a fuel prevp with
  | nil =>
      obtain ⟨fuel, rfl⟩ : ∃ less, fuel = less + 1 := ⟨fuel - 1, by simp at enough; omega⟩
      have here : nexts memory a = sentinel := path
      refine ⟨[], [], rfl, ?_, by simp, by simp⟩
      rw [findPlace, here, if_pos rfl]
      rfl
  | cons p rest hypothesis =>
      obtain ⟨fuel, rfl⟩ : ∃ less, fuel = less + 1 := ⟨fuel - 1, by simp at enough; omega⟩
      have here : nexts memory a = p := path.1
      have unlike : p ≠ sentinel := fun same => outside (by simp [same])
      have sum : u32 (p + sizeofHeader) = p + sizeofHeader := u32_small (small p (by simp))
      rw [findPlace, here, if_neg unlike, sum]
      by_cases passed : ptr < p + sizeofHeader
      · refine ⟨[], p :: rest, rfl, ?_, by simp, by simpa using passed⟩
        rw [if_pos passed]
        rfl
      · rw [if_neg passed]
        obtain ⟨left, right, shape, went, before, behind⟩ := hypothesis path.2
          (fun member => outside (List.mem_cons_of_mem _ member))
          (fun q member => small q (List.mem_cons_of_mem _ member))
          (Nat.lt_of_succ_lt_succ enough) p
        refine ⟨p :: left, right, by rw [shape, List.cons_append], ?_, ?_, behind⟩
        · rw [List.getLastD_cons]
          exact went
        · intro q member
          rcases List.mem_cons.mp member with rfl | later
          · exact Nat.le_of_not_lt passed
          · exact before q later

end Walking

section Joining

variable {boot : Boot} {memory : Memory} {free : Nat → List Nat} {held left right : List Nat}
  {cpu block p : Nat}

/-- The size of a block and of the header and the block behind it. -/
theorem joined_size {size behind : Nat} (small : size + sizeofHeader + behind < 2 ^ 32) :
    u32 (size + u32 (sizeofHeader + behind)) = size + sizeofHeader + behind := by
  rw [@u32_small (sizeofHeader + behind) (by omega), u32_small (by omega), Nat.add_assoc]

theorem Tiling.end_of (tiling : Tiling boot memory free held)
    (member : p ∈ boot.blocks free ∨ p ∈ held) :
    endOf memory p = p + sizeofHeader + sizes memory p := by
  have above := tiling.above member
  have ended := boot.end_lt
  unfold endOf
  rw [@u32_small (p + sizeofHeader) (by omega)]
  exact u32_small (by
    change p + sizeofHeader + sizes memory p < 2 ^ 32
    omega)

/-- The freed block is put in behind `left` or joined with the last block there. -/
theorem Tiling.join_prev (tiling : Tiling boot memory free held) (here : cpu < boot.ncpu)
    (member : p ∈ held) (shape : free cpu = left ++ right) :
    ∃ after front block, joinPrev memory (left.getLastD (boot.sentinel cpu)) p = (after, block) ∧
      Tiling boot after (Function.update free cpu (front ++ block :: right)) (held.erase p) ∧
      (∀ q ∈ boot.others free cpu ++ held.erase p, sizes after q = sizes memory q) ∧
      ((front = left ∧ block = p ∧ sizes after = sizes memory ∧
          ∀ q ∈ left.getLast?, q + sizeofHeader + sizes memory q ≠ p) ∨
        (left = front ++ [block] ∧ p = block + sizeofHeader + sizes memory block ∧
          sizes after = Function.update (sizes memory) block
            (sizes memory block + sizeofHeader + sizes memory p))) := by
  have path := tiling.lists cpu here
  have distinct := tiling.distinct here
  have above := tiling.above (Or.inr member)
  have ended := boot.end_lt
  have focus := tiling.focus here
  have nodup := (List.nodup_cons.mp focus.nodup).2
  have unlisted : p ∉ boot.sentinel cpu :: free cpu := by
    intro inside
    rcases List.mem_cons.mp inside with same | listed
    · exact tiling.outside here (Or.inr member) same.symm
    · exact (List.nodup_append.mp nodup).2.2 p listed p (List.mem_append_right _ member) rfl
  by_cases meets : p = endOf memory (left.getLastD (boot.sentinel cpu))
  · rcases List.eq_nil_or_concat left with rfl | ⟨front, block, rfl⟩
    · exfalso
      have below := boot.sentinel_below here
      have guard : (memory (boot.sentinel cpu)).size = 0 := tiling.guards cpu here
      rw [List.getLastD_nil, endOf, guard, @u32_small (boot.sentinel cpu + sizeofHeader)
        (by omega), u32_small (by omega)] at meets
      simp only [sizeofHeader] at *
      omega
    · rw [List.concat_eq_append] at shape meets ⊢
      have last : (front ++ [block]).getLastD (boot.sentinel cpu) = block := by
        rw [List.getLastD_concat]
      rw [last] at meets ⊢
      have listed : block ∈ free cpu := by
        rw [shape]
        simp
      rw [tiling.end_of (Or.inl (block_listed here listed))] at meets
      have bounds := tiling.above (Or.inl (block_listed here listed))
      have sum := @joined_size (sizes memory block) (sizes memory p) (by omega)
      have joined := focus.join_at (p := block) (q := p) (by simp [listed]) (by simp [member]) meets
      refine ⟨setSize memory block (sizes memory block + sizeofHeader + sizes memory p), front,
        block, ?_, ?_, ?_, Or.inr ⟨rfl, meets, sizes_set_size _ _ _⟩⟩
      · unfold joinPrev
        rw [if_pos (by
          rw [tiling.end_of (Or.inl (block_listed here listed))]
          exact meets)]
        change (setSize memory block
          (u32 (sizes memory block + u32 (sizeofHeader + sizes memory p))), block) = _
        rw [sum]
      · have list : front ++ block :: right = free cpu := by
          rw [shape, List.append_assoc, List.singleton_append]
        apply tiling.edit here
        · rw [nexts_set_size, list]
          exact path
        · intro other there unlike q inside
          rw [nexts_set_size]
        · intro q below
          rw [sizes_set_size, Function.update_of_ne]
          simp only [sizeofHeader] at bounds
          omega
        · rw [sizes_set_size, list]
          refine joined.perm ?_
          have outsideGlobal : p ≠ boot.global := by
            rintro rfl
            exact (List.nodup_cons.mp focus.nodup).1 (by simp [member])
          have outsideList : p ∉ free cpu := fun inside => unlisted (List.mem_cons_of_mem _ inside)
          have outsideOthers : p ∉ boot.others free cpu := by
            intro inside
            exact (List.nodup_append.mp (List.nodup_append.mp nodup).2.1).2.2 p inside p member rfl
          rw [List.erase_cons_tail (by simpa using Ne.symm outsideGlobal),
            List.erase_append_right _ outsideList, List.erase_append_right _ outsideOthers]
      · intro q inside
        rw [sizes_set_size, Function.update_of_ne]
        rintro rfl
        refine (List.nodup_append.mp nodup).2.2 q listed q ?_ rfl
        rcases List.mem_append.mp inside with other | used
        · exact List.mem_append_left _ other
        · exact List.mem_append_right _ (List.mem_of_mem_erase used)
  · refine ⟨setNext (setNext memory p (memory (left.getLastD (boot.sentinel cpu))).next)
      (left.getLastD (boot.sentinel cpu)) p, left, p, if_neg meets, ?_, ?_,
      Or.inl ⟨rfl, rfl, by simp, ?_⟩⟩
    · have prev : left.getLastD (boot.sentinel cpu) ∈ boot.sentinel cpu :: free cpu := by
        rw [shape]
        rcases List.mem_cons.mp (@List.getLastD_mem_cons _ left (boot.sentinel cpu)) with same | inside
        · rw [same]
          exact List.mem_cons_self ..
        · exact List.mem_cons_of_mem _ (List.mem_append_left _ inside)
      apply tiling.edit here
      · rw [nexts_set_next, nexts_set_next]
        rw [shape] at path distinct unlisted
        exact path.insert distinct unlisted
      · intro other there unlike q inside
        rw [nexts_set_next, nexts_set_next, Function.update_of_ne, Function.update_of_ne]
        · rintro rfl
          exact tiling.elsewhere here there unlike (Or.inr member) inside
        · rintro rfl
          exact tiling.elsewhere here there unlike (Or.inl prev) inside
      · intro q below
        rw [sizes_set_next, sizes_set_next]
      · rw [sizes_set_next, sizes_set_next]
        refine focus.perm (List.Perm.cons _ ?_)
        rw [shape, List.append_assoc, List.append_assoc, List.cons_append]
        refine List.Perm.append_left left ?_
        have back := List.perm_cons_erase member
        have middle : (boot.others free cpu ++ held).Perm
            (p :: (boot.others free cpu ++ held.erase p)) :=
          (back.append_left _).trans List.perm_middle
        exact ((middle.append_left right).trans List.perm_middle).symm
    · intro q inside
      rw [sizes_set_next, sizes_set_next]
    · intro q last same
      apply meets
      have place : left.getLastD (boot.sentinel cpu) = q := by
        rw [List.getLastD_eq_getLast?, last]
        rfl
      have listed : q ∈ free cpu := by
        rw [shape]
        exact List.mem_append_left _ (List.mem_of_getLast? last)
      rw [place, tiling.end_of (Or.inl (block_listed here listed))]
      exact same.symm

/-- A block of the list is joined with the next one if that follows it. -/
theorem Tiling.join_next (tiling : Tiling boot memory free held) (here : cpu < boot.ncpu)
    {front : List Nat} (shape : free cpu = front ++ block :: right) :
    ∃ rest, Tiling boot (joinNext memory block (right.headD (boot.sentinel cpu)))
        (Function.update free cpu (front ++ block :: rest)) held ∧
      (∀ q ∈ boot.others free cpu ++ held,
        sizes (joinNext memory block (right.headD (boot.sentinel cpu))) q = sizes memory q) ∧
      ((rest = right ∧
          sizes (joinNext memory block (right.headD (boot.sentinel cpu))) = sizes memory ∧
          ∀ q ∈ right.head?, block + sizeofHeader + sizes memory block ≠ q) ∨
        ∃ q, right = q :: rest ∧ q = block + sizeofHeader + sizes memory block ∧
          sizes (joinNext memory block (right.headD (boot.sentinel cpu))) =
            Function.update (sizes memory) block
              (sizes memory block + sizeofHeader + sizes memory q)) := by
  have path := tiling.lists cpu here
  have distinct := tiling.distinct here
  have focus := tiling.focus here
  have nodup := (List.nodup_cons.mp focus.nodup).2
  have listed : block ∈ free cpu := by
    rw [shape]
    simp
  have above := tiling.above (Or.inl (block_listed here listed))
  have ended := boot.end_lt
  have ending := tiling.end_of (Or.inl (block_listed here listed))
  by_cases meets : right.headD (boot.sentinel cpu) = endOf memory block
  · rcases right with _ | ⟨q, rest⟩
    · exfalso
      have below := boot.sentinel_below here
      rw [List.headD_nil, ending] at meets
      simp only [sizeofHeader] at *
      omega
    · rw [List.headD_cons] at meets ⊢
      have listedNext : q ∈ free cpu := by
        rw [shape]
        simp
      have bounds := tiling.above (Or.inl (block_listed here listedNext))
      have sum := @joined_size (sizes memory block) (sizes memory q) (by
        rw [ending] at meets
        omega)
      have does : joinNext memory block q = setSize (setNext memory block (memory q).next) block
          (sizes memory block + sizeofHeader + sizes memory q) := by
        unfold joinNext
        rw [if_pos meets]
        change setSize _ _ (u32 (sizes (setNext memory block _) block +
          u32 (sizeofHeader + sizes (setNext memory block _) q))) = _
        rw [sizes_set_next, sum]
      rw [ending] at meets
      have joined := focus.join_at (p := block) (q := q) (by simp [listed]) (by simp [listedNext])
        meets
      rw [does]
      have whole : front ++ block :: q :: rest = (front ++ [block]) ++ q :: rest := by simp
      have last : (front ++ [block]).getLastD (boot.sentinel cpu) = block :=
        List.getLastD_concat ..
      refine ⟨rest, tiling.edit here ?_ ?_ ?_ ?_, ?_, Or.inr ⟨q, rfl, meets, ?_⟩⟩
      · rw [nexts_set_size, nexts_set_next]
        rw [shape, whole] at path distinct
        have removed := path.remove distinct
        rw [last, List.append_assoc, List.singleton_append] at removed
        exact removed
      · intro other there unlike visited inside
        rw [nexts_set_size, nexts_set_next, Function.update_of_ne]
        rintro rfl
        exact tiling.elsewhere here there unlike (Or.inl (List.mem_cons_of_mem _ listed)) inside
      · intro visited below
        rw [sizes_set_size, sizes_set_next, Function.update_of_ne]
        simp only [sizeofHeader] at above
        omega
      · rw [sizes_set_size, sizes_set_next]
        refine joined.perm ?_
        have outsideGlobal : q ≠ boot.global := by
          rintro rfl
          exact (List.nodup_cons.mp focus.nodup).1 (by simp [listedNext])
        rw [List.erase_cons_tail (by simpa using Ne.symm outsideGlobal)]
        refine List.Perm.cons _ ?_
        rw [List.erase_append_left _ listedNext]
        apply List.Perm.append_right
        have erased := (@List.perm_middle _ q (front ++ [block]) rest).erase q
        rw [List.erase_cons_head, List.append_assoc, List.append_assoc, List.singleton_append,
          List.singleton_append, ← shape] at erased
        exact erased.symm
      · intro visited inside
        rw [sizes_set_size, sizes_set_next, Function.update_of_ne]
        rintro rfl
        exact (List.nodup_append.mp nodup).2.2 visited listed visited inside rfl
      · rw [sizes_set_size, sizes_set_next]
  · have does : joinNext memory block (right.headD (boot.sentinel cpu)) = memory := if_neg meets
    rw [does]
    refine ⟨right, ?_, fun q inside => rfl, Or.inl ⟨rfl, rfl, ?_⟩⟩
    · rw [← shape, Function.update_eq_self]
      exact tiling
    · intro q next same
      apply meets
      rw [ending, same, List.headD_eq_head?_getD, next]
      rfl

end Joining

/-- The list is sorted, with something between the end of a block and the next one. -/
def Gapped (size : Nat → Nat) (list : List Nat) : Prop :=
  list.Pairwise fun p q => p + sizeofHeader + size p < q

/-- The list around a block that may still meet the next one. -/
structure Seam (size : Nat → Nat) (front : List Nat) (block : Nat) (right : List Nat) : Prop where
  frontGapped : Gapped size front
  rightGapped : Gapped size right
  before : ∀ p ∈ front, p + sizeofHeader + size p < block
  behind : ∀ q ∈ right, block + sizeofHeader + size block ≤ q

section Gaps

variable {size other : Nat → Nat} {list front right rest : List Nat} {block p q : Nat}

theorem gapped_congr (same : ∀ p ∈ list, other p = size p) (gapped : Gapped size list) :
    Gapped other list := by
  refine List.Pairwise.imp_of_mem ?_ gapped
  intro p q member _ less
  rw [same p member]
  exact less

/-- A seam whose two sides do not meet. -/
theorem Seam.closed (seam : Seam size front block right)
    (apart : ∀ q ∈ right.head?, block + sizeofHeader + size block ≠ q) :
    Gapped size (front ++ block :: right) := by
  have onward (q : Nat) (member : q ∈ right) : block + sizeofHeader + size block < q := by
    cases right with
    | nil => simp at member
    | cons first rest =>
        have unlike := apart first rfl
        have least := seam.behind first (by simp)
        rcases List.mem_cons.mp member with rfl | later
        · omega
        · have less := (List.pairwise_cons.mp seam.rightGapped).1 q later
          omega
  refine List.pairwise_append.mpr ⟨seam.frontGapped, List.pairwise_cons.mpr ⟨onward, seam.rightGapped⟩, ?_⟩
  intro p member q inside
  have less := seam.before p member
  rcases List.mem_cons.mp inside with rfl | later
  · exact less
  · have further := onward q later
    omega

/-- The block takes in the next one. -/
theorem Seam.joined (seam : Seam size front block (q :: rest))
    (meets : q = block + sizeofHeader + size block) (outside : block ∉ front ++ rest) :
    Gapped (Function.update size block (size block + sizeofHeader + size q))
      (front ++ block :: rest) := by
  have kept (list : List Nat) (part : list ⊆ front ++ rest) (p : Nat) (member : p ∈ list) :
      Function.update size block (size block + sizeofHeader + size q) p = size p := by
    rw [Function.update_of_ne]
    rintro rfl
    exact outside (part member)
  have right := List.pairwise_cons.mp seam.rightGapped
  refine @Seam.closed _ front rest block ⟨?_, ?_, ?_, ?_⟩ ?_
  · exact gapped_congr (kept front (List.subset_append_left ..)) seam.frontGapped
  · exact gapped_congr (kept rest (List.subset_append_right ..)) right.2
  · intro p member
    rw [kept front (List.subset_append_left ..) p member]
    exact seam.before p member
  · intro p member
    have less := right.1 p member
    rw [Function.update_self]
    omega
  · intro p next
    have less := right.1 p (List.mem_of_mem_head? next)
    rw [Function.update_self]
    omega

end Gaps

section Freeing

variable {boot : Boot} {memory : Memory} {free : Nat → List Nat} {held : List Nat} {cpu p : Nat}

/-- The place of a freed block in a list with gaps. -/
theorem Tiling.seam (tiling : Tiling boot memory free held) (here : cpu < boot.ncpu)
    (member : p ∈ held) {left right : List Nat} (shape : free cpu = left ++ right)
    (before : ∀ q ∈ left, q + sizeofHeader ≤ p + sizeofHeader)
    (behind : ∀ q ∈ right.head?, p + sizeofHeader < q + sizeofHeader)
    (gapped : Gapped (sizes memory) (free cpu)) :
    (∀ q ∈ left, q + sizeofHeader + sizes memory q ≤ p) ∧
      ∀ q ∈ right, p + sizeofHeader + sizes memory p ≤ q := by
  have focus := tiling.focus here
  have listed : p ∈ boot.global :: (free cpu ++ (boot.others free cpu ++ held)) := by
    simp [member]
  have inList (q : Nat) (inside : q ∈ free cpu) :
      q ∈ boot.global :: (free cpu ++ (boot.others free cpu ++ held)) := by
    simp [inside]
  have nodup := (List.nodup_cons.mp focus.nodup).2
  have unlike (q : Nat) (inside : q ∈ free cpu) : q ≠ p := by
    rintro rfl
    exact (List.nodup_append.mp nodup).2.2 q inside q (List.mem_append_right _ member) rfl
  rw [shape] at gapped
  constructor
  · intro q inside
    have inFree : q ∈ free cpu := by
      rw [shape]
      exact List.mem_append_left _ inside
    have less := before q inside
    rcases focus.apart (inList q inFree) listed (unlike q inFree) with first | second
    · exact first
    · simp only [sizeofHeader] at *
      omega
  · cases right with
    | nil => simp
    | cons first rest =>
        have inFree : first ∈ free cpu := by
          rw [shape]
          simp
        have less := behind first rfl
        have start : p + sizeofHeader + sizes memory p ≤ first := by
          rcases focus.apart listed (inList first inFree) (Ne.symm (unlike first inFree)) with
            ahead | after
          · exact ahead
          · simp only [sizeofHeader] at *
            omega
        intro q inside
        rcases List.mem_cons.mp inside with rfl | later
        · exact start
        · have further := (List.pairwise_cons.mp (List.pairwise_append.mp gapped).2.1).1 q later
          omega

/-- The parts of `kfree_real`, one after another. -/
theorem kfree_real_does {joined : Memory} {toFree block prevp q : Nat}
    (header : sub32 p sizeofHeader = toFree)
    (went : findPlace (setFence memory toFree 0xeca97531) (boot.sentinel cpu) p (boot.pmEnd + 1)
      (boot.sentinel cpu) (nexts (setFence memory toFree 0xeca97531) (boot.sentinel cpu)) =
        some (prevp, q))
    (does : joinPrev (setFence memory toFree 0xeca97531) prevp toFree = (joined, block)) :
    kfreeReal boot memory cpu p = .ok (joinNext joined block q) := by
  unfold nexts at went
  unfold kfreeReal
  rw [header]
  dsimp only
  rw [went]
  dsimp only
  rw [does]

/-- `kfree_real` puts a block back; a list with gaps has gaps again. -/
theorem kfree_real_returns (tiling : Tiling boot memory free held) (here : cpu < boot.ncpu)
    (member : p ∈ held) :
    ∃ after list, kfreeReal boot memory cpu (p + sizeofHeader) = .ok after ∧
      Tiling boot after (Function.update free cpu list) (held.erase p) ∧
      (∀ q ∈ boot.others free cpu ++ held.erase p, sizes after q = sizes memory q) ∧
      (Gapped (sizes memory) (free cpu) → Gapped (sizes after) list) := by
  have above := tiling.above (Or.inr member)
  have ended := boot.end_lt
  have freed : sub32 (p + sizeofHeader) sizeofHeader = p := by
    rw [sub32_small (Nat.le_add_left ..) (by omega), Nat.add_sub_cancel]
  have alerted : Tiling boot (setFence memory p 0xeca97531) free held :=
    tiling.congr (by simp) (by simp)
  obtain ⟨left, right, shape, went, before, behind⟩ := @find_place_ends
    (setFence memory p 0xeca97531) (boot.sentinel cpu) (p + sizeofHeader) (boot.sentinel cpu)
    (free cpu) (alerted.lists cpu here) (List.nodup_cons.mp (tiling.distinct here)).1 (by
      intro q inside
      have bounds := tiling.above (Or.inl (block_listed here inside))
      omega) (boot.pmEnd + 1) (tiling.length here) (boot.sentinel cpu)
  obtain ⟨joined, front, block, does, put, keptPut, linked⟩ :=
    alerted.join_prev here member shape
  have listed : (Function.update free cpu (front ++ block :: right)) cpu =
      front ++ block :: right := Function.update_self _ _ _
  obtain ⟨rest, final, keptFinal, merged⟩ := put.join_next here listed
  rw [Function.update_idem] at final
  refine ⟨joinNext joined block (right.headD (boot.sentinel cpu)), front ++ block :: rest, ?_,
    final, ?_, ?_⟩
  · exact kfree_real_does freed went does
  · intro q inside
    rw [keptFinal q (by rwa [others_update]), keptPut q inside, sizes_set_fence]
  · intro gapped
    obtain ⟨least, most⟩ := tiling.seam here member shape before behind gapped
    rw [shape] at gapped
    obtain ⟨gapLeft, gapRight, across⟩ := List.pairwise_append.mp gapped
    have distinct := (List.nodup_cons.mp (put.distinct here)).2
    rw [listed] at distinct
    have outside : block ∉ front ++ right := by
      have moved := (List.perm_middle.nodup_iff).mp distinct
      exact (List.nodup_cons.mp moved).1
    have seam : Seam (sizes joined) front block right := by
      rcases linked with ⟨rfl, rfl, same, unmet⟩ | ⟨whole, meets, grown⟩
      · rw [same, sizes_set_fence]
        rw [sizes_set_fence] at unmet
        refine ⟨gapLeft, gapRight, ?_, most⟩
        intro q inside
        rcases List.eq_nil_or_concat front with rfl | ⟨init, last, rfl⟩
        · simp at inside
        · rw [List.concat_eq_append] at *
          have lastUnmet := unmet last (by simp)
          have lastLess := least last (by simp)
          rcases List.mem_append.mp inside with earlier | final
          · have less := (List.pairwise_append.mp gapLeft).2.2 q earlier last (by simp)
            omega
          · rw [List.mem_singleton.mp final]
            omega
      · rw [sizes_set_fence] at meets grown
        subst whole
        obtain ⟨gapFront, -, ahead⟩ := List.pairwise_append.mp gapLeft
        have kept (list : List Nat) (part : list ⊆ front ++ right) (q : Nat) (inside : q ∈ list) :
            sizes joined q = sizes memory q := by
          rw [grown, Function.update_of_ne]
          rintro rfl
          exact outside (part inside)
        refine ⟨gapped_congr (kept front (List.subset_append_left ..)) gapFront,
          gapped_congr (kept right (List.subset_append_right ..)) gapRight, ?_, ?_⟩
        · intro q inside
          rw [kept front (List.subset_append_left ..) q inside]
          exact ahead q inside block (by simp)
        · intro q inside
          have bound := most q inside
          rw [grown, Function.update_self]
          omega
    rcases merged with ⟨rfl, same, unmet⟩ | ⟨q, rfl, meets, grown⟩
    · rw [same]
      exact seam.closed unmet
    · rw [grown]
      apply seam.joined meets
      intro inside
      apply outside
      rcases List.mem_append.mp inside with ahead | later
      · exact List.mem_append_left _ ahead
      · exact List.mem_append_right _ (List.mem_cons_of_mem _ later)

end Freeing

end OsWorkbench.Kernel
