import OsWorkbench.Kernel.HeapSteps

/-!
# `kalloc_real`

The walk stops at the first block that is large enough. If there is none, a page is cut from the
global block and put at the end of the list, and the second walk stops there.
-/

namespace OsWorkbench.Kernel

open Library Regions LinkedList

/-- Where a walk over `nodes` that comes from `prevp` ends. -/
inductive ScanEnds (memory : Memory) (size prevp : Nat) (nodes : List Nat) : Scan → Prop
  | cut {p : Nat} (member : p ∈ nodes) (fits : u32 (size + sizeofHeader) ≤ sizes memory p) :
      ScanEnds memory size prevp nodes (.cut p)
  | whole {left right : List Nat} {p : Nat} (shape : nodes = left ++ p :: right)
      (enough : size ≤ sizes memory p) (tight : sizes memory p < u32 (size + sizeofHeader)) :
      ScanEnds memory size prevp nodes (.whole (left.getLastD prevp) p)
  | missed (short : ∀ p ∈ nodes, sizes memory p < size)
      (unfit : ∀ p ∈ nodes, sizes memory p < u32 (size + sizeofHeader)) :
      ScanEnds memory size prevp nodes (.missed (nodes.getLastD prevp))

section Scanning

variable {memory : Memory} {sentinel size a : Nat} {nodes : List Nat}

/-- By induction on the list; each step hands its node on as `prevp`. -/
theorem scan_ends (path : Path (nexts memory) a nodes sentinel) (outside : sentinel ∉ nodes)
    {fuel : Nat} (enough : nodes.length < fuel) (prevp : Nat) :
    ∃ ending, scan memory sentinel size fuel prevp (nexts memory a) = some ending ∧
      ScanEnds memory size prevp nodes ending := by
  induction nodes generalizing a fuel prevp with
  | nil =>
      obtain ⟨fuel, rfl⟩ : ∃ less, fuel = less + 1 := ⟨fuel - 1, by simp at enough; omega⟩
      have here : nexts memory a = sentinel := path
      refine ⟨.missed prevp, ?_, .missed (by simp) (by simp)⟩
      rw [scan, here, if_pos rfl]
  | cons p rest hypothesis =>
      obtain ⟨fuel, rfl⟩ : ∃ less, fuel = less + 1 := ⟨fuel - 1, by simp at enough; omega⟩
      have here : nexts memory a = p := path.1
      have unlike : p ≠ sentinel := fun same => outside (by simp [same])
      rw [scan, here, if_neg unlike]
      by_cases fits : u32 (size + sizeofHeader) ≤ sizes memory p
      · refine ⟨.cut p, ?_, .cut (by simp) fits⟩
        exact if_pos fits
      · rw [if_neg (show ¬ (memory p).size ≥ u32 (size + sizeofHeader) from fits)]
        by_cases enoughHere : size ≤ sizes memory p
        · refine ⟨.whole prevp p, ?_, ?_⟩
          · exact if_pos enoughHere
          · exact @ScanEnds.whole memory size prevp (p :: rest) [] rest p rfl enoughHere (Nat.lt_of_not_le fits)
        · rw [if_neg (show ¬ (memory p).size ≥ size from enoughHere)]
          obtain ⟨ending, went, ends⟩ := hypothesis path.2
            (fun member => outside (List.mem_cons_of_mem _ member))
            (Nat.lt_of_succ_lt_succ enough) p
          refine ⟨ending, went, ?_⟩
          cases ends with
          | cut member fitsLater => exact .cut (List.mem_cons_of_mem _ member) fitsLater
          | @whole left right later shape large tight =>
              have ended := @ScanEnds.whole memory size prevp (p :: rest) (p :: left) right later
                (by rw [shape, List.cons_append]) large tight
              rwa [List.getLastD_cons] at ended
          | missed short unfit =>
              have ended := @ScanEnds.missed memory size prevp (p :: rest)
                (List.forall_mem_cons.mpr ⟨Nat.lt_of_not_le enoughHere, short⟩)
                (List.forall_mem_cons.mpr ⟨Nat.lt_of_not_le fits, unfit⟩)
              rwa [List.getLastD_cons] at ended

end Scanning

section Handing

variable {boot : Boot} {memory : Memory} {free : Nat → List Nat} {held : List Nat}
  {cpu size p : Nat}

/-- What `cutTail` does to a block that lies in the heap. -/
theorem cut_tail_does (fits : size + sizeofHeader ≤ sizes memory p)
    (small : p + sizes memory p < 2 ^ 32) :
    (cutTail memory p size).2 = p + sizes memory p - size ∧
      nexts (cutTail memory p size).1 = nexts memory ∧
      sizes (cutTail memory p size).1 = Function.update (Function.update (sizes memory) p
        (sizes memory p - (size + sizeofHeader))) (p + sizes memory p - size) size := by
  have needed : u32 (size + sizeofHeader) = size + sizeofHeader := u32_small (by omega)
  have left : sub32 (sizes memory p) (size + sizeofHeader) =
      sizes memory p - (size + sizeofHeader) := sub32_small fits (by omega)
  have ret : sub32 (u32 (p + sizes memory p)) size = p + sizes memory p - size := by
    rw [u32_small small, sub32_small (by omega) small]
  have place : (cutTail memory p size).2 = p + sizes memory p - size := ret
  refine ⟨place, ?_, ?_⟩
  · simp only [cutTail, nexts_set_size]
  · simp only [cutTail, sizes_set_size]
    rw [show (memory p).size = sizes memory p from rfl, ret, needed, left]

/-- A block of the list gives its tail away. -/
theorem Tiling.cut (tiling : Tiling boot memory free held) (here : cpu < boot.ncpu)
    (member : p ∈ free cpu) (unit : 0x10 ∣ size)
    (fits : size + sizeofHeader ≤ sizes memory p) :
    Tiling boot (cutTail memory p size).1 free ((cutTail memory p size).2 :: held) ∧
      sizes (cutTail memory p size).1 (cutTail memory p size).2 = size ∧
      (∀ q ∈ free cpu, sizes (cutTail memory p size).1 q ≤ sizes memory q) ∧
      ∀ q ∈ boot.others free cpu ++ held, sizes (cutTail memory p size).1 q = sizes memory q := by
  have above := tiling.above (Or.inl (block_listed here member))
  have ended := boot.end_lt
  obtain ⟨place, next, size'⟩ := @cut_tail_does memory size p fits (by
    simp only [sizeofHeader] at above
    omega)
  have listed : p ∈ boot.global :: (free cpu ++ (boot.others free cpu ++ held)) := by
    simp [member]
  obtain ⟨fresh, cut⟩ := (tiling.focus here).cut_at listed fits unit
  have unlike : p ≠ p + sizes memory p - size := fun same => fresh (same ▸ listed)
  have kept (q : Nat) (inside : q ∈ boot.global :: (free cpu ++ (boot.others free cpu ++ held)))
      (other : q ≠ p) : sizes (cutTail memory p size).1 q = sizes memory q := by
    rw [size', Function.update_of_ne, Function.update_of_ne other]
    rintro rfl
    exact fresh inside
  refine ⟨?_, ?_, ?_, ?_⟩
  · have edited := @Tiling.edit boot memory (cutTail memory p size).1 free held cpu tiling here
      (free cpu) ((cutTail memory p size).2 :: held) (by
        rw [next]
        exact tiling.lists cpu here) (by
        intro other there unlike q inside
        rw [next]) (by
        intro q below
        rw [size', Function.update_of_ne, Function.update_of_ne]
        · omega
        · omega) (by
        rw [size', place]
        refine cut.perm ?_
        refine (List.Perm.cons _ ?_).trans (List.Perm.swap _ _ _)
        rw [← List.append_assoc, ← List.append_assoc]
        exact List.perm_middle)
    rwa [Function.update_eq_self] at edited
  · rw [place, size', Function.update_self]
  · intro q inside
    by_cases same : q = p
    · subst same
      rw [size', Function.update_of_ne unlike, Function.update_self]
      exact Nat.sub_le _ _
    · exact Nat.le_of_eq (kept q (by simp [inside]) same)
  · intro q inside
    apply kept q
    · exact List.mem_cons_of_mem _ (List.mem_append_right _ inside)
    · rintro rfl
      have nodup := (List.nodup_cons.mp (tiling.focus here).nodup).2
      exact (List.nodup_append.mp nodup).2.2 q member q inside rfl

/-- A block of the list is handed out as it is. -/
theorem Tiling.whole (tiling : Tiling boot memory free held) (here : cpu < boot.ncpu)
    {left right : List Nat} (shape : free cpu = left ++ p :: right) :
    Tiling boot (setNext memory (left.getLastD (boot.sentinel cpu)) (memory p).next)
      (Function.update free cpu (left ++ right)) (p :: held) := by
  have distinct := tiling.distinct here
  have path := tiling.lists cpu here
  rw [shape] at distinct path
  have prev : left.getLastD (boot.sentinel cpu) ∈ boot.sentinel cpu :: free cpu := by
    rw [shape]
    rcases List.mem_cons.mp (@List.getLastD_mem_cons _ left (boot.sentinel cpu)) with same | member
    · rw [same]
      exact List.mem_cons_self ..
    · exact List.mem_cons_of_mem _ (List.mem_append_left _ member)
  apply tiling.edit here
  · rw [nexts_set_next]
    exact path.remove distinct
  · intro other there unlike q inside
    rw [nexts_set_next, Function.update_of_ne]
    rintro rfl
    exact tiling.elsewhere here there unlike (Or.inl prev) inside
  · intro q below
    rw [sizes_set_next]
  · rw [sizes_set_next]
    refine (tiling.focus here).perm (List.Perm.cons _ ?_)
    rw [shape, List.append_assoc, List.append_assoc, List.cons_append]
    refine List.Perm.append_left left ?_
    have middle : (boot.others free cpu ++ p :: held).Perm (p :: (boot.others free cpu ++ held)) :=
      List.perm_middle
    exact (middle.append_left right).trans List.perm_middle

/-- A new page at the end of the list, or no space for it. -/
theorem Tiling.refill (tiling : Tiling boot memory free held) (here : cpu < boot.ncpu)
    (unit : 0x10 ∣ size) (small : size + sizeofHeader < 2 ^ 32) :
    refill boot memory (boot.sentinel cpu) ((free cpu).getLastD (boot.sentinel cpu)) size =
        .error .noSpace ∨
      ∃ after page, refill boot memory (boot.sentinel cpu)
          ((free cpu).getLastD (boot.sentinel cpu)) size = .ok after ∧
        Tiling boot after (Function.update free cpu (free cpu ++ [page])) held ∧
        sizes after page = neededFor size ∧
        ∀ q ∈ free cpu ++ (boot.others free cpu ++ held), sizes after q = sizes memory q := by
  have focus := tiling.focus here
  have bounds := focus.bounds (List.mem_cons_self ..)
  have ended := boot.end_lt
  have page := boot.sentinel_below here
  have neededUnit : 0x10 ∣ neededFor size := by
    unfold neededFor
    split
    · exact unit
    · exact Dvd.intro 512 rfl
  have neededSmall : neededFor size + sizeofHeader < 2 ^ 32 := by
    unfold neededFor
    split
    · exact small
    · decide
  have sum : u32 (neededFor size + sizeofHeader) = neededFor size + sizeofHeader :=
    u32_small neededSmall
  by_cases fits : neededFor size + sizeofHeader < sizes memory boot.global
  · right
    have listed : boot.global ∈ boot.global :: (free cpu ++ (boot.others free cpu ++ held)) :=
      List.mem_cons_self ..
    obtain ⟨fresh, cut⟩ := focus.cut_at listed (Nat.le_of_lt fits) neededUnit
    have ret : sub32 (u32 (boot.global + sizes memory boot.global)) (neededFor size) =
        boot.global + sizes memory boot.global - neededFor size := by
      rw [u32_small (by simp only [sizeofHeader] at bounds; omega),
        sub32_small (by omega) (by simp only [sizeofHeader] at bounds; omega)]
    have left : sub32 (sizes memory boot.global) (neededFor size + sizeofHeader) =
        sizes memory boot.global - (neededFor size + sizeofHeader) :=
      sub32_small (Nat.le_of_lt fits) (by simp only [sizeofHeader] at bounds; omega)
    generalize placed : boot.global + sizes memory boot.global - neededFor size = page at *
    have above : boot.pmStart < page := by
      simp only [Boot.global, sizeofHeader] at *
      omega
    have does : Kernel.refill boot memory (boot.sentinel cpu)
        ((free cpu).getLastD (boot.sentinel cpu)) size =
        .ok (setSize (setNext (setNext (setSize memory boot.global
          (sizes memory boot.global - (neededFor size + sizeofHeader)))
          ((free cpu).getLastD (boot.sentinel cpu)) page) page (boot.sentinel cpu)) page
            (neededFor size)) := by
      have cuts : globalAllocReal boot memory (neededFor size) = (setSize memory boot.global
          (sizes memory boot.global - (neededFor size + sizeofHeader)), page) := by
        unfold globalAllocReal
        rw [sum]
        change (if neededFor size + sizeofHeader < sizes memory boot.global then _ else _) = _
        rw [if_pos fits]
        change (setSize memory boot.global (sub32 (sizes memory boot.global) _),
          sub32 (u32 (boot.global + sizes memory boot.global)) _) = _
        rw [left, ret]
      unfold Kernel.refill
      rw [cuts]
      exact if_neg (by omega)
    have unlisted : page ∉ boot.sentinel cpu :: free cpu := by
      intro member
      rcases List.mem_cons.mp member with same | inside
      · simp only [sizeofHeader] at *
        omega
      · exact fresh (by simp [inside])
    have path := (tiling.lists cpu here).divert (tiling.distinct here) page
    refine ⟨_, page, does, tiling.edit here ?_ ?_ ?_ ?_, ?_, ?_⟩
    · simp only [nexts_set_size, nexts_set_next]
      refine path_append.mpr ⟨?_, ?_⟩
      · exact path.update unlisted
      · exact Function.update_self _ _ _
    · intro other there unlike q inside
      simp only [nexts_set_size, nexts_set_next]
      rw [Function.update_of_ne, Function.update_of_ne]
      · rintro rfl
        exact tiling.elsewhere here there unlike (Or.inl (@List.getLastD_mem_cons _ _ _)) inside
      · rintro rfl
        rcases List.mem_cons.mp inside with same | member
        · have below := boot.sentinel_below there
          omega
        · apply fresh
          have other : q ∈ boot.others free cpu := List.mem_flatMap.mpr
            ⟨other, (List.mem_erase_of_ne unlike).mpr (List.mem_range.mpr there), member⟩
          simp [other]
    · intro q below
      simp only [sizes_set_size, sizes_set_next]
      rw [Function.update_of_ne, Function.update_of_ne]
      · exact Nat.ne_of_lt below
      · omega
    · simp only [sizes_set_size, sizes_set_next]
      refine cut.perm ?_
      rw [List.append_assoc]
      refine (List.Perm.cons _ ?_).trans (List.Perm.swap _ _ _)
      exact List.perm_middle
    · simp only [sizes_set_size, sizes_set_next, Function.update_self]
    · intro q inside
      simp only [sizes_set_size, sizes_set_next]
      rw [Function.update_of_ne, Function.update_of_ne]
      · rintro rfl
        exact (List.nodup_cons.mp focus.nodup).1 inside
      · rintro rfl
        exact fresh (List.mem_cons_of_mem _ inside)
  · left
    have cuts : globalAllocReal boot memory (neededFor size) = (memory, 0) := by
      unfold globalAllocReal
      rw [sum]
      exact if_neg fits
    unfold Kernel.refill
    rw [cuts]
    exact if_pos rfl

end Handing

/-- The list `list` of a CPU after a block of `size` bytes has been taken: nothing was added to it,
or a page of which some bytes are left. -/
def Taken (memory after : Memory) (size : Nat) (old list : List Nat) : Prop :=
  (list.Sublist old ∧ ∀ q ∈ list, sizes after q ≤ sizes memory q) ∨
    ((∀ q ∈ old, sizes memory q < size) ∧ size + sizeofHeader ≤ pgSize ∧
      ∃ page, list = old ++ [page])

/-- What a call that returns leaves behind. -/
structure Handed (boot : Boot) (memory after : Memory) (free : Nat → List Nat) (held : List Nat)
    (cpu size p : Nat) (list : List Nat) : Prop where
  tiling : Tiling boot after (Function.update free cpu list) (p :: held)
  enough : size ≤ sizes after p
  taken : Taken memory after size (free cpu) list
  kept : ∀ q ∈ boot.others free cpu ++ held, sizes after q = sizes memory q

section Returning

variable {boot : Boot} {memory : Memory} {free : Nat → List Nat} {held : List Nat}
  {cpu size : Nat}

/-- One round of `kalloc_real`, by where the walk ends. -/
theorem kalloc_round (rounds prevp : Nat) (ending : Scan) :
    scan memory (boot.sentinel cpu) size (boot.pmEnd + 1) prevp
      (nexts memory (boot.sentinel cpu)) = some ending → kallocLoop boot cpu size (rounds + 1) memory prevp =
      match ending with
      | .cut p => .ok (cutTail memory p size)
      | .whole prevp p => .ok (setNext memory prevp (memory p).next, p)
      | .missed prevp =>
          refill boot memory (boot.sentinel cpu) prevp size >>= fun refilled =>
            kallocLoop boot cpu size rounds refilled prevp := by
  intro went
  have reached : scan memory (boot.sentinel cpu) size (boot.pmEnd + 1) prevp
      (memory (boot.sentinel cpu)).next = some ending := went
  rw [kallocLoop]
  simp only [reached]
  cases ending <;> rfl

theorem Tiling.handed_cut (tiling : Tiling boot memory free held) (here : cpu < boot.ncpu)
    (unit : 0x10 ∣ size) {p : Nat} (member : p ∈ free cpu)
    (fits : size + sizeofHeader ≤ sizes memory p) :
    Handed boot memory (cutTail memory p size).1 free held cpu size (cutTail memory p size).2
      (free cpu) := by
  obtain ⟨cut, exactly, less, kept⟩ := tiling.cut here member unit fits
  refine ⟨?_, Nat.le_of_eq exactly.symm, Or.inl ⟨List.Sublist.refl _, less⟩, kept⟩
  rwa [Function.update_eq_self]

theorem Tiling.handed_whole (tiling : Tiling boot memory free held) (here : cpu < boot.ncpu)
    {left right : List Nat} {p : Nat} (shape : free cpu = left ++ p :: right)
    (enough : size ≤ sizes memory p) :
    Handed boot memory (setNext memory (left.getLastD (boot.sentinel cpu)) (memory p).next) free
      held cpu size p (left ++ right) := by
  refine ⟨tiling.whole here shape, ?_, Or.inl ⟨?_, ?_⟩, ?_⟩
  · rw [sizes_set_next]
    exact enough
  · rw [shape]
    exact (List.Sublist.refl left).append (List.sublist_cons_self p right)
  · intro q member
    rw [sizes_set_next]
  · intro q member
    rw [sizes_set_next]

/-- The walk over a list to which a page has been added. -/
theorem Tiling.handed_page (tiling : Tiling boot memory free held) (here : cpu < boot.ncpu)
    (unit : 0x10 ∣ size) (small : size + sizeofHeader < 2 ^ 32) {old : List Nat} {page : Nat}
    (shape : free cpu = old ++ [page]) (short : ∀ q ∈ old, sizes memory q < size)
    (room : sizes memory page = neededFor size) (rounds : Nat) :
    ∃ after p list, kallocLoop boot cpu size (rounds + 1) memory
        (old.getLastD (boot.sentinel cpu)) = .ok (after, p) ∧
      Handed boot memory after free held cpu size p list ∧
      ((size + sizeofHeader ≤ pgSize ∧ list = old ++ [page]) ∨ list = old) := by
  have sum : u32 (size + sizeofHeader) = size + sizeofHeader := u32_small small
  obtain ⟨ending, went, ends⟩ := @scan_ends memory (boot.sentinel cpu) size (boot.sentinel cpu)
    (free cpu) (tiling.lists cpu here) (List.nodup_cons.mp (tiling.distinct here)).1
    (boot.pmEnd + 1) (tiling.length here) (old.getLastD (boot.sentinel cpu))
  rw [kalloc_round _ _ _ went]
  cases ends with
  | @cut p member fits =>
      rw [sum] at fits
      refine ⟨_, _, free cpu, rfl, tiling.handed_cut here unit member fits, Or.inl ⟨?_, shape⟩⟩
      rw [shape] at member
      rcases List.mem_append.mp member with before | last
      · have less := short p before
        omega
      · rw [List.mem_singleton.mp last, room, neededFor] at fits
        split at fits
        · simp only [sizeofHeader] at fits
          omega
        · exact fits
  | @whole left right p split enough tight =>
      have last : p = page ∧ left = old ∧ right = [] := by
        rw [shape] at split
        rcases List.append_eq_append_iff.mp split with ⟨more, front, back⟩ | ⟨more, front, back⟩
        · cases more with
          | nil =>
              rw [List.nil_append, List.cons.injEq] at back
              rw [List.append_nil] at front
              exact ⟨back.1.symm, front, back.2.symm⟩
          | cons first rest => simp at back
        · cases more with
          | nil =>
              rw [List.nil_append, List.cons.injEq] at back
              rw [List.append_nil] at front
              exact ⟨back.1, front.symm, back.2⟩
          | cons first rest =>
              rw [List.cons_append, List.cons.injEq] at back
              have less := short p (by rw [front, back.1]; simp)
              omega
      obtain ⟨rfl, rfl, rfl⟩ := last
      have prev : left.getLastD (left.getLastD (boot.sentinel cpu)) =
          left.getLastD (boot.sentinel cpu) := by
        cases left <;> rfl
      rw [prev]
      refine ⟨_, p, left ++ [], rfl, tiling.handed_whole here shape enough, Or.inr ?_⟩
      exact List.append_nil left
  | missed less _ =>
      have large := less page (by rw [shape]; simp)
      rw [room, neededFor] at large
      split at large <;> omega

/-- `kalloc_real` finds no space or hands out a block of the heap that is large enough. -/
theorem kalloc_real_returns (tiling : Tiling boot memory free held) (here : cpu < boot.ncpu)
    {request : Nat} (small : request + 0x10 + sizeofHeader ≤ 2 ^ 32) :
    kallocReal boot memory cpu request = .error .noSpace ∨
      ∃ after p list, kallocReal boot memory cpu request = .ok (after, p) ∧
        Handed boot memory after free held cpu (align request 0x10) p list := by
  have unit := dvd_align request 0x10
  have bound : align request 0x10 + sizeofHeader < 2 ^ 32 := by
    have less := @align_lt request 0x10 (by simp only [sizeofHeader] at small; omega) (by decide)
    omega
  unfold kallocReal
  generalize align request 0x10 = size at *
  have sum : u32 (size + sizeofHeader) = size + sizeofHeader := u32_small bound
  obtain ⟨ending, went, ends⟩ := @scan_ends memory (boot.sentinel cpu) size (boot.sentinel cpu)
    (free cpu) (tiling.lists cpu here) (List.nodup_cons.mp (tiling.distinct here)).1
    (boot.pmEnd + 1) (tiling.length here) (boot.sentinel cpu)
  rw [kalloc_round _ _ _ went]
  cases ends with
  | @cut p member fits =>
      rw [sum] at fits
      exact Or.inr ⟨_, _, free cpu, rfl, tiling.handed_cut here unit member fits⟩
  | @whole left right p split enough tight =>
      exact Or.inr ⟨_, _, left ++ right, rfl, tiling.handed_whole here split enough⟩
  | missed short _ =>
      rcases tiling.refill here unit bound with none | ⟨refilled, page, does, tiled, room, kept⟩
      · left
        simp only [none]
        rfl
      · right
        obtain ⟨less, more⟩ : ∃ less, boot.pmEnd = less + 1 :=
          ⟨boot.pmEnd - 1, by
            have room := boot.start_room
            simp only [sizeofHeader] at room
            omega⟩
        have old (q : Nat) (member : q ∈ free cpu) : sizes refilled q = sizes memory q :=
          kept q (List.mem_append_left _ member)
        obtain ⟨after, p, list, ran, handed, rest⟩ := tiled.handed_page here unit bound
          (Function.update_self _ _ _) (fun q member => by
            rw [old q member]
            exact short q member) room less
        refine ⟨after, p, list, ?_, ?_⟩
        · simp only [does, more]
          exact ran
        · have listed := handed.tiling
          rw [Function.update_idem] at listed
          refine ⟨listed, handed.enough, ?_, ?_⟩
          · rcases rest with ⟨cut, rfl⟩ | rfl
            · exact Or.inr ⟨short, cut, page, rfl⟩
            · left
              refine ⟨List.Sublist.refl _, ?_⟩
              intro q member
              rcases handed.taken with ⟨-, less⟩ | ⟨-, -, fresh, grown⟩
              · rw [← old q member]
                exact less q member
              · have lengths := congrArg List.length grown
                simp only [Function.update_self, List.length_append, List.length_singleton]
                  at lengths
                omega
          · intro q member
            rw [handed.kept q (by rwa [others_update])]
            exact kept q (List.mem_append_right _ member)

end Returning

/-- `kalloc` around `kalloc_real`. -/
theorem kalloc_of_real {boot : Boot} {pmm : Pmm} {cpu size p : Nat} {after : Memory}
    (ran : kallocReal boot pmm.memory cpu size = .ok (after, p)) :
    kalloc boot pmm cpu size = .ok (⟨setFence after p 0x13579ace,
      u32 (pmm.allocCnt + (setFence after p 0x13579ace p).size), pmm.freeCnt⟩,
      u32 (p + sizeofHeader)) := by
  unfold kalloc
  rw [ran]
  rfl

end OsWorkbench.Kernel
