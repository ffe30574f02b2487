import OsWorkbench.Am.PageTables
import OsWorkbench.Library.Runs

/-!
# `vme.c` of the abstract machine: address spaces

`vme_init` maps the kernel's areas onto themselves, `protect` starts an address space from the
kernel's entries, `map` changes a page of it and `unprotect` gives its pages back. While `vme_init` runs
the pages that the allocator returns have to differ; what it returns later is left open here.
-/

namespace OsWorkbench.Am

open Library

section Source

structure VmArea where
  start : Nat
  stop : Nat
  physical : Bool

/-- Kernel code and data, the protected address space range, and the system mmap area, whose end
overflows. -/
def areas : List VmArea :=
  [⟨0x00000000, 0x20000000, true⟩, ⟨0x40000000, 0x80000000, false⟩, ⟨0xf0000000, 0x00000000, true⟩]

def uvmStart : Nat := 0x40000000
def uvmEnd : Nat := 0x80000000

def protNone : Nat := 1
def protWrite : Nat := 4

/-- The loop over the pages of an area. -/
def initArea (kpt stop : Nat) : Nat → Nat → Vm → Option Vm
  | 0, _, _ => none
  | fuel + 1, pa, vm =>
      if pa = stop then some vm
      else do
        let (ptab, vm) ← tableAt kpt pa (pteP ||| pteW) vm
        initArea kpt stop fuel ((pa + pgsize) % 0x100000000)
          (vm.set ptab (ptx pa) (pteP ||| pteW ||| pa))

/-- More turns than an area has pages. -/
def pageFuel : Nat := 0x100001

def vmeInit (vm : Vm) : Option (Nat × Vm) := do
  let (kpt, vm) ← pgalloc vm
  let vm ← areas.foldlM (fun vm seg =>
    if seg.physical then initArea kpt seg.stop pageFuel seg.start vm else some vm) vm
  some (kpt, vm)

def protect (kpt : Nat) (vm : Vm) : Option (Nat × Vm) := do
  let (upt, vm) ← pgalloc vm
  some (upt, (List.range 1024).foldl (fun vm i => vm.set upt i (vm.mem kpt i)) vm)

/-- The loop over the directory entries of the protected range. -/
def freeTables (upt : Nat) : Nat → Nat → Vm → Option Vm
  | 0, _, _ => none
  | fuel + 1, va, vm =>
      if va = uvmEnd then some vm
      else do
        let pde := vm.mem upt (pdx va)
        let vm ← if pde &&& pteP ≠ 0 then pgfree (pteAddr pde) vm else some vm
        freeTables upt fuel ((va + 0x400000) % 0x100000000) vm

def unprotect (upt : Nat) (vm : Vm) : Option Vm := do
  let vm ← freeTables upt pageFuel uvmStart vm
  pgfree upt vm

/-- The entry of a page: none if there is to be no access. -/
def pteFor (pa prot : Nat) : Nat :=
  if prot &&& protNone ≠ 0 then 0
  else pteP ||| (if prot &&& protWrite ≠ 0 then pteW else 0) ||| pteU ||| pa

/-- Wrong flags and addresses within a page are a panic, other addresses are refused. -/
def map (upt va pa prot : Nat) (vm : Vm) : Option (Nat × Vm) :=
  if prot &&& protNone ≠ 0 ∧ prot ≠ protNone then none
  else if va % pgsize ≠ 0 ∨ pa % pgsize ≠ 0 then none
  else if ¬(uvmStart ≤ va ∧ va < uvmEnd) then some (1, vm)
  else do
    let (_, vm) ← tableAt upt va (pteP ||| pteW ||| pteU) vm
    some (0, vm.set (pteAddr (vm.mem upt (pdx va))) (ptx va) (pteFor pa prot))

end Source

section Boot

/-- The directory of the kernel: every entry may lead to a table of it. -/
def kernelRoot (kpt : Nat) : Root := ⟨kpt, List.range 1024, pteP ||| pteW⟩

/-- Directory entries of the areas that are mapped onto themselves. -/
def physicalSlot (d : Nat) : Bool := d < 128 || 960 ≤ d

def physicalPage (n : Nat) : Bool := n < 0x20000 || 0xf0000 ≤ n

/-- The pages of the allocator: each is still to be returned or in use. -/
structure Supply (pool : List Nat) (vm : Vm) : Prop where
  distinct : pool.Nodup
  pages : ∀ page ∈ pool, page ≠ 0 ∧ IsPage page
  whole : (vm.answers ++ vm.allocated).Perm pool

variable {vm vm' : Vm} {kpt ptab page d va : Nat} {pool : List Nat} {done : Nat → Bool}

theorem Supply.fresh (supply : Supply pool vm) : Fresh vm := by
  intro page answer _
  have among := List.mem_of_mem_head? answer
  have pooled := supply.whole.mem_iff.mp (List.mem_append_left vm.allocated among)
  refine ⟨(supply.pages page pooled).2, fun used => ?_⟩
  have distinct := supply.whole.nodup_iff.mpr supply.distinct
  exact (List.nodup_append.mp distinct).2.2 page among page used rfl

theorem Supply.granted (supply : Supply pool vm) (answer : vm.answers.head? = some page) :
    Supply pool (vm.granted page) := by
  obtain ⟨answers, split⟩ := List.head?_eq_some_iff.mp answer
  refine ⟨supply.distinct, supply.pages, ?_⟩
  have whole := supply.whole
  rw [split, List.cons_append] at whole
  rw [Vm.granted, split]
  exact List.perm_middle.trans whole

/-- The tables of the kernel when these pages are mapped. -/
structure Laid (kpt : Nat) (done : Nat → Bool) (vm : Vm) : Prop where
  sound : Sound vm [kernelRoot kpt]
  walks : ∀ va < 0x100000000, pteOf vm.mem kpt va =
    if done (va / pgsize) then pteP ||| pteW ||| va / pgsize * pgsize else 0
  spread : ∀ d, tableOf (vm.mem kpt d) ≠ none → physicalSlot d = true

/-- The state of the loops. -/
structure Mapped (kpt : Nat) (pool : List Nat) (done : Nat → Bool) (vm : Vm) : Prop
    extends Laid kpt done vm where
  supply : Supply pool vm

/-- A page for the directory, and one for each table of the kernel's areas. -/
def kernelPages : Nat := 193

theorem kernel_dir : (kernelRoot kpt).dir = kpt := rfl

theorem kernel_slots : (kernelRoot kpt).slots = List.range 1024 := by
  rw [kernelRoot]

theorem kernel_flags : (kernelRoot kpt).flags = pteP ||| pteW := rfl

theorem pdx_lt (va : Nat) : pdx va < 1024 := by
  rw [pdx_eq]
  exact Nat.mod_lt _ (by decide)

theorem mem_kernel_slots (va : Nat) : pdx va ∈ (kernelRoot kpt).slots := by
  rw [kernel_slots, List.mem_range]
  exact pdx_lt va

theorem physical_slots (bound : d < 1024) :
    d ∈ List.range 128 ++ List.range' 960 64 ↔ physicalSlot d = true := by
  simp only [physicalSlot, Bool.or_eq_true, decide_eq_true_eq, List.mem_append, List.mem_range,
    List.mem_range'_1]
  omega

/-- The pages in use are the directory and the tables that its entries lead to. -/
theorem Laid.pages_counted (laid : Laid kpt done vm) : vm.allocated.length =
    ((List.range 1024).filter fun e => (tableOf (vm.mem kpt e)).isSome).length + 1 := by
  have filled : ((List.range 1024).filter fun e => (tableOf (vm.mem kpt e)).isSome).length =
      ((kernelRoot kpt).tables vm.mem).length := by
    rw [Root.tables, List.length_filterMap_eq_countP, ← List.countP_eq_length_filter, kernel_slots,
      kernel_dir]
  rw [filled, laid.sound.owns.length_eq, List.flatMap_singleton, Root.pages, List.length_cons]

/-- Only the entries of the kernel's areas may have tables. -/
theorem Laid.tables_few (laid : Laid kpt done vm) (other : List Nat) (distinct : other.Nodup)
    (empty : ∀ d ∈ other, d < 1024 ∧ physicalSlot d = true ∧ tableOf (vm.mem kpt d) = none) :
    other.length + vm.allocated.length ≤ kernelPages := by
  have nodup :
      (other ++ (List.range 1024).filter fun e => (tableOf (vm.mem kpt e)).isSome).Nodup := by
    refine List.nodup_append.mpr ⟨distinct, List.nodup_range.filter _, fun d inOther e member => ?_⟩
    rintro rfl
    have leads := (List.mem_filter.mp member).2
    rw [(empty d inOther).2.2] at leads
    cases leads
  have inside : (other ++ (List.range 1024).filter fun e => (tableOf (vm.mem kpt e)).isSome) ⊆
      List.range 128 ++ List.range' 960 64 := by
    intro e member
    rcases List.mem_append.mp member with inOther | member
    · exact (physical_slots (empty e inOther).1).mpr (empty e inOther).2.1
    · obtain ⟨among, leads⟩ := List.mem_filter.mp member
      exact (physical_slots (List.mem_range.mp among)).mpr
        (laid.spread e fun nowhere => by simp [nowhere] at leads)
  have count := (List.subperm_of_subset nodup inside).length_le
  rw [List.length_append, List.length_append, List.length_range, List.length_range'] at count
  rw [laid.pages_counted, kernelPages]
  omega

/-- When the areas are mapped, each of these entries has a table. -/
theorem Laid.tables_all (laid : Laid kpt physicalPage vm) : kernelPages ≤ vm.allocated.length := by
  have nodup : (List.range 128 ++ List.range' 960 64).Nodup := by
    refine List.nodup_append.mpr ⟨List.nodup_range, List.nodup_range', fun d low e high => ?_⟩
    rw [List.mem_range] at low
    rw [List.mem_range'_1] at high
    omega
  have inside : List.range 128 ++ List.range' 960 64 ⊆
      (List.range 1024).filter fun e => (tableOf (vm.mem kpt e)).isSome := by
    intro d member
    have bound : d < 1024 := by
      rw [List.mem_append, List.mem_range, List.mem_range'_1] at member
      omega
    refine List.mem_filter.mpr ⟨List.mem_range.mpr bound, ?_⟩
    have physical : physicalPage (d * 0x400000 / pgsize) = true := by
      rw [List.mem_append, List.mem_range, List.mem_range'_1] at member
      rw [physicalPage, Bool.or_eq_true, decide_eq_true_eq, decide_eq_true_eq, pgsize]
      omega
    have slot : pdx (d * 0x400000) = d := by
      rw [pdx_eq]
      omega
    have walk := laid.walks (d * 0x400000) (by omega)
    rw [if_pos physical, pteOf, slot] at walk
    cases leads : tableOf (vm.mem kpt d) with
    | some ptab => rfl
    | none =>
        rw [leads, Option.elim_none] at walk
        have present := congrArg (· &&& pteP) walk
        have isPage : IsPage (d * 0x400000 / pgsize * pgsize) := by
          refine ⟨Nat.mul_mod_left _ _, ?_⟩
          rw [pgsize]
          omega
        rw [flags_and isPage (by decide)] at present
        exact absurd present (by decide)
  have count := (List.subperm_of_subset nodup inside).length_le
  rw [List.length_append, List.length_range, List.length_range'] at count
  rw [laid.pages_counted, kernelPages]
  omega

/-- There is an answer left for an entry without a table. -/
theorem Mapped.answers_left (mapped : Mapped kpt pool done vm) (many : kernelPages ≤ pool.length)
    (small : d < 1024) (physical : physicalSlot d = true) (empty : tableOf (vm.mem kpt d) = none) :
    vm.answers ≠ [] := by
  intro nothing
  have few := mapped.tables_few [d] (List.nodup_singleton d)
    (List.forall_mem_singleton.mpr ⟨small, physical, empty⟩)
  have length := mapped.supply.whole.length_eq
  rw [nothing, List.nil_append] at length
  rw [List.length_singleton] at few
  omega

theorem pgalloc_granted (supply : Supply pool vm) (left : vm.answers ≠ []) :
    ∃ page, vm.answers.head? = some page ∧ pgalloc vm = some (page, vm.granted page) := by
  obtain ⟨page, rest, split⟩ := List.exists_cons_of_ne_nil left
  refine ⟨page, by rw [split]; rfl, ?_⟩
  have nonzero := (supply.pages page (supply.whole.mem_iff.mp
    (List.mem_append_left _ (split ▸ List.mem_cons_self)))).1
  rw [pgalloc, split]
  exact if_neg nonzero

/-- The addresses of a page are told by the two indices. -/
theorem same_page (va pa : Nat) (small : va < 0x100000000) (other : pa < 0x100000000) :
    pdx va = pdx pa ∧ ptx va = ptx pa ↔ va / pgsize = pa / pgsize := by
  rw [pdx_eq, pdx_eq, ptx_eq, ptx_eq, pgsize]
  omega

theorem Mapped.table (mapped : Mapped kpt pool done vm) (many : kernelPages ≤ pool.length)
    (physical : physicalSlot (pdx va) = true) :
    ∃ ptab vm', tableAt kpt va (pteP ||| pteW) vm = some (ptab, vm') ∧ Supply pool vm' := by
  by_cases empty : vm.mem kpt (pdx va) &&& pteP = 0
  · obtain ⟨page, answer, granted⟩ := pgalloc_granted mapped.supply
      (mapped.answers_left many (pdx_lt va) physical (if_pos empty))
    have supply := mapped.supply.granted answer
    refine ⟨page, (vm.granted page).set kpt (pdx va) (pteP ||| pteW ||| page), ?_,
      ⟨supply.distinct, supply.pages, supply.whole⟩⟩
    rw [tableAt, if_pos empty, granted]
    rfl
  · exact ⟨pteAddr (vm.mem kpt (pdx va)), vm, if_neg empty, mapped.supply⟩

/-- One turn of the loop. -/
theorem Mapped.turn {n : Nat} (mapped : Mapped kpt pool done vm) (many : kernelPages ≤ pool.length)
    (small : n < 0x100000) (physical : physicalSlot (n / 1024) = true) :
    ∃ ptab vm', tableAt kpt (pgsize * n) (pteP ||| pteW) vm = some (ptab, vm') ∧
      Mapped kpt pool (fun page => done page || page == n)
        (vm'.set ptab (ptx (pgsize * n)) (pteP ||| pteW ||| pgsize * n)) := by
  have slot : pdx (pgsize * n) = n / 1024 := by
    rw [pdx_eq, pgsize]
    omega
  have inside : pgsize * n < 0x100000000 := by
    rw [pgsize]
    omega
  obtain ⟨ptab, vm', found, supply⟩ := mapped.table many (slot ▸ physical)
  obtain ⟨sound, same, walks⟩ := mapped.sound.placed (pteP ||| pteW ||| pgsize * n)
    (fun _ => mapped.supply.fresh) List.mem_cons_self (mem_kernel_slots _) found
  have entry (d : Nat) := same _ List.mem_cons_self d
  have walk (va : Nat) := walks _ List.mem_cons_self va (mem_kernel_slots va)
  simp only [kernel_dir, true_and, true_implies] at entry walk
  refine ⟨ptab, vm', found, ⟨sound, fun va bound => ?_, fun d leads => ?_⟩,
    ⟨supply.distinct, supply.pages, supply.whole⟩⟩
  · rw [walk va, mapped.walks va bound]
    simp only [same_page va (pgsize * n) bound inside]
    rw [Nat.mul_div_cancel_left n (by decide : 0 < pgsize)]
    by_cases here : va / pgsize = n
    · simp [here, Nat.mul_comm]
    · simp [here]
  · by_cases here : d = pdx (pgsize * n)
    · rw [here, slot]
      exact physical
    · rw [entry d here] at leads
      exact mapped.spread d leads

/-- The loop over an area of `k` pages from the page `a` on; at the end of the addresses it
meets 0. -/
theorem Mapped.area {k a fuel : Nat} (mapped : Mapped kpt pool done vm) (many : kernelPages ≤ pool.length)
    (inside : a + k < 0x100000 ∨ a + k = 0x100000 ∧ 0 < a) (enough : k < fuel)
    (physical : ∀ n, a ≤ n → n < a + k → physicalSlot (n / 1024) = true) :
    ∃ vm', initArea kpt (pgsize * (a + k) % 0x100000000) fuel (pgsize * a % 0x100000000) vm =
        some vm' ∧
      Mapped kpt pool (fun page => done page || a ≤ page && page < a + k) vm' := by
  induction k generalizing a fuel done vm with
  | zero =>
      obtain ⟨fuel, rfl⟩ := Nat.exists_eq_succ_of_ne_zero (Nat.ne_of_gt enough)
      refine ⟨vm, if_pos rfl, ?_⟩
      have nothing : (fun page => done page || a ≤ page && page < a + 0) = done := by
        funext page
        have empty : (decide (a ≤ page) && decide (page < a + 0)) = false := by
          simp only [Bool.and_eq_false_iff, decide_eq_false_iff_not]
          omega
        rw [empty, Bool.or_false]
      rw [nothing]
      exact mapped
  | succ k hypothesis =>
      obtain ⟨fuel, rfl⟩ := Nat.exists_eq_succ_of_ne_zero (Nat.ne_zero_of_lt enough)
      have small : a < 0x100000 := by omega
      obtain ⟨ptab, next, found, turned⟩ := mapped.turn many small (physical a le_rfl (by omega))
      have going : pgsize * a % 0x100000000 ≠ pgsize * (a + (k + 1)) % 0x100000000 := by
        rw [pgsize]
        omega
      have here : pgsize * a % 0x100000000 = pgsize * a := by
        rw [pgsize]
        omega
      have step : (pgsize * a + pgsize) % 0x100000000 = pgsize * (a + 1) % 0x100000000 := rfl
      obtain ⟨vm', rest, final⟩ := @hypothesis _ _ (a + 1) fuel turned (by omega) (by omega)
        fun n low high => physical n (by omega) (by omega)
      refine ⟨vm', ?_, ?_⟩
      · rw [initArea, if_neg going, here, found, step, Option.bind_eq_bind, Option.bind_some,
          Nat.add_comm k 1, ← Nat.add_assoc]
        exact rest
      · have same : (fun page => (done page || page == a) || a + 1 ≤ page && page < a + 1 + k) =
            fun page => done page || a ≤ page && page < a + (k + 1) := by
          funext page
          rw [Bool.eq_iff_iff]
          simp only [Bool.or_eq_true, beq_iff_eq, Bool.and_eq_true, decide_eq_true_eq, or_assoc]
          apply or_congr_right
          omega
        rw [← same]
        exact final

/-- Nothing is mapped by a directory that is filled with zeros. -/
theorem Mapped.blank (supply : Supply pool vm) (unused : vm.allocated = [])
    (answer : vm.answers.head? = some kpt) :
    Mapped kpt pool (fun _ => false) (vm.granted kpt) := by
  have word (i : Nat) : (vm.granted kpt).mem kpt i = 0 := congrFun granted_page i
  have empty : (kernelRoot kpt).tables (vm.granted kpt).mem = [] := by
    rw [Root.tables, List.filterMap_eq_nil_iff]
    intro d _
    rw [kernel_dir, word]
    exact table_of_zero
  have isPage := (supply.pages kpt (supply.whole.mem_iff.mp
    (List.mem_append_left _ (List.mem_of_mem_head? answer)))).2
  have only : (vm.granted kpt).allocated = [kpt] := congrArg (List.cons kpt) unused
  refine ⟨?_, supply.granted answer⟩
  constructor
  case sound =>
    constructor
    · rw [List.flatMap_singleton, Root.pages, empty, only, kernel_dir]
    · rw [only]
      exact List.nodup_singleton _
    · rw [only]
      exact List.forall_mem_singleton.mpr isPage
    · rw [List.forall_mem_singleton, kernel_slots]
      exact List.nodup_range
    · rw [List.forall_mem_singleton, kernel_flags]
      decide
    · exact List.forall_mem_singleton.mpr fun d _ => Or.inl (word d)
  case walks =>
    intro va _
    rw [pteOf, word]
    rfl
  case spread =>
    intro d leads
    rw [word] at leads
    exact absurd table_of_zero leads

/-- The kernel's directory maps its areas onto themselves and nothing else. -/
theorem vme_init_mapped (supply : Supply pool vm) (unused : vm.allocated = [])
    (many : kernelPages ≤ pool.length) :
    ∃ kpt vm', vmeInit vm = some (kpt, vm') ∧ Mapped kpt pool physicalPage vm' := by
  obtain ⟨kpt, answer, granted⟩ := pgalloc_granted supply (by
    intro empty
    have length := supply.whole.length_eq
    rw [empty, unused] at length
    rw [← length] at many
    exact absurd many (by decide))
  have blank := Mapped.blank supply unused answer
  obtain ⟨vm1, first, low⟩ := @Mapped.area _ _ _ _ 0x20000 0 pageFuel blank many (Or.inl (by decide))
    (by decide) fun n _ high => by
      simp only [physicalSlot, Bool.or_eq_true, decide_eq_true_eq]
      omega
  obtain ⟨vm2, second, all⟩ := @Mapped.area _ _ _ _ 0x10000 0xf0000 pageFuel low many
    (Or.inr (by decide)) (by decide) fun n above _ => by
      simp only [physicalSlot, Bool.or_eq_true, decide_eq_true_eq]
      omega
  refine ⟨kpt, vm2, ?_, ?_⟩
  · have loops : areas.foldlM (fun vm seg =>
        if seg.physical then initArea kpt seg.stop pageFuel seg.start vm else some vm)
          (vm.granted kpt) = some vm2 := by
      simp only [areas, List.foldlM_cons, List.foldlM_nil, if_true, Bool.false_eq_true, if_false]
      rw [show initArea kpt 0x20000000 pageFuel 0 (vm.granted kpt) = some vm1 from first]
      rw [Option.bind_eq_bind, Option.bind_some, Option.bind_some]
      rw [show initArea kpt 0 pageFuel 0xf0000000 vm1 = some vm2 from second]
      rfl
    rw [vmeInit, granted, Option.bind_eq_bind, Option.bind_some]
    dsimp only
    rw [loops]
    rfl
  · refine ⟨⟨all.sound, fun va bound => ?_, all.spread⟩, all.supply⟩
    rw [all.walks va bound]
    have page : va / pgsize < 0x100000 := by
      rw [pgsize]
      omega
    generalize va / pgsize = n at page
    have same : (false || 0 ≤ n && n < 0 + 0x20000 || 0xf0000 ≤ n && n < 0xf0000 + 0x10000) =
        physicalPage n := by
      rw [Bool.eq_iff_iff, physicalPage]
      simp only [Bool.or_eq_true, Bool.and_eq_true, decide_eq_true_eq, Bool.false_or]
      omega
    rw [← same]

/-- More answers behind those that are used. -/
def Vm.further (vm : Vm) (rest : List Nat) : Vm := { vm with answers := vm.answers ++ rest }

variable {rest : List Nat}

theorem pgalloc_further (made : pgalloc vm = some (page, vm')) :
    pgalloc (vm.further rest) = some (page, vm'.further rest) := by
  obtain ⟨nonzero, answer, rfl⟩ := pgalloc_some made
  obtain ⟨answers, split⟩ := List.head?_eq_some_iff.mp answer
  rw [pgalloc, Vm.further, split, List.cons_append]
  dsimp only
  rw [if_neg nonzero, Vm.granted, Vm.granted, Vm.further, split]
  rfl

theorem table_at_further {flags : Nat} (found : tableAt kpt va flags vm = some (ptab, vm')) :
    tableAt kpt va flags (vm.further rest) = some (ptab, vm'.further rest) := by
  rw [tableAt] at found ⊢
  by_cases empty : vm.mem kpt (pdx va) &&& pteP = 0
  · rw [if_pos empty] at found
    obtain ⟨⟨page, granted⟩, made, placed⟩ := Option.bind_eq_some_iff.mp found
    obtain ⟨rfl, rfl⟩ := Prod.mk.inj (Option.some.inj placed)
    have empty : (vm.further rest).mem kpt (pdx va) &&& pteP = 0 := empty
    rw [if_pos empty, pgalloc_further made]
    rfl
  · rw [if_neg empty] at found
    obtain ⟨rfl, rfl⟩ := Prod.mk.inj (Option.some.inj found)
    exact if_neg empty

theorem init_area_further {stop fuel pa : Nat} (ended : initArea kpt stop fuel pa vm = some vm') :
    initArea kpt stop fuel pa (vm.further rest) = some (vm'.further rest) := by
  induction fuel generalizing pa vm with
  | zero => exact absurd ended.symm (Option.some_ne_none _)
  | succ fuel hypothesis =>
      rw [initArea] at ended ⊢
      by_cases done : pa = stop
      · rw [if_pos done] at ended ⊢
        rw [Option.some.inj ended]
      · rw [if_neg done] at ended ⊢
        obtain ⟨⟨ptab, next⟩, found, onward⟩ := Option.bind_eq_some_iff.mp ended
        rw [table_at_further found]
        exact hypothesis onward

theorem fold_further {segments : List VmArea} {loop : Vm → VmArea → Option Vm}
    (each : ∀ vm vm' seg, loop vm seg = some vm' → loop (vm.further rest) seg = some (vm'.further rest))
    (ended : segments.foldlM loop vm = some vm') :
    segments.foldlM loop (vm.further rest) = some (vm'.further rest) := by
  induction segments generalizing vm with
  | nil => exact congrArg (fun vm => some (vm.further rest)) (Option.some.inj ended)
  | cons seg segments hypothesis =>
      rw [List.foldlM_cons] at ended ⊢
      obtain ⟨next, stepped, onward⟩ := Option.bind_eq_some_iff.mp ended
      rw [each vm next seg stepped]
      exact hypothesis onward

/-- `vme_init` does not look at more answers than it needs. -/
theorem vme_init_further (booted : vmeInit vm = some (kpt, vm')) :
    vmeInit (vm.further rest) = some (kpt, vm'.further rest) := by
  obtain ⟨⟨root, granted⟩, made, onward⟩ := Option.bind_eq_some_iff.mp booted
  obtain ⟨next, loops, ended⟩ := Option.bind_eq_some_iff.mp onward
  obtain ⟨rfl, rfl⟩ := Prod.mk.inj (Option.some.inj ended)
  rw [vmeInit, pgalloc_further made, Option.bind_eq_bind, Option.bind_some]
  dsimp only
  have each (vm vm' : Vm) (seg : VmArea)
      (stepped : (if seg.physical then initArea root seg.stop pageFuel seg.start vm else some vm) =
        some vm') :
      (if seg.physical then initArea root seg.stop pageFuel seg.start (vm.further rest)
        else some (vm.further rest)) = some (vm'.further rest) := by
    by_cases physical : seg.physical
    · rw [if_pos physical] at stepped ⊢
      exact init_area_further stepped
    · rw [if_neg physical] at stepped ⊢
      rw [Option.some.inj stepped]
  rw [fold_further each loops]
  rfl

/-- With as many different pages as it needs, `vme_init` takes these and no others. -/
theorem vme_init_boots (pages : ∀ page ∈ vm.answers.take kernelPages, page ≠ 0 ∧ IsPage page)
    (distinct : (vm.answers.take kernelPages).Nodup) (unused : vm.allocated = [])
    (many : kernelPages ≤ vm.answers.length) :
    ∃ kpt vm', vmeInit vm = some (kpt, vm') ∧ Laid kpt physicalPage vm' ∧
      vm'.answers = vm.answers.drop kernelPages ∧
        vm'.allocated.Perm (vm.answers.take kernelPages) := by
  have length : (vm.answers.take kernelPages).length = kernelPages := List.length_take_of_le many
  have supply : Supply (vm.answers.take kernelPages)
      { vm with answers := vm.answers.take kernelPages } :=
    ⟨distinct, pages, by rw [unused, List.append_nil]⟩
  obtain ⟨kpt, last, booted, mapped⟩ := vme_init_mapped supply unused length.ge
  have all := mapped.tables_all
  have total := mapped.supply.whole.length_eq
  rw [List.length_append, length] at total
  have nothing : last.answers = [] := List.eq_nil_of_length_eq_zero (by omega)
  have whole := mapped.supply.whole
  rw [nothing, List.nil_append] at whole
  refine ⟨kpt, last.further (vm.answers.drop kernelPages), ?_, ?_, ?_, whole⟩
  · have again := @vme_init_further _ _ _ (vm.answers.drop kernelPages) booted
    rw [Vm.further] at again
    dsimp only at again
    rwa [List.take_append_drop] at again
  · exact ⟨mapped.sound.frame fun _ _ _ _ => rfl, mapped.walks, mapped.spread⟩
  · rw [Vm.further, nothing, List.nil_append]

end Boot

end OsWorkbench.Am
