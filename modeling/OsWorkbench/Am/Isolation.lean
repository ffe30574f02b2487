import OsWorkbench.Am.AddressSpaces

/-!
# Address spaces apart from each other

Several address spaces are mapped, written to by their programs and given back, in any order. What an
address means in one of them is what its own `map` calls say, also where the allocator returns pages
that it got back from another one.
-/

namespace OsWorkbench.Am

open Library

section Machine

structure Translation where
  address : Nat
  user : Bool
  writable : Bool

/-- The translation of the processor: both entries are present, and both give the rights. -/
def translate (mem : Nat → Nat → Nat) (dir va : Nat) : Option Translation :=
  let pde := mem dir (pdx va)
  let pte := pteOf mem dir va
  if pte &&& pteP = 0 then none
  else some
    ⟨pteAddr pte + va % pgsize, pde &&& pteU ≠ 0 && pte &&& pteU ≠ 0,
      pde &&& pteW ≠ 0 && pte &&& pteW ≠ 0⟩

/-- A program writes a word; without the right to it, it has a page fault and writes nothing. -/
def userStore (dir va value : Nat) (vm : Vm) : Vm :=
  (translate vm.mem dir va).elim vm fun found =>
    if found.user && found.writable then
      vm.set (found.address / pgsize * pgsize) (found.address % pgsize / 4) value
    else vm

/-- The page tables, and what `ptr` is in the address spaces there are. -/
structure System where
  vm : Vm
  live : List Nat

inductive VmAct where
  | protect (upt : Nat)
  | map (upt va pa prot : Nat)
  | unprotect (upt : Nat)
  | store (upt va value : Nat)

/-- The calls are for address spaces that there are; the label of `protect` says what it makes. -/
def vmStep (kpt : Nat) : VmAct → System → Option System
  | .protect upt, s => do
      let (made, vm) ← protect kpt s.vm
      if made = upt then some ⟨vm, upt :: s.live⟩ else none
  | .map upt va pa prot, s =>
      if upt ∈ s.live then do
        let (_, vm) ← map upt va pa prot s.vm
        some { s with vm := vm }
      else none
  | .unprotect upt, s =>
      if upt ∈ s.live then do
        let vm ← unprotect upt s.vm
        some ⟨vm, s.live.erase upt⟩
      else none
  | .store upt va value, s =>
      if upt ∈ s.live then some { s with vm := userStore upt va value s.vm } else none

/-- The steps that need a page from the allocator. -/
def VmAct.Asks (vm : Vm) : VmAct → Prop
  | .protect _ => True
  | .map upt va _ _ => (uvmStart ≤ va ∧ va < uvmEnd) ∧ vm.mem upt (pdx va) &&& pteP = 0
  | _ => False

/-- Pointers have 32 bits, and a page that is mapped is not in use for the page tables, nor taken for
one by the same call. -/
def VmAct.Proper (vm : Vm) : VmAct → Prop
  | .map upt va pa prot =>
      va < 0x100000000 ∧ pa < 0x100000000 ∧ pa ∉ vm.allocated ∧
        (VmAct.Asks vm (.map upt va pa prot) → vm.answers.head? ≠ some pa)
  | .store _ va _ => va < 0x100000000
  | _ => True

/-- Where the allocator is asked, it returns a page that is neither in use nor mapped. -/
structure Allowed (act : VmAct) (s : System) : Prop where
  fresh : act.Asks s.vm → Fresh s.vm
  unmapped : act.Asks s.vm → ∀ page, s.vm.answers.head? = some page → ∀ upt ∈ s.live, ∀ va found,
    uvmStart ≤ va → va < uvmEnd → translate s.vm.mem upt va = some found →
      found.address / pgsize * pgsize ≠ page
  proper : act.Proper s.vm

end Machine

section Purpose

/-- What each address space says of its pages: the page that is mapped there, and whether it may be
written. -/
abbrev View := Nat → Nat → Option (Nat × Bool)

def View.blank : View := fun _ _ => none

def View.after (view : View) : VmAct → View
  | .protect upt => Function.update view upt fun _ => none
  | .map upt va pa prot =>
      if uvmStart ≤ va ∧ va < uvmEnd then
        Function.update view upt (Function.update (view upt) (va / pgsize)
          (if prot &&& protNone ≠ 0 then none else some (pa, decide (prot &&& protWrite ≠ 0))))
      else view
  | .unprotect _ => view
  | .store _ _ _ => view

/-- The meaning of an address: the view within the protected range, the address itself in the areas
of the kernel, which programs have no right to. -/
def meaning (view : View) (upt va : Nat) : Option Translation :=
  if uvmStart ≤ va ∧ va < uvmEnd then
    (view upt (va / pgsize)).map fun page => ⟨page.1 + va % pgsize, true, page.2⟩
  else if physicalPage (va / pgsize) then some ⟨va, false, true⟩
  else none

end Purpose

section Entries

def entryOf (page : Option (Nat × Bool)) : Nat :=
  page.elim 0 fun page => pteP ||| (if page.2 then pteW else 0) ||| pteU ||| page.1

variable {page upt va pa prot : Nat} {writable : Bool}

theorem pte_for_entry : pteFor pa prot =
    entryOf (if prot &&& protNone ≠ 0 then none else some (pa, decide (prot &&& protWrite ≠ 0))) := by
  rw [pteFor]
  by_cases hidden : prot &&& protNone ≠ 0
  · rw [if_pos hidden, if_pos hidden]
    rfl
  · rw [if_neg hidden, if_neg hidden]
    by_cases write : prot &&& protWrite ≠ 0
    · simp [entryOf, write]
    · simp only [entryOf, write, if_false, Option.elim_some, decide_false, Bool.false_eq_true]

theorem entry_flags (isPage : IsPage page) :
    entryOf (some (page, writable)) &&& pteP ≠ 0 ∧
      decide (entryOf (some (page, writable)) &&& pteU ≠ 0) = true ∧
      decide (entryOf (some (page, writable)) &&& pteW ≠ 0) = writable ∧
      pteAddr (entryOf (some (page, writable))) = page := by
  have flags : ((pteP ||| if writable then pteW else 0) ||| pteU) < 4096 ∧
      ((pteP ||| if writable then pteW else 0) ||| pteU) &&& pteP ≠ 0 ∧
      decide (((pteP ||| if writable then pteW else 0) ||| pteU) &&& pteU ≠ 0) = true ∧
      decide (((pteP ||| if writable then pteW else 0) ||| pteU) &&& pteW ≠ 0) = writable := by
    cases writable <;> decide
  rw [entryOf, Option.elim_some, flags_and isPage (by decide : pteP < 4096),
    flags_and isPage (by decide : pteU < 4096), flags_and isPage (by decide : pteW < 4096),
    pte_addr_flags isPage flags.1]
  exact ⟨flags.2.1, flags.2.2.1, flags.2.2.2, rfl⟩

end Entries

section Invariant

/-- The directory of an address space: its own entries are those of the protected range. -/
def userRoot (upt : Nat) : Root := ⟨upt, List.range' 256 256, pteP ||| pteW ||| pteU⟩

def rootsOf (kpt : Nat) (live : List Nat) : List Root := live.map userRoot ++ [kernelRoot kpt]

/-- `kernel` is the directory of the kernel as `vme_init` has left it. -/
structure Spaces (kpt : Nat) (kernel : Nat → Nat) (view : View) (s : System) : Prop where
  sound : Sound s.vm (rootsOf kpt s.live)
  walks : ∀ va < 0x100000000, pteOf s.vm.mem kpt va =
    if physicalPage (va / pgsize) then pteP ||| pteW ||| va / pgsize * pgsize else 0
  fixed : ∀ d < 1024, s.vm.mem kpt d = kernel d
  empty : ∀ d, 256 ≤ d → d < 512 → kernel d = 0
  copied : ∀ upt ∈ s.live, ∀ d < 1024, d < 256 ∨ 512 ≤ d → s.vm.mem upt d = kernel d
  viewed : ∀ upt ∈ s.live, ∀ va, uvmStart ≤ va → va < uvmEnd →
    pteOf s.vm.mem upt va = entryOf (view upt (va / pgsize))
  lent : ∀ upt ∈ s.live, ∀ n page writable, view upt n = some (page, writable) →
    IsPage page ∧ page ∉ s.vm.allocated ∧ uvmStart ≤ n * pgsize ∧ n * pgsize < uvmEnd

variable {kpt upt va n page : Nat} {kernel : Nat → Nat} {view : View} {s next : System}

theorem user_dir : (userRoot upt).dir = upt := rfl

theorem user_slots : (userRoot upt).slots = List.range' 256 256 := by
  rw [userRoot]

theorem user_flags : (userRoot upt).flags = pteP ||| pteW ||| pteU := rfl

theorem mem_user_slots (low : uvmStart ≤ va) (high : va < uvmEnd) :
    pdx va ∈ (userRoot upt).slots := by
  rw [user_slots, List.mem_range'_1, pdx_eq]
  rw [uvmStart] at low
  rw [uvmEnd] at high
  omega

theorem kernel_member (kpt : Nat) (live : List Nat) : kernelRoot kpt ∈ rootsOf kpt live :=
  List.mem_append_right _ List.mem_cons_self

theorem user_member {live : List Nat} (member : upt ∈ live) : userRoot upt ∈ rootsOf kpt live :=
  List.mem_append_left _ (List.mem_map_of_mem member)

/-- Both directories lead to the same page table. -/
theorem pte_of_congr {mem : Nat → Nat → Nat} {dir other : Nat}
    (same : mem dir (pdx va) = mem other (pdx va)) : pteOf mem dir va = pteOf mem other va := by
  rw [pteOf, pteOf, same]

theorem Spaces.translates_own (spaces : Spaces kpt kernel view s) (member : upt ∈ s.live)
    (low : uvmStart ≤ va) (high : va < uvmEnd) :
    translate s.vm.mem upt va =
      (view upt (va / pgsize)).map fun page => ⟨page.1 + va % pgsize, true, page.2⟩ := by
  have walk := spaces.viewed upt member va low high
  rw [translate, walk]
  cases mapped : view upt (va / pgsize) with
  | none => rfl
  | some found =>
      obtain ⟨page, writable⟩ := found
      obtain ⟨isPage, -⟩ := spaces.lent upt member _ page writable mapped
      obtain ⟨present, user, write, address⟩ := @entry_flags page writable isPage
      have ends : pteOf s.vm.mem (userRoot upt).dir va ≠ 0 := by
        rw [user_dir, walk, mapped]
        exact fun zero => present (by rw [zero]; rfl)
      obtain ⟨ptab, table, pde⟩ :=
        spaces.sound.through (user_member member) (mem_user_slots low high) ends
      rw [user_dir, user_flags] at pde
      rw [if_neg present, address, pde, flags_and table (by decide : pteU < 4096),
        flags_and table (by decide : pteW < 4096), user, write]
      rfl

theorem Spaces.translates_kernel (spaces : Spaces kpt kernel view s) (member : upt ∈ s.live)
    (small : va < 0x100000000) (outside : ¬(uvmStart ≤ va ∧ va < uvmEnd)) :
    translate s.vm.mem upt va =
      if physicalPage (va / pgsize) then some ⟨va, false, true⟩ else none := by
  have same : s.vm.mem upt (pdx va) = s.vm.mem kpt (pdx va) := by
    rw [spaces.fixed _ (pdx_lt va)]
    apply spaces.copied upt member _ (pdx_lt va)
    rw [pdx_eq]
    rw [uvmStart, uvmEnd] at outside
    omega
  have walk := spaces.walks va small
  rw [translate, pte_of_congr same, walk]
  cases physical : physicalPage (va / pgsize) with
  | false =>
      simp only [Bool.false_eq_true, if_false, Nat.zero_and, if_true]
  | true =>
      have isPage : IsPage (va / pgsize * pgsize) :=
        ⟨Nat.mul_mod_left _ _, Nat.lt_of_le_of_lt (Nat.div_mul_le_self _ _) small⟩
      obtain ⟨ptab, table, pde⟩ := spaces.sound.through (kernel_member kpt s.live)
        (mem_kernel_slots va) (by
          rw [kernel_dir, walk, physical, if_pos rfl, flags_or_page isPage (by decide)]
          exact Nat.ne_of_gt (Nat.add_pos_right _ (by decide)))
      rw [kernel_dir, kernel_flags] at pde
      simp only [if_true, same, pde, flags_and isPage (by decide : pteP < 4096),
        flags_and isPage (by decide : pteU < 4096), flags_and isPage (by decide : pteW < 4096),
        flags_and table (by decide : pteU < 4096), flags_and table (by decide : pteW < 4096),
        pte_addr_flags isPage (by decide : pteP ||| pteW < 4096), Nat.div_add_mod']
      rfl

theorem Spaces.translates (spaces : Spaces kpt kernel view s) (member : upt ∈ s.live)
    (small : va < 0x100000000) : translate s.vm.mem upt va = meaning view upt va := by
  rw [meaning]
  split
  case isTrue own => exact spaces.translates_own member own.1 own.2
  case isFalse outside => exact spaces.translates_kernel member small outside

/-- What is not the allocator's may change. -/
theorem Spaces.frame {mem : Nat → Nat → Nat} (spaces : Spaces kpt kernel view s)
    (same : ∀ page ∈ s.vm.allocated, mem page = s.vm.mem page) :
    Spaces kpt kernel view ⟨⟨mem, s.vm.answers, s.vm.allocated⟩, s.live⟩ := by
  have root := spaces.sound.untouched same (kernel_member kpt s.live)
  constructor
  case sound =>
    exact spaces.sound.frame fun root member d _ => (spaces.sound.untouched same member).1 d
  case walks =>
    intro va small
    rw [← spaces.walks va small]
    exact root.2 va (mem_kernel_slots va)
  case fixed => exact fun d small => (root.1 d).trans (spaces.fixed d small)
  case empty => exact spaces.empty
  case copied =>
    intro upt member d small outside
    exact ((spaces.sound.untouched same (user_member member)).1 d).trans
      (spaces.copied upt member d small outside)
  case viewed =>
    intro upt member va low high
    rw [← spaces.viewed upt member va low high]
    exact (spaces.sound.untouched same (user_member member)).2 va (mem_user_slots low high)
  case lent => exact spaces.lent

/-- A page that is lent to an address space is not what the allocator returns. -/
theorem Spaces.lent_not_answered {act : VmAct} {writable : Bool} {answer : Nat}
    (spaces : Spaces kpt kernel view s) (allowed : Allowed act s) (asks : act.Asks s.vm)
    (answered : s.vm.answers.head? = some answer) (member : upt ∈ s.live)
    (mapped : view upt n = some (page, writable)) : page ≠ answer := by
  obtain ⟨isPage, -, low, high⟩ := spaces.lent upt member n page writable mapped
  have number : n * pgsize / pgsize = n := Nat.mul_div_cancel n (by decide)
  have offset : n * pgsize % pgsize = 0 := Nat.mul_mod_left n pgsize
  have found := spaces.translates_own member low high
  rw [number, offset, mapped, Option.map_some, Nat.add_zero] at found
  have apart := allowed.unmapped asks answer answered upt member _ _ low high found
  rwa [Nat.div_mul_cancel (Nat.dvd_of_mod_eq_zero isPage.1)] at apart

end Invariant

section Steps

variable {kpt upt va pa prot value n page : Nat} {kernel : Nat → Nat} {view : View} {s next : System}
  {vm vm' : Vm}

/-- The loop of `protect`. -/
theorem entries_copied (different : upt ≠ kpt) (k : Nat) :
    (List.range k).foldl (fun vm i => vm.set upt i (vm.mem kpt i)) vm =
      { vm with
        mem := Function.update vm.mem upt fun i =>
          if i < k then vm.mem kpt i else vm.mem upt i } := by
  induction k with
  | zero =>
      have same : (fun i => if i < 0 then vm.mem kpt i else vm.mem upt i) = vm.mem upt := by
        funext i
        exact if_neg (Nat.not_lt_zero i)
      rw [same, Function.update_eq_self]
      rfl
  | succ k hypothesis =>
      rw [List.range_succ, List.foldl_append, hypothesis, List.foldl_cons, List.foldl_nil, Vm.set]
      dsimp only
      rw [Function.update_idem, Function.update_self, Function.update_of_ne different.symm]
      congr 2
      funext i
      by_cases here : i = k
      · rw [here, Function.update_self, if_pos (Nat.lt_succ_self k)]
      · rw [Function.update_of_ne here]
        have bound : i < k ↔ i < k + 1 := by omega
        simp only [bound]

theorem protect_makes (found : protect kpt vm = some (upt, vm')) :
    upt ≠ 0 ∧ vm.answers.head? = some upt ∧ (upt ≠ kpt →
      vm' = ⟨Function.update (vm.granted upt).mem upt fun i => if i < 1024 then vm.mem kpt i else 0,
        vm.answers.tail, upt :: vm.allocated⟩) := by
  obtain ⟨⟨made, granted⟩, allocated, rest⟩ := Option.bind_eq_some_iff.mp found
  obtain ⟨nonzero, answer, rfl⟩ := pgalloc_some allocated
  obtain ⟨rfl, rfl⟩ := Prod.mk.inj (Option.some.inj rest)
  refine ⟨nonzero, answer, fun different => ?_⟩
  rw [entries_copied different, granted_page, granted_other different.symm]
  rfl

/-- The directory that `protect` makes is the kernel's, with nothing in the protected range. -/
theorem Spaces.directory_copied {mem : Nat → Nat → Nat} (spaces : Spaces kpt kernel view s)
    (made : mem upt = fun i => if i < 1024 then s.vm.mem kpt i else 0) :
    (∀ d < 1024, mem upt d = kernel d) ∧ ∀ d ∈ (userRoot upt).slots, mem upt d = 0 := by
  have word (d : Nat) (small : d < 1024) : mem upt d = kernel d := by
    have entry := congrFun made d
    rw [if_pos small] at entry
    exact entry.trans (spaces.fixed d small)
  refine ⟨word, fun d slot => ?_⟩
  rw [user_slots, List.mem_range'_1] at slot
  rw [word d (by omega), spaces.empty d slot.1 (by omega)]

theorem protect_spaces (spaces : Spaces kpt kernel view s) (allowed : Allowed (.protect upt) s)
    (stepped : vmStep kpt (.protect upt) s = some next) :
    Spaces kpt kernel (view.after (.protect upt)) next := by
  obtain ⟨⟨made, vm⟩, found, rest⟩ := Option.bind_eq_some_iff.mp stepped
  by_cases result : made = upt
  case neg =>
    exact absurd (rest.symm.trans (if_neg result)) (Option.some_ne_none _)
  case pos =>
    dsimp only at rest
    rw [if_pos result] at rest
    cases rest
    rw [result] at found
    obtain ⟨nonzero, answer, made⟩ := protect_makes found
    obtain ⟨isPage, unused⟩ := allowed.fresh trivial upt answer nonzero
    have different : upt ≠ kpt := fun same =>
      unused (same ▸ spaces.sound.dir_allocated (kernel_member kpt s.live))
    have old (other : Nat) (member : other ∈ s.live) : other ≠ upt := fun same =>
      unused (same ▸ spaces.sound.dir_allocated (user_member member))
    have frame (page : Nat) (used : page ∈ s.vm.allocated) :
        Function.update (s.vm.granted upt).mem upt
          (fun i => if i < 1024 then s.vm.mem kpt i else 0) page = s.vm.mem page := by
      have apart : page ≠ upt := fun same => unused (same ▸ used)
      rw [Function.update_of_ne apart, granted_other apart]
    have kept := spaces.frame frame
    obtain ⟨word, blank⟩ := @Spaces.directory_copied _ upt _ _ _ _ spaces (Function.update_self ..)
    rw [made different]
    constructor
    case sound =>
      exact spaces.sound.added isPage unused (by rw [user_slots]; exact List.nodup_range' 1)
        (by rw [user_flags]; decide) blank frame
    case walks => exact kept.walks
    case fixed => exact kept.fixed
    case empty => exact kept.empty
    case copied =>
      intro other member d small outside
      rcases List.mem_cons.mp member with rfl | member
      · exact word d small
      · exact kept.copied other member d small outside
    case viewed =>
      intro other member va low high
      rcases List.mem_cons.mp member with rfl | member
      · rw [View.after, Function.update_self, pteOf]
        dsimp only
        rw [blank _ (mem_user_slots low high)]
        rfl
      · rw [View.after, Function.update_of_ne (old other member)]
        exact kept.viewed other member va low high
    case lent =>
      intro other member n page writable mapped
      rcases List.mem_cons.mp member with rfl | member
      · rw [View.after, Function.update_self] at mapped
        cases mapped
      · rw [View.after, Function.update_of_ne (old other member)] at mapped
        obtain ⟨isPage, away, range⟩ := spaces.lent other member n page writable mapped
        refine ⟨isPage, fun used => ?_, range⟩
        rcases List.mem_cons.mp used with same | used
        · exact spaces.lent_not_answered allowed trivial answer member mapped same
        · exact away used

theorem Spaces.not_kernel (spaces : Spaces kpt kernel view s) (member : upt ∈ s.live) :
    upt ≠ kpt := by
  intro same
  have one := spaces.sound.same_dir (user_member member) (kernel_member kpt s.live) same
  have flags := congrArg Root.flags one
  rw [user_flags, kernel_flags] at flags
  exact absurd flags (by decide)

/-- What `map` did if it has not panicked. -/
theorem map_cases {code : Nat} (found : map upt va pa prot vm = some (code, vm')) :
    (¬(uvmStart ≤ va ∧ va < uvmEnd) ∧ vm' = vm) ∨
      ((uvmStart ≤ va ∧ va < uvmEnd) ∧ va % pgsize = 0 ∧ pa % pgsize = 0 ∧
        ∃ ptab vm1, tableAt upt va (pteP ||| pteW ||| pteU) vm = some (ptab, vm1) ∧
          vm' = vm1.set (pteAddr (vm1.mem upt (pdx va))) (ptx va) (pteFor pa prot)) := by
  rw [map] at found
  split at found
  · cases found
  split at found
  · cases found
  next aligned =>
    rw [not_or, not_not, not_not] at aligned
    split at found
    case isTrue outside =>
      cases found
      exact Or.inl ⟨outside, rfl⟩
    case isFalse inside =>
      obtain ⟨⟨ptab, vm1⟩, table, rest⟩ := Option.bind_eq_some_iff.mp found
      cases rest
      exact Or.inr ⟨not_not.mp inside, aligned.1, aligned.2, ptab, vm1, table, rfl⟩

theorem pte_addr_of_table {entry ptab : Nat} (leads : tableOf entry = some ptab) :
    pteAddr entry = ptab := by
  rw [tableOf] at leads
  split at leads
  · cases leads
  · exact Option.some.inj leads

theorem after_map {space : Nat} (inside : uvmStart ≤ va ∧ va < uvmEnd) :
    view.after (.map upt va pa prot) space n =
      if space = upt ∧ n = va / pgsize then
        if prot &&& protNone ≠ 0 then none else some (pa, decide (prot &&& protWrite ≠ 0))
      else view space n := by
  rw [View.after, if_pos inside]
  by_cases here : space = upt ∧ n = va / pgsize
  · rw [if_pos here, here.1, here.2, Function.update_self, Function.update_self]
  · rw [if_neg here]
    by_cases mine : space = upt
    · rw [mine, Function.update_self, Function.update_of_ne fun same => here ⟨mine, same⟩]
    · rw [Function.update_of_ne mine]

/-- The page that `map` lends, and those that were lent before, are not in use and not taken for a
page table by the same call. -/
theorem map_lends {space frame : Nat} {writable : Bool} (spaces : Spaces kpt kernel view s)
    (allowed : Allowed (.map upt va pa prot) s) (inside : uvmStart ≤ va ∧ va < uvmEnd)
    (aligned : va % pgsize = 0) (isPage : pa % pgsize = 0) (live : space ∈ s.live)
    (mapped : view.after (.map upt va pa prot) space n = some (frame, writable)) :
    IsPage frame ∧ frame ∉ s.vm.allocated ∧
      (VmAct.Asks s.vm (.map upt va pa prot) → s.vm.answers.head? ≠ some frame) ∧
        uvmStart ≤ n * pgsize ∧ n * pgsize < uvmEnd := by
  rw [after_map inside] at mapped
  split at mapped
  case isTrue here =>
    split at mapped
    · cases mapped
    · cases mapped
      obtain ⟨-, below, away, other⟩ := allowed.proper
      have start : n * pgsize = va := by
        rw [here.2, Nat.div_mul_cancel (Nat.dvd_of_mod_eq_zero aligned)]
      rw [start]
      exact ⟨⟨isPage, below⟩, away, other, inside⟩
  case isFalse =>
    obtain ⟨isPage, unused, range⟩ := spaces.lent space live n frame writable mapped
    exact ⟨isPage, unused, fun asks answer =>
      spaces.lent_not_answered allowed asks answer live mapped rfl, range⟩

theorem map_spaces (spaces : Spaces kpt kernel view s) (allowed : Allowed (.map upt va pa prot) s)
    (stepped : vmStep kpt (.map upt va pa prot) s = some next) :
    Spaces kpt kernel (view.after (.map upt va pa prot)) next := by
  rw [vmStep] at stepped
  split at stepped
  case isFalse => cases stepped
  case isTrue member =>
    obtain ⟨⟨code, vm'⟩, found, rest⟩ := Option.bind_eq_some_iff.mp stepped
    cases rest
    rcases map_cases found with ⟨outside, rfl⟩ | ⟨inside, aligned, page, ptab, vm1, table, rfl⟩
    · rw [View.after, if_neg outside]
      exact spaces
    · have slot := @mem_user_slots upt va inside.1 inside.2
      have small : va < 0x100000000 := allowed.proper.1
      have fresh (absent : s.vm.mem upt (pdx va) &&& pteP = 0) : Fresh s.vm :=
        allowed.fresh ⟨inside, absent⟩
      obtain ⟨-, leads, -, -⟩ := spaces.sound.table_at fresh (user_member member) slot table
      rw [user_dir] at leads
      rw [pte_addr_of_table leads]
      obtain ⟨sound, entries, walks⟩ := spaces.sound.placed (pteFor pa prot) fresh
        (user_member member) slot table
      have different := spaces.not_kernel member
      constructor
      case sound => exact sound
      case walks =>
        intro place bound
        rw [← spaces.walks place bound]
        exact (walks _ (kernel_member kpt s.live) place (mem_kernel_slots place)).trans
          (if_neg fun all => different all.1.symm)
      case fixed =>
        intro d bound
        rw [← spaces.fixed d bound]
        exact entries _ (kernel_member kpt s.live) d fun same => absurd same.symm different
      case empty => exact spaces.empty
      case copied =>
        intro space live d bound outside
        rw [← spaces.copied space live d bound outside]
        refine entries _ (user_member live) d fun _ same => ?_
        rw [user_slots, List.mem_range'_1, ← same] at slot
        omega
      case viewed =>
        intro space live place low high
        have bound : place < 0x100000000 := Nat.lt_trans high (by decide)
        have walk := walks _ (user_member live) place (mem_user_slots low high)
        simp only [user_dir, same_page place va bound small] at walk
        rw [spaces.viewed space live place low high] at walk
        refine walk.trans ?_
        rw [after_map inside]
        by_cases here : space = upt ∧ place / pgsize = va / pgsize
        · rw [if_pos here, if_pos here, pte_for_entry]
        · rw [if_neg here, if_neg here]
      case lent =>
        intro space live n frame writable mapped
        obtain ⟨isPage, unused, unanswered, range⟩ :=
          map_lends spaces allowed inside aligned page live mapped
        refine ⟨isPage, fun used => ?_, range⟩
        rcases table_at_allocated table with same | ⟨absent, answer, -, answered, same⟩
        · exact unused (same ▸ used)
        · have among : frame ∈ answer :: s.vm.allocated := same ▸ used
          rcases List.mem_cons.mp among with rfl | before
          · exact unanswered ⟨inside, absent⟩ answered
          · exact unused before

theorem store_spaces (spaces : Spaces kpt kernel view s) (allowed : Allowed (.store upt va value) s)
    (stepped : vmStep kpt (.store upt va value) s = some next) :
    Spaces kpt kernel (view.after (.store upt va value)) next := by
  rw [vmStep] at stepped
  split at stepped
  case isFalse => cases stepped
  case isTrue member =>
    cases stepped
    rw [View.after, userStore, spaces.translates member allowed.proper, meaning]
    by_cases own : uvmStart ≤ va ∧ va < uvmEnd
    case neg =>
      rw [if_neg own]
      split
      · exact spaces
      · exact spaces
    case pos =>
      rw [if_pos own]
      cases mapped : view upt (va / pgsize) with
      | none => exact spaces
      | some found =>
          obtain ⟨page, writable⟩ := found
          obtain ⟨isPage, unused, -⟩ := spaces.lent upt member _ page writable mapped
          cases writable with
          | false => exact spaces
          | true =>
              have start : (page + va % pgsize) / pgsize * pgsize = page := by
                have aligned := isPage.1
                rw [pgsize] at aligned ⊢
                omega
              rw [Option.map_some, Option.elim_some, Bool.true_and, if_pos rfl, start]
              exact spaces.frame fun other used =>
                Function.update_of_ne (fun same : other = page => unused (same ▸ used)) _ _

/-- The loop of `unprotect` over the last `k` entries of the protected range. -/
theorem tables_freed {k fuel : Nat} {rest : List Nat} (few : k ≤ 256) (enough : k < fuel)
    (owned : vm.allocated.Perm (((List.range' (512 - k) k).filterMap fun d =>
      tableOf (vm.mem upt d)) ++ rest)) :
    ∃ allocated, freeTables upt fuel ((512 - k) * 0x400000) vm =
        some { vm with allocated := allocated } ∧
      allocated.Perm rest := by
  induction k generalizing fuel vm with
  | zero =>
      obtain ⟨fuel, rfl⟩ := Nat.exists_eq_succ_of_ne_zero (Nat.ne_zero_of_lt enough)
      exact ⟨vm.allocated, rfl, owned⟩
  | succ k hypothesis =>
      obtain ⟨fuel, rfl⟩ := Nat.exists_eq_succ_of_ne_zero (Nat.ne_zero_of_lt enough)
      have before : 512 - (k + 1) + 1 = 512 - k := by omega
      have going : (512 - (k + 1)) * 0x400000 ≠ uvmEnd := by
        rw [uvmEnd]
        omega
      have slot : pdx ((512 - (k + 1)) * 0x400000) = 512 - (k + 1) := by
        rw [pdx_eq]
        omega
      have step : ((512 - (k + 1)) * 0x400000 + 0x400000) % 0x100000000 = (512 - k) * 0x400000 := by
        omega
      rw [List.range'_succ, before] at owned
      rw [freeTables, if_neg going, slot, step]
      by_cases absent : vm.mem upt (512 - (k + 1)) &&& pteP = 0
      · have nowhere : tableOf (vm.mem upt (512 - (k + 1))) = none := if_pos absent
        rw [if_neg (not_not.mpr absent), Option.bind_eq_bind, Option.bind_some]
        rw [List.filterMap_cons, nowhere] at owned
        exact hypothesis (by omega) (by omega) owned
      · have leads : tableOf (vm.mem upt (512 - (k + 1))) =
            some (pteAddr (vm.mem upt (512 - (k + 1)))) := if_neg absent
        rw [List.filterMap_cons, leads] at owned
        have among : pteAddr (vm.mem upt (512 - (k + 1))) ∈ vm.allocated :=
          owned.mem_iff.mpr List.mem_cons_self
        rw [if_pos absent, pgfree, if_pos among, Option.bind_eq_bind, Option.bind_some]
        have left := owned.erase (pteAddr (vm.mem upt (512 - (k + 1))))
        rw [List.cons_append, List.erase_cons_head] at left
        exact hypothesis (by omega) (by omega) left

/-- `unprotect` gives back the directory and its tables, each once. -/
theorem unprotect_frees {roots : List Root} (sound : Sound vm roots) (member : userRoot upt ∈ roots) :
    ∃ allocated, unprotect upt vm = some { vm with allocated := allocated } ∧
      vm.allocated.Perm ((userRoot upt).pages vm.mem ++ allocated) := by
  obtain ⟨before, behind, split⟩ := List.append_of_mem member
  have owned := sound.owns
  rw [split] at owned
  have first := owned.trans ((List.perm_middle (a := userRoot upt)).flatMap_right (Root.pages vm.mem))
  rw [List.flatMap_cons] at first
  generalize (before ++ behind).flatMap (Root.pages vm.mem) = others at first
  have tables : vm.allocated.Perm (((List.range' (512 - 256) 256).filterMap fun d =>
      tableOf (vm.mem upt d)) ++ upt :: others) := by
    rw [Root.pages, Root.tables, user_slots, List.cons_append] at first
    exact first.trans List.perm_middle.symm
  obtain ⟨allocated, freed, left⟩ :=
    @tables_freed upt vm 256 pageFuel (upt :: others) le_rfl (by decide) tables
  have among : upt ∈ allocated := left.mem_iff.mpr List.mem_cons_self
  have rest := left.erase upt
  rw [List.erase_cons_head] at rest
  refine ⟨allocated.erase upt, ?_, first.trans (rest.symm.append_left _)⟩
  have loop : freeTables upt pageFuel uvmStart vm = some { vm with allocated := allocated } := freed
  rw [unprotect, loop, Option.bind_eq_bind, Option.bind_some, pgfree, if_pos among]

theorem unprotect_spaces (spaces : Spaces kpt kernel view s)
    (stepped : vmStep kpt (.unprotect upt) s = some next) :
    Spaces kpt kernel (view.after (.unprotect upt)) next := by
  rw [vmStep] at stepped
  split at stepped
  case isFalse => cases stepped
  case isTrue member =>
    obtain ⟨allocated, freed, pages⟩ := unprotect_frees spaces.sound (user_member member)
    rw [freed, Option.bind_eq_bind, Option.bind_some] at stepped
    cases stepped
    have split : (rootsOf kpt s.live).Perm (userRoot upt :: rootsOf kpt (s.live.erase upt)) :=
      ((List.perm_cons_erase member).map userRoot).append_right _
    have kept (other : Nat) (left : other ∈ s.live.erase upt) : other ∈ s.live :=
      List.mem_of_mem_erase left
    constructor
    case sound => exact spaces.sound.removed split pages
    case walks => exact spaces.walks
    case fixed => exact spaces.fixed
    case empty => exact spaces.empty
    case copied => exact fun other left => spaces.copied other (kept other left)
    case viewed => exact fun other left => spaces.viewed other (kept other left)
    case lent =>
      intro other left n page writable mapped
      obtain ⟨isPage, unused, range⟩ := spaces.lent other (kept other left) n page writable mapped
      exact ⟨isPage, fun used => unused (pages.mem_iff.mpr (List.mem_append_right _ used)), range⟩

theorem step_spaces (act : VmAct) (view : View) (s next : System) (spaces : Spaces kpt kernel view s)
    (allowed : Allowed act s) (stepped : vmStep kpt act s = some next) :
    Spaces kpt kernel (view.after act) next := by
  cases act with
  | protect upt => exact protect_spaces spaces allowed stepped
  | map upt va pa prot => exact map_spaces spaces allowed stepped
  | unprotect upt => exact unprotect_spaces spaces stepped
  | store upt va value => exact store_spaces spaces allowed stepped

end Steps

section Runs

variable {vm vm' : Vm} {kpt upt va : Nat} {view : View} {s : System} {acts : List VmAct}

/-- The kernel's directory before there is any address space. -/
theorem Laid.spaces (laid : Laid kpt physicalPage vm) :
    Spaces kpt (vm.mem kpt) View.blank ⟨vm, []⟩ := by
  constructor
  case sound => exact laid.sound
  case walks => exact laid.walks
  case fixed => exact fun _ _ => rfl
  case empty =>
    intro d low high
    rcases laid.sound.entries _ List.mem_cons_self d
      (by rw [kernel_slots, List.mem_range]; omega) with zero | ⟨ptab, isPage, entry⟩
    · exact zero
    · have slot := laid.spread d (by
        rw [show vm.mem kpt d = _ from entry, kernel_flags,
          table_of_entry isPage (by decide) (by decide)]
        exact Option.some_ne_none _)
      simp only [physicalSlot, Bool.or_eq_true, decide_eq_true_eq] at slot
      omega
  case copied => exact fun _ member => absurd member List.not_mem_nil
  case viewed => exact fun _ member => absurd member List.not_mem_nil
  case lent => exact fun _ member => absurd member List.not_mem_nil

theorem run_spaces (laid : Laid kpt physicalPage vm)
    (guarded : GuardedRun (vmStep kpt) Allowed acts ⟨vm, []⟩)
    (ran : runSteps (vmStep kpt) acts ⟨vm, []⟩ = some s) :
    Spaces kpt (vm.mem kpt) (acts.foldl View.after View.blank) s :=
  run_refines (vmStep kpt) (fun act view s next spaces allowed stepped =>
    step_spaces act view s next spaces allowed stepped) acts _ _ s laid.spaces guarded ran

/-- Without address spaces the pages of the kernel's own tables are in use. -/
theorem Spaces.all_given_back (spaces : Spaces kpt (vm'.mem kpt) view s)
    (laid : Laid kpt physicalPage vm') (empty : s.live = []) : s.vm.allocated.Perm vm'.allocated := by
  have owns := spaces.sound.owns
  have booting := laid.sound.owns
  have same : (kernelRoot kpt).tables s.vm.mem = (kernelRoot kpt).tables vm'.mem := by
    rw [Root.tables, Root.tables, kernel_slots, kernel_dir]
    apply List.filterMap_congr
    intro d slot
    rw [spaces.fixed d (List.mem_range.mp slot)]
  rw [empty, rootsOf, List.map_nil, List.nil_append, List.flatMap_singleton, Root.pages, same] at owns
  rw [List.flatMap_singleton, Root.pages] at booting
  exact owns.trans booting.symm

/-- `vme_init` succeeds, and after any calls and stores an address means in each address space what
the view of its own `map` calls says, or lies in an area of the kernel. -/
theorem address_spaces_isolated (pages : ∀ page ∈ vm.answers.take kernelPages, page ≠ 0 ∧ IsPage page)
    (distinct : (vm.answers.take kernelPages).Nodup) (unused : vm.allocated = [])
    (many : kernelPages ≤ vm.answers.length) :
    ∃ kpt vm', vmeInit vm = some (kpt, vm') ∧ ∀ acts s,
      GuardedRun (vmStep kpt) Allowed acts ⟨vm', []⟩ →
      runSteps (vmStep kpt) acts ⟨vm', []⟩ = some s →
      ∀ upt ∈ s.live, ∀ va < 0x100000000,
        translate s.vm.mem upt va = meaning (acts.foldl View.after View.blank) upt va := by
  obtain ⟨kpt, vm', booted, laid, -⟩ := vme_init_boots pages distinct unused many
  refine ⟨kpt, vm', booted, fun acts s guarded ran upt member va small => ?_⟩
  exact (run_spaces laid guarded ran).translates member small

/-- In every state that calls and stores reach, the pages in use are the directories and tables of the
address spaces there are and of the kernel, each once. `unprotect` succeeds for each of these address
spaces and gives back its own pages; when all are given back, the pages of the kernel's own tables are
left. -/
theorem address_spaces_given_back
    (pages : ∀ page ∈ vm.answers.take kernelPages, page ≠ 0 ∧ IsPage page)
    (distinct : (vm.answers.take kernelPages).Nodup) (unused : vm.allocated = [])
    (many : kernelPages ≤ vm.answers.length) :
    ∃ kpt vm', vmeInit vm = some (kpt, vm') ∧ ∀ acts s,
      GuardedRun (vmStep kpt) Allowed acts ⟨vm', []⟩ →
      runSteps (vmStep kpt) acts ⟨vm', []⟩ = some s →
      s.vm.allocated.Perm ((rootsOf kpt s.live).flatMap (Root.pages s.vm.mem)) ∧
        s.vm.allocated.Nodup ∧
        (∀ upt ∈ s.live, ∃ next, vmStep kpt (.unprotect upt) s = some next ∧
          s.vm.allocated.Perm ((userRoot upt).pages s.vm.mem ++ next.vm.allocated)) ∧
        (s.live = [] → s.vm.allocated.Perm vm'.allocated) := by
  obtain ⟨kpt, vm', booted, laid, -⟩ := vme_init_boots pages distinct unused many
  refine ⟨kpt, vm', booted, fun acts s guarded ran => ?_⟩
  have spaces := run_spaces laid guarded ran
  refine ⟨spaces.sound.owns, spaces.sound.distinct, fun upt member => ?_, spaces.all_given_back laid⟩
  obtain ⟨allocated, freed, kept⟩ := unprotect_frees spaces.sound (user_member member)
  refine ⟨⟨{ s.vm with allocated := allocated }, s.live.erase upt⟩, ?_, kept⟩
  rw [vmStep, if_pos member, freed]
  rfl

end Runs

section Reuse

variable {vm : Vm} {kpt upt va pa prot page : Nat} {kernel : Nat → Nat} {view : View} {s : System}
  {rest : List Nat}

theorem pgalloc_answers (answers : vm.answers = page :: rest) (nonzero : page ≠ 0) :
    pgalloc vm = some (page, vm.granted page) := by
  rw [pgalloc, answers]
  exact if_neg nonzero

theorem protect_runs (answers : vm.answers = upt :: rest) (nonzero : upt ≠ 0) (different : upt ≠ kpt) :
    protect kpt vm = some (upt,
      ⟨Function.update (vm.granted upt).mem upt fun i => if i < 1024 then vm.mem kpt i else 0, rest,
        upt :: vm.allocated⟩) := by
  rw [protect, pgalloc_answers answers nonzero, Option.bind_eq_bind, Option.bind_some]
  dsimp only
  rw [entries_copied different, granted_page, granted_other different.symm, Vm.granted, answers]
  rfl

theorem map_runs (empty : vm.mem upt (pdx va) = 0) (answers : vm.answers = page :: rest)
    (nonzero : page ≠ 0) (inside : uvmStart ≤ va ∧ va < uvmEnd)
    (aligned : va % pgsize = 0 ∧ pa % pgsize = 0) (flags : ¬(prot &&& protNone ≠ 0 ∧ prot ≠ protNone)) :
    ∃ vm', map upt va pa prot vm = some (0, vm') ∧ vm'.answers = rest := by
  have table : tableAt upt va (pteP ||| pteW ||| pteU) vm = some (page,
      (vm.granted page).set upt (pdx va) (pteP ||| pteW ||| pteU ||| page)) := by
    rw [tableAt, if_pos (by rw [empty]; rfl), pgalloc_answers answers nonzero]
    rfl
  rw [map, if_neg flags, if_neg (by omega), if_neg (not_not.mpr inside), table]
  refine ⟨_, rfl, ?_⟩
  exact congrArg List.tail answers

/-- An address space with one page. -/
def onePage (upt va pa : Nat) : List VmAct := [.protect upt, .map upt va pa protWrite]

/-- It takes two pages from the allocator: the directory and a table. -/
theorem one_page_runs (spaces : Spaces kpt kernel view s) (alone : s.live = [])
    (answers : s.vm.answers = upt :: page :: rest) (directory : upt ≠ 0 ∧ IsPage upt)
    (table : page ≠ 0 ∧ IsPage page) (frame : IsPage pa) (different : [upt, page, pa].Nodup)
    (unused : ∀ p ∈ [upt, page, pa], p ∉ s.vm.allocated) (inside : uvmStart ≤ va ∧ va < uvmEnd)
    (aligned : va % pgsize = 0) : ∃ next,
      runSteps (vmStep kpt) (onePage upt va pa) s = some next ∧
        GuardedRun (vmStep kpt) Allowed (onePage upt va pa) s ∧ next.live = [upt] ∧
        next.vm.answers = rest ∧
          Spaces kpt kernel ((onePage upt va pa).foldl View.after view) next := by
  obtain ⟨vm, live⟩ := s
  obtain rfl : live = [] := alone
  dsimp only at answers unused
  have apart : upt ≠ page ∧ upt ≠ pa ∧ page ≠ pa := by
    simp only [List.nodup_cons, List.mem_cons, List.not_mem_nil, or_false, not_or] at different
    exact ⟨different.1.1, different.1.2, different.2.1⟩
  have kernelUsed : kpt ∈ vm.allocated := spaces.sound.dir_allocated (kernel_member kpt [])
  have notKernel : upt ≠ kpt := fun same => unused upt List.mem_cons_self (same ▸ kernelUsed)
  have made := protect_runs answers directory.1 notKernel
  obtain ⟨vm1, vm1Is⟩ : ∃ vm1, vm1 = (⟨Function.update (vm.granted upt).mem upt fun i =>
    if i < 1024 then vm.mem kpt i else 0, page :: rest, upt :: vm.allocated⟩ : Vm) := ⟨_, rfl⟩
  rw [← vm1Is] at made
  have answers1 : vm1.answers = page :: rest := congrArg Vm.answers vm1Is
  have allocated1 : vm1.allocated = upt :: vm.allocated := congrArg Vm.allocated vm1Is
  have first : vmStep kpt (.protect upt) ⟨vm, []⟩ = some ⟨vm1, [upt]⟩ := by
    rw [vmStep, made, Option.bind_eq_bind, Option.bind_some]
    exact if_pos rfl
  have allowed : Allowed (.protect upt) ⟨vm, []⟩ := by
    refine ⟨fun _ answer answered _ => ?_, fun _ _ _ _ member => absurd member List.not_mem_nil, trivial⟩
    dsimp only at answered
    rw [answers] at answered
    obtain rfl := Option.some.inj answered
    exact ⟨directory.2, unused upt List.mem_cons_self⟩
  have spaces1 := step_spaces _ _ _ _ spaces allowed first
  have empty : vm1.mem upt (pdx va) = 0 := by
    refine (spaces.directory_copied ?_).2 _ (mem_user_slots inside.1 inside.2)
    rw [vm1Is]
    exact Function.update_self ..
  obtain ⟨vm2, mapped, answers2⟩ := @map_runs vm1 upt va pa protWrite page rest empty answers1 table.1
    inside ⟨aligned, frame.1⟩ (by decide)
  have second : vmStep kpt (.map upt va pa protWrite) ⟨vm1, [upt]⟩ = some ⟨vm2, [upt]⟩ := by
    rw [vmStep, if_pos List.mem_cons_self, mapped]
    rfl
  have also : Allowed (.map upt va pa protWrite) ⟨vm1, [upt]⟩ := by
    have small : va < 0x100000000 := Nat.lt_trans inside.2 (by decide)
    refine ⟨fun _ answer answered _ => ?_, fun _ answer _ space member place found low high leads => ?_,
      small, frame.2, ?_, fun _ answered => ?_⟩
    · dsimp only at answered
      rw [answers1] at answered
      obtain rfl := Option.some.inj answered
      dsimp only
      rw [allocated1]
      exact ⟨table.2, List.not_mem_cons_of_ne_of_not_mem apart.1.symm (unused page (by simp))⟩
    · obtain rfl := List.mem_singleton.mp member
      rw [spaces1.translates_own List.mem_cons_self low high, View.after, Function.update_self] at leads
      exact absurd leads.symm (Option.some_ne_none _)
    · rw [allocated1]
      exact List.not_mem_cons_of_ne_of_not_mem apart.2.1.symm (unused pa (by simp))
    · rw [answers1] at answered
      exact apart.2.2 (Option.some.inj answered)
  refine ⟨⟨vm2, [upt]⟩, ?_, ⟨allowed, fun next stepped => ?_⟩, rfl, answers2,
    step_spaces _ _ _ _ spaces1 also second⟩
  · rw [onePage, runSteps, first, Option.bind_some, runSteps, second]
    rfl
  · obtain rfl := Option.some.inj (first.symm.trans stepped)
    exact ⟨also, fun _ _ => trivial⟩

/-- A machine whose allocator has the pages that the kernel needs, and then two pages that it returns
a second time. -/
def reuseMachine : Vm :=
  ⟨fun _ _ => 0, (List.range' 256 kernelPages).map (pgsize * ·) ++
    [0x1c1000, 0x1c2000, 0x1c1000, 0x1c2000], []⟩

/-- An address space is given back and the next one gets its pages. -/
def reuse : List VmAct :=
  onePage 0x1c1000 0x40000000 0x7000 ++ .unprotect 0x1c1000 :: onePage 0x1c1000 0x40001000 0x8000

theorem reuse_machine_take :
    reuseMachine.answers.take kernelPages = (List.range' 256 kernelPages).map (pgsize * ·) := by
  apply List.take_left'
  rw [List.length_map, List.length_range']

theorem reuse_machine_drop : reuseMachine.answers.drop kernelPages =
    [0x1c1000, 0x1c2000, 0x1c1000, 0x1c2000] := by
  apply List.drop_left'
  rw [List.length_map, List.length_range']

theorem reuse_machine_pages : (∀ page ∈ reuseMachine.answers.take kernelPages, page ≠ 0 ∧ IsPage page) ∧
    (reuseMachine.answers.take kernelPages).Nodup ∧ kernelPages ≤ reuseMachine.answers.length := by
  rw [reuse_machine_take]
  refine ⟨fun page member => ?_, ?_, ?_⟩
  · obtain ⟨number, among, rfl⟩ := List.mem_map.mp member
    rw [List.mem_range'_1, kernelPages] at among
    rw [IsPage, pgsize]
    omega
  · exact List.Nodup.map (fun _ _ same => Nat.eq_of_mul_eq_mul_left (by decide) same)
      List.nodup_range'
  · rw [reuseMachine, List.length_append, List.length_map, List.length_range']
    exact Nat.le_add_right _ _

theorem reuse_runs : ∃ kpt vm' s, vmeInit reuseMachine = some (kpt, vm') ∧
    GuardedRun (vmStep kpt) Allowed reuse ⟨vm', []⟩ ∧
    runSteps (vmStep kpt) reuse ⟨vm', []⟩ = some s ∧ s.live = [0x1c1000] := by
  obtain ⟨pages, distinct, many⟩ := reuse_machine_pages
  obtain ⟨kpt, vm', booted, laid, answers, allocated⟩ := vme_init_boots pages distinct rfl many
  rw [reuse_machine_drop] at answers
  rw [reuse_machine_take] at allocated
  have outside (page : Nat) (away : page / pgsize < 256 ∨ 449 ≤ page / pgsize) :
      page ∉ vm'.allocated := by
    intro used
    obtain ⟨number, among, rfl⟩ := List.mem_map.mp (allocated.mem_iff.mp used)
    rw [List.mem_range'_1, kernelPages] at among
    rw [Nat.mul_div_cancel_left number (by decide)] at away
    omega
  have fresh (frame : Nat) (low : frame / pgsize < 256) (p : Nat)
      (member : p ∈ [0x1c1000, 0x1c2000, frame]) : p ∉ vm'.allocated := by
    rcases List.mem_cons.mp member with rfl | member
    · exact outside _ (by decide)
    rcases List.mem_cons.mp member with rfl | member
    · exact outside _ (by decide)
    · obtain rfl := List.mem_singleton.mp member
      exact outside _ (Or.inl low)
  obtain ⟨s1, ran1, guarded1, live1, answers1, spaces1⟩ :=
    @one_page_runs kpt 0x1c1000 0x40000000 0x7000 0x1c2000 _ _ ⟨vm', []⟩ _ laid.spaces rfl answers
      (by decide) (by decide) (by decide) (by decide) (fresh 0x7000 (by decide)) (by decide) (by decide)
  have member : 0x1c1000 ∈ s1.live := live1 ▸ List.mem_cons_self
  obtain ⟨allocated2, freed, -⟩ := unprotect_frees spaces1.sound (user_member member)
  have back : vmStep kpt (.unprotect 0x1c1000) s1 = some ⟨{ s1.vm with allocated := allocated2 }, []⟩ := by
    rw [vmStep, if_pos member, freed, live1]
    rfl
  have allowed : Allowed (.unprotect 0x1c1000) s1 := ⟨False.elim, False.elim, trivial⟩
  have spaces2 := step_spaces _ _ _ _ spaces1 allowed back
  have used := spaces2.all_given_back laid rfl
  obtain ⟨s3, ran3, guarded3, live3, -⟩ :=
    @one_page_runs kpt 0x1c1000 0x40001000 0x8000 0x1c2000 _ _ _ _ spaces2 rfl answers1 (by decide)
      (by decide) (by decide) (by decide)
      (fun p among inUse => fresh 0x8000 (by decide) p among (used.mem_iff.mp inUse)) (by decide) (by decide)
  refine ⟨kpt, vm', s3, booted, ?_, ?_, live3⟩
  · rw [reuse, guarded_run_append]
    refine ⟨guarded1, fun middle reached => ?_⟩
    obtain rfl := Option.some.inj (ran1.symm.trans reached)
    refine ⟨allowed, fun next stepped => ?_⟩
    obtain rfl := Option.some.inj (back.symm.trans stepped)
    exact guarded3
  · rw [reuse, run_steps_append, ran1, Option.bind_some, runSteps, back, Option.bind_some, ran3]

/-- The page that was mapped in the address space before is not mapped in the new one. -/
theorem address_spaces_isolated_reuse : ∃ kpt vm' s, vmeInit reuseMachine = some (kpt, vm') ∧
    runSteps (vmStep kpt) reuse ⟨vm', []⟩ = some s ∧
    translate s.vm.mem 0x1c1000 0x40001123 = some ⟨0x8123, true, true⟩ ∧
    translate s.vm.mem 0x1c1000 0x40000123 = none := by
  obtain ⟨kpt, vm', s, booted, guarded, ran, live⟩ := reuse_runs
  obtain ⟨pages, distinct, many⟩ := reuse_machine_pages
  obtain ⟨kpt', vm'', again, isolated⟩ := address_spaces_isolated pages distinct rfl many
  obtain ⟨rfl, rfl⟩ := Prod.mk.inj (Option.some.inj (booted.symm.trans again))
  have means := isolated _ _ guarded ran 0x1c1000 (live ▸ List.mem_cons_self)
  refine ⟨kpt, vm', s, booted, ran, ?_, ?_⟩
  · rw [means 0x40001123 (by decide)]
    simp [reuse, onePage, meaning, View.after, uvmStart, uvmEnd, pgsize, protNone, protWrite]
  · rw [means 0x40000123 (by decide)]
    simp [reuse, onePage, meaning, View.after, uvmStart, uvmEnd, pgsize, protNone, protWrite]

theorem address_spaces_given_back_reuse : ∃ kpt vm' s, vmeInit reuseMachine = some (kpt, vm') ∧
    runSteps (vmStep kpt) reuse ⟨vm', []⟩ = some s ∧ s.vm.allocated.Nodup ∧
    ∃ next, vmStep kpt (.unprotect 0x1c1000) s = some next ∧
      s.vm.allocated.Perm ((userRoot 0x1c1000).pages s.vm.mem ++ next.vm.allocated) := by
  obtain ⟨kpt, vm', s, booted, guarded, ran, live⟩ := reuse_runs
  obtain ⟨pages, distinct, many⟩ := reuse_machine_pages
  obtain ⟨kpt', vm'', again, given⟩ := address_spaces_given_back pages distinct rfl many
  obtain ⟨rfl, rfl⟩ := Prod.mk.inj (Option.some.inj (booted.symm.trans again))
  obtain ⟨-, nodup, back, -⟩ := given _ _ guarded ran
  exact ⟨kpt, vm', s, booted, ran, nodup, back 0x1c1000 (live ▸ List.mem_cons_self)⟩

end Reuse

end OsWorkbench.Am
