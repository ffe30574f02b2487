import Mathlib.Data.List.Perm.Basic
import Mathlib.Data.List.Nodup
import Mathlib.Data.List.Pairwise
import Mathlib.Data.Nat.Bitwise
import Mathlib.Logic.Function.Basic

/-!
# `vme.c` of the abstract machine: page tables

A page directory has 1024 entries, which lead to page tables of 1024 entries. Memory is given by the
words of each page; an entry that is present holds the address of a page, with flags in the low bits.
-/

namespace OsWorkbench.Am

section Source

def pgsize : Nat := 4096

def pteP : Nat := 1
def pteW : Nat := 2
def pteU : Nat := 4

def pdx (va : Nat) : Nat := va >>> 22 &&& 0x3ff
def ptx (va : Nat) : Nat := va >>> 12 &&& 0x3ff

def pteAddr (pte : Nat) : Nat := pte &&& 0xfffff000

/-- `answers` is what the allocator of the pages is going to return, `allocated` what it returned and
did not get back. A page that it got back may be among the answers again. -/
structure Vm where
  mem : Nat → Nat → Nat
  answers : List Nat
  allocated : List Nat

def Vm.set (vm : Vm) (page i value : Nat) : Vm :=
  { vm with mem := Function.update vm.mem page (Function.update (vm.mem page) i value) }

/-- The next answer of the allocator, filled with zeros. -/
def Vm.granted (vm : Vm) (page : Nat) : Vm :=
  ⟨Function.update vm.mem page fun _ => 0, vm.answers.tail, page :: vm.allocated⟩

/-- `pgalloc`: the null pointer ends in a panic. -/
def pgalloc (vm : Vm) : Option (Nat × Vm) :=
  match vm.answers with
  | [] => none
  | ret :: _ => if ret = 0 then none else some (ret, vm.granted ret)

/-- `pgfree`, of a page that the allocator returned. -/
def pgfree (page : Nat) (vm : Vm) : Option Vm :=
  if page ∈ vm.allocated then some { vm with allocated := vm.allocated.erase page } else none

/-- The table of an address, which a directory gets with the first page in it. -/
def tableAt (dir va flags : Nat) (vm : Vm) : Option (Nat × Vm) :=
  if vm.mem dir (pdx va) &&& pteP = 0 then do
    let (ptab, vm) ← pgalloc vm
    some (ptab, vm.set dir (pdx va) (flags ||| ptab))
  else some (pteAddr (vm.mem dir (pdx va)), vm)

end Source

section Entries

/-- The address of a page, in 32 bits. -/
def IsPage (page : Nat) : Prop := page % pgsize = 0 ∧ page < 0x100000000

instance (page : Nat) : Decidable (IsPage page) := inferInstanceAs (Decidable (_ ∧ _))

/-- Where an entry leads to. -/
def tableOf (entry : Nat) : Option Nat := if entry &&& pteP = 0 then none else some (pteAddr entry)

variable {page flags : Nat}

theorem pdx_eq (va : Nat) : pdx va = va / 4194304 % 1024 := by
  rw [pdx, Nat.shiftRight_eq_div_pow, show (0x3ff : Nat) = 2 ^ 10 - 1 from rfl,
    Nat.and_two_pow_sub_one_eq_mod]

theorem ptx_eq (va : Nat) : ptx va = va / 4096 % 1024 := by
  rw [ptx, Nat.shiftRight_eq_div_pow, show (0x3ff : Nat) = 2 ^ 10 - 1 from rfl,
    Nat.and_two_pow_sub_one_eq_mod]

theorem flags_or_page (isPage : IsPage page) (low : flags < 4096) :
    flags ||| page = page + flags := by
  obtain ⟨number, rfl⟩ := Nat.dvd_of_mod_eq_zero isPage.1
  rw [Nat.or_comm, show pgsize * number = 2 ^ 12 * number from rfl,
    ← Nat.two_pow_add_eq_or_of_lt low]

/-- The mask takes the flags away. -/
theorem pte_addr_flags (isPage : IsPage page) (low : flags < 4096) :
    pteAddr (flags ||| page) = page := by
  rw [flags_or_page isPage low]
  obtain ⟨aligned, small⟩ := isPage
  obtain ⟨number, rfl⟩ := Nat.dvd_of_mod_eq_zero aligned
  have bound : number < 2 ^ 20 := by
    rw [pgsize] at small
    omega
  apply Nat.eq_of_testBit_eq
  intro i
  rw [pteAddr, show pgsize * number = 2 ^ 12 * number from rfl,
    show (0xfffff000 : Nat) = 2 ^ 12 * (2 ^ 20 - 1) from rfl, Nat.testBit_and,
    Nat.testBit_two_pow_mul_add _ low, Nat.testBit_two_pow_mul, Nat.testBit_two_pow_mul,
    Nat.testBit_two_pow_sub_one]
  by_cases inFlags : i < 12
  · simp only [inFlags, Nat.not_le.mpr inFlags, decide_false, Bool.false_and, Bool.and_false]
  · by_cases inAddress : i - 12 < 20
    · simp [inFlags, inAddress, Nat.not_lt.mp inFlags]
    · have above : number.testBit (i - 12) = false := Nat.testBit_lt_two_pow
        (lt_of_lt_of_le bound (Nat.pow_le_pow_right Nat.two_pos (Nat.not_lt.mp inAddress)))
      simp [inFlags, inAddress, above]

/-- The flags of an entry are not touched by the address in it. -/
theorem flags_and {mask : Nat} (isPage : IsPage page) (low : mask < 4096) :
    (flags ||| page) &&& mask = flags &&& mask := by
  obtain ⟨number, rfl⟩ := Nat.dvd_of_mod_eq_zero isPage.1
  have zero : pgsize * number &&& mask = 0 := by
    apply Nat.eq_of_testBit_eq
    intro i
    rw [show pgsize * number = 2 ^ 12 * number from rfl, Nat.testBit_and, Nat.testBit_two_pow_mul,
      Nat.zero_testBit]
    by_cases inFlags : i < 12
    · simp [Nat.not_le.mpr inFlags]
    · rw [Nat.testBit_lt_two_pow (lt_of_lt_of_le (show mask < 2 ^ 12 from low)
        (Nat.pow_le_pow_right Nat.two_pos (Nat.not_lt.mp inFlags))), Bool.and_false]
  rw [Nat.and_or_distrib_right, zero, Nat.or_zero]

theorem table_of_zero : tableOf 0 = none := rfl

theorem table_of_entry (isPage : IsPage page) (low : flags < 4096) (present : flags % 2 = 1) :
    tableOf (flags ||| page) = some page := by
  have aligned : page % 4096 = 0 := isPage.1
  rw [tableOf, if_neg, pte_addr_flags isPage low]
  rw [flags_or_page isPage low, pteP, Nat.and_one_is_mod]
  omega

end Entries

section Words

variable {vm : Vm} {page other i j value : Nat}

theorem set_mem : (vm.set page i value).mem =
    Function.update vm.mem page (Function.update (vm.mem page) i value) := rfl

theorem granted_page : (vm.granted page).mem page = fun _ => 0 := Function.update_self _ _ _

theorem granted_other (different : other ≠ page) : (vm.granted page).mem other = vm.mem other :=
  Function.update_of_ne different _ _

theorem set_word : (vm.set page i value).mem page i = value := by
  rw [set_mem, Function.update_self, Function.update_self]

theorem set_other_word (different : j ≠ i) : (vm.set page i value).mem page j = vm.mem page j := by
  rw [set_mem, Function.update_self, Function.update_of_ne different]

theorem set_other_page (different : other ≠ page) :
    (vm.set page i value).mem other = vm.mem other := by
  rw [set_mem, Function.update_of_ne different]

theorem set_elsewhere (different : other = page → j ≠ i) :
    (vm.set page i value).mem other j = vm.mem other j := by
  by_cases same : other = page
  · rw [same, set_other_word (different same)]
  · rw [set_other_page same]

end Words

section Ownership

/-- A directory with the entries that lead to tables of its own, and their flags. -/
structure Root where
  dir : Nat
  slots : List Nat
  flags : Nat

def Root.tables (mem : Nat → Nat → Nat) (root : Root) : List Nat :=
  root.slots.filterMap fun d => tableOf (mem root.dir d)

def Root.pages (mem : Nat → Nat → Nat) (root : Root) : List Nat := root.dir :: root.tables mem

/-- The pages from the allocator are the directories and their tables, each for one purpose. -/
structure Sound (vm : Vm) (roots : List Root) : Prop where
  owns : vm.allocated.Perm (roots.flatMap (Root.pages vm.mem))
  distinct : vm.allocated.Nodup
  isPage : ∀ page ∈ vm.allocated, IsPage page
  slots : ∀ root ∈ roots, root.slots.Nodup
  flags : ∀ root ∈ roots, root.flags < 4096 ∧ root.flags % 2 = 1
  entries : ∀ root ∈ roots, ∀ d ∈ root.slots, vm.mem root.dir d = 0 ∨
    ∃ ptab, IsPage ptab ∧ vm.mem root.dir d = root.flags ||| ptab

variable {vm : Vm} {roots : List Root} {root other : Root} {d e ptab : Nat}

theorem Sound.nodup (sound : Sound vm roots) : (roots.flatMap (Root.pages vm.mem)).Nodup :=
  sound.owns.nodup_iff.mp sound.distinct

theorem Sound.dir_allocated (sound : Sound vm roots) (member : root ∈ roots) :
    root.dir ∈ vm.allocated :=
  sound.owns.mem_iff.mpr (List.mem_flatMap.mpr ⟨root, member, List.mem_cons_self⟩)

theorem mem_tables (slot : d ∈ root.slots) (leads : tableOf (vm.mem root.dir d) = some ptab) :
    ptab ∈ root.tables vm.mem :=
  List.mem_filterMap.mpr ⟨d, slot, leads⟩

theorem Sound.table_allocated (sound : Sound vm roots) (member : root ∈ roots)
    (slot : d ∈ root.slots) (leads : tableOf (vm.mem root.dir d) = some ptab) :
    ptab ∈ vm.allocated :=
  sound.owns.mem_iff.mpr (List.mem_flatMap.mpr
    ⟨root, member, List.mem_cons_of_mem _ (mem_tables slot leads)⟩)

/-- A page belongs to one directory. -/
theorem Sound.same_root {page : Nat} (sound : Sound vm roots) (member : root ∈ roots)
    (also : other ∈ roots) (mine : page ∈ root.pages vm.mem) (its : page ∈ other.pages vm.mem) :
    root = other := by
  by_contra different
  have symmetric : Std.Symm (Function.onFun List.Disjoint (Root.pages vm.mem)) :=
    ⟨fun _ _ disjoint _ inIts inMine => disjoint inMine inIts⟩
  exact (List.nodup_flatMap.mp sound.nodup).2.forall member also different mine its

theorem Sound.pages_nodup (sound : Sound vm roots) (member : root ∈ roots) :
    (root.pages vm.mem).Nodup :=
  (List.nodup_flatMap.mp sound.nodup).1 root member

theorem Sound.same_dir (sound : Sound vm roots) (member : root ∈ roots) (also : other ∈ roots)
    (same : root.dir = other.dir) : root = other :=
  sound.same_root member also List.mem_cons_self (same ▸ List.mem_cons_self)

theorem Sound.table_not_dir (sound : Sound vm roots) (member : root ∈ roots)
    (slot : d ∈ root.slots) (leads : tableOf (vm.mem root.dir d) = some ptab)
    (also : other ∈ roots) : ptab ≠ other.dir := by
  rintro rfl
  have inTables := mem_tables slot leads
  have one := sound.same_root member also (List.mem_cons_of_mem _ inTables) List.mem_cons_self
  subst one
  exact (List.nodup_cons.mp (sound.pages_nodup member)).1 inTables

/-- Two entries do not lead to one table. -/
theorem Sound.tables_apart (sound : Sound vm roots) (member : root ∈ roots)
    (slot : d ∈ root.slots) (leads : tableOf (vm.mem root.dir d) = some ptab)
    (also : other ∈ roots) (its : e ∈ other.slots)
    (too : tableOf (vm.mem other.dir e) = some ptab) : root = other ∧ d = e := by
  have one := sound.same_root member also (List.mem_cons_of_mem _ (mem_tables slot leads))
    (List.mem_cons_of_mem _ (mem_tables its too))
  subst one
  refine ⟨rfl, ?_⟩
  by_contra different
  have tables := (List.nodup_cons.mp (sound.pages_nodup member)).2
  rw [Root.tables, List.Nodup, List.pairwise_filterMap] at tables
  have symmetric : Std.Symm fun d e => ∀ ptab, tableOf (vm.mem root.dir d) = some ptab →
      ∀ other, tableOf (vm.mem root.dir e) = some other → ptab ≠ other :=
    ⟨fun _ _ apart ptab first other second => (apart other second ptab first).symm⟩
  exact tables.forall slot its different ptab leads ptab too rfl

/-- What no directory's own entries show does not matter. -/
theorem Sound.frame {mem : Nat → Nat → Nat} {answers : List Nat} (sound : Sound vm roots)
    (same : ∀ root ∈ roots, ∀ d ∈ root.slots, mem root.dir d = vm.mem root.dir d) :
    Sound ⟨mem, answers, vm.allocated⟩ roots where
  owns := by
    have pages : roots.flatMap (Root.pages mem) = roots.flatMap (Root.pages vm.mem) := by
      apply List.flatMap_congr
      intro root member
      rw [Root.pages, Root.pages, Root.tables, Root.tables]
      congr 1
      apply List.filterMap_congr
      intro d slot
      rw [same root member d slot]
    exact pages ▸ sound.owns
  distinct := sound.distinct
  isPage := sound.isPage
  slots := sound.slots
  flags := sound.flags
  entries root member d slot := by
    dsimp only
    rw [same root member d slot]
    exact sound.entries root member d slot

end Ownership

section Walks

/-- The walk of the processor: the entry of the page table for an address. -/
def pteOf (mem : Nat → Nat → Nat) (dir va : Nat) : Nat :=
  (tableOf (mem dir (pdx va))).elim 0 fun ptab => mem ptab (ptx va)

variable {vm vm' : Vm} {roots : List Root} {root other : Root} {d i value va : Nat} {ptab page : Nat}

theorem tables_added {mem mem' : Nat → Nat → Nat} (nodup : root.slots.Nodup) (slot : d ∈ root.slots)
    (empty : tableOf (mem root.dir d) = none) (leads : tableOf (mem' root.dir d) = some ptab)
    (same : ∀ e ∈ root.slots, e ≠ d → mem' root.dir e = mem root.dir e) :
    (root.tables mem').Perm (ptab :: root.tables mem) := by
  obtain ⟨before, behind, split⟩ := List.append_of_mem slot
  rw [split] at nodup
  have agree (part : List Nat) (inside : ∀ e ∈ part, e ∈ root.slots) (away : d ∉ part) :
      part.filterMap (fun e => tableOf (mem' root.dir e)) =
        part.filterMap fun e => tableOf (mem root.dir e) := by
    apply List.filterMap_congr
    intro e inPart
    rw [same e (inside e inPart) fun equal => away (equal ▸ inPart)]
  have apart := List.nodup_middle.mp nodup
  have away := (List.nodup_cons.mp apart).1
  have now : (d :: behind).filterMap (fun e => tableOf (mem' root.dir e)) =
      ptab :: behind.filterMap fun e => tableOf (mem' root.dir e) := List.filterMap_cons_some leads
  have unchanged : (d :: behind).filterMap (fun e => tableOf (mem root.dir e)) =
      behind.filterMap fun e => tableOf (mem root.dir e) := List.filterMap_cons_none empty
  rw [Root.tables, Root.tables, split, List.filterMap_append, List.filterMap_append, now, unchanged,
    agree before (fun e inPart => by rw [split]; exact List.mem_append_left _ inPart)
      fun inPart => away (List.mem_append_left _ inPart),
    agree behind
      (fun e inPart => by rw [split]; exact List.mem_append_right _ (List.mem_cons_of_mem _ inPart))
      fun inPart => away (List.mem_append_right _ inPart)]
  exact List.perm_middle

/-- One directory gets a table, the others stay as they are. -/
theorem pages_added {mem mem' : Nat → Nat → Nat} (nodup : (roots.flatMap (Root.pages mem)).Nodup)
    (member : root ∈ roots) (mine : (root.tables mem').Perm (ptab :: root.tables mem))
    (same : ∀ other ∈ roots, other ≠ root → other.tables mem' = other.tables mem) :
    (roots.flatMap (Root.pages mem')).Perm (ptab :: roots.flatMap (Root.pages mem)) := by
  obtain ⟨before, behind, split⟩ := List.append_of_mem member
  have once (part : List Root) (inside : ∀ other ∈ part, other ∈ roots) (away : root ∉ part) :
      part.flatMap (Root.pages mem') = part.flatMap (Root.pages mem) := by
    apply List.flatMap_congr
    intro other inPart
    rw [Root.pages, Root.pages, same other (inside other inPart) fun equal => away (equal ▸ inPart)]
  have dir : root.dir ∈ root.pages mem := List.mem_cons_self
  rw [split, List.flatMap_append, List.flatMap_cons] at nodup
  have awayBefore : root ∉ before := fun inPart =>
    (List.nodup_append.mp nodup).2.2 root.dir (List.mem_flatMap.mpr ⟨root, inPart, dir⟩) root.dir
      (List.mem_append_left _ dir) rfl
  have awayBehind : root ∉ behind := fun inPart =>
    (List.nodup_append.mp (List.nodup_append.mp nodup).2.1).2.2 root.dir dir root.dir
      (List.mem_flatMap.mpr ⟨root, inPart, dir⟩) rfl
  rw [split, List.flatMap_append, List.flatMap_append, List.flatMap_cons, List.flatMap_cons,
    once before (fun other inPart => by rw [split]; exact List.mem_append_left _ inPart) awayBefore,
    once behind
      (fun other inPart => by
        rw [split]
        exact List.mem_append_right _ (List.mem_cons_of_mem _ inPart))
      awayBehind]
  have pages : (root.pages mem').Perm (ptab :: root.pages mem) :=
    (mine.cons _).trans (List.Perm.swap _ _ _)
  exact ((pages.append_right _).append_left _).trans List.perm_middle

/-- The allocator answers with a page that is not in use. -/
def Fresh (vm : Vm) : Prop :=
  ∀ page, vm.answers.head? = some page → page ≠ 0 → IsPage page ∧ page ∉ vm.allocated

theorem pgalloc_some (allocated : pgalloc vm = some (page, vm')) :
    page ≠ 0 ∧ vm.answers.head? = some page ∧ vm' = vm.granted page := by
  rw [pgalloc] at allocated
  split at allocated
  · cases allocated
  next ret answers split =>
    split at allocated
    · cases allocated
    next nonzero =>
      cases allocated
      rw [split]
      exact ⟨nonzero, rfl, rfl⟩

/-- A table where the directory has none yet, and the same walks. -/
theorem Sound.table_at {vm vm' : Vm} (sound : Sound vm roots)
    (fresh : vm.mem root.dir (pdx va) &&& pteP = 0 → Fresh vm)
    (member : root ∈ roots) (slot : pdx va ∈ root.slots)
    (found : tableAt root.dir va root.flags vm = some (ptab, vm')) :
    Sound vm' roots ∧ tableOf (vm'.mem root.dir (pdx va)) = some ptab ∧
      (∀ other ∈ roots, ∀ d, (other.dir = root.dir → d ≠ pdx va) →
        vm'.mem other.dir d = vm.mem other.dir d) ∧
      ∀ other ∈ roots, ∀ place, pdx place ∈ other.slots →
        pteOf vm'.mem other.dir place = pteOf vm.mem other.dir place := by
  rw [tableAt] at found
  split at found
  case isFalse present =>
    cases found
    refine ⟨sound, ?_, fun _ _ _ _ => rfl, fun _ _ _ _ => rfl⟩
    rw [tableOf, if_neg present]
  case isTrue absent =>
    obtain ⟨⟨page, vm1⟩, allocated, rest⟩ := Option.bind_eq_some_iff.mp found
    cases rest
    obtain ⟨nonzero, answer, rfl⟩ := pgalloc_some allocated
    obtain ⟨isPage, unused⟩ := fresh absent ptab answer nonzero
    obtain ⟨low, odd⟩ := sound.flags root member
    have notDir (other : Root) (also : other ∈ roots) : other.dir ≠ ptab :=
      fun same => unused (same ▸ sound.dir_allocated also)
    have empty : tableOf (vm.mem root.dir (pdx va)) = none := if_pos absent
    have leads : tableOf (root.flags ||| ptab) = some ptab := table_of_entry isPage low odd
    have elsewhere (other : Root) (also : other ∈ roots) (d : Nat)
        (different : other.dir = root.dir → d ≠ pdx va) :
        ((vm.granted ptab).set root.dir (pdx va) (root.flags ||| ptab)).mem other.dir d =
          vm.mem other.dir d := by
      rw [set_elsewhere different, granted_other (notDir other also)]
    have others (other : Root) (also : other ∈ roots) (different : other ≠ root) (d : Nat) :
        ((vm.granted ptab).set root.dir (pdx va) (root.flags ||| ptab)).mem other.dir d =
          vm.mem other.dir d :=
      elsewhere other also d fun same => absurd (sound.same_dir also member same) different
    refine ⟨?_, by rw [set_word, leads], elsewhere, ?_⟩
    · constructor
      case owns =>
        apply (sound.owns.cons ptab).trans
        symm
        apply pages_added sound.nodup member
        · apply tables_added (sound.slots root member) slot empty (by rw [set_word, leads])
          intro e _ different
          exact elsewhere root member e fun _ => different
        · intro other also different
          apply List.filterMap_congr
          intro e _
          rw [others other also different e]
      case distinct => exact List.nodup_cons.mpr ⟨unused, sound.distinct⟩
      case isPage => exact List.forall_mem_cons.mpr ⟨isPage, sound.isPage⟩
      case slots => exact sound.slots
      case flags => exact sound.flags
      case entries =>
        intro other also d inSlots
        by_cases here : other = root ∧ d = pdx va
        · obtain ⟨rfl, rfl⟩ := here
          exact Or.inr ⟨ptab, isPage, set_word⟩
        · rw [elsewhere other also d fun same equal =>
            here ⟨sound.same_dir also member same, equal⟩]
          exact sound.entries other also d inSlots
    · intro other also place inSlots
      rw [pteOf, pteOf]
      by_cases here : other = root ∧ pdx place = pdx va
      · obtain ⟨rfl, same⟩ := here
        rw [same, set_word, leads, empty, Option.elim_some, Option.elim_none,
          set_other_page (notDir other also).symm, granted_page]
      · rw [elsewhere other also _ fun same equal =>
          here ⟨sound.same_dir also member same, equal⟩]
        cases its : tableOf (vm.mem other.dir (pdx place)) with
        | none => rfl
        | some table =>
            rw [Option.elim_some, Option.elim_some,
              set_other_page (sound.table_not_dir also inSlots its member), granted_other]
            exact fun same => unused (same ▸ sound.table_allocated also inSlots its)

theorem Sound.set_table (sound : Sound vm roots) (member : root ∈ roots) (slot : pdx va ∈ root.slots)
    (leads : tableOf (vm.mem root.dir (pdx va)) = some ptab) (value : Nat) :
    Sound (vm.set ptab (ptx va) value) roots ∧
      (∀ other ∈ roots, ∀ d, (vm.set ptab (ptx va) value).mem other.dir d = vm.mem other.dir d) ∧
      ∀ other ∈ roots, ∀ place, pdx place ∈ other.slots →
        pteOf (vm.set ptab (ptx va) value).mem other.dir place =
          if other.dir = root.dir ∧ pdx place = pdx va ∧ ptx place = ptx va then value
          else pteOf vm.mem other.dir place := by
  have same (other : Root) (also : other ∈ roots) (d : Nat) :
      (vm.set ptab (ptx va) value).mem other.dir d = vm.mem other.dir d := by
    rw [set_other_page (sound.table_not_dir member slot leads also).symm]
  refine ⟨sound.frame fun other also d _ => same other also d, same, ?_⟩
  intro other also place inSlots
  rw [pteOf, pteOf, same other also]
  cases its : tableOf (vm.mem other.dir (pdx place)) with
  | none =>
      rw [Option.elim_none, Option.elim_none, if_neg]
      rintro ⟨dir, equal, -⟩
      rw [dir, equal, leads] at its
      cases its
  | some table =>
      rw [Option.elim_some, Option.elim_some]
      by_cases here : table = ptab
      · subst here
        obtain ⟨rfl, equal⟩ := sound.tables_apart member slot leads also inSlots its
        by_cases entry : ptx place = ptx va
        · rw [entry, set_word, if_pos ⟨rfl, equal.symm, rfl⟩]
        · rw [set_other_word entry, if_neg fun all => entry all.2.2]
      · rw [set_other_page here, if_neg]
        rintro ⟨dir, equal, -⟩
        rw [dir, equal, leads, Option.some.injEq] at its
        exact here its.symm

/-- A page of an address space is mapped: this walk ends in the new entry and the others do not
change. -/
theorem Sound.placed (value : Nat) (sound : Sound vm roots)
    (fresh : vm.mem root.dir (pdx va) &&& pteP = 0 → Fresh vm)
    (member : root ∈ roots) (slot : pdx va ∈ root.slots)
    (found : tableAt root.dir va root.flags vm = some (ptab, vm')) :
    Sound (vm'.set ptab (ptx va) value) roots ∧
      (∀ other ∈ roots, ∀ d, (other.dir = root.dir → d ≠ pdx va) →
        (vm'.set ptab (ptx va) value).mem other.dir d = vm.mem other.dir d) ∧
      ∀ other ∈ roots, ∀ place, pdx place ∈ other.slots →
        pteOf (vm'.set ptab (ptx va) value).mem other.dir place =
          if other.dir = root.dir ∧ pdx place = pdx va ∧ ptx place = ptx va then value
          else pteOf vm.mem other.dir place := by
  obtain ⟨kept, leads, same, walks⟩ := sound.table_at fresh member slot found
  obtain ⟨sound', entries, pages⟩ := kept.set_table member slot leads value
  refine ⟨sound', fun other also d different => ?_, fun other also place inSlots => ?_⟩
  · rw [entries other also, same other also d different]
  · rw [pages other also place inSlots, walks other also place inSlots]

theorem table_at_allocated (found : tableAt d va i vm = some (ptab, vm')) :
    vm'.allocated = vm.allocated ∨ vm.mem d (pdx va) &&& pteP = 0 ∧
      ∃ page, page ≠ 0 ∧ vm.answers.head? = some page ∧ vm'.allocated = page :: vm.allocated := by
  rw [tableAt] at found
  split at found
  next absent =>
    obtain ⟨⟨page, vm1⟩, allocated, rest⟩ := Option.bind_eq_some_iff.mp found
    cases rest
    obtain ⟨nonzero, answer, rfl⟩ := pgalloc_some allocated
    exact Or.inr ⟨absent, ptab, nonzero, answer, rfl⟩
  · cases found
    exact Or.inl rfl

/-- A walk that ends in an entry has come through a table. -/
theorem Sound.through (sound : Sound vm roots) (member : root ∈ roots) (slot : pdx va ∈ root.slots)
    (ends : pteOf vm.mem root.dir va ≠ 0) :
    ∃ ptab, IsPage ptab ∧ vm.mem root.dir (pdx va) = root.flags ||| ptab := by
  rcases sound.entries root member _ slot with zero | leads
  · rw [pteOf, zero] at ends
    exact absurd rfl ends
  · exact leads

/-- Memory that is not the allocator's may change. -/
theorem Sound.untouched {mem : Nat → Nat → Nat} (sound : Sound vm roots)
    (same : ∀ page ∈ vm.allocated, mem page = vm.mem page) (member : root ∈ roots) :
    (∀ d, mem root.dir d = vm.mem root.dir d) ∧
      ∀ va, pdx va ∈ root.slots → pteOf mem root.dir va = pteOf vm.mem root.dir va := by
  have entry := same _ (sound.dir_allocated member)
  refine ⟨fun d => congrFun entry d, fun va slot => ?_⟩
  rw [pteOf, pteOf, entry]
  cases leads : tableOf (vm.mem root.dir (pdx va)) with
  | none => rfl
  | some table =>
      rw [Option.elim_some, Option.elim_some,
        same table (sound.table_allocated member slot leads)]

/-- A directory without tables. -/
theorem Sound.added {mem : Nat → Nat → Nat} {answers : List Nat} (sound : Sound vm roots)
    (isPage : IsPage root.dir) (unused : root.dir ∉ vm.allocated) (nodup : root.slots.Nodup)
    (flags : root.flags < 4096 ∧ root.flags % 2 = 1) (empty : ∀ d ∈ root.slots, mem root.dir d = 0)
    (same : ∀ page ∈ vm.allocated, mem page = vm.mem page) :
    Sound ⟨mem, answers, root.dir :: vm.allocated⟩ (root :: roots) := by
  have kept := @Sound.frame _ _ mem answers sound fun other also d _ =>
    (sound.untouched same also).1 d
  have tables : root.tables mem = [] := by
    rw [Root.tables, List.filterMap_eq_nil_iff]
    intro d slot
    rw [empty d slot]
    exact table_of_zero
  constructor
  case owns =>
    rw [List.flatMap_cons, Root.pages, tables]
    exact kept.owns.cons _
  case distinct => exact List.nodup_cons.mpr ⟨unused, sound.distinct⟩
  case isPage => exact List.forall_mem_cons.mpr ⟨isPage, sound.isPage⟩
  case slots => exact List.forall_mem_cons.mpr ⟨nodup, sound.slots⟩
  case flags => exact List.forall_mem_cons.mpr ⟨flags, sound.flags⟩
  case entries =>
    exact List.forall_mem_cons.mpr ⟨fun d slot => Or.inl (empty d slot), kept.entries⟩

/-- A directory and its tables are given back. -/
theorem Sound.removed {rest : List Root} {allocated : List Nat} (sound : Sound vm roots)
    (split : roots.Perm (root :: rest)) (freed : vm.allocated.Perm (root.pages vm.mem ++ allocated)) :
    Sound { vm with allocated := allocated } rest := by
  have member (other : Root) (left : other ∈ rest) : other ∈ roots :=
    split.mem_iff.mpr (List.mem_cons_of_mem _ left)
  constructor
  case owns =>
    have all := (freed.symm.trans sound.owns).trans (split.flatMap_right _)
    rw [List.flatMap_cons] at all
    exact (List.perm_append_left_iff _).mp all
  case distinct => exact (List.nodup_append.mp (freed.nodup_iff.mp sound.distinct)).2.1
  case isPage =>
    exact fun page used => sound.isPage page (freed.mem_iff.mpr (List.mem_append_right _ used))
  case slots => exact fun other left => sound.slots other (member other left)
  case flags => exact fun other left => sound.flags other (member other left)
  case entries => exact fun other left => sound.entries other (member other left)

end Walks

end OsWorkbench.Am
