import OsWorkbench.Blkfs.Directories
import Mathlib.Data.List.TakeWhile

/-!
# Creating a name and finding it

What `blkfs_ifind` takes for one component: the dots at the beginning of a string are directories on
the way, whatever follows them is a name. So a name and the same name behind one more dot are looked
up in the same slots.
-/

namespace OsWorkbench.Blkfs

open Kernel ByteStore

/-- A string that is one component of a path, and that is not `.` or `..`. -/
structure FileName (name : List UInt8) : Prop where
  nonempty : name ≠ []
  flat : slash ∉ name
  ended : 0 ∉ name
  same : name ≠ [dot]
  up : name ≠ [dot, dot]

instance (name : List UInt8) : Decidable (FileName name) :=
  decidable_of_iff (name ≠ [] ∧ slash ∉ name ∧ 0 ∉ name ∧ name ≠ [dot] ∧ name ≠ [dot, dot])
    ⟨fun ⟨a, b, c, d, e⟩ => ⟨a, b, c, d, e⟩, fun ⟨a, b, c, d, e⟩ => ⟨a, b, c, d, e⟩⟩

/-- The bytes that creating an entry in a directory may change: the bitmap, the inode table, the
block of the directory and blocks that were free. -/
def Writable (fs : Fs) (cur : Nat) : Set Nat :=
  span 0 inodeEnd ∪ span (fs.nodes cur).info blkSz ∪ {a | ∃ b ∈ freeBlocks fs.dev, a ∈ span b blkSz}

section Components

variable {stack : Nat → List UInt8} {rootParent : Option Nat} {fuel : Nat} {fs : Fs}
  {cur flags : Nat} {path name rest : List UInt8}

theorem skip_none (flat : slash ∉ name) : name.dropWhile (fun c => c == slash) = name := by
  cases name with
  | nil => rfl
  | cons c name =>
      refine List.dropWhile_cons_of_neg ?_
      simpa using (List.ne_of_not_mem_cons flat).symm

theorem head_not_slash (flat : slash ∉ name) : name.headD 0 ≠ slash := by
  cases name with
  | nil => decide
  | cons c name => exact (List.ne_of_not_mem_cons flat).symm

theorem first_layer_flat (flat : slash ∉ name) : getFirstLayer name = name := by
  rw [getFirstLayer, List.takeWhile_eq_self_iff]
  intro c member
  simpa using ne_of_mem_of_not_mem member flat

/-- The number of calls that are allowed does not matter, as long as there are enough. -/
theorem find_calls (m n : Nat) (fewer : path.length < m) (enough : path.length < n) :
    findFrom stack rootParent fuel m fs cur path flags =
      findFrom stack rootParent fuel n fs cur path flags := by
  induction m generalizing n cur path with
  | zero => omega
  | succ m hypothesis =>
      obtain ⟨n, rfl⟩ := Nat.exists_eq_add_one.mpr (show 0 < n by omega)
      have skipped : (path.dropWhile fun c => c == slash).length ≤ path.length :=
        (List.dropWhile_suffix _).length_le
      have shorter (i : Nat) (kept : path.dropWhile (fun c => c == slash) ≠ []) (used : 0 < i)
          (j : Nat) :
          findFrom stack rootParent fuel m fs j ((path.dropWhile fun c => c == slash).drop i) flags =
            findFrom stack rootParent fuel n fs j ((path.dropWhile fun c => c == slash).drop i)
              flags := by
        have positive := List.length_pos_iff.mpr kept
        have length := @List.length_drop _ i (path.dropWhile fun c => c == slash)
        exact hypothesis n (by omega) (by omega)
      simp only [findFrom]
      split
      · rfl
      split
      · rfl
      next kept =>
        split
        · split
          · split
            · cases rootParent with
              | none => rfl
              | some up => exact shorter 2 kept (by decide) up
            · split
              · exact shorter 2 kept (by decide) _
              · rfl
          · exact shorter 1 kept (by decide) cur
        next plain =>
          split
          · rfl
          have layer : 0 < (getFirstLayer (path.dropWhile fun c => c == slash)).length := by
            cases same : path.dropWhile fun c => c == slash with
            | nil => exact absurd same kept
            | cons c rest =>
                have head := List.head_dropWhile_not (fun c : UInt8 => c == slash) kept
                simp only [same, List.head_cons] at head
                rw [getFirstLayer, List.takeWhile_cons_of_pos (by simpa using head)]
                exact Nat.succ_pos _
          refine congrArg (Option.bind _) (funext fun slot => ?_)
          cases slot with
          | unused offset => rfl
          | ended => rfl
          | found offset blkOff =>
              dsimp only
              split
              · exact shorter _ kept layer _
              · rfl

theorem find_here : blkfsIfind stack rootParent fuel fs cur [] flags =
    some (fs, if Has flags oDirectory ∧ ¬isDir fs cur then none else some (.inode cur)) := rfl

theorem find_same (flat : slash ∉ rest) (other : rest.headD 0 ≠ dot) :
    blkfsIfind stack rootParent fuel fs cur (dot :: rest) flags =
      blkfsIfind stack rootParent fuel fs cur rest flags := by
  have whole : slash ∉ dot :: rest := List.not_mem_cons_of_ne_of_not_mem (by decide) flat
  have second : (dot :: rest).getD 1 0 ≠ dot := by
    cases rest with
    | nil => decide
    | cons c rest => exact other
  rw [blkfsIfind, findFrom, skip_none whole]
  rw [if_neg (fun both => head_not_slash whole both.1), if_neg (List.cons_ne_nil _ _),
    if_pos (show (dot :: rest).headD 0 = dot from rfl), if_neg second, blkfsIfind]
  exact find_calls _ _ (Nat.lt_succ_self _) (Nat.lt_succ_self _)

theorem find_up (flat : slash ∉ rest) :
    blkfsIfind stack rootParent fuel fs cur (dot :: dot :: rest) flags =
      if cur = 0 then
        rootParent.elim (some (fs, some (.above rest))) fun up =>
          blkfsIfind stack rootParent fuel fs up rest flags
      else if parentOf fs cur < inodeCount then
        blkfsIfind stack rootParent fuel fs (parentOf fs cur) rest flags
      else none := by
  have whole : slash ∉ dot :: dot :: rest :=
    List.not_mem_cons_of_ne_of_not_mem (by decide)
      (List.not_mem_cons_of_ne_of_not_mem (by decide) flat)
  have shorter : rest.length < (dot :: dot :: rest).length := by
    rw [List.length_cons, List.length_cons]
    omega
  rw [blkfsIfind, findFrom, skip_none whole]
  rw [if_neg (fun both => head_not_slash whole both.1), if_neg (List.cons_ne_nil _ _),
    if_pos (show (dot :: dot :: rest).headD 0 = dot from rfl),
    if_pos (show (dot :: dot :: rest).getD 1 0 = dot from rfl),
    show (dot :: dot :: rest).drop 2 = rest from rfl]
  simp only [blkfsIfind, find_calls _ _ shorter (Nat.lt_succ_self rest.length)]

/-- A component without dots in front is looked for in the slots of the directory. -/
theorem find_layer {tail : List UInt8} (nonempty : name ≠ []) (flat : slash ∉ name)
    (other : name.headD 0 ≠ dot) (stop : tail.headD slash = slash) :
    blkfsIfind stack rootParent fuel fs cur (name ++ tail) flags =
      if 0x100 ≤ name.length then none
      else (slotSearch stack fuel fs.dev (u32 ((fs.nodes cur).info + 4)) name).bind fun
        | .unused offset => findLast fuel fs cur offset (name ++ tail) flags
        | .found _ blkOff =>
            if (readWord fs.dev blkOff 0xffffffff).1 < inodeCount then
              blkfsIfind stack rootParent fuel fs (readWord fs.dev blkOff 0xffffffff).1 tail flags
            else none
        | .ended => none := by
  have head : (name ++ tail).headD 0 = name.headD 0 := by
    cases name with
    | nil => exact absurd rfl nonempty
    | cons c name => rfl
  have skip : (name ++ tail).dropWhile (fun c => c == slash) = name ++ tail := by
    cases name with
    | nil => exact absurd rfl nonempty
    | cons c name =>
        refine List.dropWhile_cons_of_neg ?_
        simpa using (List.ne_of_not_mem_cons flat).symm
  have layer : getFirstLayer (name ++ tail) = name := by
    rw [getFirstLayer, List.takeWhile_append_of_pos fun c member => by
      simpa using ne_of_mem_of_not_mem member flat]
    cases tail with
    | nil => rw [List.takeWhile_nil, List.append_nil]
    | cons c tail =>
        obtain rfl : c = slash := stop
        rw [List.takeWhile_cons_of_neg (by simp), List.append_nil]
  have full : name ++ tail ≠ [] := List.append_ne_nil_of_left_ne_nil nonempty tail
  rw [blkfsIfind, findFrom, skip, layer, head]
  rw [if_neg (fun both => head_not_slash flat both.1), if_neg full, if_neg other, List.drop_left]
  have arrived (i : Nat) : findFrom stack rootParent fuel (name ++ tail).length fs i tail flags =
      findFrom stack rootParent fuel (tail.length + 1) fs i tail flags := by
    refine find_calls _ _ ?_ (Nat.lt_succ_self _)
    rw [List.length_append]
    exact Nat.lt_add_of_pos_left (List.length_pos_iff.mpr nonempty)
  refine if_congr Iff.rfl rfl (congrArg (Option.bind _) (funext fun slot => ?_))
  cases slot with
  | unused offset => rfl
  | found offset blkOff => simp only [blkfsIfind, arrived]
  | ended => rfl

/-- A name without dots in front is looked for in the slots of the directory. -/
theorem find_name (nonempty : name ≠ []) (flat : slash ∉ name) (other : name.headD 0 ≠ dot) :
    blkfsIfind stack rootParent fuel fs cur name flags =
      if 0x100 ≤ name.length then none
      else (slotSearch stack fuel fs.dev (u32 ((fs.nodes cur).info + 4)) name).bind fun
        | .unused offset => findLast fuel fs cur offset name flags
        | .found _ blkOff =>
            if (readWord fs.dev blkOff 0xffffffff).1 < inodeCount then
              blkfsIfind stack rootParent fuel fs (readWord fs.dev blkOff 0xffffffff).1 [] flags
            else none
        | .ended => none := by
  have layer := @find_layer stack rootParent fuel fs cur flags name [] nonempty flat other rfl
  rwa [List.append_nil] at layer

/-- A search that ends at an unused slot ends in `findLast`, or warns that there is no such name. -/
theorem find_name_err {offset : Nat} {err : String} (nonempty : name ≠ []) (flat : slash ∉ name)
    (other : name.headD 0 ≠ dot) (short : name.length < 0x100)
    (search : slotSearch stack fuel fs.dev (u32 ((fs.nodes cur).info + 4)) name = some (.unused offset)) :
    blkfsIfindErr stack rootParent fuel fs cur name flags err =
      findLastErr fuel fs cur offset name flags err := by
  rw [blkfsIfindErr, findFromErr]
  dsimp only
  rw [skip_none flat, first_layer_flat flat, if_neg (fun both => head_not_slash flat both.1),
    if_neg nonempty, if_neg other, if_neg (Nat.not_le.mpr short), search, Option.bind_some]

end Components

/-- How a string begins: with neither dot, one or two. -/
inductive Dotted : List UInt8 → Prop
  | plain {name : List UInt8} (other : name.headD 0 ≠ dot) : Dotted name
  | same {rest : List UInt8} (other : rest.headD 0 ≠ dot) : Dotted (dot :: rest)
  | up {rest : List UInt8} (further : Dotted rest) : Dotted (dot :: dot :: rest)

theorem dotted : ∀ name : List UInt8, Dotted name
  | [] => .plain (by decide)
  | [c] => by
      by_cases first : c = dot
      · exact first ▸ .same (by decide)
      · exact .plain first
  | c :: d :: rest => by
      by_cases first : c = dot
      · subst first
        by_cases second : d = dot
        · exact second ▸ .up (dotted rest)
        · exact .same second
      · exact .plain first

section Presence

variable (stack : Nat → List UInt8) (rootParent : Option Nat) (fuel : Nat) (fs : Fs)

/-- A string names something from a directory on: what is left of it behind the dots is empty, is the
name in a slot, or is for the file system above. -/
inductive Present : Nat → List UInt8 → Prop
  | here {cur : Nat} : Present cur []
  | top {rest : List UInt8} (outside : rootParent = none) : Present 0 (dot :: dot :: rest)
  | mounted {up : Nat} {rest : List UInt8} (inside : rootParent = some up) (further : Present up rest) :
      Present 0 (dot :: dot :: rest)
  | up {cur : Nat} {rest : List UInt8} (below : cur ≠ 0) (inside : parentOf fs cur < inodeCount)
      (further : Present (parentOf fs cur) rest) : Present cur (dot :: dot :: rest)
  | same {cur : Nat} {rest : List UInt8} (other : rest.headD 0 ≠ dot) (further : Present cur rest) :
      Present cur (dot :: rest)
  | entry {cur offset blkOff : Nat} {name : List UInt8} (nonempty : name ≠ [])
      (other : name.headD 0 ≠ dot) (fits : name.length < 0x100)
      (found : slotSearch stack fuel fs.dev (u32 ((fs.nodes cur).info + 4)) name =
        some (.found offset blkOff))
      (inside : (readWord fs.dev blkOff 0xffffffff).1 < inodeCount) : Present cur name

end Presence

section Lookups

variable {stack : Nat → List UInt8} {rootParent : Option Nat} {fuel : Nat} {fs : Fs}
  {cur : Nat} {name : List UInt8}

/-- What is there is found, and nothing is created. -/
theorem find_present (present : Present stack rootParent fuel fs cur name) (flat : slash ∉ name) :
    ∃ place, ∀ flags, blkfsIfind stack rootParent fuel fs cur name flags = some (fs, some place) ∨
      Has flags oDirectory ∧ blkfsIfind stack rootParent fuel fs cur name flags = some (fs, none) := by
  have arrived (i : Nat) (flags : Nat) :
      blkfsIfind stack rootParent fuel fs i [] flags = some (fs, some (.inode i)) ∨
        Has flags oDirectory ∧ blkfsIfind stack rootParent fuel fs i [] flags = some (fs, none) := by
    rw [find_here]
    by_cases mismatch : Has flags oDirectory ∧ ¬isDir fs i
    · exact Or.inr ⟨mismatch.1, by rw [if_pos mismatch]⟩
    · exact Or.inl (by rw [if_neg mismatch])
  induction present with
  | here => exact ⟨_, arrived _⟩
  | @top tail outside =>
      have rest := fun member => flat (List.mem_cons_of_mem _ (List.mem_cons_of_mem _ member))
      refine ⟨.above tail, fun flags => Or.inl ?_⟩
      rw [find_up rest, if_pos rfl, outside, Option.elim_none]
  | mounted inside _ hypothesis =>
      have rest := fun member => flat (List.mem_cons_of_mem _ (List.mem_cons_of_mem _ member))
      obtain ⟨place, found⟩ := hypothesis rest
      refine ⟨place, fun flags => ?_⟩
      rw [find_up rest, if_pos rfl]
      subst inside
      exact found flags
  | up below inside _ hypothesis =>
      have rest := fun member => flat (List.mem_cons_of_mem _ (List.mem_cons_of_mem _ member))
      obtain ⟨place, found⟩ := hypothesis rest
      refine ⟨place, fun flags => ?_⟩
      rw [find_up rest, if_neg below, if_pos inside]
      exact found flags
  | same other _ hypothesis =>
      have rest := fun member => flat (List.mem_cons_of_mem _ member)
      obtain ⟨place, found⟩ := hypothesis rest
      refine ⟨place, fun flags => ?_⟩
      rw [find_same rest other]
      exact found flags
  | @entry _ _ blkOff _ nonempty other fits found inside =>
      refine ⟨.inode (readWord fs.dev blkOff 0xffffffff).1, fun flags => ?_⟩
      rw [find_name nonempty flat other, if_neg (by omega), found, Option.bind_some]
      dsimp only
      rw [if_pos inside]
      exact arrived _ flags

/-- What a lookup of a name that is not there gives, and what creating it gives. -/
structure Absent (stack : Nat → List UInt8) (rootParent : Option Nat) (fuel : Nat) (fs : Fs)
    (cur : Nat) (name : List UInt8) : Prop where
  lookup : ∀ flags, ¬Has flags oCreate →
    blkfsIfind stack rootParent fuel fs cur name flags = none ∨
      blkfsIfind stack rootParent fuel fs cur name flags = some (fs, none)
  create : ∀ flags, Has flags oCreate →
    blkfsIfind stack rootParent fuel fs cur name flags = none ∨
      ∃ made i, blkfsIfind stack rootParent fuel fs cur name flags = some (made, some (.inode i))

theorem find_last_creates {offset flags : Nat} (flat : slash ∉ name) (create : Has flags oCreate) :
    findLast fuel fs cur offset name flags = none ∨
      ∃ made i, findLast fuel fs cur offset name flags = some (made, some (.inode i)) := by
  rw [findLast, if_pos ⟨create, first_layer_flat flat⟩]
  cases (if Has flags oDirectory then newDirec fuel fs cur offset name
    else newFile fuel fs offset name) with
  | none => exact Or.inl rfl
  | some made => exact Or.inr ⟨made.1, made.2, rfl⟩

theorem plain_absent (absent : ¬Present stack rootParent fuel fs cur name) (flat : slash ∉ name)
    (other : name.headD 0 ≠ dot) : Absent stack rootParent fuel fs cur name := by
  have nonempty : name ≠ [] := fun empty => absent (empty ▸ .here)
  have cases (flags : Nat) : blkfsIfind stack rootParent fuel fs cur name flags = none ∨
      ∃ offset, blkfsIfind stack rootParent fuel fs cur name flags =
        findLast fuel fs cur offset name flags := by
    rw [find_name nonempty flat other]
    split
    · exact Or.inl rfl
    next fits =>
      cases search : slotSearch stack fuel fs.dev (u32 ((fs.nodes cur).info + 4)) name with
      | none => exact Or.inl rfl
      | some slot =>
          rw [Option.bind_some]
          cases slot with
          | unused offset => exact Or.inr ⟨offset, rfl⟩
          | ended => exact Or.inl rfl
          | found offset blkOff =>
              refine Or.inl (if_neg fun inside => absent ?_)
              exact .entry nonempty other (by omega) search inside
  constructor
  · intro flags kept
    rcases cases flags with failed | ⟨offset, last⟩
    · exact Or.inl failed
    · rw [last, findLast, if_neg fun both => kept both.1]
      exact Or.inr rfl
  · intro flags create
    rcases cases flags with failed | ⟨offset, last⟩
    · exact Or.inl failed
    · rw [last]
      exact find_last_creates flat create

theorem find_absent (absent : ¬Present stack rootParent fuel fs cur name) (flat : slash ∉ name) :
    Absent stack rootParent fuel fs cur name := by
  induction dotted name generalizing cur with
  | plain other => exact plain_absent absent flat other
  | same other =>
      have rest := fun member => flat (List.mem_cons_of_mem _ member)
      have further := plain_absent (fun present => absent (.same other present)) rest other
      constructor
      · simpa only [find_same rest other] using further.lookup
      · simpa only [find_same rest other] using further.create
  | up _ hypothesis =>
      have rest := fun member => flat (List.mem_cons_of_mem _ (List.mem_cons_of_mem _ member))
      by_cases root : cur = 0
      · subst root
        cases parent : rootParent with
        | none => exact absurd (.top parent) absent
        | some up =>
            subst parent
            have further := hypothesis (fun present => absent (.mounted rfl present)) rest
            constructor
            · simpa only [find_up rest, if_pos, Option.elim_some] using further.lookup
            · simpa only [find_up rest, if_pos, Option.elim_some] using further.create
      · by_cases inside : parentOf fs cur < inodeCount
        · have further := hypothesis (fun present => absent (.up root inside present)) rest
          constructor
          · simpa only [find_up rest, if_neg root, if_pos inside] using further.lookup
          · simpa only [find_up rest, if_neg root, if_pos inside] using further.create
        · constructor
          · exact fun flags _ => Or.inl (by rw [find_up rest, if_neg root, if_neg inside])
          · exact fun flags _ => Or.inl (by rw [find_up rest, if_neg root, if_neg inside])

/-- A lookup leaves everything as it is. -/
theorem find_unchanged {stack : Nat → List UInt8} {rootParent : Option Nat} {fuel cur flags : Nat}
    {fs next : Fs} {name : List UInt8} {result : Option Place} (flat : slash ∉ name)
    (lookup : Has flags oCreate → Present stack rootParent fuel fs cur name)
    (found : blkfsIfind stack rootParent fuel fs cur name flags = some (next, result)) :
    next = fs := by
  by_cases present : Present stack rootParent fuel fs cur name
  · obtain ⟨place, cases⟩ := find_present present flat
    rcases cases flags with same | ⟨-, same⟩
    · exact congrArg Prod.fst (Option.some.inj (found.symm.trans same))
    · exact congrArg Prod.fst (Option.some.inj (found.symm.trans same))
  · rcases (find_absent present flat).lookup flags fun create => present (lookup create) with
      failed | missing
    · exact nomatch found.symm.trans failed
    · exact congrArg Prod.fst (Option.some.inj (found.symm.trans missing))

theorem plain_dots (dots : ∀ c ∈ name, c = dot) (other : name.headD 0 ≠ dot) : name = [] := by
  cases name with
  | nil => rfl
  | cons c name => exact absurd (dots c List.mem_cons_self) other

/-- Dots alone lead to a directory or nowhere. -/
theorem dots_absent (dots : ∀ c ∈ name, c = dot)
    (absent : ¬Present stack rootParent fuel fs cur name) (flags : Nat) :
    blkfsIfind stack rootParent fuel fs cur name flags = none := by
  have flat {name : List UInt8} (dots : ∀ c ∈ name, c = dot) : slash ∉ name :=
    fun member => absurd (dots slash member) (by decide)
  induction dotted name generalizing cur with
  | plain other => exact absurd (plain_dots dots other ▸ .here) absent
  | same other =>
      have further := fun c member => dots c (List.mem_cons_of_mem _ member)
      exact absurd (.same other (plain_dots further other ▸ .here)) absent
  | up _ hypothesis =>
      have further := fun c member => dots c (List.mem_cons_of_mem _ (List.mem_cons_of_mem _ member))
      rw [find_up (flat further)]
      by_cases root : cur = 0
      · subst root
        rw [if_pos rfl]
        cases parent : rootParent with
        | none => exact absurd (.top parent) absent
        | some up =>
            subst parent
            exact hypothesis further fun present => absent (.mounted rfl present)
      · rw [if_neg root]
        by_cases inside : parentOf fs cur < inodeCount
        · rw [if_pos inside]
          exact hypothesis further fun present => absent (.up root inside present)
        · rw [if_neg inside]

end Lookups

section Doubles

variable (stack : Nat → List UInt8) (rootParent : Option Nat) (fuel : Nat)

/-- Two strings that every state takes for the same thing, the file system above aside. -/
def Twins (one two : List UInt8) : Prop :=
  ∀ fs cur flags,
    blkfsIfind stack rootParent fuel fs cur one flags =
        blkfsIfind stack rootParent fuel fs cur two flags ∨
      ∃ p q, blkfsIfind stack rootParent fuel fs cur one flags = some (fs, some (.above p)) ∧
        blkfsIfind stack rootParent fuel fs cur two flags = some (fs, some (.above q))

variable {stack rootParent fuel} {name : List UInt8}

/-- A name with one dot more or less in front of it. -/
theorem twin_exists (flat : slash ∉ name) (ended : 0 ∉ name) (more : ∃ c ∈ name, c ≠ dot) :
    ∃ other, FileName other ∧ other ≠ name ∧ Twins stack rootParent fuel other name := by
  induction dotted name with
  | @plain name other =>
      have nonempty : name ≠ [] := by
        rintro rfl
        simp at more
      refine ⟨dot :: name, ⟨List.cons_ne_nil _ _, ?_, ?_, ?_, ?_⟩, ?_, ?_⟩
      · exact List.not_mem_cons_of_ne_of_not_mem (by decide) flat
      · exact List.not_mem_cons_of_ne_of_not_mem (by decide) ended
      · exact fun single => nonempty (List.cons.inj single).2
      · exact fun pair => other (by rw [(List.cons.inj pair).2]; rfl)
      · exact fun longer => absurd (congrArg List.length longer) (by simp)
      · exact fun fs cur flags => Or.inl (find_same flat other)
  | @same rest other =>
      have flat := fun member => flat (List.mem_cons_of_mem _ member)
      have ended := fun member => ended (List.mem_cons_of_mem _ member)
      have nonempty : rest ≠ [] := by
        rintro rfl
        simp at more
      refine ⟨rest, ⟨nonempty, flat, ended, ?_, ?_⟩, ?_, ?_⟩
      · exact fun single => other (by rw [single]; rfl)
      · exact fun pair => other (by rw [pair]; rfl)
      · exact fun longer => absurd (congrArg List.length longer) (by simp)
      · exact fun fs cur flags => Or.inl (find_same flat other).symm
  | @up rest _ hypothesis =>
      have flat := fun member => flat (List.mem_cons_of_mem _ (List.mem_cons_of_mem _ member))
      have ended := fun member => ended (List.mem_cons_of_mem _ (List.mem_cons_of_mem _ member))
      obtain ⟨other, named, unlike, alike⟩ := hypothesis flat ended (by simpa using more)
      refine ⟨dot :: dot :: other, ⟨List.cons_ne_nil _ _, ?_, ?_, nofun, ?_⟩, ?_, ?_⟩
      · exact List.not_mem_cons_of_ne_of_not_mem (by decide)
          (List.not_mem_cons_of_ne_of_not_mem (by decide) named.flat)
      · exact List.not_mem_cons_of_ne_of_not_mem (by decide)
          (List.not_mem_cons_of_ne_of_not_mem (by decide) named.ended)
      · exact fun pair => named.nonempty (List.cons.inj (List.cons.inj pair).2).2
      · exact fun same => unlike (List.cons.inj (List.cons.inj same).2).2
      · intro fs cur flags
        rw [find_up flat, find_up named.flat]
        split
        · cases rootParent with
          | none => exact Or.inr ⟨other, rest, rfl, rfl⟩
          | some up => exact alike fs up flags
        · split
          · exact alike fs _ flags
          · exact Or.inl rfl

end Doubles

section Creating

variable (stack : Nat → List UInt8) (rootParent : Option Nat) (fuel : Nat) (fs : Fs) (cur : Nat)
  (name : List UInt8)

/-- Creating `name` fails and changes nothing, or `name` is found afterwards, every other name is
found where it was found before, and nothing is changed but what has to be. -/
def CreatesAndFinds (flags : Nat) : Prop :=
  ∃ made result, blkfsIfind stack rootParent fuel fs cur name flags = some (made, result) ∧
    (result = none ∧ made = fs ∨
      result ≠ none ∧
        blkfsIfind stack rootParent fuel made cur name oRdonly = some (made, result) ∧
        (∀ other, FileName other → other ≠ name →
          (blkfsIfind stack rootParent fuel made cur other oRdonly).map Prod.snd =
            (blkfsIfind stack rootParent fuel fs cur other oRdonly).map Prod.snd) ∧
        Set.EqOn made.dev.mem fs.dev.mem (Writable fs cur)ᶜ)

variable {stack rootParent fuel fs cur name} {flags : Nat}

theorem creates_present (named : FileName name)
    (present : Present stack rootParent fuel fs cur name) :
    CreatesAndFinds stack rootParent fuel fs cur name flags := by
  obtain ⟨place, found⟩ := find_present present named.flat
  have read : blkfsIfind stack rootParent fuel fs cur name oRdonly = some (fs, some place) :=
    (found oRdonly).resolve_right fun directory => absurd directory.1 (by decide)
  rcases found flags with same | ⟨-, failed⟩
  · exact ⟨fs, some place, same, Or.inr ⟨nofun, read, fun _ _ _ => rfl, fun _ _ => rfl⟩⟩
  · exact ⟨fs, none, failed, Or.inl ⟨rfl, rfl⟩⟩

/-- A name that is created is found under one more name. -/
theorem creates_absent (named : FileName name) (create : Has flags oCreate)
    (absent : ¬Present stack rootParent fuel fs cur name) :
    ¬CreatesAndFinds stack rootParent fuel fs cur name flags := by
  rintro ⟨made, result, created, outcome⟩
  have missing := find_absent absent named.flat
  obtain ⟨i, rfl⟩ : ∃ i, result = some (.inode i) := by
    rcases missing.create flags create with failed | ⟨_, i, found⟩
    · rw [failed] at created
      exact nomatch created
    · exact ⟨i, congrArg Prod.snd (Option.some.inj (created.symm.trans found))⟩
  by_cases more : ∃ c ∈ name, c ≠ dot
  · obtain ⟨other, valid, unlike, alike⟩ :=
      @twin_exists stack rootParent fuel _ named.flat named.ended more
    rcases outcome with ⟨failed, -⟩ | ⟨-, found, others, -⟩
    · exact nomatch failed
    have later : (blkfsIfind stack rootParent fuel made cur other oRdonly).map Prod.snd =
        some (some (.inode i)) := by
      rcases alike made cur oRdonly with same | ⟨p, q, -, above⟩
      · rw [same, found]
        rfl
      · exact nomatch found.symm.trans above
    have before := (others other valid unlike).symm.trans later
    have now : blkfsIfind stack rootParent fuel fs cur name oRdonly = none ∨
        blkfsIfind stack rootParent fuel fs cur name oRdonly = some (fs, none) :=
      missing.lookup oRdonly (by decide)
    rcases alike fs cur oRdonly with same | ⟨p, q, -, above⟩
    · rw [same] at before
      rcases now with failed | failed
      · rw [failed] at before
        exact nomatch before
      · rw [failed] at before
        exact nomatch before
    · rcases now with failed | failed
      · exact nomatch failed.symm.trans above
      · exact nomatch failed.symm.trans above
  · have dots : ∀ c ∈ name, c = dot := by simpa using more
    rw [dots_absent dots absent] at created
    exact nomatch created

/-- Creating meets its description if and only if there is nothing left to create. -/
theorem create_then_find (stack : Nat → List UInt8) (rootParent : Option Nat) (fuel : Nat) (fs : Fs)
    (cur : Nat) (name : List UInt8) (flags : Nat) (named : FileName name)
    (create : Has flags oCreate) :
    CreatesAndFinds stack rootParent fuel fs cur name flags ↔
      Present stack rootParent fuel fs cur name := by
  refine ⟨fun creates => ?_, creates_present named⟩
  by_contra absent
  exact creates_absent named create absent creates

end Creating

/-- Creating `a` in the root of a blank disk does not meet the description, and creating it once more
does. -/
theorem create_then_find_again : ∃ made,
    blkfsIfind (fun _ => []) (some 0) 2 blankDisk 0 [0x61] oCreate = some (made, some (.inode 1)) ∧
      ¬CreatesAndFinds (fun _ => []) (some 0) 2 blankDisk 0 [0x61] oCreate ∧
      CreatesAndFinds (fun _ => []) (some 0) 2 made 0 [0x61] oCreate := by
  have result : (blkfsIfind (fun _ => []) (some 0) 2 blankDisk 0 [0x61] oCreate).map Prod.snd =
      some (some (.inode 1)) := by
    decide +kernel
  obtain ⟨⟨made, place⟩, created, named⟩ := Option.map_eq_some_iff.mp result
  obtain rfl : place = some (.inode 1) := named
  refine ⟨made, created, ?_, ?_⟩
  · rw [create_then_find (fun _ => []) (some 0) 2 blankDisk 0 [0x61] oCreate (by decide) (by decide)]
    intro present
    cases present with
    | entry nonempty other fits found inside =>
        have unused : slotSearch (fun _ => []) 2 blankDisk.dev (u32 ((blankDisk.nodes 0).info + 4))
            [0x61] = some (.unused 0x484) := by
          decide +kernel
        exact nomatch unused.symm.trans found
  · refine (create_then_find (fun _ => []) (some 0) 2 made 0 [0x61] oCreate (by decide)
      (by decide)).mpr ?_
    have entry : ((blkfsIfind (fun _ => []) (some 0) 2 blankDisk 0 [0x61] oCreate).bind fun state =>
        (slotSearch (fun _ => []) 2 state.1.dev (u32 ((state.1.nodes 0).info + 4)) [0x61]).map
          fun slot => (slot, (readWord state.1.dev 0x400 0xffffffff).1)) =
        some (.found 0x484 0x400, 1) := by
      decide +kernel
    rw [created] at entry
    obtain ⟨slot, found, same⟩ := Option.map_eq_some_iff.mp entry
    obtain ⟨rfl, target⟩ := Prod.mk.inj same
    have inside : (readWord made.dev 0x400 0xffffffff).1 < inodeCount := target.trans_lt (by decide)
    exact .entry (List.cons_ne_nil _ _) (by decide) (by simp) found inside

/-- On a blank disk `a` is created in the root, and `.a` is found that was not there before. -/
theorem create_shows_dotted :
    slotSearch (fun _ => []) 2 blankDisk.dev 0x484 [0x61] = some (.unused 0x484) ∧
      [0x400, 0x480] <+: freeBlocks blankDisk.dev ∧
      (newInode 2 blankDisk.dev).map Prod.snd = some 0x50 ∧
      ¬CreatesAndFinds (fun _ => []) (some 0) 2 blankDisk 0 [0x61] oCreate := by
  refine ⟨by decide +kernel, by decide +kernel, by decide +kernel, ?_⟩
  rintro ⟨made, result, created, outcome⟩
  have before : (blkfsIfind (fun _ => []) (some 0) 2 blankDisk 0 [dot, 0x61] oRdonly).map Prod.snd =
      some none := by
    decide +kernel
  have kind : (blkfsIfind (fun _ => []) (some 0) 2 blankDisk 0 [0x61] oCreate).map Prod.snd =
      some (some (.inode 1)) := by
    decide +kernel
  have later : ((blkfsIfind (fun _ => []) (some 0) 2 blankDisk 0 [0x61] oCreate).bind fun state =>
      (blkfsIfind (fun _ => []) (some 0) 2 state.1 0 [dot, 0x61] oRdonly).map Prod.snd) =
      some (some (.inode 1)) := by
    decide +kernel
  rw [created] at kind later
  rcases outcome with ⟨failed, -⟩ | ⟨-, -, others, -⟩
  · rw [failed] at kind
    exact nomatch kind
  · have same := others [dot, 0x61] (by decide) (by decide)
    rw [before] at same
    exact nomatch same.symm.trans later

end OsWorkbench.Blkfs
