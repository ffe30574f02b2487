import OsWorkbench.Blkfs.Paths
import OsWorkbench.Kernel.DirNormal

/-!
# `vfs_unlink` and `vfs_rmdir`

Removing an entry wipes one slot. What else is lost with it depends on the directories that have their
slots in the same block, on a second entry of the name, and on what is below the inode: `blkfs_irmdir`
does not look into the directory that it removes. The paths are those of one file system that is
mounted on `/`.
-/

namespace OsWorkbench.Blkfs

open Kernel ByteStore Library

section Wiping

variable {fs : Fs} {d m : Nat} {name : List UInt8}

/-- The file system after a slot of the directory `d` was wiped. -/
def wipeSlot (fs : Fs) (d m : Nat) : Fs :=
  fs.setDev (fs.dev.store (slotPlace (nodeAt fs.dev d).info m) (wordBytes ylsWipe))

/-- The names in the slots of a directory are not touched where a slot is wiped. -/
theorem wiped_entries (sound : Sound fs) (parent : Directory fs.dev d) (bound : m < slotCount) {x : Nat}
    (directory : Directory fs.dev x) {part : List Nat}
    (listed : ∀ c ∈ part, c ∈ liveSlots fs.dev (nodeAt fs.dev x).info) :
    part.map (fun c => (nameOf (wipeSlot fs d m).dev c, word (wipeSlot fs d m).dev.mem c)) =
      part.map fun c => (nameOf fs.dev c, word fs.dev.mem c) := by
  refine List.map_congr_left fun c member => ?_
  obtain ⟨k, inside, rfl, used, kept⟩ := live_slot (listed c member)
  have named := (((sound.slots x directory).filled k inside).resolve_left used).resolve_left kept
  obtain ⟨title, target, -⟩ :=
    wiped_names sound parent bound named (sound.apart x d directory parent k inside)
  exact congrArg₂ Prod.mk title target

theorem wiped_directory (sound : Sound fs) (parent : Directory fs.dev d) (bound : m < slotCount)
    (x : Nat) : Directory (wipeSlot fs d m).dev x ↔ Directory fs.dev x :=
  directory_of_records (wiped_records sound parent bound)

/-- Wiping the slot of an entry takes it out of the list of every directory with that block. -/
theorem wiped_removal (sound : Sound fs) (parent : Directory fs.dev d) (bound : m < slotCount)
    (goes : ∀ j < m, ¬Stops fs.dev (nodeAt fs.dev d).info name j)
    (used : slotAt fs.dev (nodeAt fs.dev d).info m ≠ 0)
    (kept : slotAt fs.dev (nodeAt fs.dev d).info m ≠ ylsWipe)
    (same : nameOf fs.dev (slotAt fs.dev (nodeAt fs.dev d).info m) = name) :
    ∃ front back, Removal (childrenOf fs) (childrenOf (wipeSlot fs d m))
      (fun x => Directory fs.dev x ∧ (nodeAt fs.dev x).info = (nodeAt fs.dev d).info) d name
      (word fs.dev.mem (slotAt fs.dev (nodeAt fs.dev d).info m)) front back := by
  have slots := sound.slots d parent
  have slot {c k : Nat} (block : Block fs.dev c) (inside : k < slotCount) :=
    @slot_wiped fs d m c k slots.block bound block inside
  have set : SlotSet fs.dev (wipeSlot fs d m).dev (nodeAt fs.dev d).info m ylsWipe := by
    constructor
    case here => exact (slot slots.block bound).trans (if_pos ⟨rfl, rfl⟩)
    case others =>
      intro k inside other
      exact (slot slots.block inside).trans (if_neg fun both => other both.2)
  obtain ⟨after, old, new⟩ := set.wiped bound
    (fun j less zero => goes j less (Or.inl zero)) used kept
  have absent := (goes_names goes).2
  obtain ⟨front, frontIs⟩ : ∃ front,
      liveOf ((List.range m).map (slotAt fs.dev (nodeAt fs.dev d).info)) = front := ⟨_, rfl⟩
  rw [frontIs] at old new absent
  have info {x : Nat} (directory : Directory fs.dev x) :
      entriesOf fs x = blockEntries fs.dev (nodeAt fs.dev x).info := by
    rw [entriesOf, sound.table x directory.kept.1]
  have later {x : Nat} (directory : Directory fs.dev x) :
      childrenOf (wipeSlot fs d m) x =
        blockEntries (wipeSlot fs d m).dev (nodeAt fs.dev x).info := by
    rw [childrenOf, if_pos ((wiped_directory sound parent bound x).mpr directory), entriesOf, wipeSlot,
      Fs.setDev_nodes, sound.table x directory.kept.1]
  refine ⟨front.map fun c => (nameOf fs.dev c, word fs.dev.mem c),
    after.map fun c => (nameOf fs.dev c, word fs.dev.mem c), ⟨parent, rfl⟩, ?_, ?_, ?_, ?_⟩
  · rintro x ⟨directory, shared⟩
    rw [children_of_directory directory, info directory, shared, blockEntries, old, List.map_append,
      List.map_cons, same]
  · rwa [List.map_map]
  · rintro x ⟨directory, shared⟩
    have listed : ∀ c ∈ front ++ after, c ∈ liveSlots fs.dev (nodeAt fs.dev d).info := by
      intro c member
      rw [old]
      exact (List.mem_append.mp member).elim (List.mem_append_left _)
        fun behind => List.mem_append_right _ (List.mem_cons_of_mem _ behind)
    rw [later directory, shared, blockEntries, new, wiped_entries sound parent bound parent listed,
      List.map_append]
  · intro x other
    by_cases directory : Directory fs.dev x
    · have apart : (nodeAt fs.dev x).info ≠ (nodeAt fs.dev d).info :=
        fun shared => other ⟨directory, shared⟩
      have unchanged : liveSlots (wipeSlot fs d m).dev (nodeAt fs.dev x).info =
          liveSlots fs.dev (nodeAt fs.dev x).info := by
        refine congrArg liveOf (List.map_congr_left fun k member => ?_)
        exact (slot (sound.slots x directory).block (List.mem_range.mp member)).trans
          (if_neg fun both => apart both.1)
      rw [later directory, children_of_directory directory, info directory, blockEntries, unchanged,
        wiped_entries sound parent bound directory fun _ listed => listed]
      rfl
    · rw [childrenOf, childrenOf, if_neg directory,
        if_neg fun after => directory ((wiped_directory sound parent bound x).mp after)]

/-- The names that are left are names that there were. -/
theorem Tree.wipe (tree : Tree fs) (parent : Directory fs.dev d) (bound : m < slotCount)
    (used : slotAt fs.dev (nodeAt fs.dev d).info m ≠ 0)
    {shares : Nat → Prop} {e : Nat} {front back : List (List UInt8 × Nat)}
    (removal : Removal (childrenOf fs) (childrenOf (wipeSlot fs d m)) shares d name e front back) :
    Tree (wipeSlot fs d m) where
  sound := tree.sound.wipe parent bound used
  titles := tree.sound.wipe_titles tree.titles parent bound
  names x after entry member := by
    have directory := (wiped_directory tree.sound parent bound x).mp after
    refine tree.names x directory entry ?_
    rw [← children_of_directory directory]
    rw [← children_of_directory after] at member
    by_cases shared : shares x
    · rw [removal.removed x shared] at member
      rw [removal.before x shared]
      exact (List.mem_append.mp member).elim (List.mem_append_left _)
        fun behind => List.mem_append_right _ (List.mem_cons_of_mem _ behind)
    · rwa [removal.others x shared] at member

/-- A removal that succeeds has found the first entry of the name. -/
theorem wipe_succeeds {stack : Nat → List UInt8} {fuel : Nat} {next : Fs} {directory : Bool}
    (tree : Tree fs) (parent : Directory fs.dev d) (live : 0 ∉ name) (enough : slotCount < fuel)
    (wiped : wipeEntry stack fuel fs d name directory = some (next, 0)) :
    ∃ m < slotCount, ∃ e front back, next = wipeSlot fs d m ∧ Tree next ∧ ShortName name ∧ Kept fs.dev e ∧
      decide ((nodeAt fs.dev e).type = ylsDir) = directory ∧
      Removal (childrenOf fs) (childrenOf next)
        (fun x => Directory fs.dev x ∧ (nodeAt fs.dev x).info = (nodeAt fs.dev d).info) d name e
        front back := by
  have sound := tree.sound
  have slots := sound.slots d parent
  have minus : ¬((fs, (-1 : Int)) = (next, 0)) := by
    intro same
    exact absurd (congrArg Prod.snd same) (show (-1 : Int) ≠ 0 by decide)
  rw [wipeEntry] at wiped
  split at wiped
  · exact absurd (Option.some.inj wiped) minus
  rw [sound.start parent] at wiped
  cases @searched fs.dev (nodeAt fs.dev d).info fuel name stack slots (tree.titles d parent) live enough with
  | found m bound goes used kept same search =>
      have block := ((slots.filled m bound).resolve_left used).resolve_left kept
      obtain ⟨e, target⟩ : ∃ e, word fs.dev.mem (slotAt fs.dev (nodeAt fs.dev d).info m) = e := ⟨_, rfl⟩
      have live : Kept fs.dev e := target ▸ block.target
      have record := record_inside live.1
      have space : inodeEnd ≤ fs.dev.size := sound.space
      have small := fs.dev.word
      have typePlace : u32 (nodePlace e + 12) = nodePlace e + 12 := by
        unfold u32 sizeofNode at *
        omega
      have type : (readWord fs.dev (u32 (nodePlace e + 12)) 0).1 = (nodeAt fs.dev e).type := by
        rw [typePlace, read_word_inside (by unfold sizeofNode at *; omega)]
        rfl
      rw [search, Option.map_some, Option.some_inj] at wiped
      dsimp only at wiped
      rw [read_block block.block, target, type] at wiped
      split at wiped
      · exact absurd wiped minus
      next typed =>
        obtain ⟨front, back, removal⟩ := wiped_removal sound parent bound goes used kept same
        have place := @slot_inside (nodeAt fs.dev d).info m bound
        have last := slots.block.next_inside
        rw [rd_write_inside (by rw [word_bytes_length]; omega)] at wiped
        obtain rfl : wipeSlot fs d m = next := congrArg Prod.fst wiped
        have entry : (name, word fs.dev.mem (slotAt fs.dev (nodeAt fs.dev d).info m)) ∈ entriesOf fs d := by
          rw [← children_of_directory parent, removal.before d removal.own]
          exact List.mem_append_right _ List.mem_cons_self
        refine ⟨m, bound, e, front, back, rfl, tree.wipe parent bound used removal,
          tree.names d parent _ entry, live, not_not.mp typed, target ▸ removal⟩
  | missing absent search =>
      rcases search with ⟨m, search⟩ | search
      · rw [search] at wiped
        exact absurd (Option.some.inj wiped) minus
      · rw [search] at wiped
        exact absurd (Option.some.inj wiped) minus

end Wiping

section Source

variable (stack : Nat → List UInt8) (fuel : Nat)

/-- `vfs_lookup` of a task whose `cur_dir` is `curDir`. -/
def vfsLookup (fs : Fs) (curDir : Nat) (path : List UInt8) (flags : Nat) : Option (Fs × Option Place) :=
  blkfsIfind stack (some 0) fuel fs (if path.headD 0 = slash then 0 else curDir) path flags

/-- `get_parent`: the inode, `NULL` for none, and what `*s` points to then. -/
def getParent (fs : Fs) (curDir : Nat) (path : List UInt8) : Option (Option Place × List UInt8) :=
  match getLastSlash path with
  | none => some (some (.inode curDir), path)
  | some i =>
      if 0x100 ≤ i + 1 then none
      else (vfsLookup stack fuel fs curDir (path.take (i + 1)) oRdonly).map fun found =>
        (found.2, path.drop (i + 1))

/-- `vfs_unlink` and `vfs_rmdir`, with what they return where nothing is found. -/
def vfsRemove (missing : Int) (directory : Bool) (fs : Fs) (curDir : Nat) (path : List UInt8) :
    Option (Fs × Int) :=
  (getParent stack fuel fs curDir path).bind fun parent =>
    match parent.1 with
    | none => some (fs, missing)
    | some (.above _) => none
    | some (.inode d) =>
        (blkfsIfind stack (some 0) fuel fs d parent.2 oRdonly).bind fun found =>
          if found.2 = none then some (fs, missing)
          else wipeEntry stack fuel fs d parent.2 directory

def vfsRmdir (fs : Fs) (curDir : Nat) (path : List UInt8) : Option (Fs × Int) :=
  vfsRemove stack fuel 0 true fs curDir path

def vfsUnlink (fs : Fs) (curDir : Nat) (path : List UInt8) : Option (Fs × Int) :=
  vfsRemove stack fuel (-1) false fs curDir path

end Source

section Parents

variable {stack : Nat → List UInt8} {fuel cur d : Nat} {fs next : Fs} {path : List UInt8}

/-- The inode in which the rest of a path is looked for: a directory, or the path asks for one. -/
def Onward (fs : Fs) (cur : Nat) (path : List UInt8) : Prop :=
  Directory fs.dev cur ∨ Kept fs.dev cur ∧ path.headD 0 = slash

theorem last_suffix {rest : List UInt8} (suffix : rest <:+ path) (some : rest ≠ [])
    (last : path.getLast? = Option.some slash) : rest.getLast? = Option.some slash := by
  obtain ⟨front, rfl⟩ := suffix
  rwa [List.getLast?_append_of_ne_nil _ some] at last

/-- Behind a component there is a slash, if there is anything. -/
theorem layer_tail (slashed : slash ∈ path) :
    (path.drop (getFirstLayer path).length).headD 0 = slash ∧
      path.drop (getFirstLayer path).length ≠ [] := by
  have parts : path.drop (getFirstLayer path).length = path.dropWhile fun c => c != slash := by
    have whole := @List.takeWhile_append_dropWhile _ (fun c => c != slash) path
    have left := @List.drop_left _ (getFirstLayer path) (path.dropWhile fun c => c != slash)
    rwa [getFirstLayer, whole, ← getFirstLayer] at left
  have some : path.dropWhile (fun c => c != slash) ≠ [] := by
    rw [ne_eq, List.dropWhile_eq_nil_iff]
    exact fun all => absurd (all slash slashed) (by simp)
  rw [parts]
  refine ⟨?_, some⟩
  have head := List.head_dropWhile_not (fun c : UInt8 => c != slash) some
  cases same : path.dropWhile fun c => c != slash with
  | nil => exact absurd same some
  | cons c rest =>
      simp only [same, List.head_cons] at head
      simpa using head

theorem slash_member (last : path.getLast? = some slash) : slash ∈ path :=
  List.mem_of_getLast? last

/-- A path with a slash at its end leads to a directory. -/
theorem find_from_directory (sound : Sound fs) (calls : Nat) (onward : Onward fs cur path)
    (last : path.getLast? = some slash)
    (found : findFrom stack (some 0) fuel calls fs cur path oRdonly = some (next, some (.inode d))) :
    Directory fs.dev d := by
  induction calls generalizing cur path with
  | zero => cases found
  | succ calls hypothesis =>
      rw [findFrom] at found
      dsimp only at found
      split at found
      · cases found
      next passes =>
      have place : Directory fs.dev cur := by
        rcases onward with place | ⟨live, head⟩
        · exact place
        · refine ⟨live, ?_⟩
          rw [← sound.table cur live.1]
          exact not_not.mp fun type => passes ⟨head, type⟩
      split at found
      next none =>
        rw [if_neg (fun both => absurd both.1 (by decide))] at found
        cases found
        exact place
      next some =>
      have ending := last_suffix (List.dropWhile_suffix _) some last
      obtain ⟨rest, restIs⟩ : ∃ rest, path.dropWhile (fun c => c == slash) = rest := ⟨_, rfl⟩
      rw [restIs] at found some ending
      split at found
      next first =>
        cases rest with
        | nil => exact absurd rfl some
        | cons c rest =>
        split at found
        next second =>
          have further : rest.drop 1 ≠ [] := by
            intro short
            cases rest with
            | nil => exact absurd second (show (0 : UInt8) ≠ dot by decide)
            | cons c' rest =>
                obtain rfl : rest = [] := short
                obtain rfl : c' = dot := second
                exact absurd (Option.some.inj ending) (show dot ≠ slash by decide)
          have left := last_suffix (List.drop_suffix 2 (c :: rest)) further ending
          split at found
          · exact hypothesis (Or.inl sound.root) left found
          split at found
          · refine hypothesis (Or.inl ?_) left found
            rw [parentOf, sound.table cur place.kept.1, read_block (sound.slots cur place).block]
            exact sound.parents cur place
          · cases found
        next =>
          have further : rest ≠ [] := by
            rintro rfl
            obtain rfl : c = dot := first
            exact absurd ending (by decide)
          exact hypothesis (Or.inl place) (last_suffix (List.suffix_cons c rest) further ending) found
      next =>
        split at found
        · cases found
        obtain ⟨slot, search, arrived⟩ := Option.bind_eq_some_iff.mp found
        rw [sound.start place] at search
        rcases slot_search_ends (sound.slots cur place) (by decide) search with
          rfl | ⟨m, bound, ⟨rfl, -⟩ | ⟨rfl, named⟩⟩
        · cases arrived
        · dsimp only at arrived
          rw [findLast, if_neg (fun both => absurd both.1 (by decide))] at arrived
          cases arrived
        · dsimp only at arrived
          rw [read_block named.block] at arrived
          split at arrived
          · obtain ⟨head, further⟩ := layer_tail (slash_member ending)
            exact hypothesis (Or.inr ⟨named.target, head⟩)
              (last_suffix (List.drop_suffix _ _) further ending) arrived
          · cases arrived

theorem last_slash_found {idx i : Nat} (found : getLastSlashFrom path idx = some i) :
    path.getD i 0 = slash := by
  induction idx with
  | zero =>
      rw [getLastSlashFrom] at found
      split at found
      next here => exact Option.some.inj found ▸ here
      next => exact nomatch found
  | succ idx hypothesis =>
      rw [getLastSlashFrom] at found
      split at found
      next here => exact Option.some.inj found ▸ here
      next => exact hypothesis found

/-- What `get_parent` gives is a directory, if it is an inode. -/
theorem parent_directory {name : List UInt8} (sound : Sound fs) (start : Directory fs.dev cur)
    (parent : getParent stack fuel fs cur path = some (some (.inode d), name)) :
    Directory fs.dev d ∧ name <:+ path := by
  rw [getParent] at parent
  split at parent
  · cases parent
    exact ⟨start, List.suffix_refl path⟩
  next i slashed =>
    split at parent
    · exact nomatch parent
    obtain ⟨⟨next, place⟩, found, same⟩ := Option.map_eq_some_iff.mp parent
    cases same
    refine ⟨?_, List.drop_suffix _ _⟩
    have here := last_slash_found slashed
    have inside : i < path.length := by
      refine Nat.lt_of_not_le fun beyond => ?_
      rw [List.getD_eq_default _ _ beyond] at here
      exact absurd here (by decide)
    have last : (path.take (i + 1)).getLast? = some slash := by
      rw [List.getD_eq_getElem _ _ inside] at here
      rw [List.take_add_one, List.getElem?_eq_getElem inside, here, Option.toList_some,
        List.getLast?_concat]
    rw [vfsLookup, blkfsIfind] at found
    refine find_from_directory sound _ ?_ last found
    split
    · exact Or.inl sound.root
    · exact Or.inl start

end Parents

section Removing

variable (stack : Nat → List UInt8) (fuel : Nat)

/-- The names lead from the directory to the inode. -/
def Resolves (fs : Fs) (x : Nat) (names : List (List UInt8)) (i : Nat) : Prop :=
  vfsLookup stack fuel fs x (pathText names) oRdonly = some (fs, some (.inode i))

/-- The entry `name` of the directory `d` disappears, and every path that does not end with it leads
where it led. -/
structure RemovesEntry (fs next : Fs) (d : Nat) (name : List UInt8) : Prop where
  gone : ∀ i, ¬Resolves stack fuel next d [name] i
  kept : ∀ x names i, Directory fs.dev x → (∀ n ∈ names, ShortName n) →
    Resolves stack fuel fs x names i →
    (∀ front, names = front ++ [name] → ¬Resolves stack fuel fs x front d) →
    Resolves stack fuel next x names i

/-- The path names an entry, and it is the one that is removed. -/
def RemovesNamed (fs next : Fs) (curDir : Nat) (path : List UInt8) : Prop :=
  ∃ d name, getParent stack fuel fs curDir path = some (some (.inode d), name) ∧
    name ∈ (entriesOf fs d).map Prod.fst ∧ RemovesEntry stack fuel fs next d name

/-- The directory has its slots for itself, and one entry of the name. -/
structure Sole (fs : Fs) (d : Nat) (name : List UInt8) : Prop where
  alone : ∀ x, Directory fs.dev x → (nodeAt fs.dev x).info = (nodeAt fs.dev d).info → x = d
  once : ((entriesOf fs d).map Prod.fst).count name = 1

/-- There is nothing below the entry, other than the entry itself where a directory is linked into
itself. -/
def Childless (fs : Fs) (d : Nat) (name : List UInt8) : Prop :=
  ∀ e, (entriesOf fs d).lookup name = some e → ∀ child ∈ childrenOf fs e, e = d ∧ child.1 = name

variable {stack fuel} {fs next : Fs} {d x i e : Nat} {name : List UInt8} {names : List (List UInt8)}

theorem resolves_iff (tree : Tree fs) (enough : slotCount < fuel) (directory : Directory fs.dev x)
    (named : ∀ n ∈ names, ShortName n) :
    Resolves stack fuel fs x names i ↔ walk (childrenOf fs) x names = some i := by
  rw [Resolves, vfsLookup, if_neg (path_head named)]
  exact find_path tree enough directory named

/-- Only names that are entries lead anywhere. -/
theorem walk_short (tree : Tree fs) (led : walk (childrenOf fs) x names = some i) :
    ∀ n ∈ names, ShortName n := by
  induction names generalizing x with
  | nil => exact fun n member => absurd member List.not_mem_nil
  | cons name names hypothesis =>
      obtain ⟨child, found, led⟩ := Option.bind_eq_some_iff.mp led
      have entry := lookup_mem found
      rw [childrenOf] at entry
      split at entry
      next directory =>
        intro n member
        rcases List.mem_cons.mp member with rfl | later
        · exact tree.names x directory _ entry
        · exact hypothesis led n later
      next => exact absurd entry List.not_mem_nil

theorem removes_iff (tree : Tree fs) (after : Tree next) (enough : slotCount < fuel)
    (same : ∀ x, Directory next.dev x ↔ Directory fs.dev x) (parent : Directory fs.dev d)
    (short : ShortName name) : RemovesEntry stack fuel fs next d name ↔
      OnlyRemoves (childrenOf fs) (childrenOf next) (Directory fs.dev) d name := by
  have single : ∀ n ∈ [name], ShortName n := fun n member => List.mem_singleton.mp member ▸ short
  constructor
  · intro removes
    constructor
    case gone =>
      cases found : (childrenOf next d).lookup name with
      | none => rfl
      | some e =>
          refine absurd ?_ (removes.gone e)
          rw [resolves_iff after enough ((same d).mpr parent) single, walk_cons, found]
          rfl
    case kept =>
      intro x names i directory led elsewhere
      have named := walk_short tree led
      refine (@resolves_iff stack fuel next x i names after enough ((same x).mpr directory) named).mp ?_
      refine removes.kept x names i directory named
        ((resolves_iff tree enough directory named).mpr led) fun front parts reached => elsewhere ?_
      refine ⟨front, parts, (resolves_iff tree enough directory fun n member => named n ?_).mp reached⟩
      rw [parts]
      exact List.mem_append_left _ member
  · intro only
    constructor
    case gone =>
      intro i resolved
      rw [resolves_iff after enough ((same d).mpr parent) single, walk_cons, only.gone] at resolved
      exact nomatch resolved
    case kept =>
      intro x names i directory named resolved elsewhere
      refine (resolves_iff after enough ((same x).mpr directory) named).mpr ?_
      refine only.kept x names i directory ((resolves_iff tree enough directory named).mp resolved) ?_
      rintro ⟨front, parts, reached⟩
      refine elsewhere front parts ((resolves_iff tree enough directory fun n member => named n ?_).mpr
        reached)
      rw [parts]
      exact List.mem_append_left _ member

/-- What a removal that succeeds does, exactly. -/
theorem wiped_exact {directory : Bool} (tree : Tree fs) (parent : Directory fs.dev d) (live : 0 ∉ name)
    (enough : slotCount < fuel)
    (wiped : wipeEntry stack fuel fs d name directory = some (next, 0)) :
    name ∈ (entriesOf fs d).map Prod.fst ∧ (directory = false → Childless fs d name) ∧
      (RemovesEntry stack fuel fs next d name ↔ Sole fs d name ∧ Childless fs d name) := by
  obtain ⟨m, bound, e, front, back, rfl, after, short, target, typed, removal⟩ :=
    wipe_succeeds tree parent live enough wiped
  have entries : entriesOf fs d = front ++ (name, e) :: back :=
    (children_of_directory parent).symm.trans (removal.before d removal.own)
  have first : (entriesOf fs d).lookup name = some e := by
    rw [entries]
    exact lookup_first removal.first
  have childless : Childless fs d name ↔ ∀ child ∈ childrenOf fs e, e = d ∧ child.1 = name := by
    constructor
    · exact fun none => none e first
    · intro none other found
      rw [first] at found
      exact Option.some.inj found ▸ none
  have once : ((entriesOf fs d).map Prod.fst).count name = 1 ↔ name ∉ back.map Prod.fst := by
    rw [entries, List.map_append, List.map_cons, List.count_append, List.count_cons_self,
      List.count_eq_zero.mpr removal.first, ← List.count_eq_zero]
    omega
  refine ⟨?_, fun file => childless.mpr fun child member => ?_, ?_⟩
  · rw [entries, List.map_append]
    exact List.mem_append_right _ List.mem_cons_self
  · have other : ¬Directory fs.dev e := by
      intro place
      rw [decide_eq_true place.type] at typed
      exact Bool.noConfusion (typed.trans file)
    rw [childrenOf, if_neg other] at member
    exact absurd member List.not_mem_nil
  · rw [removes_iff tree after enough (wiped_directory tree.sound parent bound) parent short,
      removal.only_removes_iff fun x shared => shared.1, childless]
    constructor
    · rintro ⟨alone, last, none⟩
      exact ⟨⟨fun x place shared => alone x ⟨place, shared⟩, once.mpr last⟩, none⟩
    · rintro ⟨sole, none⟩
      exact ⟨fun x shared => sole.alone x shared.1 shared.2, once.mp sole.once, none⟩

/-- A name that is not found is no entry. -/
theorem missing_entry {found : Fs × Option Place} (tree : Tree fs) (enough : slotCount < fuel)
    (parent : Directory fs.dev d) (find : blkfsIfind stack (some 0) fuel fs d name oRdonly = some found)
    (missing : found.2 = none) : name ∉ (entriesOf fs d).map Prod.fst := by
  intro member
  obtain ⟨⟨title, i⟩, entry, rfl⟩ := List.mem_map.mp member
  have short := tree.names d parent _ entry
  obtain ⟨e, listed⟩ : ∃ e, (childrenOf fs d).lookup title = some e := by
    rw [← Option.isSome_iff_exists, children_of_directory parent, List.lookup_isSome_iff]
    exact ⟨_, entry, beq_self_eq_true title⟩
  have led : walk (childrenOf fs) d [title] = some e := by
    rw [walk_cons, listed]
    rfl
  have resolved := (@find_path stack (some 0) fuel d e fs [title] tree enough parent
    fun n member => List.mem_singleton.mp member ▸ short).mpr led
  rw [pathText, List.flatMap_nil, List.append_nil] at resolved
  rw [Option.some.inj (find.symm.trans resolved)] at missing
  cases missing

/-- A call that returns 0 has wiped the entry, or has not found it. -/
theorem remove_cases {missing : Int} {directory : Bool} {curDir : Nat} {path : List UInt8}
    (tree : Tree fs) (start : Directory fs.dev curDir) (enough : slotCount < fuel)
    (removed : vfsRemove stack fuel missing directory fs curDir path = some (next, 0)) :
    (missing = 0 ∧ ∀ d name, getParent stack fuel fs curDir path = some (some (.inode d), name) →
        name ∉ (entriesOf fs d).map Prod.fst) ∨
      ∃ d name, getParent stack fuel fs curDir path = some (some (.inode d), name) ∧
        Directory fs.dev d ∧ name <:+ path ∧
        wipeEntry stack fuel fs d name directory = some (next, 0) := by
  obtain ⟨⟨place, name⟩, parent, removed⟩ := Option.bind_eq_some_iff.mp removed
  rw [parent]
  cases place with
  | none =>
      refine Or.inl ⟨congrArg Prod.snd (Option.some.inj removed), fun d name same => ?_⟩
      exact nomatch congrArg Prod.fst (Option.some.inj same)
  | some place =>
      cases place with
      | above b => exact nomatch removed
      | inode d =>
          obtain ⟨inside, suffix⟩ := parent_directory tree.sound start parent
          obtain ⟨found, find, removed⟩ := Option.bind_eq_some_iff.mp removed
          split at removed
          next none =>
            refine Or.inl ⟨congrArg Prod.snd (Option.some.inj removed), fun x title same => ?_⟩
            cases same
            exact missing_entry tree enough inside find none
          next => exact Or.inr ⟨d, name, rfl, inside, suffix, removed⟩

/-- The entry leads to an inode without entries. -/
def Vacant (fs : Fs) (d : Nat) (name : List UInt8) : Prop :=
  ∀ e, (entriesOf fs d).lookup name = some e → childrenOf fs e = []

theorem Vacant.childless (vacant : Vacant fs d name) : Childless fs d name := by
  intro e found child member
  rw [vacant e found] at member
  exact absurd member List.not_mem_nil

theorem Sole.entry (sole : Sole fs d name) : name ∈ (entriesOf fs d).map Prod.fst :=
  List.count_pos_iff.mp (Nat.lt_of_lt_of_eq Nat.one_pos sole.once.symm)

theorem removed_iff {missing : Int} {directory : Bool} {curDir : Nat} {path : List UInt8}
    (tree : Tree fs) (start : Directory fs.dev curDir) (live : 0 ∉ path) (enough : slotCount < fuel)
    (removed : vfsRemove stack fuel missing directory fs curDir path = some (next, 0)) :
    RemovesNamed stack fuel fs next curDir path ↔ ∃ d name,
      getParent stack fuel fs curDir path = some (some (.inode d), name) ∧ Sole fs d name ∧
        Childless fs d name := by
  rcases remove_cases tree start enough removed with
    ⟨-, absent⟩ | ⟨d, name, parent, inside, suffix, wiped⟩
  · constructor
    · rintro ⟨d, name, parent, entry, -⟩
      exact absurd entry (absent d name parent)
    · rintro ⟨d, name, parent, sole, -⟩
      exact absurd sole.entry (absent d name parent)
  · obtain ⟨entry, -, exact⟩ :=
      wiped_exact tree inside (fun member => live (suffix.subset member)) enough wiped
    constructor
    · rintro ⟨x, title, same, -, removes⟩
      cases parent.symm.trans same
      exact ⟨d, name, parent, exact.mp removes⟩
    · rintro ⟨x, title, same, both⟩
      cases parent.symm.trans same
      exact ⟨d, name, parent, entry, exact.mpr both⟩

end Removing

section Crowding

/-- A file and a directory in the root of a blank disk, and a file in the directory. -/
def crowdedLabels : List ((Nat → List UInt8) × Op) :=
  firstLabels ++ [(fun _ => [], .find 2 [0x63] oCreate)]

theorem created_kept {fs next : Fs} {cur flags : Nat} {name : List UInt8}
    (kept : Sound fs ∧ Titles fs.dev) (named : ShortName name)
    (place : Directory fs.dev cur ∧ 2 ≤ (freeBlocks fs.dev).length ∧
      ∃ i < inodeCount, (nodeAt fs.dev i).refcnt = 0)
    (stepped : fsStep (some 0) inodeCount (fun _ => [], .find cur name flags) fs = some next) :
    Sound next ∧ Titles next.dev := by
  obtain ⟨directory, blocks, record⟩ := place
  refine step_titled le_rfl (fun _ same => (Option.some.inj same).symm) kept ?_ stepped
  exact ⟨named.flat, named.ended, named.short, directory,
    fun _ => Or.inr ⟨blocks, record, Nat.le_trans named.short.le (by decide)⟩⟩

/-- What a creation in the directory needs. -/
def spacious (cur : Nat) (fs : Fs) : Bool :=
  decide (Directory fs.dev cur ∧ 2 ≤ (freeBlocks fs.dev).length ∧
    ∃ i < inodeCount, (nodeAt fs.dev i).refcnt = 0)

theorem crowded : ∃ fs next, runSteps (fsStep (some 0) inodeCount) crowdedLabels blankDisk = some fs ∧
    Tree fs ∧ vfsRmdir (fun _ => []) inodeCount fs 0 [0x62] = some (next, 0) ∧
    walk (childrenOf fs) 0 [[0x62], [0x63]] = some 3 ∧
    (vfsLookup (fun _ => []) inodeCount next 0 (pathText [[0x62], [0x63]]) oRdonly).map Prod.snd =
      some none := by
  obtain ⟨fs, ran⟩ : ∃ fs, runSteps (fsStep (some 0) inodeCount) crowdedLabels blankDisk = some fs :=
    Option.isSome_iff_exists.mp (by decide +kernel)
  have run : runSteps (fsStep (some 0) inodeCount) crowdedLabels blankDisk = some fs := ran
  obtain ⟨one, file, ran⟩ := run_steps_cons _ ran
  obtain ⟨two, directory, ran⟩ := run_steps_cons _ ran
  obtain ⟨three, inner, ran⟩ := run_steps_cons _ ran
  obtain rfl := Option.some.inj ran
  have places : spacious 0 blankDisk = true ∧
      (fsStep (some 0) inodeCount (fun _ => [], .find 0 [0x61] oCreate) blankDisk).map (spacious 0) =
        some true ∧
      (runSteps (fsStep (some 0) inodeCount) firstLabels blankDisk).map (spacious 2) = some true := by
    decide +kernel
  obtain ⟨root, second, third⟩ := places
  rw [file] at second
  have both : runSteps (fsStep (some 0) inodeCount) firstLabels blankDisk = some two := by
    rw [firstLabels, runSteps, file, Option.bind_some, runSteps, directory]
    rfl
  rw [both] at third
  have start : Sound blankDisk ∧ Titles blankDisk.dev := ⟨blank_lettered.sound, blank_lettered.titles⟩
  have kept := created_kept start (by decide) (of_decide_eq_true root) file
  have kept := created_kept kept (by decide) (of_decide_eq_true (Option.some.inj second)) directory
  have kept := created_kept kept (by decide) (of_decide_eq_true (Option.some.inj third)) inner
  have names : (runSteps (fsStep (some 0) inodeCount) crowdedLabels blankDisk).map (fun fs =>
      decide (∀ d < inodeCount, ∀ entry ∈ childrenOf fs d, ShortName entry.1)) = some true := by
    decide +kernel
  rw [run] at names
  have named := of_decide_eq_true (Option.some.inj names)
  have facts : (runSteps (fsStep (some 0) inodeCount) crowdedLabels blankDisk).bind (fun fs =>
      (vfsRmdir (fun _ => []) inodeCount fs 0 [0x62]).map fun removed =>
        (removed.2, walk (childrenOf fs) 0 [[0x62], [0x63]],
          (vfsLookup (fun _ => []) inodeCount removed.1 0 (pathText [[0x62], [0x63]]) oRdonly).map
            Prod.snd)) = some (0, some 3, some none) := by
    decide +kernel
  rw [run, Option.bind_some] at facts
  obtain ⟨⟨next, value⟩, removed, facts⟩ := Option.map_eq_some_iff.mp facts
  obtain rfl : value = 0 := congrArg Prod.fst facts
  have led := congrArg (fun found => found.2.1) facts
  have lost := congrArg (fun found => found.2.2) facts
  refine ⟨three, next, run, ⟨kept.1, kept.2, fun d place entry member => ?_⟩, removed, led, lost⟩
  rw [← children_of_directory place] at member
  exact named d place.kept.1 entry member

end Crowding

/-- What disappears with a removal that returns 0 is the named entry, exactly if its directory has its
slots for itself and one entry of the name, and if for a directory nothing is below. Then in particular
`vfs_rmdir` has removed an empty directory, exactly if it was one. -/
theorem removal_exact (stack : Nat → List UInt8) (fuel : Nat) (fs next : Fs) (curDir : Nat)
    (path : List UInt8) (tree : Tree fs) (start : Directory fs.dev curDir) (live : 0 ∉ path)
    (enough : slotCount < fuel) :
    (vfsUnlink stack fuel fs curDir path = some (next, 0) →
      (RemovesNamed stack fuel fs next curDir path ↔ ∃ d name,
        getParent stack fuel fs curDir path = some (some (.inode d), name) ∧ Sole fs d name)) ∧
    (vfsRmdir stack fuel fs curDir path = some (next, 0) →
      (RemovesNamed stack fuel fs next curDir path ↔ ∃ d name,
        getParent stack fuel fs curDir path = some (some (.inode d), name) ∧ Sole fs d name ∧
          Childless fs d name) ∧
      (RemovesNamed stack fuel fs next curDir path ∧
          (∀ d name, getParent stack fuel fs curDir path = some (some (.inode d), name) →
            Vacant fs d name) ↔
        ∃ d name, getParent stack fuel fs curDir path = some (some (.inode d), name) ∧
          Sole fs d name ∧ Vacant fs d name)) := by
  constructor
  · intro removed
    rw [removed_iff tree start live enough removed]
    constructor
    · rintro ⟨d, name, parent, sole, -⟩
      exact ⟨d, name, parent, sole⟩
    · rintro ⟨d, name, parent, sole⟩
      rcases remove_cases tree start enough removed with
        ⟨zero, -⟩ | ⟨x, title, same, inside, suffix, wiped⟩
      · exact absurd zero (by decide)
      cases parent.symm.trans same
      obtain ⟨-, childless, -⟩ :=
        wiped_exact tree inside (fun member => live (suffix.subset member)) enough wiped
      exact ⟨d, name, parent, sole, childless rfl⟩
  · intro removed
    have named := removed_iff tree start live enough removed
    refine ⟨named, ?_⟩
    constructor
    · rintro ⟨removes, vacant⟩
      obtain ⟨d, name, parent, sole, -⟩ := named.mp removes
      exact ⟨d, name, parent, sole, vacant d name parent⟩
    · rintro ⟨d, name, parent, sole, vacant⟩
      refine ⟨named.mpr ⟨d, name, parent, sole, vacant.childless⟩, fun x title same => ?_⟩
      cases parent.symm.trans same
      exact vacant

/-- `rmdir b` returns 0 with the file `b/c` in the directory, which is lost. -/
theorem removal_loses_file : ∃ fs next,
    runSteps (fsStep (some 0) inodeCount) crowdedLabels blankDisk = some fs ∧ Tree fs ∧
      vfsRmdir (fun _ => []) inodeCount fs 0 [0x62] = some (next, 0) ∧
      Resolves (fun _ => []) inodeCount fs 0 [[0x62], [0x63]] 3 ∧
      ¬Resolves (fun _ => []) inodeCount next 0 [[0x62], [0x63]] 3 ∧
      ¬RemovesNamed (fun _ => []) inodeCount fs next 0 [0x62] := by
  obtain ⟨fs, next, ran, tree, removed, led, lost⟩ := crowded
  have named : ∀ n ∈ [[0x62], [0x63]], ShortName n := by decide
  have before : Resolves (fun _ => []) inodeCount fs 0 [[0x62], [0x63]] 3 :=
    (resolves_iff tree (by decide) tree.sound.root named).mpr led
  have after : ¬Resolves (fun _ => []) inodeCount next 0 [[0x62], [0x63]] 3 := by
    intro resolved
    rw [Resolves] at resolved
    rw [resolved] at lost
    exact nomatch lost
  refine ⟨fs, next, ran, tree, removed, before, after, ?_⟩
  rintro ⟨d, name, parent, -, removes⟩
  obtain ⟨rfl, rfl⟩ : d = 0 ∧ name = [0x62] := by
    cases parent
    exact ⟨rfl, rfl⟩
  refine after (removes.kept 0 _ 3 tree.sound.root named before fun front parts _ => ?_)
  have last := congrArg List.getLast? parts
  rw [List.getLast?_concat] at last
  exact absurd last (by decide)

theorem removal_exact_crowded : ∃ fs next,
    vfsRmdir (fun _ => []) inodeCount fs 0 [0x62] = some (next, 0) ∧
      (RemovesNamed (fun _ => []) inodeCount fs next 0 [0x62] ↔ ∃ d name,
        getParent (fun _ => []) inodeCount fs 0 [0x62] = some (some (.inode d), name) ∧
          Sole fs d name ∧ Childless fs d name) := by
  obtain ⟨fs, next, -, tree, removed, -⟩ := crowded
  have exact := (removal_exact (fun _ => []) inodeCount fs next 0 [0x62] tree tree.sound.root
    (by decide) (by decide)).2 removed
  exact ⟨fs, next, removed, exact.1⟩

end OsWorkbench.Blkfs
