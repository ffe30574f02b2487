import OsWorkbench.Blkfs.DirectorySizes
import OsWorkbench.Library.Walks

/-!
# Paths of names

What `blkfs_ifind` finds for a path of names is where the names lead in the lists of entries.
-/

namespace OsWorkbench.Blkfs

open Kernel ByteStore Library

/-- The names of a path, in one string. -/
def pathText : List (List UInt8) → List UInt8
  | [] => []
  | name :: rest => name ++ rest.flatMap fun next => slash :: next

/-- The entries of a directory. Other inodes have none. -/
def childrenOf (fs : Fs) (i : Nat) : List (List UInt8 × Nat) :=
  if Directory fs.dev i then entriesOf fs i else []

/-- A file system whose names can be looked up as they are. -/
structure Tree (fs : Fs) : Prop where
  sound : Sound fs
  titles : Titles fs.dev
  names : ∀ d, Directory fs.dev d → ∀ entry ∈ entriesOf fs d, ShortName entry.1

section Searching

variable {dev : Rd} {b m k fuel : Nat} {name : List UInt8} {stack : Nat → List UInt8}

/-- The first slot that a search stops at, if there is one. -/
theorem first_stop (dev : Rd) (b : Nat) (name : List UInt8) :
    (∃ m < slotCount, Stops dev b name m ∧ ∀ j < m, ¬Stops dev b name j) ∨
      ∀ j < slotCount, ¬Stops dev b name j := by
  classical
  by_cases some : ∃ m, m < slotCount ∧ Stops dev b name m
  · refine Or.inl ⟨Nat.find some, (Nat.find_spec some).1, (Nat.find_spec some).2, fun j less stops => ?_⟩
    exact Nat.find_min some less ⟨Nat.lt_trans less (Nat.find_spec some).1, stops⟩
  · exact Or.inr fun j bound stops => some ⟨j, bound, stops⟩

/-- What a search for a name sees of the slots before the one it stops at. -/
theorem goes_names (goes : ∀ j < m, ¬Stops dev b name j) :
    (∀ c ∈ (List.range m).map (slotAt dev b), c ≠ 0) ∧
      name ∉ (liveOf ((List.range m).map (slotAt dev b))).map (nameOf dev) := by
  have used : ∀ c ∈ (List.range m).map (slotAt dev b), c ≠ 0 := by
    intro c member zero
    obtain ⟨j, ranged, rfl⟩ := List.mem_map.mp member
    exact goes j (List.mem_range.mp ranged) (Or.inl zero)
  refine ⟨used, fun member => ?_⟩
  obtain ⟨c, live, same⟩ := List.mem_map.mp member
  obtain ⟨listed, -, kept⟩ := mem_live live
  obtain ⟨j, ranged, rfl⟩ := List.mem_map.mp listed
  exact goes j (List.mem_range.mp ranged) (Or.inr ⟨kept, same⟩)

/-- The ends of a search for a name. -/
inductive Searched (stack : Nat → List UInt8) (fuel : Nat) (dev : Rd) (b : Nat) (name : List UInt8) : Prop
  | found (m : Nat) (bound : m < slotCount) (goes : ∀ j < m, ¬Stops dev b name j)
      (used : slotAt dev b m ≠ 0) (kept : slotAt dev b m ≠ ylsWipe)
      (same : nameOf dev (slotAt dev b m) = name)
      (search : slotSearch stack fuel dev (slotPlace b 0) name =
        some (.found (slotPlace b m) (slotAt dev b m)))
  | missing (absent : name ∉ (blockEntries dev b).map Prod.fst)
      (search : (∃ m, slotSearch stack fuel dev (slotPlace b 0) name = some (.unused m)) ∨
        slotSearch stack fuel dev (slotPlace b 0) name = some .ended)

theorem searched (slots : Slots dev b)
    (titled : ∀ k < slotCount, NameBlock dev (slotAt dev b k) → Titled dev (slotAt dev b k))
    (live : 0 ∉ name) (enough : slotCount < fuel) : Searched stack fuel dev b name := by
  have entered {c : Nat} (listed : c ∈ liveSlots dev b) (same : nameOf dev c = name) :
      ∃ j < slotCount, Stops dev b name j ∧ slotAt dev b j ≠ 0 := by
    obtain ⟨j, bound, rfl, used, kept⟩ := live_slot listed
    exact ⟨j, bound, Or.inr ⟨kept, same⟩, used⟩
  rcases first_stop dev b name with ⟨m, bound, stops, goes⟩ | goes
  · have search := @slot_search_stops dev b 0 m fuel name stack slots titled live (Nat.zero_le m) bound
      (fun j _ less => goes j less) stops (by omega)
    by_cases zero : slotAt dev b m = 0
    · rw [if_pos zero] at search
      refine .missing (fun member => ?_) (Or.inl ⟨_, search⟩)
      rw [blockEntries, List.map_map] at member
      obtain ⟨c, listed, same⟩ := List.mem_map.mp member
      obtain ⟨j, inside, stopped, used⟩ := entered listed same
      rcases Nat.lt_or_ge j m with before | after
      · exact goes j before stopped
      · exact used (slots.ended m j after inside zero)
    · rw [if_neg zero] at search
      obtain ⟨kept, same⟩ := stops.resolve_left zero
      exact .found m bound goes zero kept same search
  · have search := @slot_search_full dev b 0 fuel name stack slots titled live (by decide)
      (fun j _ less => goes j less) (by omega)
    refine .missing (fun member => ?_) (Or.inr search)
    rw [blockEntries, List.map_map] at member
    obtain ⟨c, listed, same⟩ := List.mem_map.mp member
    obtain ⟨j, inside, stopped, -⟩ := entered listed same
    exact goes j inside stopped

/-- The entry that a search finds is the first one of its name. -/
theorem found_entry (bound : m < slotCount) (goes : ∀ j < m, ¬Stops dev b name j)
    (used : slotAt dev b m ≠ 0) (kept : slotAt dev b m ≠ ylsWipe)
    (same : nameOf dev (slotAt dev b m) = name) : ∃ back,
      blockEntries dev b =
        (liveOf ((List.range m).map (slotAt dev b))).map (fun c => (nameOf dev c, word dev.mem c)) ++
          (name, word dev.mem (slotAt dev b m)) :: back := by
  rw [blockEntries, liveSlots, slot_list_split dev b bound, live_append (goes_names goes).1,
    live_cons used kept, List.map_append, List.map_cons, same]
  exact ⟨_, rfl⟩

end Searching

section Finding

variable {stack : Nat → List UInt8} {rootParent : Option Nat} {fuel cur flags x i : Nat} {fs : Fs}
  {path name : List UInt8} {names : List (List UInt8)}

/-- A slash in front of a path asks for a directory. -/
theorem find_slash (start : path.headD 0 ≠ slash) :
    blkfsIfind stack rootParent fuel fs cur (slash :: path) flags =
      if isDir fs cur then blkfsIfind stack rootParent fuel fs cur path flags else some (fs, none) := by
  have same : (slash :: path).dropWhile (fun c => c == slash) = path := by
    rw [List.dropWhile_cons_of_pos (by simp)]
    cases path with
    | nil => rfl
    | cons c path => exact List.dropWhile_cons_of_neg (by simpa using start)
  have rest : path.dropWhile (fun c => c == slash) = path := by
    cases path with
    | nil => rfl
    | cons c path => exact List.dropWhile_cons_of_neg (by simpa using start)
  by_cases directory : isDir fs cur
  · rw [if_pos directory, blkfsIfind, blkfsIfind,
      @find_calls stack rootParent fuel fs cur flags path (path.length + 1) (path.length + 1 + 1)
        (Nat.lt_succ_self _) (Nat.lt_succ_of_lt (Nat.lt_succ_self _)), List.length_cons]
    conv_lhs => rw [findFrom, same, if_neg fun both => both.2 directory]
    conv_rhs => rw [findFrom, rest, if_neg fun both => both.2 directory]
  · rw [if_neg directory, blkfsIfind, findFrom, if_pos ⟨rfl, directory⟩]

/-- What stands behind the first name of a path. -/
theorem path_tail (names : List (List UInt8)) : (names.flatMap fun next => slash :: next) =
    if names = [] then [] else slash :: pathText names := by
  cases names with
  | nil => rfl
  | cons name names => rfl

theorem path_head (named : ∀ name ∈ names, ShortName name) : (pathText names).headD 0 ≠ slash := by
  cases names with
  | nil => decide
  | cons name names =>
      obtain ⟨-, flat⟩ := (named name List.mem_cons_self).toFileName
      have some := (named name List.mem_cons_self).nonempty
      cases name with
      | nil => exact absurd rfl some
      | cons c name => exact (List.ne_of_not_mem_cons flat).symm

theorem children_of_directory (directory : Directory fs.dev x) : childrenOf fs x = entriesOf fs x :=
  if_pos directory

/-- What `blkfs_ifind` finds for names is what they lead to. -/
theorem find_path (tree : Tree fs) (enough : slotCount < fuel) (directory : Directory fs.dev x)
    (named : ∀ name ∈ names, ShortName name) :
    blkfsIfind stack rootParent fuel fs x (pathText names) oRdonly = some (fs, some (.inode i)) ↔
      walk (childrenOf fs) x names = some i := by
  induction names generalizing x with
  | nil =>
      rw [pathText, find_here, if_neg (fun both => absurd both.1 (by decide)), walk]
      simp
  | cons name rest hypothesis =>
      have sound := tree.sound
      have short := named name List.mem_cons_self
      have few := short.short
      have slots := sound.slots x directory
      have info : entriesOf fs x = blockEntries fs.dev (nodeAt fs.dev x).info := by
        rw [entriesOf, sound.table x directory.kept.1]
      have stop : (rest.flatMap fun next => slash :: next).headD slash = slash := by
        rw [path_tail]
        split <;> rfl
      rw [pathText, find_layer short.nonempty short.flat short.plain stop, if_neg (by omega),
        sound.start directory, walk_cons, children_of_directory directory, info]
      cases @searched fs.dev (nodeAt fs.dev x).info fuel name stack slots (tree.titles x directory)
        short.ended enough with
      | found m bound goes used kept same search =>
          have block := ((slots.filled m bound).resolve_left used).resolve_left kept
          obtain ⟨back, entries⟩ := found_entry bound goes used kept same
          obtain ⟨e, target⟩ : ∃ e, word fs.dev.mem (slotAt fs.dev (nodeAt fs.dev x).info m) = e :=
            ⟨_, rfl⟩
          have live : Kept fs.dev e := target ▸ block.target
          have first : name ∉ ((liveOf ((List.range m).map (slotAt fs.dev (nodeAt fs.dev x).info))).map
              fun c => (nameOf fs.dev c, word fs.dev.mem c)).map Prod.fst := by
            rw [List.map_map]
            exact (goes_names goes).2
          rw [entries, lookup_first first, search, Option.bind_some, Option.bind_some]
          dsimp only
          rw [read_block block.block, target, if_pos live.1, path_tail]
          cases rest with
          | nil =>
              rw [if_pos rfl, find_here, if_neg (fun both => absurd both.1 (by decide)), walk]
              simp
          | cons next rest =>
              have further := fun n member => named n (List.mem_cons_of_mem name member)
              have node : isDir fs e ↔ Directory fs.dev e := by
                rw [isDir, sound.table e live.1]
                exact ⟨fun type => ⟨live, type⟩, fun place => place.type⟩
              rw [if_neg (List.cons_ne_nil _ _), find_slash (path_head further)]
              by_cases place : Directory fs.dev e
              · rw [if_pos (node.mpr place)]
                exact hypothesis place further
              · rw [if_neg fun type => place (node.mp type), walk_cons, childrenOf, if_neg place]
                simp
      | missing absent search =>
          rw [lookup_none_iff.mpr absent]
          refine iff_of_false ?_ (Option.some_ne_none i).symm
          rcases search with ⟨m, search⟩ | search
          · rw [search, Option.bind_some]
            dsimp only
            rw [findLast, if_neg (fun both => absurd both.1 (by decide))]
            simp
          · rw [search, Option.bind_some]
            exact (Option.some_ne_none _).symm

end Finding

end OsWorkbench.Blkfs
