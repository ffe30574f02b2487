import Mathlib.Data.List.TakeWhile
import OsWorkbench.Kernel.Dir
import OsWorkbench.Klib.Numerals

/-!
# `procfs.c`: finding a file

A number in front of a path is scanned into three bytes and converted by the `atoi` of klib, words are
compared by as many characters as they have, and what is behind a number or a word goes to the next
`find` as it is. A path is its characters before the NUL.
-/

namespace OsWorkbench.Kernel

open Klib

/-- An inode of procfs, by its place in `inodes`, or one that the parent of the file system finds. -/
inductive ProcInode
  | root
  | node (index : Nat)
  | outside (path : List UInt8)
  deriving DecidableEq

/-- How a `find` ends: with an inode, with `NULL`, with a read outside `tasks`, or in another `find`. -/
inductive Lookup
  | found (inode : ProcInode)
  | missing
  | beyond
  | next (inode : ProcInode) (path : List UInt8)
  | parent (path : List UInt8)

def otherInfo : List (List UInt8) :=
  [[0x64, 0x65, 0x76, 0x69, 0x63, 0x65, 0x73], [0x6d, 0x65, 0x6d, 0x69, 0x6e, 0x66, 0x6f],
    [0x75, 0x70, 0x74, 0x69, 0x6d, 0x65]]

def pwdInfo : List UInt8 := [0x70, 0x77, 0x64]
def nameInfo : List UInt8 := [0x6e, 0x61, 0x6d, 0x65]

section Atoi

def atoi8 (nptr : List UInt8) : Int := nptr.foldl (fun ret c => ret * 8 + (c.toNat - 0x30)) 0

def atoi10 (nptr : List UInt8) : Int := nptr.foldl (fun ret c => ret * 10 + (c.toNat - 0x30)) 0

def atoi16 (nptr : List UInt8) : Int :=
  nptr.foldl (fun ret c =>
    if isdigit c then ret * 16 + (c.toNat - 0x30)
    else if 0x61 ≤ c ∧ c ≤ 0x7a then ret * 16 + (c.toNat - 0x61 + 10)
    else if 0x41 ≤ c ∧ c ≤ 0x5a then ret * 16 + (c.toNat - 0x41 + 10)
    else ret * 16) 0

def atoi (nptr : List UInt8) : Int :=
  if nptr.headD 0 = 0x30 then
    if nptr.tail.headD 0 = 0x78 then atoi16 (nptr.drop 2) else atoi8 nptr.tail
  else if nptr.headD 0 = 0x2d then -atoi10 nptr.tail
  else if nptr.headD 0 = 0x2b then atoi10 nptr.tail
  else atoi10 nptr

end Atoi

section Source

variable (tasks : Nat → Bool) (outside : List UInt8 → Bool) (directory : Bool)

/-- The loop that fills `num`: its characters, and the path behind them. -/
def scanNumber : Nat → List UInt8 → List UInt8 × List UInt8
  | 0, path => ([], path)
  | _, [] => ([], [])
  | i + 1, c :: path =>
      if isdigit c then
        let scanned := scanNumber i path
        (c :: scanned.1, scanned.2)
      else ([], c :: path)

/-- The first of some texts that a path begins with. -/
def firstMatch (path : List UInt8) (texts : List (List UInt8)) : Option Nat :=
  texts.findIdx? fun text => strncmp path text text.length = 0

/-- The dots behind a word or in its place. -/
def rootDots (next : Option ProcInode) (path : List UInt8) : Lookup :=
  if path.headD 0 = dot then
    if path.tail.headD 0 = dot then .parent (path.drop 2) else .next .root (path.drop 1)
  else
    match next with
    | none => .missing
    | some inode => .next inode path

def procfsRootifind (path : List UInt8) : Lookup :=
  let path := path.dropWhile (· = slash)
  if path = [] then .found .root
  else
    let scanned := scanNumber 3 path
    if scanned.1.length = 0 then
      match firstMatch path otherInfo with
      | none => rootDots none path
      | some i => rootDots (some (.node (0x40 * 3 + i))) (path.drop (otherInfo.getD i []).length)
    else if scanned.1.length < 3 then
      let id := atoi scanned.1
      if 0 ≤ id ∧ id < 0x40 then
        if tasks id.toNat then .next (.node (id.toNat * 3)) scanned.2 else .missing
      else .beyond
    else .missing

def procfsTaskifind (cur : Nat) (path : List UInt8) : Lookup :=
  let path := path.dropWhile (· = slash)
  if path = [] then .found (.node cur)
  else if path.headD 0 = dot then
    if path.tail.headD 0 = dot then .next .root (path.drop 2) else .next (.node cur) (path.drop 1)
  else if strncmp path nameInfo nameInfo.length = 0 then
    .next (.node (cur + 2)) (path.drop nameInfo.length)
  else if strncmp path pwdInfo pwdInfo.length = 0 then
    .next (.node (cur + 1)) (path.drop pwdInfo.length)
  else .missing

def procfsIfind (cur : ProcInode) (path : List UInt8) : Lookup :=
  if path.headD 0 = slash then .missing
  else if path = [] then if directory then .missing else .found cur
  else .missing

/-- `inode->ops->find`. -/
def lookup : ProcInode → List UInt8 → Lookup
  | .root, path => procfsRootifind tasks path
  | .node index, path =>
      if index < 0x40 * 3 ∧ index % 3 = 0 then procfsTaskifind index path
      else procfsIfind directory (.node index) path
  | .outside base, path => .parent (base ++ path)

end Source

section Grammar

/-- What may follow the slashes behind a number. -/
def taskFiles : List (List UInt8) := [[], pwdInfo, nameInfo]

/-- A path without its leading slashes. -/
def relative (path : List UInt8) : List UInt8 := path.dropWhile (· = slash)

/-- The paths of procfs: the root, a live task with or without one of its files, or a word. -/
def Names (tasks : Nat → Bool) (path : List UInt8) : Prop :=
  relative path = [] ∨ relative path ∈ otherInfo ∨
    ∃ n < 0x40, tasks n ∧ ∃ rest, relative path = decimal n ++ rest ∧
      (rest = [] ∨ rest.head? = some slash ∧ relative rest ∈ taskFiles)

/-- One or two digits in front of a path, and what follows them. -/
structure Numbered (path : List UInt8) (digits : List Nat) (rest : List UInt8) : Prop where
  split : relative path = digits.map digitChar ++ rest
  count : digits.length = 1 ∨ digits.length = 2
  small : ∀ digit ∈ digits, digit < 10
  ends : ¬isdigit (rest.headD 0)

/-- The two directories of procfs: its root and that of a task. -/
inductive Level
  | top
  | task

/-- What may stand in front of a dot that is taken for a directory: nothing, or in the root a word. -/
def Level.fronts : Level → List (List UInt8)
  | .top => [] :: otherInfo
  | .task => [[]]

variable {tasks : Nat → Bool} {path rest : List UInt8} {digits : List Nat}

theorem strncmp_start {word : List UInt8} (some : word ≠ []) (live : 0 ∉ word) (path : List UInt8) :
    strncmp path word word.length = 0 ↔ word <+: path := by
  induction word generalizing path with
  | nil => exact absurd rfl some
  | cons a word hypothesis =>
      have nul : a ≠ 0 := fun same => live (same ▸ List.mem_cons_self)
      have heads (c : UInt8) : ((c.toNat : Int) - a.toNat = 0) ↔ c = a := by
        rw [Int.sub_eq_zero, Int.ofNat_inj, UInt8.toNat_inj]
      cases word with
      | nil =>
          change ((path.headD 0).toNat : Int) - a.toNat = 0 ↔ _
          rw [heads]
          cases path with
          | nil => exact iff_of_false (fun same => nul same.symm) fun start =>
              absurd (List.prefix_nil.mp start) (List.cons_ne_nil a [])
          | cons c path =>
              rw [List.cons_prefix_cons]
              exact ⟨fun same => ⟨same.symm, List.nil_prefix⟩, fun both => both.1.symm⟩
      | cons b word =>
          change (if path.headD 0 = a ∧ path.headD 0 ≠ 0 then
            strncmp path.tail (b :: word) (b :: word).length
            else ((path.headD 0).toNat : Int) - a.toNat) = 0 ↔ _
          by_cases same : path.headD 0 = a
          · rw [if_pos ⟨same, same ▸ nul⟩, hypothesis (List.cons_ne_nil b word)
              (fun member => live (List.mem_cons_of_mem a member))]
            cases path with
            | nil => exact absurd same.symm nul
            | cons c path =>
                rw [List.cons_prefix_cons]
                exact ⟨fun start => ⟨same.symm, start⟩, And.right⟩
          · rw [if_neg fun both => same both.1, heads]
            refine iff_of_false same fun start => same ?_
            obtain ⟨more, rfl⟩ := start
            rfl

/-- A number is scanned with up to three digits. -/
theorem scan_digits {count : Nat} (small : ∀ digit ∈ digits, digit < 10)
    (ends : digits.length < count → ¬isdigit (rest.headD 0)) (short : digits.length ≤ count) :
    scanNumber count (digits.map digitChar ++ rest) = (digits.map digitChar, rest) := by
  induction digits generalizing count with
  | nil =>
      cases count with
      | zero => rfl
      | succ count =>
          cases rest with
          | nil => rfl
          | cons c rest =>
              have other : ¬isdigit c := ends (Nat.succ_pos count)
              rw [List.map_nil, List.nil_append, scanNumber, if_neg other]
  | cons digit digits hypothesis =>
      cases count with
      | zero => exact absurd short (Nat.not_succ_le_zero _)
      | succ count =>
          have here := digit_char_is (small digit List.mem_cons_self)
          rw [List.map_cons, List.cons_append, scanNumber, if_pos here]
          dsimp only
          rw [hypothesis (fun other member => small other (List.mem_cons_of_mem digit member))
            (fun less => ends (Nat.succ_lt_succ less)) (Nat.le_of_succ_le_succ short)]

theorem digits_unique {others : List Nat} {behind : List UInt8} (small : ∀ digit ∈ digits, digit < 10)
    (less : ∀ digit ∈ others, digit < 10) (ends : ¬isdigit (rest.headD 0))
    (stops : ¬isdigit (behind.headD 0))
    (same : digits.map digitChar ++ rest = others.map digitChar ++ behind) :
    digits = others ∧ rest = behind := by
  induction digits generalizing others with
  | nil =>
      cases others with
      | nil => exact ⟨rfl, same⟩
      | cons other others =>
          rw [List.map_nil, List.nil_append] at same
          rw [same] at ends
          exact absurd (digit_char_is (less other List.mem_cons_self)) ends
  | cons digit digits hypothesis =>
      have first := small digit List.mem_cons_self
      cases others with
      | nil =>
          rw [List.map_nil, List.nil_append] at same
          rw [← same] at stops
          exact absurd (digit_char_is first) stops
      | cons other others =>
          obtain ⟨head, tail⟩ := List.cons.inj same
          have codes := congrArg UInt8.toNat head
          rw [digit_char_code first, digit_char_code (less other List.mem_cons_self)] at codes
          obtain ⟨rfl, rfl⟩ := hypothesis
            (fun digit member => small digit (List.mem_cons_of_mem _ member))
            (fun digit member => less digit (List.mem_cons_of_mem _ member)) tail
          exact ⟨by rw [Nat.add_right_cancel codes], rfl⟩

theorem Numbered.unique {others : List Nat} {behind : List UInt8} (one : Numbered path digits rest)
    (two : Numbered path others behind) : digits = others ∧ rest = behind :=
  digits_unique one.small two.small one.ends two.ends (one.split.symm.trans two.split)

theorem Numbered.digit (numbered : Numbered path digits rest) : isdigit ((relative path).headD 0) := by
  rw [numbered.split]
  cases digits with
  | nil => exact absurd numbered.count (by decide)
  | cons digit digits => exact digit_char_is (numbered.small digit List.mem_cons_self)

theorem two_digits (count : digits.length = 1 ∨ digits.length = 2) (small : ∀ digit ∈ digits, digit < 10)
    {p : List Nat → Prop} (one : ∀ a < 10, p [a]) (two : ∀ a < 10, ∀ b < 10, p [a, b]) : p digits := by
  match digits, count with
  | [a], _ => exact one a (small a List.mem_cons_self)
  | [a, b], _ =>
      exact two a (small a List.mem_cons_self) b (small b (List.mem_cons_of_mem a List.mem_cons_self))

theorem atoi_digits (count : digits.length = 1 ∨ digits.length = 2)
    (small : ∀ digit ∈ digits, digit < 10) : atoi (digits.map digitChar) = value digits 0 := by
  apply two_digits count small
  · decide
  · decide +kernel

/-- Numerals of one or two digits have no zero in front. -/
theorem decimal_digits (count : digits.length = 1 ∨ digits.length = 2)
    (small : ∀ digit ∈ digits, digit < 10) : digits.map digitChar = decimal (value digits 0) ↔
      ¬(digits.length = 2 ∧ digits.head? = some 0) := by
  apply two_digits count small
  · decide +kernel
  · decide +kernel

theorem index_numeral {n : Nat} (index : n < 0x40) : ∃ digits : List Nat,
    decimal n = digits.map digitChar ∧ value digits 0 = n ∧ (digits.length = 1 ∨ digits.length = 2) ∧
      ∀ digit ∈ digits, digit < 10 := by
  have every : ∀ n < 0x40, (fun digits : List Nat =>
      decimal n = digits.map digitChar ∧ value digits 0 = n ∧ (digits.length = 1 ∨ digits.length = 2) ∧
        ∀ digit ∈ digits, digit < 10) (if n < 10 then [n] else [n / 10, n % 10]) := by
    decide +kernel
  exact ⟨_, every n index⟩

theorem word_no_digit {word : List UInt8} (member : word ∈ otherInfo) : ¬isdigit (word.headD 0) := by
  revert word
  decide

/-- What a path with a number in front of it is to be. -/
theorem Numbered.names (numbered : Numbered path digits rest) : Names tasks path ↔
    value digits 0 < 0x40 ∧ tasks (value digits 0) ∧ ¬(digits.length = 2 ∧ digits.head? = some 0) ∧
      (rest = [] ∨ rest.head? = some slash ∧ relative rest ∈ taskFiles) := by
  have first := numbered.digit
  constructor
  · rintro (empty | word | ⟨n, index, live, behind, split, valid⟩)
    · rw [empty] at first
      exact absurd first (by decide)
    · exact absurd first (word_no_digit word)
    · obtain ⟨others, numeral, same, count, small⟩ := index_numeral index
      have stops : ¬isdigit (behind.headD 0) := by
        rcases valid with rfl | ⟨slashed, -⟩
        · decide
        · rw [List.headD_eq_head?_getD, slashed]
          decide
      rw [numeral] at split
      obtain ⟨rfl, rfl⟩ := numbered.unique ⟨split, count, small, stops⟩
      rw [same]
      refine ⟨index, live, (decimal_digits count small).mp ?_, valid⟩
      rw [same, numeral]
  · rintro ⟨index, live, proper, valid⟩
    refine Or.inr (Or.inr ⟨_, index, live, rest, ?_, valid⟩)
    rw [numbered.split, (decimal_digits numbered.count numbered.small).mpr proper]

/-- What `find` accepts behind a number, with or without the slash. -/
theorem drop_slashes (path : List UInt8) :
    path.dropWhile (fun c => decide (c = slash)) = relative path := rfl

end Grammar

section Finding

variable {tasks : Nat → Bool} {outside : List UInt8 → Bool} {path rest : List UInt8} {digits : List Nat}
  {fuel : Nat}

theorem relative_length (path : List UInt8) : (relative path).length ≤ path.length :=
  (List.dropWhile_suffix _).length_le

theorem Numbered.shorter (numbered : Numbered path digits rest) : rest.length < path.length := by
  have length := relative_length path
  have count := numbered.count
  rw [numbered.split, List.length_append, List.length_map] at length
  omega

theorem no_dot_head (plain : dot ∉ path) : path.headD 0 ≠ dot := by
  cases path with
  | nil => decide
  | cons c rest => exact fun here => plain (here ▸ List.mem_cons_self)

/-- The root takes one or two digits for a number. -/
theorem Numbered.root (numbered : Numbered path digits rest) : procfsRootifind tasks path =
    if value digits 0 < 0x40 then
      if tasks (value digits 0) then .next (.node (value digits 0 * 3)) rest else .missing
    else .beyond := by
  have count := numbered.count
  have scanned := @scan_digits rest digits 3 numbered.small (fun _ => numbered.ends) (by omega)
  have length : (digits.map digitChar).length = digits.length := List.length_map ..
  have some : digits.map digitChar ++ rest ≠ [] := by
    refine List.ne_nil_of_length_pos ?_
    rw [List.length_append, length]
    omega
  rw [procfsRootifind, drop_slashes, numbered.split, if_neg some, scanned]
  dsimp only
  rw [length, if_neg (by omega), if_pos (by omega), atoi_digits count numbered.small, Int.toNat_natCast]
  by_cases index : value digits 0 < 0x40
  · rw [if_pos index, if_pos ⟨Int.natCast_nonneg _, by omega⟩]
  · rw [if_neg index, if_neg fun both => index (by omega)]

section Dots

end Dots

end Finding

section Naming

variable {tasks : Nat → Bool} {outside : List UInt8 → Bool} {path rest : List UInt8} {digits : List Nat}

end Naming

end OsWorkbench.Kernel
