import OsWorkbench.Library.Runs
import Mathlib.Logic.Equiv.Basic
import Mathlib.Data.Fintype.Prod

/-!
# `logic.c` of amgame

The colours of a board are put in order by exchanging cells. What is drawn has no part in it. The
numbers that `rand` returns come as a list, which has to be long enough for `init`.
-/

namespace OsWorkbench.Amgame

open Library

section Source

/-- `GRID_NUM`. -/
abbrev gridNum : Nat := 8

/-- `SHUFFLE_TIMES`. -/
def shuffleTimes : Nat := 2

abbrev Cell := Fin gridNum × Fin gridNum

/-- The cell at two indices of an array, if they are inside. -/
def cellAt (x y : Int) : Option Cell :=
  if inside : 0 ≤ x ∧ x < gridNum ∧ 0 ≤ y ∧ y < gridNum then
    some (⟨x.toNat, by omega⟩, ⟨y.toNat, by omega⟩)
  else none

structure Pixel where
  b : UInt8
  g : UInt8
  r : UInt8
  alpha : UInt8
  deriving DecidableEq

/-- The pixel with the value `val`. -/
def Pixel.ofVal (val : Nat) : Pixel :=
  ⟨.ofNat val, .ofNat (val >>> 8), .ofNat (val >>> 16), .ofNat (val >>> 24)⟩

def gradientOf (a b : UInt8) (i : Nat) : UInt8 :=
  .ofInt ((((b.toNat : Int) - a.toNat) * i).tdiv gridNum + a.toNat)

/-- `gradient`, which leaves `alpha` 0. -/
def gradient (a b : Pixel) (i : Nat) : Pixel where
  b := gradientOf a.b b.b i
  g := gradientOf a.g b.g i
  r := gradientOf a.r b.r i
  alpha := 0

def rd : Pixel := .ofVal 0x00000000
def ld : Pixel := .ofVal 0x00ff0000
def ru : Pixel := .ofVal 0x0000ff00
def lu : Pixel := .ofVal 0x000000ff

def fillColor (cell : Cell) : Pixel :=
  gradient (gradient ld lu cell.1) (gradient rd ru cell.1) cell.2

def fillIdx (cell : Cell) : Nat := (cell.1.val <<< 3) + cell.2

def fixGrid (color : Cell → Pixel) (cell : Cell) : Cell → Pixel :=
  Function.update color cell { color cell with alpha := 1 }

/-- The colours before the shuffle: the corners are fixed. -/
def fixedColor : Cell → Pixel :=
  fixGrid (fixGrid (fixGrid (fixGrid fillColor (0, 0)) (7, 7)) (0, 7)) (7, 0)

/-- The exchange of two elements of an array, with a copy of the first one. -/
def exchange {α : Type} (grid : Cell → α) (a b : Cell) : Cell → α :=
  Function.update (Function.update grid a (grid b)) b (grid a)

/-- The cell `j/GRID_NUM`, `j%GRID_NUM`. -/
def cellOf (j : Nat) : Cell := (Fin.ofNat gridNum (j / gridNum), Fin.ofNat gridNum (j % gridNum))

/-- The loops that look for a cell which is not fixed. -/
def pick (color : Cell → Pixel) : List Nat → Option (Cell × List Nat)
  | [] => none
  | r :: rands =>
      let j := r % (gridNum * gridNum)
      if (color (cellOf j)).alpha = 1 then pick color rands else some (cellOf j, rands)

def shuffle : Nat → (Cell → Pixel) → (Cell → Nat) → List Nat →
    Option ((Cell → Pixel) × (Cell → Nat))
  | 0, color, idx, _ => some (color, idx)
  | times + 1, color, idx, rands =>
      (pick color rands).bind fun j =>
        (pick color j.2).bind fun k =>
          shuffle times (exchange color j.1 k.1) (exchange idx j.1 k.1) k.2

inductive Stat where
  | playing
  | pause
  | win
  deriving DecidableEq

structure Game where
  color : Cell → Pixel
  idx : Cell → Nat
  choosen : Int × Int
  choosenIdx : Int
  cursorX : Int
  cursorY : Int
  stat : Stat
  printFlag : Bool

def init (rands : List Nat) (s : Game) : Option Game :=
  (shuffle shuffleTimes fixedColor fillIdx rands).map fun grids =>
    { s with
      color := grids.1
      idx := grids.2
      choosenIdx := 0
      cursorX := 0
      cursorY := 0
      stat := .playing }

/-- `swap_pixel`. -/
def swapPixel (s : Game) : Option Game :=
  (cellAt s.choosen.1 s.choosen.2).bind fun a =>
    (cellAt s.cursorX s.cursorY).map fun b =>
      let idx := exchange s.idx a b
      { s with
        color := exchange s.color a b
        idx := idx
        stat := if ∀ i j, idx (i, j) = i.val * gridNum + j then .win else s.stat }

def keyR : BitVec 32 := 32
def keyH : BitVec 32 := 48
def keySpace : BitVec 32 := 70
def keyUp : BitVec 32 := 73
def keyDown : BitVec 32 := 74
def keyLeft : BitVec 32 := 75
def keyRight : BitVec 32 := 76

/-- The bit of a key that is pressed. -/
def keyDownMask : BitVec 32 := 0x8000

def ahead (cursor : Int) : Int :=
  if cursor + 1 ≥ gridNum then cursor + 1 - gridNum else cursor + 1

def back (cursor : Int) : Int := if cursor - 1 < 0 then cursor - 1 + gridNum else cursor - 1

/-- What the space key does at a cell. -/
def select (s : Game) (here : Cell) : Option Game :=
  if (s.color here).alpha = 1 then some s
  else if s.choosenIdx = 0 then some { s with choosenIdx := 1, choosen := (s.cursorX, s.cursorY) }
  else swapPixel { s with choosenIdx := 0 }

def operate (rands : List Nat) (key : BitVec 32) (s : Game) : Option Game :=
  if key &&& keyDownMask = 0 then some s
  else
    match s.stat with
    | .playing =>
        (cellAt s.cursorX s.cursorY).bind fun here =>
          let code := key ^^^ keyDownMask
          if code = keySpace then select s here
          else if code = keyRight then some { s with cursorX := ahead s.cursorX }
          else if code = keyLeft then some { s with cursorX := back s.cursorX }
          else if code = keyDown then some { s with cursorY := ahead s.cursorY }
          else if code = keyUp then some { s with cursorY := back s.cursorY }
          else if code = keyH then some { s with printFlag := !s.printFlag }
          else some s
    | .win => if key = keyR ||| keyDownMask then init rands s else some s
    | .pause => some s

end Source

section Arrangements

variable {color : Cell → Pixel} {idx : Cell → Nat} {order : Equiv.Perm Cell} {a b c : Cell}
  {rands : List Nat}

def corners : List Cell := [(0, 0), (7, 7), (0, 7), (7, 0)]

/-- The cells stand in some order that leaves the corners where they are. -/
structure Arranged (color : Cell → Pixel) (idx : Cell → Nat) (order : Equiv.Perm Cell) : Prop where
  idx : ∀ c, idx c = fillIdx (order c)
  color : ∀ c, color c = fixedColor (order c)
  home : ∀ c ∈ corners, order c = c

theorem exchange_swap {α : Type} (grid : Cell → α) (a b c : Cell) :
    exchange grid a b c = grid (Equiv.swap a b c) := by
  rw [exchange, Equiv.swap_apply_def, Function.update_apply, Function.update_apply]
  by_cases first : c = a
  · subst first
    rw [if_pos rfl, if_pos rfl]
    split
    next same => rw [same]
    next => rfl
  · rw [if_neg first, if_neg first]
    split
    next => rfl
    next => rfl

/-- The corners are what `alpha` is set for. -/
theorem fixed_alpha : (fixedColor c).alpha = 1 ↔ c ∈ corners := by
  revert c
  decide

theorem Arranged.fixed (arranged : Arranged color idx order) : (color c).alpha = 1 ↔ c ∈ corners := by
  rw [arranged.color, fixed_alpha]
  constructor
  · intro corner
    have same := arranged.home (order c) corner
    rwa [← order.injective same]
  · intro corner
    rwa [arranged.home c corner]

/-- Exchanging two cells that are not fixed. -/
theorem Arranged.exchanged (arranged : Arranged color idx order) (first : (color a).alpha ≠ 1)
    (second : (color b).alpha ≠ 1) :
    Arranged (exchange color a b) (exchange idx a b) ((Equiv.swap a b).trans order) := by
  constructor
  case idx => exact fun c => (exchange_swap idx a b c).trans (arranged.idx _)
  case color => exact fun c => (exchange_swap color a b c).trans (arranged.color _)
  case home =>
    intro c corner
    have fixed := arranged.fixed.mpr corner
    have other : c ≠ a := fun same => first (same ▸ fixed)
    have another : c ≠ b := fun same => second (same ▸ fixed)
    rw [Equiv.trans_apply, Equiv.swap_apply_of_ne_of_ne other another]
    exact arranged.home c corner

theorem arranged_first : Arranged fixedColor fillIdx (Equiv.refl Cell) :=
  ⟨fun _ => rfl, fun _ => rfl, fun _ _ => rfl⟩

theorem pick_free {found : Cell × List Nat} (picked : pick color rands = some found) :
    (color found.1).alpha ≠ 1 := by
  induction rands with
  | nil => exact nomatch picked
  | cons r rands hypothesis =>
      rw [pick] at picked
      split at picked
      next => exact hypothesis picked
      next free =>
        cases picked
        exact free

theorem shuffle_arranged {times : Nat} {grids : (Cell → Pixel) × (Cell → Nat)}
    (arranged : Arranged color idx order) (shuffled : shuffle times color idx rands = some grids) :
    ∃ order, Arranged grids.1 grids.2 order := by
  induction times generalizing color idx order rands with
  | zero =>
      cases shuffled
      exact ⟨order, arranged⟩
  | succ times hypothesis =>
      obtain ⟨j, first, shuffled⟩ := Option.bind_eq_some_iff.mp shuffled
      obtain ⟨k, second, shuffled⟩ := Option.bind_eq_some_iff.mp shuffled
      exact hypothesis (arranged.exchanged (pick_free first) (pick_free second)) shuffled

/-- The numbers that a loop of the shuffle can end with. -/
def freeDraws (rands : List Nat) : List Nat :=
  rands.filter fun r => decide (cellOf (r % (gridNum * gridNum)) ∉ corners)

theorem pick_ends (arranged : Arranged color idx order) {left : Nat}
    (enough : left < (freeDraws rands).length) :
    ∃ found, pick color rands = some found ∧ left ≤ (freeDraws found.2).length := by
  induction rands with
  | nil => exact absurd enough (Nat.not_lt_zero left)
  | cons r rands hypothesis =>
      rw [pick]
      by_cases corner : cellOf (r % (gridNum * gridNum)) ∈ corners
      · rw [if_pos (arranged.fixed.mpr corner)]
        rw [freeDraws, List.filter_cons_of_neg (by simpa using corner)] at enough
        exact hypothesis enough
      · rw [if_neg fun fixed => corner (arranged.fixed.mp fixed)]
        rw [freeDraws, List.filter_cons_of_pos (by simpa using corner)] at enough
        exact ⟨_, rfl, Nat.le_of_lt_succ enough⟩

/-- A shuffle ends if enough numbers are not those of corners. -/
theorem shuffle_ends {times : Nat} (arranged : Arranged color idx order)
    (enough : 2 * times ≤ (freeDraws rands).length) :
    ∃ grids, shuffle times color idx rands = some grids := by
  induction times generalizing color idx order rands with
  | zero => exact ⟨_, rfl⟩
  | succ times hypothesis =>
      obtain ⟨j, first, more⟩ := @pick_ends _ _ _ rands arranged (2 * times + 1) (by omega)
      obtain ⟨k, second, left⟩ := @pick_ends _ _ _ j.2 arranged (2 * times) (by omega)
      obtain ⟨grids, shuffled⟩ :=
        hypothesis (arranged.exchanged (pick_free first) (pick_free second)) left
      refine ⟨grids, ?_⟩
      rw [shuffle, first, Option.bind_some, second, Option.bind_some, shuffled]

end Arrangements

section Playing

variable {s next : Game} {rands : List Nat} {key : BitVec 32} {x y : Int} {here : Cell}

/-- An index that is inside of the board. -/
def OnBoard (cursor : Int) : Prop := 0 ≤ cursor ∧ cursor < gridNum

/-- The colours belong to the numbers, which are those of the cells in some order, the corners have
their own, and the cursor is on the board. -/
structure Consistent (s : Game) : Prop where
  arranged : ∃ order, Arranged s.color s.idx order
  column : OnBoard s.cursorX
  row : OnBoard s.cursorY

/-- The key completes a swap. -/
structure Completes (key : BitVec 32) (s : Game) : Prop where
  playing : s.stat = .playing
  pressed : key &&& keyDownMask ≠ 0
  space : key ^^^ keyDownMask = keySpace
  free : ∃ here, cellAt s.cursorX s.cursorY = some here ∧ (s.color here).alpha ≠ 1
  chosen : s.choosenIdx ≠ 0

/-- What holds between keys: a cell that was chosen is on the board and not fixed. -/
structure Kept (s : Game) : Prop extends Consistent s where
  chosen : s.choosenIdx ≠ 0 →
    ∃ cell, cellAt s.choosen.1 s.choosen.2 = some cell ∧ (s.color cell).alpha ≠ 1
  stat : s.stat ≠ .pause

theorem cell_inside (column : OnBoard x) (row : OnBoard y) : ∃ cell, cellAt x y = some cell := by
  rw [cellAt, dif_pos ⟨column.1, column.2, row.1, row.2⟩]
  exact ⟨_, rfl⟩

theorem ahead_inside (inside : OnBoard x) : OnBoard (ahead x) := by
  unfold OnBoard ahead gridNum at *
  split <;> omega

theorem back_inside (inside : OnBoard x) : OnBoard (back x) := by
  unfold OnBoard back gridNum at *
  split <;> omega

theorem init_kept (started : init rands s = some next) : Kept next ∧ next.stat = .playing := by
  obtain ⟨grids, shuffled, rfl⟩ := Option.map_eq_some_iff.mp started
  refine ⟨⟨⟨shuffle_arranged arranged_first shuffled, ?_, ?_⟩, ?_, ?_⟩, rfl⟩
  · exact ⟨Int.le_refl 0, show (0 : Int) < gridNum by decide⟩
  · exact ⟨Int.le_refl 0, show (0 : Int) < gridNum by decide⟩
  · exact fun chosen => absurd rfl chosen
  · exact fun pause => nomatch pause

theorem in_order {idx : Cell → Nat} :
    (∀ i j, idx (i, j) = i.val * gridNum + j) ↔ ∀ c, idx c = fillIdx c := by
  constructor
  · intro same c
    rw [fillIdx, Nat.shiftLeft_eq]
    exact same c.1 c.2
  · intro same i j
    rw [same, fillIdx, Nat.shiftLeft_eq]

theorem swap_pixel_does {a b : Cell} (first : cellAt s.choosen.1 s.choosen.2 = some a)
    (second : cellAt s.cursorX s.cursorY = some b) :
    swapPixel s = some { s with
      color := exchange s.color a b
      idx := exchange s.idx a b
      stat := if ∀ i j, exchange s.idx a b (i, j) = i.val * gridNum + j then .win else s.stat } := by
  rw [swapPixel, first, Option.bind_some, second, Option.map_some]

/-- A swap keeps what holds, and wins exactly with the cells in order. -/
theorem swap_kept (kept : Kept s) (chosen : s.choosenIdx ≠ 0)
    (cursor : cellAt s.cursorX s.cursorY = some here) (free : (s.color here).alpha ≠ 1)
    (playing : s.stat = .playing) : ∃ next, swapPixel { s with choosenIdx := 0 } = some next ∧ Kept next ∧
      (next.stat = .win ↔ ∀ c, next.idx c = fillIdx c) := by
  obtain ⟨cell, place, unfixed⟩ := kept.chosen chosen
  obtain ⟨order, arranged⟩ := kept.arranged
  refine ⟨_, @swap_pixel_does { s with choosenIdx := 0 } cell here place cursor,
    ⟨⟨⟨_, arranged.exchanged unfixed free⟩, kept.column, kept.row⟩, ?_, ?_⟩, ?_⟩
  · exact fun again => absurd rfl again
  · dsimp only
    split
    · exact fun pause => nomatch pause
    · exact kept.stat
  · dsimp only
    rw [← in_order]
    split
    next ordered => exact iff_of_true rfl ordered
    next other => exact iff_of_false (fun win => nomatch playing.symm.trans win) other

/-- At most the cursor and what is printed change, and the cursor stays on the board. -/
structure Moves (s next : Game) : Prop where
  color : next.color = s.color
  idx : next.idx = s.idx
  choosen : next.choosen = s.choosen
  choosenIdx : next.choosenIdx = s.choosenIdx
  stat : next.stat = s.stat
  column : OnBoard next.cursorX
  row : OnBoard next.cursorY

theorem cursor_moves (column : OnBoard x) (row : OnBoard y) :
    Moves s { s with cursorX := x, cursorY := y } :=
  ⟨rfl, rfl, rfl, rfl, rfl, column, row⟩

theorem Kept.moved (kept : Kept s) (moves : Moves s next) : Kept next := by
  refine ⟨⟨?_, moves.column, moves.row⟩, ?_, ?_⟩
  · rw [moves.color, moves.idx]
    exact kept.arranged
  · rw [moves.choosen, moves.choosenIdx, moves.color]
    exact kept.chosen
  · rw [moves.stat]
    exact kept.stat

/-- A cell is chosen. -/
theorem Kept.choose (kept : Kept s) (cursor : cellAt s.cursorX s.cursorY = some here)
    (free : (s.color here).alpha ≠ 1) :
    Kept { s with choosenIdx := 1, choosen := (s.cursorX, s.cursorY) } :=
  ⟨⟨kept.arranged, kept.column, kept.row⟩, fun _ => ⟨here, cursor, free⟩, kept.stat⟩

/-- What a key does. -/
inductive Operated (rands : List Nat) (key : BitVec 32) (s next : Game) : Prop
  | moves (moves : Moves s next) (other : ¬Completes key s)
  | chooses (here : Cell) (cursor : cellAt s.cursorX s.cursorY = some here)
      (free : (s.color here).alpha ≠ 1) (other : ¬Completes key s)
      (same : next = { s with choosenIdx := 1, choosen := (s.cursorX, s.cursorY) })
  | swaps (completes : Completes key s) (swapped : swapPixel { s with choosenIdx := 0 } = some next)
  | restarts (won : s.stat = .win) (started : init rands s = some next)

theorem operate_does (kept : Kept s) (operated : operate rands key s = some next) :
    Operated rands key s next := by
  have stays : Moves s s := cursor_moves kept.column kept.row
  rw [operate] at operated
  split at operated
  next idle =>
    cases operated
    exact .moves stays fun completes => completes.pressed idle
  next pressed =>
  split at operated
  next playing =>
    obtain ⟨here, cursor, operated⟩ := Option.bind_eq_some_iff.mp operated
    dsimp only at operated
    split at operated
    next space =>
      rw [select] at operated
      split at operated
      next fixed =>
        cases operated
        refine .moves stays fun completes => ?_
        obtain ⟨cell, place, free⟩ := completes.free
        cases place.symm.trans cursor
        exact free fixed
      next free =>
      split at operated
      next none =>
        cases operated
        exact .chooses here cursor free (fun completes => completes.chosen none) rfl
      next chosen =>
        exact .swaps ⟨playing, pressed, space, ⟨here, cursor, free⟩, chosen⟩ operated
    next other =>
    have plain : ¬Completes key s := fun completes => other completes.space
    split at operated
    · cases operated
      exact .moves (cursor_moves (ahead_inside kept.column) kept.row) plain
    split at operated
    · cases operated
      exact .moves (cursor_moves (back_inside kept.column) kept.row) plain
    split at operated
    · cases operated
      exact .moves (cursor_moves kept.column (ahead_inside kept.row)) plain
    split at operated
    · cases operated
      exact .moves (cursor_moves kept.column (back_inside kept.row)) plain
    split at operated
    · cases operated
      exact .moves ⟨rfl, rfl, rfl, rfl, rfl, kept.column, kept.row⟩ plain
    · cases operated
      exact .moves stays plain
  next won =>
    split at operated
    · exact .restarts won operated
    · cases operated
      exact .moves stays fun completes => nomatch won.symm.trans completes.playing
  next pause => exact absurd pause kept.stat

theorem operate_kept (kept : Kept s) (operated : operate rands key s = some next) : Kept next := by
  cases operate_does kept operated with
  | moves moves other => exact kept.moved moves
  | chooses here cursor free other same => exact same ▸ kept.choose cursor free
  | swaps completes swapped =>
      obtain ⟨here, cursor, free⟩ := completes.free
      obtain ⟨state, did, after, -⟩ := swap_kept kept completes.chosen cursor free completes.playing
      cases did.symm.trans swapped
      exact after
  | restarts won started => exact (init_kept started).1

/-- The game is won exactly by a swap that puts the cells in order. -/
theorem operate_wins (kept : Kept s) (operated : operate rands key s = some next)
    (going : s.stat ≠ .win) :
    next.stat = .win ↔ Completes key s ∧ ∀ c, next.idx c = fillIdx c := by
  cases operate_does kept operated with
  | moves moves other =>
      rw [moves.stat]
      exact iff_of_false going fun both => other both.1
  | chooses here cursor free other same =>
      subst same
      exact iff_of_false going fun both => other both.1
  | swaps completes swapped =>
      obtain ⟨here, cursor, free⟩ := completes.free
      obtain ⟨state, did, -, wins⟩ := swap_kept kept completes.chosen cursor free completes.playing
      cases did.symm.trans swapped
      rw [wins, and_iff_right completes]
  | restarts won started => exact absurd won going

theorem ends_either {α : Type} {condition : Prop} [Decidable condition] {first second : Option α}
    (whether : ∃ result, first = some result) (otherwise : ∃ result, second = some result) :
    ∃ result, (if condition then first else second) = some result := by
  split
  · exact whether
  · exact otherwise

theorem select_ends (kept : Kept s) (cursor : cellAt s.cursorX s.cursorY = some here)
    (playing : s.stat = .playing) : ∃ next, select s here = some next := by
  rw [select]
  split
  · exact ⟨_, rfl⟩
  next free =>
    split
    · exact ⟨_, rfl⟩
    next chosen =>
      obtain ⟨next, swapped, -⟩ := swap_kept kept chosen cursor free playing
      exact ⟨next, swapped⟩

/-- A key always ends, with the board left alone outside of its bounds. -/
theorem operate_ends (kept : Kept s) (enough : 2 * shuffleTimes ≤ (freeDraws rands).length) :
    ∃ next, operate rands key s = some next := by
  obtain ⟨here, cursor⟩ := cell_inside kept.column kept.row
  rw [operate]
  refine ends_either ⟨_, rfl⟩ ?_
  split
  next playing =>
    rw [cursor, Option.bind_some]
    refine ends_either (select_ends kept cursor playing) ?_
    refine ends_either ⟨_, rfl⟩ (ends_either ⟨_, rfl⟩ ?_)
    refine ends_either ⟨_, rfl⟩ (ends_either ⟨_, rfl⟩ ?_)
    exact ends_either ⟨_, rfl⟩ ⟨_, rfl⟩
  next =>
    refine ends_either ?_ ⟨_, rfl⟩
    obtain ⟨grids, shuffled⟩ := shuffle_ends arranged_first enough
    rw [init, shuffled]
    exact ⟨_, rfl⟩
  next => exact ⟨_, rfl⟩

/-- A key, and the numbers that `rand` would return. -/
def gameStep (label : List Nat × BitVec 32) : Game → Option Game := operate label.1 label.2

end Playing

/-- In every state that keys lead to after `init` the board is consistent, a key ends if the shuffle
does, and it wins the game exactly if it completes a swap that puts the cells in order. -/
theorem puzzle_consistent (before first s : Game) (rands : List Nat)
    (labels : List (List Nat × BitVec 32)) (started : init rands before = some first)
    (ran : runSteps gameStep labels first = some s) :
    Consistent s ∧
      (∀ rands key, 2 * shuffleTimes ≤ (freeDraws rands).length →
        ∃ next, operate rands key s = some next) ∧
      ∀ rands key next, operate rands key s = some next → s.stat ≠ .win →
        (next.stat = .win ↔ Completes key s ∧ ∀ c, next.idx c = fillIdx c) := by
  have kept : Kept s :=
    @run_preserves _ _ gameStep Kept (fun _ _ _ kept stepped => operate_kept kept stepped) labels first
      s (init_kept started).1 ran
  exact ⟨kept.toConsistent, fun rands key enough => operate_ends kept enough,
    fun rands key next operated going => operate_wins kept operated going⟩

/-- The globals before `init`. -/
def noGame : Game := ⟨fun _ => .ofVal 0, fun _ => 0, (0, 0), 0, 0, 0, .playing, true⟩

def pressed (key : BitVec 32) : List Nat × BitVec 32 := ([], key ||| keyDownMask)

/-- The two exchanges of this game are undone by a first swap and by the one that the last key
completes. -/
theorem puzzle_consistent_won : ∃ first s next, init [1, 2, 3, 4] noGame = some first ∧
    runSteps gameStep [pressed keyDown, pressed keySpace, pressed keyDown, pressed keySpace,
      pressed keyDown, pressed keySpace, pressed keyDown] first = some s ∧
    operate [] (keySpace ||| keyDownMask) s = some next ∧ next.stat = .win ∧ Consistent s ∧
    Completes (keySpace ||| keyDownMask) s ∧ ∀ c, next.idx c = fillIdx c := by
  obtain ⟨won, both, ended⟩ : ∃ won, ((init [1, 2, 3, 4] noGame).bind fun first =>
      (runSteps gameStep [pressed keyDown, pressed keySpace, pressed keyDown, pressed keySpace,
        pressed keyDown, pressed keySpace, pressed keyDown] first).bind fun s =>
        (operate [] (keySpace ||| keyDownMask) s).map fun next => (s.stat, next.stat)) = some won ∧
      won = (.playing, .win) :=
    ⟨(.playing, .win), by decide +kernel, rfl⟩
  obtain ⟨first, started, rest⟩ := Option.bind_eq_some_iff.mp both
  obtain ⟨s, ran, last⟩ := Option.bind_eq_some_iff.mp rest
  obtain ⟨next, operated, stats⟩ := Option.map_eq_some_iff.mp last
  have playing : s.stat = .playing := congrArg Prod.fst (stats.trans ended)
  have wins : next.stat = .win := congrArg Prod.snd (stats.trans ended)
  have going : s.stat ≠ .win := by
    rw [playing]
    decide
  have facts := puzzle_consistent noGame first s [1, 2, 3, 4] _ started ran
  have done := (facts.2.2 [] _ next operated going).mp wins
  exact ⟨first, s, next, started, ran, operated, wins, facts.1, done.1, done.2⟩

end OsWorkbench.Amgame
