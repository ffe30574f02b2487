import OsWorkbench.Amgame.Puzzle
import Mathlib.Data.Finset.Card
import Mathlib.Data.List.FinRange
import Mathlib.Data.List.ProdSigma

/-!
# `print_instr` of amgame

The hints lead a player to the end of the game: who takes a cell that is not in its place, goes where
the arrows point and lets go at the tick, wins.
-/

namespace OsWorkbench.Amgame

open Library

section Source

inductive Direc where
  | left
  | right
  | up
  | down
  deriving DecidableEq

/-- What `print_instr` draws, and where. -/
inductive Instr where
  | cursor
  | arrow (x y : Int) (color : UInt32) (direc : Direc)
  | tick (x y : Int)
  deriving DecidableEq

/-- The union's other view. -/
def Pixel.val (p : Pixel) : UInt32 :=
  p.b.toUInt32 ||| p.g.toUInt32 <<< 8 ||| p.r.toUInt32 <<< 16 ||| p.alpha.toUInt32 <<< 24

/-- The conversion to `int8_t`. -/
def int8 (n : Int) : Int := n.bmod 256

def direcOf (deltaX deltaY : Int) : Direc :=
  if deltaX > 0 then .right
  else if deltaX < 0 then .left
  else if deltaY > 0 then .down
  else if deltaY < 0 then .up
  else .left

/-- `print_instr`. -/
def printInstr (s : Game) : Option Instr :=
  if s.printFlag then some .cursor
  else
    let help := if s.choosenIdx = 1 then s.choosen else (s.cursorX, s.cursorY)
    (cellAt help.1 help.2).map fun cell =>
      let deltaX := int8 ((s.idx cell >>> 3 : Nat) - s.cursorX)
      let deltaY := int8 ((s.idx cell &&& 7 : Nat) - s.cursorY)
      if deltaX ≠ 0 ∨ deltaY ≠ 0 then
        .arrow s.cursorX s.cursorY (~~~(s.color cell).val) (direcOf deltaX deltaY)
      else .tick s.cursorX s.cursorY

end Source

section Player

/-- The key that goes in a direction. -/
def Direc.key : Direc → BitVec 32
  | .left => keyLeft
  | .right => keyRight
  | .up => keyUp
  | .down => keyDown

def cells : List Cell := List.finRange gridNum ×ˢ List.finRange gridNum

/-- The first cell that is not in its place, or else a cell that is not fixed. -/
def sought (idx : Cell → Nat) : Cell :=
  (cells.find? fun c => decide (idx c ≠ fillIdx c)).getD (⟨0, by decide⟩, ⟨1, by decide⟩)

/-- The key of a player who asks for hints, looks for a cell out of place as long as none is chosen,
and then does what is shown: the key of the arrow, or the space key at the tick. -/
def hintedKey (s : Game) : BitVec 32 :=
  if s.printFlag then keyH
  else if s.choosenIdx = 0 then
    let deltaX := ((sought s.idx).1 : Int) - s.cursorX
    let deltaY := ((sought s.idx).2 : Int) - s.cursorY
    if deltaX ≠ 0 ∨ deltaY ≠ 0 then (direcOf deltaX deltaY).key else keySpace
  else
    match printInstr s with
    | some (.arrow _ _ _ direc) => direc.key
    | _ => keySpace

/-- The label of a game step at which the key is pressed. -/
def hinted (s : Game) : List Nat × BitVec 32 := ([], hintedKey s ||| keyDownMask)

end Player

section Measure

/-- The number of moves from the cursor to a cell. -/
def distance (x y : Int) (c : Cell) : Nat := ((c.1 : Int) - x).natAbs + ((c.2 : Int) - y).natAbs

/-- The cells that are not in their places. -/
def misplaced (idx : Cell → Nat) : Finset Cell := Finset.univ.filter fun c => idx c ≠ fillIdx c

/-- The place of the cell that stands here. -/
def placeOf (idx : Cell → Nat) (c : Cell) : Cell := cellOf (idx c)

/-- A bound for the number of keys up to the win: each cell takes two ways of at most 14 moves. -/
def rank (s : Game) : Nat :=
  (if s.printFlag then 1 else 0) +
    if s.choosenIdx = 0 then
      distance s.cursorX s.cursorY (sought s.idx) + 16 + 30 * ((misplaced s.idx).card - 1)
    else
      ((cellAt s.choosen.1 s.choosen.2).map fun c =>
        distance s.cursorX s.cursorY (placeOf s.idx c) + 1 +
          30 * ((misplaced s.idx).erase (placeOf s.idx c)).card).getD 0

end Measure

section Board

variable {color : Cell → Pixel} {idx : Cell → Nat} {order : Equiv.Perm Cell} {a b c : Cell}

theorem cell_of_fill : ∀ c : Cell, cellOf (fillIdx c) = c := by
  decide

theorem fill_parts : ∀ c : Cell, fillIdx c >>> 3 = c.1.val ∧ fillIdx c &&& 7 = c.2.val := by
  decide

theorem mem_cells (c : Cell) : c ∈ cells :=
  List.mem_product.mpr ⟨List.mem_finRange c.1, List.mem_finRange c.2⟩

theorem Arranged.place_of (arranged : Arranged color idx order) (c : Cell) :
    placeOf idx c = order c := by
  rw [placeOf, arranged.idx, cell_of_fill]

theorem Arranged.mem_misplaced (arranged : Arranged color idx order) :
    c ∈ misplaced idx ↔ order c ≠ c := by
  rw [misplaced, Finset.mem_filter, and_iff_right (Finset.mem_univ c), arranged.idx]
  constructor
  · exact fun other same => other (congrArg fillIdx same)
  · intro other same
    exact other ((cell_of_fill _).symm.trans ((congrArg cellOf same).trans (cell_of_fill c)))

/-- The home of a cell that is not fixed is not fixed. -/
theorem Arranged.home_free (arranged : Arranged color idx order) (free : c ∉ corners) :
    order c ∉ corners := by
  intro corner
  have same := order.injective (arranged.home (order c) corner)
  exact free (same ▸ corner)

/-- The cell that is looked for can be chosen, and it is out of place if any cell is. -/
theorem Arranged.sought_free (arranged : Arranged color idx order) :
    sought idx ∉ corners ∧ ((misplaced idx).Nonempty → sought idx ∈ misplaced idx) := by
  rw [sought]
  cases found : cells.find? fun c => decide (idx c ≠ fillIdx c) with
  | none =>
      refine ⟨by decide, ?_⟩
      rintro ⟨c, out⟩
      refine absurd (List.find?_eq_none.mp found c (mem_cells c)) (not_not.mpr ?_)
      exact decide_eq_true (Finset.mem_filter.mp out).2
  | some c =>
      have passed := List.find?_some found
      have out : c ∈ misplaced idx :=
        Finset.mem_filter.mpr ⟨Finset.mem_univ c, of_decide_eq_true passed⟩
      exact ⟨fun corner => arranged.mem_misplaced.mp out (arranged.home c corner), fun _ => out⟩

/-- A cell that is brought home leaves no more cells out of place than there were elsewhere. -/
theorem Arranged.brought_home (arranged : Arranged color idx order) (brought : order a = b) :
    misplaced (exchange idx a b) ⊆ (misplaced idx).erase b := by
  intro c out
  have moved : exchange idx a b c = fillIdx (order (Equiv.swap a b c)) :=
    (exchange_swap idx a b c).trans (arranged.idx _)
  have other : order (Equiv.swap a b c) ≠ c := by
    intro same
    exact (Finset.mem_filter.mp out).2 (moved.trans (congrArg fillIdx same))
  rw [Finset.mem_erase, arranged.mem_misplaced]
  by_cases target : c = b
  · rw [target, Equiv.swap_apply_right] at other
    exact absurd brought other
  · refine ⟨target, ?_⟩
    by_cases source : c = a
    · rw [source, brought]
      exact fun same => target (source.trans same.symm)
    · rwa [Equiv.swap_apply_of_ne_of_ne source target] at other

/-- At most the cells that are not fixed are out of place. -/
theorem Arranged.misplaced_card (arranged : Arranged color idx order) :
    (misplaced idx).card ≤ 60 := by
  have free : misplaced idx ⊆ Finset.univ.filter fun c => c ∉ corners := by
    intro c out
    exact Finset.mem_filter.mpr ⟨Finset.mem_univ c,
      fun corner => arranged.mem_misplaced.mp out (arranged.home c corner)⟩
  exact (Finset.card_le_card free).trans (by decide)

/-- Where the cell that is looked for belongs, another one is out of place. -/
theorem Arranged.sought_card (arranged : Arranged color idx order) :
    ((misplaced idx).erase (placeOf idx (sought idx))).card ≤ (misplaced idx).card - 1 := by
  rw [arranged.place_of]
  by_cases any : (misplaced idx).Nonempty
  · have out := arranged.mem_misplaced.mp (arranged.sought_free.2 any)
    have target : order (sought idx) ∈ misplaced idx := by
      exact arranged.mem_misplaced.mpr fun same => out (order.injective same)
    exact (Finset.card_erase_of_mem target).le
  · rw [Finset.not_nonempty_iff_eq_empty.mp any]
    exact Nat.zero_le _

end Board

section Moving

variable {s next : Game} {here c : Cell} {rands : List Nat} {x y : Int}

/-- Where the cursor goes. -/
def Direc.moved (x y : Int) : Direc → Int × Int
  | .left => (back x, y)
  | .right => (ahead x, y)
  | .up => (x, back y)
  | .down => (x, ahead y)

theorem operate_direc (playing : s.stat = .playing) (cursor : cellAt s.cursorX s.cursorY = some here)
    (direc : Direc) : operate rands (direc.key ||| keyDownMask) s =
      some { s with
        cursorX := (direc.moved s.cursorX s.cursorY).1
        cursorY := (direc.moved s.cursorX s.cursorY).2 } := by
  have pressed : ¬(direc.key ||| keyDownMask) &&& keyDownMask = 0 := by
    cases direc <;> decide
  have code : (direc.key ||| keyDownMask) ^^^ keyDownMask = direc.key := by
    cases direc <;> decide
  rw [operate, if_neg pressed, playing]
  dsimp only
  rw [cursor, Option.bind_some, code]
  cases direc <;> rfl

theorem operate_space (playing : s.stat = .playing)
    (cursor : cellAt s.cursorX s.cursorY = some here) :
    operate rands (keySpace ||| keyDownMask) s = select s here := by
  rw [operate, if_neg (by decide), playing]
  dsimp only
  rw [cursor, Option.bind_some, if_pos (by decide)]

theorem operate_h (playing : s.stat = .playing) (cursor : cellAt s.cursorX s.cursorY = some here) :
    operate rands (keyH ||| keyDownMask) s = some { s with printFlag := !s.printFlag } := by
  rw [operate, if_neg (by decide), playing]
  dsimp only
  rw [cursor, Option.bind_some]
  rfl

/-- A move in the direction of a cell comes nearer to it, and does not leave the board. -/
theorem direc_nears (column : OnBoard x) (row : OnBoard y)
    (apart : (c.1 : Int) - x ≠ 0 ∨ (c.2 : Int) - y ≠ 0) :
    let moved := (direcOf ((c.1 : Int) - x) ((c.2 : Int) - y)).moved x y
    OnBoard moved.1 ∧ OnBoard moved.2 ∧ distance moved.1 moved.2 c < distance x y c := by
  have first := c.1.isLt
  have second := c.2.isLt
  unfold OnBoard at *
  rw [direcOf]
  split
  · dsimp only [Direc.moved]
    rw [ahead, if_neg (by omega)]
    unfold distance
    omega
  split
  · dsimp only [Direc.moved]
    rw [back, if_neg (by omega)]
    unfold distance
    omega
  split
  · dsimp only [Direc.moved]
    rw [ahead, if_neg (by omega)]
    unfold distance
    omega
  split
  · dsimp only [Direc.moved]
    rw [back, if_neg (by omega)]
    unfold distance
    omega
  · omega

theorem distance_bound (column : OnBoard x) (row : OnBoard y) : distance x y c ≤ 14 := by
  have first := c.1.isLt
  have second := c.2.isLt
  unfold OnBoard gridNum at *
  unfold distance
  omega

theorem int8_small (n : Int) (low : -128 ≤ n) (high : n < 128) : int8 n = n := by
  rw [int8, Int.bmod_def]
  split <;> omega

/-- With a cell chosen and the hints on, the arrow points to its place, where the tick is. -/
theorem hint_shown (column : OnBoard s.cursorX) (row : OnBoard s.cursorY) {order : Equiv.Perm Cell}
    (arranged : Arranged s.color s.idx order) (shown : s.printFlag = false)
    (chosen : s.choosenIdx = 1) {a : Cell} (place : cellAt s.choosen.1 s.choosen.2 = some a) :
    printInstr s = some (
      if ((order a).1 : Int) - s.cursorX ≠ 0 ∨ ((order a).2 : Int) - s.cursorY ≠ 0 then
        .arrow s.cursorX s.cursorY (~~~(s.color a).val)
          (direcOf ((order a).1 - s.cursorX) ((order a).2 - s.cursorY))
      else .tick s.cursorX s.cursorY) := by
  have first := (order a).1.isLt
  have second := (order a).2.isLt
  unfold OnBoard gridNum at *
  rw [printInstr, shown, if_neg Bool.false_ne_true, if_pos chosen]
  dsimp only
  rw [place, Option.map_some, arranged.idx, (fill_parts _).1, (fill_parts _).2,
    int8_small _ (by omega) (by omega), int8_small _ (by omega) (by omega)]

end Moving

section Winning

variable {s : Game} {here : Cell}

/-- What holds while the player plays. -/
structure Plays (s : Game) : Prop extends Kept s where
  playing : s.stat = .playing
  once : s.choosenIdx = 0 ∨ s.choosenIdx = 1

/-- What the next key has to do. -/
def Advances (s : Game) : Prop :=
  ∃ next, gameStep (hinted s) s = some next ∧
    (next.stat = .win ∨ Plays next ∧ rank next < rank s)

/-- The key that turns the hints on. -/
theorem asks_advances (plays : Plays s) (hidden : s.printFlag = true) : Advances s := by
  obtain ⟨here, cursor⟩ := cell_inside plays.column plays.row
  refine ⟨{ s with printFlag := false }, ?_, .inr ⟨⟨⟨⟨plays.arranged, plays.column, plays.row⟩,
    plays.chosen, plays.stat⟩, plays.playing, plays.once⟩, ?_⟩⟩
  · rw [gameStep, hinted, hintedKey, if_pos hidden, operate_h plays.playing cursor, hidden]
    rfl
  · rw [rank, rank, hidden, if_pos rfl, if_neg Bool.false_ne_true, Nat.zero_add]
    exact Nat.lt_add_of_pos_left Nat.one_pos

/-- A move with an arrow, as far as the rank goes. -/
theorem moved_plays (plays : Plays s) {c : Cell}
    (apart : (c.1 : Int) - s.cursorX ≠ 0 ∨ (c.2 : Int) - s.cursorY ≠ 0) :
    let direc := direcOf ((c.1 : Int) - s.cursorX) ((c.2 : Int) - s.cursorY)
    let moved := direc.moved s.cursorX s.cursorY
    Plays { s with cursorX := moved.1, cursorY := moved.2 } ∧
      distance moved.1 moved.2 c < distance s.cursorX s.cursorY c := by
  have nears := direc_nears plays.column plays.row apart
  exact ⟨⟨⟨⟨plays.arranged, nears.1, nears.2.1⟩, plays.chosen, plays.stat⟩, plays.playing,
    plays.once⟩, nears.2.2⟩

/-- The cursor is at a cell. -/
theorem cursor_at {x y : Int} {c : Cell} (column : (c.1 : Int) - x = 0) (row : (c.2 : Int) - y = 0) :
    cellAt x y = some c := by
  have first := c.1.isLt
  have second := c.2.isLt
  obtain rfl : x = (c.1 : Int) := by omega
  obtain rfl : y = (c.2 : Int) := by omega
  rw [cellAt, dif_pos ⟨by omega, by omega, by omega, by omega⟩]
  rfl

theorem at_cursor {x y : Int} {c : Cell} (here : cellAt x y = some c) :
    (c.1 : Int) = x ∧ (c.2 : Int) = y := by
  rw [cellAt] at here
  split at here
  next inside =>
    cases here
    exact ⟨Int.toNat_of_nonneg inside.1, Int.toNat_of_nonneg inside.2.2.1⟩
  next => cases here

/-- A key on the way to a cell that is out of place. -/
theorem seeks_advances (plays : Plays s) (shown : ¬s.printFlag = true) (none : s.choosenIdx = 0) :
    Advances s := by
  obtain ⟨order, arranged⟩ := plays.arranged
  by_cases apart : ((sought s.idx).1 : Int) - s.cursorX ≠ 0 ∨ ((sought s.idx).2 : Int) - s.cursorY ≠ 0
  · obtain ⟨here, cursor⟩ := cell_inside plays.column plays.row
    obtain ⟨after, nearer⟩ := moved_plays plays apart
    refine ⟨_, ?_, .inr ⟨after, ?_⟩⟩
    · rw [gameStep, hinted, hintedKey, if_neg shown, if_pos none]
      dsimp only
      rw [if_pos apart, operate_direc plays.playing cursor]
    · rw [rank, rank, if_pos none]
      dsimp only
      rw [if_pos none]
      omega
  · have cursor := cursor_at (not_not.mp fun other => apart (.inl other))
      (not_not.mp fun other => apart (.inr other))
    have free : (s.color (sought s.idx)).alpha ≠ 1 := by
      exact fun fixed => arranged.sought_free.1 (arranged.fixed.mp fixed)
    refine ⟨_, ?_, .inr ⟨⟨plays.choose cursor free, plays.playing, .inr rfl⟩, ?_⟩⟩
    · rw [gameStep, hinted, hintedKey, if_neg shown, if_pos none]
      dsimp only
      rw [if_neg apart, operate_space plays.playing cursor, select, if_neg free, if_pos none]
    · have fewer := arranged.sought_card
      have near : distance s.cursorX s.cursorY (placeOf s.idx (sought s.idx)) ≤ 14 := by
        exact distance_bound plays.column plays.row
      rw [rank, rank, if_pos none]
      dsimp only
      rw [if_neg one_ne_zero, cursor, Option.map_some, Option.getD_some]
      omega

theorem misplaced_empty {idx : Cell → Nat} (none : (misplaced idx).card = 0) (c : Cell) :
    idx c = fillIdx c := by
  by_contra out
  have member : c ∈ misplaced idx := Finset.mem_filter.mpr ⟨Finset.mem_univ c, out⟩
  rw [Finset.card_eq_zero.mp none] at member
  exact absurd member (Finset.notMem_empty c)

/-- Letting go of a cell at its place wins, or leaves fewer keys to the win. -/
theorem let_go_closer (chosen : s.choosenIdx ≠ 0) {a : Cell}
    (place : cellAt s.choosen.1 s.choosen.2 = some a) {order : Equiv.Perm Cell}
    (arranged : Arranged s.color s.idx order) {next : Game} (kept : Kept next)
    (grid : next.idx = exchange s.idx a (order a)) (free : next.choosenIdx = 0)
    (flag : next.printFlag = s.printFlag)
    (wins : next.stat = .win ↔ ∀ c, next.idx c = fillIdx c) :
    next.stat = .win ∨ Plays next ∧ rank next < rank s := by
  cases now : next.stat with
  | win => exact .inl rfl
  | pause => exact absurd now kept.stat
  | playing =>
      refine .inr ⟨⟨kept, now, .inl free⟩, ?_⟩
      have left : (misplaced next.idx).card ≠ 0 := by
        intro none
        exact nomatch now.symm.trans (wins.mpr (misplaced_empty none))
      have fewer : (misplaced next.idx).card ≤ ((misplaced s.idx).erase (order a)).card := by
        rw [grid]
        exact Finset.card_le_card (arranged.brought_home rfl)
      have near : distance next.cursorX next.cursorY (sought next.idx) ≤ 14 := by
        exact distance_bound kept.column kept.row
      rw [rank, rank, if_pos free, if_neg chosen, flag, place, Option.map_some, Option.getD_some,
        arranged.place_of]
      omega

/-- The space key at the place of the chosen cell. -/
theorem let_go (plays : Plays s) (chosen : s.choosenIdx ≠ 0) {a : Cell}
    (place : cellAt s.choosen.1 s.choosen.2 = some a) {order : Equiv.Perm Cell}
    (arranged : Arranged s.color s.idx order) (cursor : cellAt s.cursorX s.cursorY = some (order a))
    (rands : List Nat) :
    ∃ next, operate rands (keySpace ||| keyDownMask) s = some next ∧ Kept next ∧
      next.idx = exchange s.idx a (order a) ∧ next.choosenIdx = 0 ∧ next.printFlag = s.printFlag ∧
      (next.stat = .win ↔ ∀ c, next.idx c = fillIdx c) := by
  have free : (s.color (order a)).alpha ≠ 1 := by
    obtain ⟨b, second, unfixed⟩ := plays.chosen chosen
    cases place.symm.trans second
    intro fixed
    have unmoved : a ∉ corners := fun corner => unfixed (arranged.fixed.mpr corner)
    exact arranged.home_free unmoved (arranged.fixed.mp fixed)
  obtain ⟨next, swapped, kept, wins⟩ := swap_kept plays.toKept chosen cursor free plays.playing
  refine ⟨next, ?_, kept, ?_⟩
  · rw [operate_space plays.playing cursor, select, if_neg free, if_neg chosen, swapped]
  · cases (@swap_pixel_does { s with choosenIdx := 0 } a (order a) place cursor).symm.trans swapped
    exact ⟨rfl, rfl, rfl, wins⟩

/-- A key with a cell chosen, which follows the hint. -/
theorem brings_advances (plays : Plays s) (shown : ¬s.printFlag = true) (chosen : s.choosenIdx = 1) :
    Advances s := by
  obtain ⟨order, arranged⟩ := plays.arranged
  have some_chosen : s.choosenIdx ≠ 0 := by
    rw [chosen]
    exact one_ne_zero
  obtain ⟨a, place, -⟩ := plays.chosen some_chosen
  have hint := hint_shown plays.column plays.row arranged (Bool.eq_false_iff.mpr shown) chosen place
  by_cases apart : ((order a).1 : Int) - s.cursorX ≠ 0 ∨ ((order a).2 : Int) - s.cursorY ≠ 0
  · obtain ⟨here, cursor⟩ := cell_inside plays.column plays.row
    obtain ⟨after, nearer⟩ := moved_plays plays apart
    refine ⟨_, ?_, .inr ⟨after, ?_⟩⟩
    · rw [gameStep, hinted, hintedKey, if_neg shown, if_neg some_chosen, hint, if_pos apart]
      exact operate_direc plays.playing cursor _
    · rw [rank, rank, if_neg some_chosen]
      dsimp only
      rw [if_neg some_chosen, place, Option.map_some, Option.map_some, Option.getD_some,
        Option.getD_some, arranged.place_of]
      omega
  · have cursor := cursor_at (not_not.mp fun other => apart (.inl other))
      (not_not.mp fun other => apart (.inr other))
    obtain ⟨next, pressed, kept, grid, free, flag, wins⟩ :=
      let_go plays some_chosen place arranged cursor []
    refine ⟨next, ?_, let_go_closer some_chosen place arranged kept grid free flag wins⟩
    rw [gameStep, hinted, hintedKey, if_neg shown, if_neg some_chosen, hint, if_neg apart]
    exact pressed

/-- What the hint for the chosen cell `a` is good for: the tick is shown at its place, the key of an
arrow brings the cursor nearer to it, and the space key at the tick leaves fewer cells out of place if
`a` was. -/
structure Guides (s : Game) (a : Cell) : Prop where
  tick : (∃ x y, printInstr s = some (.tick x y)) ↔
    cellAt s.cursorX s.cursorY = some (placeOf s.idx a)
  nearer : ∀ x y color direc rands next, printInstr s = some (.arrow x y color direc) →
    operate rands (direc.key ||| keyDownMask) s = some next →
    distance next.cursorX next.cursorY (placeOf s.idx a) <
      distance s.cursorX s.cursorY (placeOf s.idx a)
  fewer : ∀ x y rands next, printInstr s = some (.tick x y) → placeOf s.idx a ≠ a →
    operate rands (keySpace ||| keyDownMask) s = some next →
    (misplaced next.idx).card < (misplaced s.idx).card

theorem Plays.guides (plays : Plays s) (shown : s.printFlag = false) (chosen : s.choosenIdx ≠ 0)
    {a : Cell} (place : cellAt s.choosen.1 s.choosen.2 = some a) : Guides s a := by
  obtain ⟨order, arranged⟩ := plays.arranged
  have one := plays.once.resolve_left chosen
  have hint := hint_shown plays.column plays.row arranged shown one place
  have home := arranged.place_of a
  by_cases apart : ((order a).1 : Int) - s.cursorX ≠ 0 ∨ ((order a).2 : Int) - s.cursorY ≠ 0
  · rw [if_pos apart] at hint
    obtain ⟨here, cursor⟩ := cell_inside plays.column plays.row
    constructor
    case tick =>
      constructor
      · rintro ⟨x, y, tick⟩
        exact absurd (hint.symm.trans tick) (by simp)
      · intro there
        obtain ⟨column, row⟩ := at_cursor there
        rw [home] at column row
        omega
    case nearer =>
      intro x y color direc rands next arrow operated
      cases hint.symm.trans arrow
      cases (operate_direc plays.playing cursor _).symm.trans operated
      rw [home]
      exact (direc_nears plays.column plays.row apart).2.2
    case fewer =>
      intro x y rands next tick
      exact absurd (hint.symm.trans tick) (by simp)
  · rw [if_neg apart] at hint
    have cursor := cursor_at (not_not.mp fun other => apart (.inl other))
      (not_not.mp fun other => apart (.inr other))
    constructor
    case tick => exact ⟨fun _ => home ▸ cursor, fun _ => ⟨_, _, hint⟩⟩
    case nearer =>
      intro x y color direc rands next arrow
      exact absurd (hint.symm.trans arrow) (by simp)
    case fewer =>
      intro x y rands next tick out operated
      obtain ⟨after, pressed, -, grid, -⟩ := let_go plays chosen place arranged cursor rands
      cases pressed.symm.trans operated
      rw [home] at out
      have member : order a ∈ misplaced s.idx := by
        exact arranged.mem_misplaced.mpr fun same => out (order.injective same)
      have within := Finset.card_le_card (arranged.brought_home (rfl : order a = order a))
      rw [grid]
      exact within.trans_lt (Finset.card_erase_lt_of_mem member)

theorem plays_advances (plays : Plays s) : Advances s := by
  by_cases hidden : s.printFlag = true
  · exact asks_advances plays hidden
  · rcases plays.once with none | chosen
    · exact seeks_advances plays hidden none
    · exact brings_advances plays hidden chosen

theorem rank_bound (plays : Plays s) : rank s ≤ 1816 := by
  obtain ⟨order, arranged⟩ := plays.arranged
  have few := arranged.misplaced_card
  have near (c : Cell) : distance s.cursorX s.cursorY c ≤ 14 := by
    exact distance_bound plays.column plays.row
  have flag : (if s.printFlag then 1 else 0) ≤ 1 := by
    split <;> decide
  rw [rank]
  by_cases free : s.choosenIdx = 0
  · have seeking := near (sought s.idx)
    rw [if_pos free]
    omega
  · obtain ⟨a, place, unfixed⟩ := plays.chosen free
    have bringing := near (placeOf s.idx a)
    have rest : ((misplaced s.idx).erase (placeOf s.idx a)).card ≤ 60 := by
      exact (Finset.card_le_card (Finset.erase_subset _ _)).trans few
    rw [if_neg free, place, Option.map_some, Option.getD_some]
    omega

/-- At most one cell is chosen. -/
def Single (s : Game) : Prop := Kept s ∧ (s.choosenIdx = 0 ∨ s.choosenIdx = 1)

theorem operate_single {rands : List Nat} {key : BitVec 32} {next : Game} (single : Single s)
    (operated : operate rands key s = some next) : Single next := by
  refine ⟨operate_kept single.1 operated, ?_⟩
  cases operate_does single.1 operated with
  | moves moves other =>
      rw [moves.choosenIdx]
      exact single.2
  | chooses here cursor free other same =>
      rw [same]
      exact .inr rfl
  | swaps completes swapped =>
      obtain ⟨a, first, swapped⟩ := Option.bind_eq_some_iff.mp swapped
      obtain ⟨b, second, rfl⟩ := Option.map_eq_some_iff.mp swapped
      exact .inl rfl
  | restarts won started =>
      obtain ⟨grids, shuffled, rfl⟩ := Option.map_eq_some_iff.mp started
      exact .inl rfl

end Winning

/-- From every state that keys lead to, a player who does what the hints say wins, and the hint for a
chosen cell guides to its place. -/
theorem hints_win (before first s : Game) (rands : List Nat) (labels : List (List Nat × BitVec 32))
    (started : init rands before = some first) (ran : runSteps gameStep labels first = some s)
    (playing : s.stat = .playing) :
    (∃ count ≤ 1817, ∃ final, follow gameStep hinted count s = some final ∧ final.stat = .win) ∧
      ∀ a, s.printFlag = false → s.choosenIdx ≠ 0 → cellAt s.choosen.1 s.choosen.2 = some a →
        Guides s a := by
  have begun : Single first := by
    obtain ⟨grids, shuffled, same⟩ := Option.map_eq_some_iff.mp started
    refine ⟨(init_kept started).1, .inl ?_⟩
    rw [← same]
  have single : Single s := by
    exact @run_preserves _ _ gameStep Single
      (fun _ _ _ single stepped => operate_single single stepped) labels first s begun ran
  have plays : Plays s := ⟨single.1, playing, single.2⟩
  obtain ⟨count, few, final, followed, won⟩ := follow_reaches gameStep hinted
    (fun state plays => plays_advances plays) plays
  exact ⟨⟨count, few.trans (Nat.succ_le_succ (rank_bound plays)), final, followed, won⟩,
    fun _ shown chosen place => plays.guides shown chosen place⟩

/-- A game with the hints turned on and a cell chosen that has been moved. -/
theorem hints_win_chosen : ∃ first s, init [1, 2, 3, 4] noGame = some first ∧
    runSteps gameStep [pressed keyH, pressed keyDown, pressed keySpace] first = some s ∧
      (∃ count ≤ 1817, ∃ final, follow gameStep hinted count s = some final ∧ final.stat = .win) ∧
      Guides s (⟨0, by decide⟩, ⟨1, by decide⟩) := by
  have both : ((init [1, 2, 3, 4] noGame).bind fun first =>
      (runSteps gameStep [pressed keyH, pressed keyDown, pressed keySpace] first).map fun s =>
        (s.stat, s.printFlag, s.choosenIdx, cellAt s.choosen.1 s.choosen.2)) =
      some (.playing, false, 1, some (⟨0, by decide⟩, ⟨1, by decide⟩)) := by
    decide +kernel
  obtain ⟨first, started, last⟩ := Option.bind_eq_some_iff.mp both
  obtain ⟨s, ran, same⟩ := Option.map_eq_some_iff.mp last
  obtain ⟨playing, same⟩ := Prod.mk.inj same
  obtain ⟨shown, same⟩ := Prod.mk.inj same
  obtain ⟨chosen, place⟩ := Prod.mk.inj same
  have won := hints_win noGame first s [1, 2, 3, 4] _ started ran playing
  exact ⟨first, s, started, ran, won.1, won.2 _ shown (chosen.trans_ne one_ne_zero) place⟩

end OsWorkbench.Amgame
