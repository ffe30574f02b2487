import OsWorkbench.Kernel.Screen

/-!
# The screen shows the terminal

The cell in row `r` and column `c` of the terminal is at `r * columns + c`, and so is the cursor.
Between two characters the cursor is inside the screen; a character in the last cell, or the end of
the last line, takes it to `end`, and scrolling brings it back.
-/

namespace OsWorkbench.Kernel

open Library

section Moves

variable {α : Type} {cells : Nat → α} {dest src : Nat}

theorem memmove_forward_at (below : dest ≤ src) (n index : Nat) :
    memmoveForward cells dest src n index =
      if dest ≤ index ∧ index < dest + n then cells (index - dest + src) else cells index := by
  induction n generalizing index with
  | zero =>
      have empty : ¬(dest ≤ index ∧ index < dest + 0) := by omega
      rw [if_neg empty]
      rfl
  | succ n hypothesis =>
      have ahead : ¬(dest ≤ src + n ∧ src + n < dest + n) := by omega
      rw [memmoveForward]
      by_cases here : index = dest + n
      · have inside : dest ≤ index ∧ index < dest + (n + 1) := by omega
        rw [here, Function.update_self, hypothesis, if_neg ahead, if_pos (here ▸ inside)]
        congr 1
        omega
      · rw [Function.update_of_ne here, hypothesis]
        congr 1
        rw [eq_iff_iff]
        omega

/-- A move towards the front. -/
theorem memmove_front (cells : Nat → α) (src n : Nat) :
    memmove cells 0 src n =
      some fun index => if index < n then cells (index + src) else cells index := by
  rw [memmove, if_neg (Nat.not_lt_zero src)]
  congr 1
  funext index
  rw [memmove_forward_at (Nat.zero_le src), Nat.zero_add, Nat.sub_zero]
  congr 1
  rw [eq_iff_iff]
  omega

end Moves

section Places

variable {lines columns row col r c : Nat}

theorem place_inside (inRow : row < lines) (inCol : col < columns) :
    row * columns + col < columns * lines := by
  have below : (row + 1) * columns ≤ lines * columns := Nat.mul_le_mul_right columns inRow
  rw [Nat.succ_mul] at below
  rw [Nat.mul_comm columns lines]
  omega

theorem place_eq_iff (inCol : col < columns) (other : c < columns) :
    r * columns + c = row * columns + col ↔ r = row ∧ c = col := by
  constructor
  · intro same
    have rows := congrArg (· / columns) same
    have cols := congrArg (· % columns) same
    simp only [Nat.mul_comm _ columns, Nat.mul_add_div (Nat.zero_lt_of_lt inCol),
      Nat.mul_add_mod, Nat.div_eq_of_lt inCol, Nat.div_eq_of_lt other, Nat.mod_eq_of_lt inCol,
      Nat.mod_eq_of_lt other, Nat.add_zero] at rows cols
    exact ⟨rows, cols⟩
  · rintro ⟨rfl, rfl⟩
    rfl

theorem place_mod (inCol : col < columns) : (row * columns + col) % columns = col := by
  rw [Nat.mul_comm, Nat.mul_add_mod, Nat.mod_eq_of_lt inCol]

end Places

section Marks

variable {tty : TtyScreen}

/-- Marks change no cell. -/
theorem marks_made (f : Nat → Nat) (places : List Nat) (inside : ∀ i ∈ places, f i < tty.size) :
    ∃ dirty, places.foldlM (fun tty i => ttyMark tty (f i)) tty = some { tty with dirty := dirty } := by
  induction places generalizing tty with
  | nil => exact ⟨tty.dirty, rfl⟩
  | cons i places hypothesis =>
      have here : f i < tty.size := inside i List.mem_cons_self
      obtain ⟨dirty, marked⟩ :=
        @hypothesis { tty with dirty := Function.update tty.dirty (f i) 1 } fun j member =>
          inside j (List.mem_cons_of_mem i member)
      refine ⟨dirty, ?_⟩
      rw [List.foldlM_cons, ttyMark, if_pos here]
      exact marked

theorem cells_cleared (base count : Nat) (cell : Character) (inside : base + count ≤ tty.size) :
    (List.range count).foldlM (fun tty i => tty.setCell (base + i) cell) tty =
      some { tty with buf := fun p => if base ≤ p ∧ p < base + count then cell else tty.buf p } := by
  induction count with
  | zero =>
      have empty (p : Nat) : ¬(base ≤ p ∧ p < base + 0) := by omega
      simp only [empty, if_false]
      rfl
  | succ count hypothesis =>
      rw [List.range_succ, List.foldlM_append, hypothesis (by omega)]
      show TtyScreen.setCell _ (base + count) cell >>= pure = _
      rw [bind_pure, TtyScreen.setCell, if_pos (by dsimp only; omega)]
      congr 2
      funext p
      by_cases here : p = base + count
      · subst here
        rw [Function.update_self, if_pos (by omega)]
      · rw [Function.update_of_ne here]
        dsimp only
        congr 1
        rw [eq_iff_iff]
        omega

end Marks

/-- The cells of a screen of so many lines and columns. -/
structure Draws (lines columns : Nat) (cell : Nat → Nat → UInt8) (tty : TtyScreen) : Prop where
  sameLines : tty.lines = lines
  sameColumns : tty.columns = columns
  sameSize : tty.size = columns * lines
  cells : ∀ r < lines, ∀ c < columns, (tty.buf (r * columns + c)).ch = cell r c

/-- The screen shows the terminal. -/
structure Shows (lines columns : Nat) (terminal : Terminal) (tty : TtyScreen) : Prop
    extends Draws lines columns terminal.cell tty where
  inRow : terminal.row < lines
  inCol : terminal.col < columns
  place : tty.cursor = terminal.row * columns + terminal.col

section Drawing

variable {lines columns row col : Nat} {cell : Nat → Nat → UInt8} {terminal : Terminal}
  {tty : TtyScreen}

theorem Draws.marked (draws : Draws lines columns cell tty) (dirty : Nat → UInt8) (cursor : Nat) :
    Draws lines columns cell { tty with dirty := dirty, cursor := cursor } :=
  ⟨draws.sameLines, draws.sameColumns, draws.sameSize, draws.cells⟩

theorem Shows.marked (shows : Shows lines columns terminal tty) (dirty : Nat → UInt8) :
    Shows lines columns terminal { tty with dirty := dirty } :=
  ⟨shows.toDraws.marked dirty tty.cursor, shows.inRow, shows.inCol, shows.place⟩

/-- One cell gets another character. -/
theorem Draws.written (draws : Draws lines columns cell tty) (inRow : row < lines)
    (inCol : col < columns) (written : Character) (cursor : Nat) :
    ∃ tty', { tty with cursor := cursor }.setCell (row * columns + col) written = some tty' ∧
      tty'.cursor = cursor ∧
      Draws lines columns (fun r c => if r = row ∧ c = col then written.ch else cell r c) tty' := by
  have inside : row * columns + col < tty.size := by
    rw [draws.sameSize]
    exact place_inside inRow inCol
  refine ⟨_, if_pos inside, rfl, draws.sameLines, draws.sameColumns, draws.sameSize, ?_⟩
  intro r below c beside
  by_cases here : r = row ∧ c = col
  · rw [if_pos here, here.1, here.2]
    exact congrArg Character.ch (Function.update_self _ _ _)
  · rw [if_neg here, ← draws.cells r below c beside]
    refine congrArg Character.ch (Function.update_of_ne ?_ _ _)
    exact fun same => here ((place_eq_iff inCol beside).mp same)

/-- Every line moves up by one and the last one is cleared. -/
theorem Draws.scrolled (draws : Draws lines columns cell tty) (present : 0 < lines)
    (reached : tty.cursor = columns * lines) :
    ∃ tty', ttyUpdScrollup tty = some tty' ∧ tty'.cursor = (lines - 1) * columns ∧
      Draws lines columns (fun r c => if r + 1 < lines then cell (r + 1) c else 0) tty' := by
  obtain ⟨above, rfl⟩ : ∃ above, lines = above + 1 := ⟨lines - 1, by omega⟩
  have area : tty.size = columns * above + columns := draws.sameSize
  have ending : tty.cursor = columns * above + columns := reached
  have allowed : ¬(columns + columns * above > tty.size ∨ tty.cursor < columns) := by omega
  have moved : ttyUpdScrollup tty =
      (List.range columns).foldlM (fun tty i => tty.setCell (columns * above + i) ttyDefaultch)
        { tty with
          buf := fun p => if p < columns * above then tty.buf (p + columns) else tty.buf p
          dirty := fun p => if p < columns * above then tty.dirty (p + columns) else tty.dirty p
          cursor := columns * above } := by
    rw [ttyUpdScrollup, draws.sameLines, draws.sameColumns, Nat.add_sub_cancel]
    dsimp only
    rw [if_neg allowed, memmove_front, memmove_front, ending, Nat.add_sub_cancel]
    rfl
  rw [moved, cells_cleared _ _ _ (by exact Nat.le_of_eq area.symm)]
  refine ⟨_, rfl, Nat.mul_comm _ _, draws.sameLines, draws.sameColumns, draws.sameSize, ?_⟩
  intro r below c beside
  dsimp only
  by_cases last : r = above
  · have cleared : columns * above ≤ r * columns + c ∧
        r * columns + c < columns * above + columns := by
      rw [last, Nat.mul_comm]
      omega
    rw [if_pos cleared, if_neg (by omega)]
    rfl
  · have upper : r * columns + c < columns * above := place_inside (by omega) beside
    rw [if_neg (by omega), if_pos upper, if_pos (by omega), ← draws.cells (r + 1) (by omega) c beside,
      Nat.succ_mul]
    congr 2
    omega

/-- What is left to do when the cursor has come to the start of a line. -/
theorem Draws.at_next_line (draws : Draws lines columns cell tty) (inRow : row < lines)
    (wide : 0 < columns) (reached : tty.cursor = (row + 1) * columns) :
    (row + 1 < lines → tty.cursor < tty.size ∧
      Shows lines columns (Terminal.nextLine lines ⟨cell, row, col⟩) tty) ∧
    (¬row + 1 < lines → tty.cursor = tty.size ∧
      ∃ tty', (ttyUpdScrollup tty).bind ttyMarkAll = some tty' ∧
        Shows lines columns (Terminal.nextLine lines ⟨cell, row, col⟩) tty') := by
  constructor
  · intro below
    have inside := place_inside below wide
    rw [Nat.add_zero] at inside
    refine ⟨by rw [reached, draws.sameSize]; exact inside, ?_⟩
    rw [Terminal.nextLine, if_pos below]
    exact ⟨draws, below, wide, reached⟩
  · intro last
    have lines_eq : lines = row + 1 := by omega
    have full : tty.cursor = columns * lines := by rw [reached, lines_eq, Nat.mul_comm]
    refine ⟨full.trans draws.sameSize.symm, ?_⟩
    obtain ⟨tty', scrolled, cursor, drawn⟩ := draws.scrolled (Nat.zero_lt_of_lt inRow) full
    obtain ⟨dirty, marked⟩ := @marks_made tty' (fun i => i) (List.range tty'.size) fun i member =>
      List.mem_range.mp member
    have only : lines - 1 = row := by omega
    refine ⟨_, (congrArg (·.bind ttyMarkAll) scrolled).trans marked, Shows.marked ?_ dirty⟩
    rw [Terminal.nextLine, if_neg last]
    exact ⟨drawn, inRow, wide, by rw [cursor, only]; rfl⟩

theorem mark_made {place : Nat} (inside : place < tty.size) :
    ∃ dirty, ttyMark tty place = some { tty with dirty := dirty } :=
  ⟨_, if_pos inside⟩

theorem Draws.line_marked (draws : Draws lines columns cell tty) (inRow : row < lines)
    (inCol : col < columns) :
    ∃ dirty, ttyMarkLine tty (row * columns + col) = some { tty with dirty := dirty } := by
  have line : ttyMarkLine tty (row * columns + col) =
      (List.range columns).foldlM (fun tty i => ttyMark tty (row * columns + i)) tty := by
    rw [ttyMarkLine, draws.sameColumns, place_mod inCol, Nat.add_sub_cancel]
  rw [line]
  apply marks_made
  intro i member
  rw [draws.sameSize]
  exact place_inside inRow (List.mem_range.mp member)

end Drawing

section Characters

variable {lines columns : Nat} {terminal : Terminal} {tty : TtyScreen} {ch : UInt8}

theorem Shows.cr_place (shows : Shows lines columns terminal tty) :
    (ttyUpdCr tty).cursor = terminal.row * columns := by
  rw [ttyUpdCr, shows.sameColumns, shows.place, place_mod shows.inCol, Nat.add_sub_cancel]

theorem put_return (shows : Shows lines columns terminal tty) :
    ∃ tty', ttyPutc carriageReturn tty = some tty' ∧
      Shows lines columns (terminal.put lines columns carriageReturn) tty' := by
  have wide : 0 < columns := Nat.zero_lt_of_lt shows.inCol
  have drawn : Draws lines columns terminal.cell (ttyUpdCr tty) := shows.toDraws.marked _ _
  obtain ⟨dirty, marked⟩ := drawn.line_marked shows.inRow wide
  rw [Nat.add_zero, ← shows.cr_place] at marked
  refine ⟨_, marked, Shows.marked ?_ dirty⟩
  exact ⟨drawn, shows.inRow, wide, shows.cr_place⟩

/-- The marks behind the erasing of a cell. -/
theorem Shows.both_marked (shows : Shows lines columns terminal tty)
    (inside : tty.cursor + 1 < tty.size) :
    ∃ tty', ((ttyMark tty tty.cursor).bind fun tty => ttyMark tty (tty.cursor + 1)) = some tty' ∧
      Shows lines columns terminal tty' := by
  obtain ⟨first, marked⟩ := mark_made (Nat.lt_of_succ_lt inside)
  obtain ⟨second, again⟩ := @mark_made { tty with dirty := first } (tty.cursor + 1) inside
  refine ⟨_, ?_, shows.marked second⟩
  rw [marked]
  exact again

theorem Shows.inside (shows : Shows lines columns terminal tty) : tty.cursor < tty.size := by
  rw [shows.place, shows.sameSize]
  exact place_inside shows.inRow shows.inCol

/-- The cell before the cursor becomes blank. -/
theorem Shows.erased {row col : Nat} (shows : Shows lines columns terminal tty) (inRow : row < lines)
    (inCol : col < columns) (before : tty.cursor = row * columns + col + 1) :
    ∃ tty', ttyUpdBacksp tty = some tty' ∧
      Shows lines columns { terminal.overwrite row col 0 with row := row, col := col } tty' ∧
      tty'.cursor + 1 < tty'.size := by
  have place : tty.cursor - 1 = row * columns + col := by omega
  obtain ⟨tty', written, cursor, drawn⟩ := shows.toDraws.written inRow inCol
    { tty.buf (tty.cursor - 1) with ch := 0 } (tty.cursor - 1)
  refine ⟨tty', ?_, ⟨drawn, inRow, inCol, cursor.trans place⟩, ?_⟩
  · rw [ttyUpdBacksp, if_pos (by omega), ← written, place]
  · have inside := shows.inside
    rw [shows.sameSize] at inside
    rw [drawn.sameSize, cursor]
    omega

/-- It is in the same line or at the end of the line above; at the top left there is none. -/
theorem put_backspace (shows : Shows lines columns terminal tty) (wide : 2 ≤ columns) :
    ∃ tty', ttyPutc backspace tty = some tty' ∧
      Shows lines columns (terminal.put lines columns backspace) tty' := by
  have step : ttyPutc backspace tty = (ttyUpdBacksp tty).bind fun tty =>
      (ttyMark tty tty.cursor).bind fun tty => ttyMark tty (tty.cursor + 1) := rfl
  have place := shows.place
  have inRow := shows.inRow
  have inCol := shows.inCol
  obtain ⟨tty', erased, shown, room⟩ : ∃ tty', ttyUpdBacksp tty = some tty' ∧
      Shows lines columns (terminal.erase columns) tty' ∧ tty'.cursor + 1 < tty'.size := by
    unfold Terminal.erase
    by_cases beside : 0 < terminal.col
    · rw [if_pos beside]
      exact shows.erased inRow (show terminal.col - 1 < columns by omega) (by omega)
    · rw [if_neg beside]
      by_cases below : 0 < terminal.row
      · rw [if_pos below]
        refine shows.erased (show terminal.row - 1 < lines by omega)
          (show columns - 1 < columns by omega) ?_
        have above : (terminal.row - 1 + 1) * columns = terminal.row * columns := by
          rw [Nat.sub_add_cancel below]
        rw [Nat.succ_mul] at above
        omega
      · rw [if_neg below]
        have corner : tty.cursor = 0 := by
          rw [place, Nat.eq_zero_of_not_pos beside, Nat.eq_zero_of_not_pos below, Nat.zero_mul]
        have area : columns * 1 ≤ columns * lines := Nat.mul_le_mul_left columns (by omega)
        refine ⟨tty, ?_, shows, ?_⟩
        · rw [ttyUpdBacksp, if_neg (by omega)]
        · rw [corner, shows.sameSize]
          omega
  obtain ⟨tty'', marked, shown⟩ := shown.both_marked room
  refine ⟨tty'', ?_, shown⟩
  rw [step, erased]
  exact marked

theorem put_newline (shows : Shows lines columns terminal tty) :
    ∃ tty', ttyPutc newline tty = some tty' ∧
      Shows lines columns (terminal.put lines columns newline) tty' := by
  have wide : 0 < columns := Nat.zero_lt_of_lt shows.inCol
  have drawn : Draws lines columns terminal.cell (ttyUpdLf (ttyUpdCr tty)) :=
    shows.toDraws.marked _ _
  have reached : (ttyUpdLf (ttyUpdCr tty)).cursor = (terminal.row + 1) * columns := by
    rw [Nat.succ_mul, ← shows.cr_place, ← shows.sameColumns]
    rfl
  obtain ⟨below, last⟩ := @Draws.at_next_line _ _ _ terminal.col _ _ drawn shows.inRow wide reached
  have step : ttyPutc newline tty =
      if (ttyUpdLf (ttyUpdCr tty)).cursor = tty.size then
        (ttyUpdScrollup (ttyUpdLf (ttyUpdCr tty))).bind ttyMarkAll
      else if (ttyUpdLf (ttyUpdCr tty)).cursor < tty.columns then none
      else (ttyMarkLine (ttyUpdLf (ttyUpdCr tty))
        ((ttyUpdLf (ttyUpdCr tty)).cursor - tty.columns)).bind fun tty =>
          ttyMarkLine tty tty.cursor := rfl
  rw [step, show terminal.put lines columns newline = terminal.nextLine lines from rfl]
  by_cases more : terminal.row + 1 < lines
  · obtain ⟨inside, shown⟩ := below more
    have here : (ttyUpdLf (ttyUpdCr tty)).cursor - tty.columns = terminal.row * columns + 0 := by
      rw [reached, shows.sameColumns, Nat.succ_mul, Nat.add_sub_cancel, Nat.add_zero]
    have past : ¬(ttyUpdLf (ttyUpdCr tty)).cursor < tty.columns := by
      rw [reached, shows.sameColumns, Nat.succ_mul]
      omega
    obtain ⟨first, marked⟩ := drawn.line_marked shows.inRow wide
    obtain ⟨second, again⟩ := (drawn.marked first _).line_marked more wide
    have early : ¬(ttyUpdLf (ttyUpdCr tty)).cursor = tty.size := Nat.ne_of_lt inside
    rw [if_neg early, if_neg past, here, marked]
    refine ⟨_, ?_, shown.marked second⟩
    rw [Nat.add_zero, ← reached] at again
    exact again
  · obtain ⟨full, tty', scrolled, shown⟩ := last more
    have ended : (ttyUpdLf (ttyUpdCr tty)).cursor = tty.size := full
    rw [if_pos ended]
    exact ⟨tty', scrolled, shown⟩

/-- The marks behind a character that did not reach the end. -/
theorem Shows.behind_marked (shows : Shows lines columns terminal tty) :
    ∃ tty', ((ttyMark tty (tty.cursor - 1)).bind fun tty => ttyMark tty tty.cursor) = some tty' ∧
      Shows lines columns terminal tty' := by
  have inside := shows.inside
  obtain ⟨first, marked⟩ := mark_made (show tty.cursor - 1 < tty.size by omega)
  obtain ⟨second, again⟩ := @mark_made { tty with dirty := first } tty.cursor inside
  refine ⟨_, ?_, shows.marked second⟩
  rw [marked]
  exact again

theorem put_visible (shows : Shows lines columns terminal tty) (noReturn : ch ≠ carriageReturn)
    (noErase : ch ≠ backspace) (noLine : ch ≠ newline) :
    ∃ tty', ttyPutc ch tty = some tty' ∧ Shows lines columns (terminal.put lines columns ch) tty' := by
  have wide : 0 < columns := Nat.zero_lt_of_lt shows.inCol
  have inCol := shows.inCol
  obtain ⟨tty₁, written, cursor, drawn⟩ := shows.toDraws.written shows.inRow shows.inCol
    { tty.buf tty.cursor with ch := ch, fg := tty.fg, bg := tty.bg } (tty.cursor + 1)
  rw [← shows.place] at written
  have step : ttyPutc ch tty =
      if tty₁.cursor = tty₁.size then (ttyUpdScrollup tty₁).bind ttyMarkAll
      else (ttyMark tty₁ (tty₁.cursor - 1)).bind fun tty => ttyMark tty tty.cursor := by
    rw [ttyPutc, if_neg noReturn, if_neg noErase, if_neg noLine, ttyUpdPutc, written]
    rfl
  have meaning : terminal.put lines columns ch =
      (terminal.overwrite terminal.row terminal.col ch).advance lines columns := by
    rw [Terminal.put, if_neg noReturn, if_neg noErase, if_neg noLine]
  rw [step, meaning, Terminal.advance]
  by_cases beside : terminal.col + 1 < columns
  · have shown : Shows lines columns
        { terminal.overwrite terminal.row terminal.col ch with col := terminal.col + 1 } tty₁ :=
      ⟨drawn, shows.inRow, beside, by rw [cursor, shows.place]; rfl⟩
    rw [if_neg (Nat.ne_of_lt shown.inside),
      if_pos (show (terminal.overwrite terminal.row terminal.col ch).col + 1 < columns from beside)]
    exact shown.behind_marked
  · have reached : tty₁.cursor = (terminal.row + 1) * columns := by
      rw [cursor, shows.place, Nat.succ_mul]
      omega
    obtain ⟨below, last⟩ :=
      @Draws.at_next_line _ _ _ terminal.col _ _ drawn shows.inRow wide reached
    rw [if_neg (show ¬(terminal.overwrite terminal.row terminal.col ch).col + 1 < columns from beside)]
    by_cases more : terminal.row + 1 < lines
    · obtain ⟨inside, shown⟩ := below more
      rw [if_neg (Nat.ne_of_lt inside)]
      exact shown.behind_marked
    · obtain ⟨full, scrolled⟩ := last more
      rw [if_pos full]
      exact scrolled

/-- One character. -/
theorem put_shows (shows : Shows lines columns terminal tty) (wide : 2 ≤ columns) (ch : UInt8) :
    ∃ tty', ttyPutc ch tty = some tty' ∧ Shows lines columns (terminal.put lines columns ch) tty' := by
  by_cases returns : ch = carriageReturn
  · subst returns
    exact put_return shows
  by_cases erases : ch = backspace
  · subst erases
    exact put_backspace shows wide
  by_cases ends : ch = newline
  · subst ends
    exact put_newline shows
  · exact put_visible shows returns erases ends

end Characters

section Runs

variable {lines columns : Nat}

theorem init_shows (high : 0 < lines) (wide : 2 ≤ columns) :
    Shows lines columns Terminal.start (ttyScreenInit lines columns) := by
  refine ⟨⟨rfl, rfl, rfl, fun _ _ _ _ => rfl⟩, high, Nat.lt_of_lt_of_le Nat.zero_lt_two wide, ?_⟩
  exact (Nat.zero_mul columns).symm

theorem puts_show {terminal : Terminal} {tty : TtyScreen} (shows : Shows lines columns terminal tty)
    (wide : 2 ≤ columns) (bytes : List UInt8) :
    ∃ tty', runSteps ttyPutc bytes tty = some tty' ∧
      Shows lines columns (bytes.foldl (Terminal.put lines columns) terminal) tty' := by
  induction bytes generalizing terminal tty with
  | nil => exact ⟨tty, rfl, shows⟩
  | cons ch bytes hypothesis =>
      obtain ⟨next, put, shown⟩ := put_shows shows wide ch
      obtain ⟨last, ran, reached⟩ := hypothesis shown
      refine ⟨last, ?_, reached⟩
      rw [runSteps, put]
      exact ran

/-- After any characters no access has left the arrays, the cursor is on the screen, and the cells
hold what the terminal shows. -/
theorem screen_shows_terminal (high : 0 < lines) (wide : 2 ≤ columns) (bytes : List UInt8) :
    ∃ tty, runSteps ttyPutc bytes (ttyScreenInit lines columns) = some tty ∧
      tty.cursor < tty.size ∧ tty.size = columns * lines ∧
      ∀ row < lines, ∀ col < columns, (tty.buf (row * columns + col)).ch =
        (bytes.foldl (Terminal.put lines columns) Terminal.start).cell row col := by
  obtain ⟨tty, ran, shows⟩ := puts_show (init_shows high wide) wide bytes
  exact ⟨tty, ran, shows.inside, shows.sameSize, shows.cells⟩

/-- A line that wraps and scrolls, and a backspace, on a screen of one line. -/
theorem screen_shows_terminal_once :
    ∃ tty, runSteps ttyPutc [0x61, 0x62, 0x63, backspace, 0x64] (ttyScreenInit 1 2) = some tty ∧
      (tty.buf (0 * 2 + 0)).ch = 0x64 := by
  obtain ⟨tty, ran, -, -, cells⟩ :=
    @screen_shows_terminal 1 2 (by decide) (by decide) [0x61, 0x62, 0x63, backspace, 0x64]
  exact ⟨tty, ran, (cells 0 (by decide) 0 (by decide)).trans (by decide)⟩

end Runs

end OsWorkbench.Kernel
