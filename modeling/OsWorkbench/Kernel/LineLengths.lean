import OsWorkbench.Kernel.LineDiscipline

/-!
# Reads with a small buffer

`tty_read` stops storing at its count and goes on counting, and it takes the whole line from the
ring. What it returns is the length of the line.
-/

namespace OsWorkbench.Kernel

/-- Calls of `tty_read` with these counts, one after the other. -/
def ttyReads : List Nat → TtyQueue → Option (TtyQueue × List TtyRead)
  | [], q => some (q, [])
  | count :: counts, q =>
      (ttyDrain ttyCookBufSz q ⟨count, [], 0⟩).bind fun first =>
        (ttyReads counts first.1).map fun later => (later.1, first.2 :: later.2)

/-- What a call with this count makes of a line. -/
def lineRead (line : List UInt8) (count : Nat) : TtyRead := ⟨count, line.take count, line.length⟩

/-- The reads get lines that their counts have room for. -/
def Fit (lines : List (List UInt8)) (counts : List Nat) : Prop :=
  List.Forall₂ (fun line count => line.length ≤ count) (lines.take counts.length) counts

variable {q : TtyQueue} {lines : List (List UInt8)} {current : List UInt8}

/-- Each call takes one line and stores what its count allows. -/
theorem reads_take (visible : ∀ line ∈ lines, 0 ∉ line)
    (stores : q.Stores (queuedBytes lines current)) {counts : List Nat}
    (enough : counts.length ≤ lines.length) :
    ∃ q', ttyReads counts q = some (q', List.zipWith lineRead lines counts) ∧
      q'.Stores (queuedBytes (lines.drop counts.length) current) := by
  induction counts generalizing q lines with
  | nil => exact ⟨q, by rw [List.zipWith_nil_right]; rfl, stores⟩
  | cons count counts hypothesis =>
      cases lines with
      | nil => exact absurd enough (Nat.not_succ_le_zero _)
      | cons line lines =>
          rw [queued_first] at stores
          have short := stores.room
          rw [List.length_append] at short
          obtain ⟨q₁, drained, holds⟩ := drain_line (visible line List.mem_cons_self)
            ⟨count, [], 0⟩ (by simp) (show line.length < ttyCookBufSz by omega) stores
          obtain ⟨q', read, left⟩ := hypothesis
            (fun other member => visible other (List.mem_cons_of_mem line member)) holds.toStores
            (Nat.le_of_succ_le_succ enough)
          refine ⟨q', ?_, left⟩
          rw [ttyReads, drained, Option.bind_some, read]
          simp [lineRead]

/-- A call that returns the number of bytes it stored has stored the whole line. -/
theorem counts_suffice {counts : List Nat} (enough : counts.length ≤ lines.length)
    (exact : ∀ call ∈ List.zipWith lineRead lines counts, call.nread = call.buf.length) :
    Fit lines counts := by
  induction counts generalizing lines with
  | nil => exact List.Forall₂.nil
  | cons count counts hypothesis =>
      cases lines with
      | nil => exact absurd enough (Nat.not_succ_le_zero _)
      | cons line lines =>
          rw [List.zipWith_cons_cons, List.forall_mem_cons] at exact
          have stored : line.length = (line.take count).length := exact.1
          rw [List.length_take] at stored
          refine List.Forall₂.cons (by omega) ?_
          exact hypothesis (Nat.le_of_succ_le_succ enough) exact.2

theorem calls_counts {counts : List Nat} (enough : counts.length ≤ lines.length) :
    (List.zipWith lineRead lines counts).map TtyRead.count = counts := by
  induction counts generalizing lines with
  | nil => simp
  | cons count counts hypothesis =>
      cases lines with
      | nil => exact absurd enough (Nat.not_succ_le_zero _)
      | cons line lines =>
          rw [List.zipWith_cons_cons, List.map_cons, hypothesis (Nat.le_of_succ_le_succ enough)]
          rfl

theorem calls_bounded (lines : List (List UInt8)) (counts : List Nat) :
    ∀ call ∈ List.zipWith lineRead lines counts, call.buf.length ≤ call.count := by
  induction counts generalizing lines with
  | nil => simp
  | cons count counts hypothesis =>
      cases lines with
      | nil => simp
      | cons line lines =>
          rw [List.zipWith_cons_cons, List.forall_mem_cons]
          exact ⟨List.length_take_le count line, hypothesis lines⟩

theorem lines_stored {counts : List Nat} (enough : counts.length ≤ lines.length)
    (fit : Fit lines counts) :
    (∀ call ∈ List.zipWith lineRead lines counts, call.nread = call.buf.length) ∧
      (List.zipWith lineRead lines counts).flatMap TtyRead.buf =
        (lines.take counts.length).flatten := by
  induction counts generalizing lines with
  | nil => simp
  | cons count counts hypothesis =>
      cases lines with
      | nil => exact absurd enough (Nat.not_succ_le_zero _)
      | cons line lines =>
          obtain ⟨first, later⟩ := List.forall₂_cons.mp fit
          obtain ⟨returned, stored⟩ := hypothesis (Nat.le_of_succ_le_succ enough) later
          have whole : line.take count = line := List.take_of_length_le first
          rw [List.zipWith_cons_cons, List.forall_mem_cons, List.flatMap_cons, stored,
            List.length_cons, List.take_succ_cons, List.flatten_cons]
          exact ⟨⟨congrArg List.length whole.symm, returned⟩, congrArg (· ++ _) whole⟩

/-- The reads return what they stored, and what they stored is the lines, if and only if no line is
longer than the count of its read. -/
theorem reads_respect_counts (visible : ∀ line ∈ lines, 0 ∉ line)
    (stores : q.Stores (queuedBytes lines current)) {counts : List Nat}
    (enough : counts.length ≤ lines.length) :
    ∃ q' calls, ttyReads counts q = some (q', calls) ∧ calls.map TtyRead.count = counts ∧
      (((∀ call ∈ calls, call.buf.length ≤ call.count) ∧
          (∀ call ∈ calls, call.nread = call.buf.length) ∧
          calls.flatMap TtyRead.buf = (lines.take counts.length).flatten) ↔ Fit lines counts) := by
  obtain ⟨q', read, -⟩ := reads_take visible stores enough
  refine ⟨q', _, read, calls_counts enough, ?_, ?_⟩
  · rintro ⟨-, returned, -⟩
    exact counts_suffice enough returned
  · intro fit
    exact ⟨calls_bounded lines counts, lines_stored enough fit⟩

/-- The ring in which the lines `abc` and `d` are complete. -/
def twoLines : TtyQueue := ⟨fun place => [0x61, 0x62, 0x63, 0, 0x64, 0].getD place 0, 0, 6⟩

theorem two_lines_stored : twoLines.Stores (queuedBytes [[0x61, 0x62, 0x63], [0x64]] []) where
  inside := by decide
  room := by decide
  rear := rfl
  bytes := rfl

theorem reads_respect_counts_once : ∃ q' calls, ttyReads [8, 2] twoLines = some (q', calls) ∧
    calls.flatMap TtyRead.buf = [0x61, 0x62, 0x63, 0x64] := by
  have fit : Fit [[0x61, 0x62, 0x63], [0x64]] [8, 2] :=
    .cons (by decide) (.cons (by decide) .nil)
  obtain ⟨q', calls, read, -, exactly⟩ := @reads_respect_counts twoLines _ _ (by decide)
    two_lines_stored [8, 2] (by decide)
  exact ⟨q', calls, read, (exactly.mpr fit).2.2⟩

/-- With a count of two the first call stores two bytes and returns three; `c` is never stored. -/
theorem short_read_skips : (ttyReads [2, 2] twoLines).map Prod.snd =
    some [⟨2, [0x61, 0x62], 3⟩, ⟨2, [0x64], 1⟩] := rfl

end OsWorkbench.Kernel
