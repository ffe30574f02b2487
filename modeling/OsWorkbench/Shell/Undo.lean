import OsWorkbench.Shell.Classes

/-!
# Parsing undoes printing

The line that `parsecmd` is given has no NUL, the classes of the grammar make it read all of it, and
the NULs of `nulterminate` stand behind the strings of the command and in none of them.
-/

namespace OsWorkbench.Shell

section Line

theorem piece_visible (piece : Piece) : ∀ c ∈ piece.text, c ≠ 0 := by
  cases piece with
  | arg arg =>
      cases arg with
      | word word => exact fun c listed => (word.plain c listed).1
      | quoted quoted =>
          have visible : quoted.quote ≠ 0 := (first_visible (.arg (.quoted quoted))).1
          intro c listed
          simp only [Piece.text, List.cons_append, List.mem_cons, List.mem_append,
            List.not_mem_nil, or_false] at listed
          rcases listed with known | inner | known
          · exact known ▸ visible
          · exact (quoted.clean c inner).1
          · exact known ▸ visible
  | direction direction => cases direction <;> simp [Piece.text, less, greater]
  | sign sign => cases sign <;> simp [Piece.text, Sign.char, bar, amp, semi, left, right]

theorem joined_visible (pieces : List Piece) : ∀ c ∈ joined pieces, c ≠ 0 := by
  induction pieces with
  | nil => exact fun _ listed => nomatch listed
  | cons piece rest hypothesis =>
      intro c listed
      rw [joined_cons, List.mem_append] at listed
      rcases listed with own | other
      · exact piece_visible piece c own
      · split at other
        · cases other
        · rcases List.mem_cons.mp other with space | inner
          · rw [space]
            decide
          · exact hypothesis c inner

theorem strlen_line {line : List UInt8} (visible : ∀ c ∈ line, c ≠ 0) :
    strlen (line ++ [0]) = line.length := by
  have counted : ∀ c ∈ line, (c != 0) = true := fun c listed => bne_iff_ne.mpr (visible c listed)
  unfold strlen
  rw [List.takeWhile_append_of_pos counted, List.takeWhile_cons_of_neg (by decide), List.append_nil]

theorem Scan.ends {line : List UInt8} {ps : Nat} (scan : Scan line ps []) : ps = line.length := by
  have rest : line.drop ps = [] := scan.rest
  exact Nat.le_antisymm scan.inside (List.drop_eq_nil_iff.mp rest)

end Line

section Terminators

/-- `nulterminate` puts a NUL behind each string. -/
def terminated (spans : List Span) (buf : List UInt8) : List UInt8 :=
  spans.foldl (fun buf span => buf.set span.eq 0) buf

theorem nulterminate_strings (cmd : Cmd Span) (buf : List UInt8) :
    nulterminate cmd buf = terminated cmd.strings buf := by
  induction cmd generalizing buf with
  | exec argv => rfl
  | redir cmd file mode fd hypothesis =>
      rw [nulterminate, hypothesis, Cmd.strings, terminated, terminated, List.foldl_append]
      rfl
  | pipe left right first second =>
      rw [nulterminate, first, second, Cmd.strings, terminated, terminated, terminated,
        List.foldl_append]
  | list left right first second =>
      rw [nulterminate, first, second, Cmd.strings, terminated, terminated, terminated,
        List.foldl_append]
  | back cmd hypothesis => exact hypothesis buf

variable {buf : List UInt8} {q size : Nat}

theorem window_set {place : Nat} (outside : place < q ∨ q + size ≤ place) :
    ((buf.set place 0).drop q).take size = (buf.drop q).take size := by
  apply List.ext_getElem?
  intro i
  simp only [List.getElem?_take, List.getElem?_drop]
  split
  · rw [List.getElem?_set_ne (by omega)]
  · rfl

theorem window_terminated {spans : List Span}
    (outside : ∀ span ∈ spans, span.eq < q ∨ q + size ≤ span.eq) :
    ((terminated spans buf).drop q).take size = (buf.drop q).take size := by
  induction spans generalizing buf with
  | nil => rfl
  | cons span spans hypothesis =>
      have behind := @hypothesis (buf.set span.eq 0) fun other listed =>
        outside other (List.mem_cons_of_mem _ listed)
      exact behind.trans (window_set (outside span List.mem_cons_self))

theorem terminated_stays {spans : List Span} {place : Nat} (zero : buf[place]? = some 0) :
    (terminated spans buf)[place]? = some 0 := by
  induction spans generalizing buf with
  | nil => exact zero
  | cons span spans hypothesis =>
      apply hypothesis
      rw [List.getElem?_set]
      split
      next same =>
        have inside : place < buf.length := by
          rw [List.getElem?_eq_some_iff] at zero
          exact zero.1
        rw [if_pos (same ▸ inside)]
      next other => exact zero

theorem terminated_zero {spans : List Span} {span : Span} (listed : span ∈ spans)
    (inside : span.eq < buf.length) : (terminated spans buf)[span.eq]? = some 0 := by
  induction spans generalizing buf with
  | nil => cases listed
  | cons first spans hypothesis =>
      rcases List.mem_cons.mp listed with same | other
      · change (terminated spans (buf.set first.eq 0))[span.eq]? = some 0
        rw [← same]
        exact terminated_stays (List.getElem?_set_self inside)
      · change (terminated spans (buf.set first.eq 0))[span.eq]? = some 0
        apply hypothesis other
        rw [List.length_set]
        exact inside

theorem cString_window {text : List UInt8} (window : (buf.drop q).take size = text)
    (visible : ∀ c ∈ text, c ≠ 0) (zero : buf[q + size]? = some 0) : cString buf q = text := by
  have counted : ∀ c ∈ text, (c != 0) = true := fun c listed => bne_iff_ne.mpr (visible c listed)
  have inside := (List.getElem?_eq_some_iff.mp zero).1
  have value := (List.getElem?_eq_some_iff.mp zero).2
  have rest : buf.drop (q + size) = 0 :: buf.drop (q + size + 1) := by
    rw [List.drop_eq_getElem_cons inside, value]
  unfold cString
  rw [← List.take_append_drop size (buf.drop q), window, List.drop_drop, rest,
    List.takeWhile_append_of_pos counted, List.takeWhile_cons_of_neg (by decide), List.append_nil]

/-- A string reads as it was if no NUL stands in it. -/
theorem terminated_reads {line : List UInt8} (visible : ∀ c ∈ line, c ≠ 0) {spans : List Span}
    {span : Span} (listed : span ∈ spans) (order : span.q ≤ span.eq)
    (ends : span.eq ≤ line.length)
    (apart : ∀ other ∈ spans, other.eq < span.q ∨ span.eq ≤ other.eq) :
    cString (terminated spans (line ++ [0])) span.q = span.text line := by
  have stops : span.q + (span.eq - span.q) = span.eq := by omega
  have shown : ((line ++ [0]).drop span.q).take (span.eq - span.q) = span.text line := by
    rw [List.drop_append_of_le_length (by omega), List.take_append_of_le_length]
    · rfl
    · rw [List.length_drop]
      omega
  apply @cString_window _ _ (span.eq - span.q)
  · rw [window_terminated, shown]
    intro other second
    rw [stops]
    exact apart other second
  · intro c within
    exact visible c (List.mem_of_mem_drop (List.mem_of_mem_take within))
  · rw [stops]
    apply terminated_zero listed
    rw [List.length_append, List.length_singleton]
    omega

end Terminators

section Commands

variable {line : List UInt8} {start stop : Nat} {cmd : Cmd Span} {meaning : Cmd (List UInt8)}

/-- The NUL behind one string is in no other. -/
theorem Reads.apart (reads : Reads line start stop cmd meaning) {span other : Span}
    (listed : span ∈ cmd.strings) (second : other ∈ cmd.strings) :
    other.eq < span.q ∨ span.eq ≤ other.eq := by
  have later : cmd.strings.Pairwise fun span other =>
      other.eq < span.q ∨ span.eq ≤ other.eq := by
    apply reads.sorted.imp_of_mem
    intro span other _ listed before
    have order := (reads.inside other listed).order
    right
    omega
  have earlier : cmd.strings.Pairwise (flip fun span other : Span =>
      other.eq < span.q ∨ span.eq ≤ other.eq) := reads.sorted.imp Or.inl
  have self : ∀ span ∈ cmd.strings, span.eq < span.q ∨ span.eq ≤ span.eq :=
    fun span _ => Or.inr (Nat.le_refl span.eq)
  exact List.Pairwise.forall_of_forall_of_flip self later earlier listed second

theorem map_congr {α β : Type} {cmd : Cmd α} {f g : α → β} (same : ∀ s ∈ cmd.strings, f s = g s) :
    cmd.map f = cmd.map g := by
  induction cmd with
  | exec argv => exact congrArg Cmd.exec (List.map_congr_left same)
  | redir cmd file mode fd hypothesis =>
      rw [Cmd.map, Cmd.map, hypothesis fun s listed => same s (List.mem_append_left _ listed),
        same file (List.mem_append_right _ (List.mem_singleton_self file))]
  | pipe left right first second =>
      rw [Cmd.map, Cmd.map, first fun s listed => same s (List.mem_append_left _ listed),
        second fun s listed => same s (List.mem_append_right _ listed)]
  | list left right first second =>
      rw [Cmd.map, Cmd.map, first fun s listed => same s (List.mem_append_left _ listed),
        second fun s listed => same s (List.mem_append_right _ listed)]
  | back cmd hypothesis => rw [Cmd.map, Cmd.map, hypothesis same]

/-- The strings of a command, read in the buffer that `nulterminate` leaves. -/
theorem Reads.terminated (reads : Reads line start stop cmd meaning)
    (visible : ∀ c ∈ line, c ≠ 0) (whole : stop = line.length) :
    cmd.map (fun span => cString (nulterminate cmd (line ++ [0])) span.q) = meaning := by
  rw [← reads.same]
  apply map_congr
  intro span listed
  have inside := reads.inside span listed
  have order := inside.order
  have ends : span.eq ≤ line.length := whole ▸ inside.ends
  rw [nulterminate_strings]
  exact terminated_reads visible listed order ends fun other second => reads.apart listed second

end Commands

/-- `parsecmd` on the line of a command tree gives that tree back. -/
theorem parsecmd_printed (tree : Tree) :
    ∃ least, ∀ fuel, least ≤ fuel →
      ∃ cmd buf, parsecmd fuel (tree.printed ++ [0]) = .ok (cmd, buf) ∧
        cmd.map (fun span => cString buf span.q) = tree.cmd := by
  have visible : ∀ c ∈ tree.printed, c ≠ 0 := joined_visible tree.pieces
  have accepts : AcceptsLine tree.pieces tree.cmd := rank_mono (tree_accepts tree) (rank_le tree)
  have scan : Scan tree.printed 0 (tree.pieces ++ []) := by
    rw [List.append_nil]
    exact ⟨rfl, Nat.zero_le _⟩
  rcases accepts tree.printed 0 [] scan (by decide : (0 : UInt8) ∈ [0, right]) with
    ⟨cmd, next, ⟨least, ran⟩, scan', reads⟩
  refine ⟨least, ?_⟩
  intro fuel enough
  refine ⟨cmd, nulterminate cmd (tree.printed ++ [0]), ?_, reads.terminated visible scan'.ends⟩
  have parsed := ran fuel enough
  simp only at parsed
  have looked := peek_absent scan' (by decide : strchr [] 0 = false)
  rw [scan'.ends] at looked
  unfold parsecmd
  simp [strlen_line visible, parsed, looked, scan'.ends, bind, Except.bind]

end OsWorkbench.Shell
