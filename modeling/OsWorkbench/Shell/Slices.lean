import Mathlib.Data.List.TakeWhile
import OsWorkbench.Shell.Undo

/-!
# The slices of the tokens

`gettoken` on any line: it panics at a quote that nothing closes, otherwise the cursor moves past
the token. The slice of a word ends before a character of no word, the slice of a quoted string
before its quote, so two slices that are read one after the other do not touch.
-/

namespace OsWorkbench.Shell

/-- A character that a word goes on with. -/
def inWord (c : UInt8) : Bool := c != 0 && !strchr whitespace c && !strchr symbols c

section Scans

theorem char_drop_any (buf : List UInt8) (s n : Nat) :
    charAt (buf.drop s) n = charAt buf (s + n) := by
  unfold charAt
  rw [List.getD_eq_getElem?_getD, List.getD_eq_getElem?_getD, List.getElem?_drop]

/-- A scan stops at the end or at a character that it does not pass. -/
theorem scan_stops (pass : UInt8 → Bool) (rest : List UInt8) :
    (rest.takeWhile pass).length = rest.length ∨
      pass (charAt rest (rest.takeWhile pass).length) = false := by
  induction rest with
  | nil => exact Or.inl rfl
  | cons c rest hypothesis =>
      cases passed : pass c with
      | false =>
          right
          rw [List.takeWhile_cons_of_neg (by simp [passed])]
          exact passed
      | true =>
          rw [List.takeWhile_cons_of_pos passed, List.length_cons, List.length_cons]
          rcases hypothesis with ends | stopped
          · exact Or.inl (congrArg Nat.succ ends)
          · exact Or.inr stopped

theorem scan_le (pass : UInt8 → Bool) (rest : List UInt8) :
    (rest.takeWhile pass).length ≤ rest.length := (List.takeWhile_prefix pass).length_le

theorem scan_take (pass : UInt8 → Bool) (rest : List UInt8) :
    rest.take (rest.takeWhile pass).length = rest.takeWhile pass :=
  (List.prefix_iff_eq_take.mp (List.takeWhile_prefix pass)).symm

variable {line : List UInt8} {ps s : Nat}

theorem char_line (inside : s ≤ line.length) : charAt (line ++ [0]) s = charAt line s := by
  rw [char_drop inside]
  have dropped := char_drop_any line s 0
  rw [Nat.add_zero] at dropped
  rw [← dropped]
  cases line.drop s <;> rfl

theorem char_inside (visible : charAt line s ≠ 0) : s < line.length := by
  by_contra beyond
  exact visible (List.getD_eq_default _ _ (Nat.le_of_not_lt beyond))

theorem char_inside_buffer (visible : charAt (line ++ [0]) s ≠ 0) : s < line.length := by
  rcases Nat.lt_or_ge s line.length with within | beyond
  · exact within
  · exfalso
    apply visible
    unfold charAt
    rw [List.getD_append_right _ _ _ _ beyond]
    cases s - line.length <;> rfl

theorem skip_blanks_stops (inside : ps ≤ line.length) :
    ps ≤ skipBlanks (line ++ [0]) line.length ps ∧
      skipBlanks (line ++ [0]) line.length ps ≤ line.length ∧
        strchr whitespace (charAt line (skipBlanks (line ++ [0]) line.length ps)) = false := by
  unfold skipBlanks
  rw [scanned_rest]
  have most := scan_le (fun c => strchr whitespace c) (line.drop ps)
  have stops := scan_stops (fun c => strchr whitespace c) (line.drop ps)
  rw [List.length_drop] at most
  refine ⟨Nat.le_add_right _ _, by omega, ?_⟩
  rw [char_drop_any, List.length_drop] at stops
  rcases stops with ends | stopped
  · rw [ends, Nat.add_sub_of_le inside, charAt, List.getD_eq_default _ _ (Nat.le_refl _)]
    rfl
  · exact stopped

theorem skip_blanks_again
    (stopped : strchr whitespace (charAt line ps) = false) :
    skipBlanks (line ++ [0]) line.length ps = ps := by
  unfold skipBlanks
  rw [scanned_rest]
  rcases Nat.lt_or_ge ps line.length with within | ends
  · have first : charAt line ps = getElem line ps within := List.getD_eq_getElem _ _ within
    rw [List.drop_eq_getElem_cons within,
      List.takeWhile_cons_of_neg (by rw [← first, stopped]; decide)]
    rfl
  · rw [List.drop_eq_nil_of_le ends]
    rfl

end Scans

section Slices

/-- What `gettoken` cuts out: a word, or what stands between two quotes. -/
inductive Span.Slice (line : List UInt8) (span : Span) : Prop where
  | word (begins : inWord (charAt line span.q) = true)
      (plain : ∀ c ∈ span.text line, inWord c = true)
      (stops : inWord (charAt line span.eq) = false)
  | quoted (quote : UInt8) (isQuote : quote = doubleQuote ∨ quote = singleQuote)
      (begins : 0 < span.q ∧ charAt line (span.q - 1) = quote) (clean : quote ∉ span.text line)
      (stops : charAt line span.eq = quote)

variable {line : List UInt8} {s : Nat}

theorem word_slice (visible : ∀ c ∈ line, c ≠ 0) (begins : inWord (charAt line s) = true) :
    s < skipWord (line ++ [0]) line.length s ∧
      skipWord (line ++ [0]) line.length s ≤ line.length ∧
        Span.Slice line ⟨s, skipWord (line ++ [0]) line.length s⟩ ∧
          inWord (charAt line (skipWord (line ++ [0]) line.length s)) = false := by
  have within : s < line.length := by
    apply char_inside
    intro zero
    rw [zero] at begins
    cases begins
  unfold skipWord
  rw [scanned_rest]
  have most := scan_le (fun c => !strchr whitespace c && !strchr symbols c) (line.drop s)
  have stops := scan_stops (fun c => !strchr whitespace c && !strchr symbols c) (line.drop s)
  have taken := scan_take (fun c => !strchr whitespace c && !strchr symbols c) (line.drop s)
  have nonempty : 0 < ((line.drop s).takeWhile fun c =>
      !strchr whitespace c && !strchr symbols c).length := by
    have first : charAt line s = getElem line s within := List.getD_eq_getElem _ _ within
    rw [first, inWord, Bool.and_assoc, Bool.and_eq_true] at begins
    rw [List.drop_eq_getElem_cons within, List.takeWhile_cons, if_pos begins.2, List.length_cons]
    exact Nat.succ_pos _
  rw [List.length_drop] at most stops
  rw [char_drop_any] at stops
  have ended : inWord (charAt line (s + ((line.drop s).takeWhile fun c =>
      !strchr whitespace c && !strchr symbols c).length)) = false := by
    rcases stops with ends | stopped
    · rw [ends, Nat.add_sub_of_le (Nat.le_of_lt within), charAt,
        List.getD_eq_default _ _ (Nat.le_refl _)]
      rfl
    · rw [inWord, Bool.and_assoc, stopped, Bool.and_false]
  refine ⟨by omega, by omega, .word begins ?_ ended, ended⟩
  · intro c listed
    unfold Span.text at listed
    rw [Nat.add_sub_cancel_left, taken] at listed
    have passed := List.mem_takeWhile_imp listed
    have shown := visible c (List.mem_of_mem_drop ((List.takeWhile_prefix _).subset listed))
    rw [inWord, Bool.and_assoc, passed, Bool.and_true]
    exact bne_iff_ne.mpr shown

theorem quoted_slice {quote : UInt8} (isQuote : quote = doubleQuote ∨ quote = singleQuote)
    (begins : charAt line s = quote)
    (closed : charAt (line ++ [0]) (skipQuoted (line ++ [0]) quote s) ≠ 0) :
    s < skipQuoted (line ++ [0]) quote s ∧ skipQuoted (line ++ [0]) quote s < line.length ∧
      Span.Slice line ⟨s + 1, skipQuoted (line ++ [0]) quote s⟩ := by
  have within := char_inside_buffer closed
  have value := char_line (Nat.le_of_lt within)
  have stops := scan_stops (fun c => c != quote && c != 0) ((line ++ [0]).drop (s + 1))
  have taken := scan_take (fun c => c != quote && c != 0) ((line ++ [0]).drop (s + 1))
  rw [char_drop_any, List.length_drop] at stops
  have shown : ∀ n, s + 1 + n < line.length →
      ((line ++ [0]).drop (s + 1)).take n = (line.drop (s + 1)).take n := by
    intro n short
    rw [List.drop_append_of_le_length (by omega),
      List.take_append_of_le_length (by rw [List.length_drop]; omega)]
  unfold skipQuoted at within value closed ⊢
  refine ⟨by omega, within, .quoted quote isQuote ⟨Nat.succ_pos s, begins⟩ ?_ ?_⟩
  · intro listed
    unfold Span.text at listed
    rw [Nat.add_sub_cancel_left, ← shown _ within, taken] at listed
    have passed := List.mem_takeWhile_imp listed
    simp at passed
  · rcases stops with ends | stopped
    · rw [List.length_append, List.length_singleton] at ends
      omega
    · rw [value] at stopped closed
      simp only [Bool.and_eq_false_iff, bne_eq_false_iff_eq] at stopped
      rcases stopped with same | zero
      · exact same
      · exact absurd zero closed

end Slices

section Tokens

variable {line : List UInt8} {ps : Nat}

/-- The slice of a token that was read between two positions of the cursor. -/
structure Span.Lies (line : List UInt8) (start stop : Nat) (span : Span) : Prop where
  slice : span.Slice line
  order : span.q ≤ span.eq
  begins : start ≤ span.q
  quoted : inWord (charAt line span.q) = true ∨ start < span.q
  ends : span.eq ≤ stop
  followed : inWord (charAt line span.eq) = false ∨ span.eq < stop

/-- Where a token stands and what its slice is. -/
structure Token.Cut (line : List UInt8) (ps : Nat) (tok : Token) : Prop where
  moves : charAt line (skipBlanks (line ++ [0]) line.length ps) ≠ 0 → ps < tok.next
  forward : ps ≤ tok.next
  bound : tok.next ≤ line.length
  word : tok.ret = letter → Span.Lies line ps tok.next ⟨tok.q, tok.eq⟩
  quoted : tok.ret = doubleQuote → Span.Lies line ps tok.next ⟨tok.q + 1, tok.eq - 1⟩

/-- Behind an operator or at the end of the line. -/
theorem mark_cut {s stop : Nat} {ret : UInt8} (start : ps ≤ s) (order : s ≤ stop)
    (more : charAt line s ≠ 0 → s < stop) (inside : stop ≤ line.length)
    (skipped : skipBlanks (line ++ [0]) line.length ps = s)
    (mark : ret ≠ letter ∧ ret ≠ doubleQuote) :
    Token.Cut line ps ⟨ret, s, stop, skipBlanks (line ++ [0]) line.length stop⟩ where
  moves := by
    intro visible
    rw [skipped] at visible
    have later := (skip_blanks_stops inside).1
    have past := more visible
    change ps < skipBlanks _ _ stop
    omega
  forward := by
    have later := (skip_blanks_stops inside).1
    change ps ≤ skipBlanks _ _ stop
    omega
  bound := (skip_blanks_stops inside).2.1
  word := fun same => absurd same mark.1
  quoted := fun same => absurd same mark.2

theorem quoted_cut {s stop : Nat} (start : ps ≤ s) (order : s < stop) (inside : stop < line.length)
    (slice : Span.Slice line ⟨s + 1, stop⟩) :
    Token.Cut line ps ⟨doubleQuote, s, stop + 1,
      skipBlanks (line ++ [0]) line.length (stop + 1)⟩ := by
  have later := skip_blanks_stops (Nat.succ_le_of_lt inside)
  rw [Nat.succ_eq_add_one] at later
  refine ⟨fun _ => ?_, ?_, later.2.1, nofun, fun _ => ⟨slice, ?_, ?_, Or.inr ?_, ?_, Or.inr ?_⟩⟩
  all_goals dsimp only
  all_goals omega

theorem word_cut {s stop : Nat} (start : ps ≤ s) (order : s < stop) (inside : stop ≤ line.length)
    (slice : Span.Slice line ⟨s, stop⟩) (begins : inWord (charAt line s) = true)
    (stops : inWord (charAt line stop) = false) :
    Token.Cut line ps ⟨letter, s, stop, skipBlanks (line ++ [0]) line.length stop⟩ := by
  have later := skip_blanks_stops inside
  have order' := Nat.le_of_lt order
  refine ⟨fun _ => ?_, ?_, later.2.1, fun _ => ⟨slice, order', start, Or.inl begins, later.1,
    Or.inl stops⟩, nofun⟩
  all_goals dsimp only
  all_goals omega

/-- `gettoken` panics or cuts a token out of the line. -/
theorem gettoken_cut (visible : ∀ c ∈ line, c ≠ 0) (inside : ps ≤ line.length) :
    gettoken (line ++ [0]) line.length ps = .error .panic ∨
      ∃ tok, gettoken (line ++ [0]) line.length ps = .ok tok ∧ tok.Cut line ps := by
  have start := skip_blanks_stops inside
  have value := char_line start.2.1
  unfold gettoken
  generalize skipped : skipBlanks (line ++ [0]) line.length ps = s at start value ⊢
  simp only [value]
  have within : charAt line s ≠ 0 → s + 1 ≤ line.length := char_inside
  split
  next isQuote =>
    split
    next => exact Or.inl rfl
    next closed =>
      have cut := quoted_slice isQuote rfl closed
      exact Or.inr ⟨_, rfl, quoted_cut start.1 cut.1 cut.2.1 cut.2.2⟩
  next unquoted =>
    right
    split
    next zero =>
      exact ⟨_, rfl, mark_cut start.1 (Nat.le_refl s) (fun more => absurd zero more) start.2.1
        skipped (by decide)⟩
    next nonzero =>
      have advance := within nonzero
      split
      next known =>
        have mark : charAt line s ≠ letter ∧ charAt line s ≠ doubleQuote := by
          rcases known with same | same | same | same | same | same <;> rw [same] <;> decide
        exact ⟨_, rfl, mark_cut start.1 (Nat.le_succ s) (fun _ => Nat.lt_succ_self s) advance
          skipped mark⟩
      next other =>
        split
        next known =>
          split
          next twice =>
            have second : s + 1 < line.length := by
              apply char_inside_buffer
              rw [twice]
              decide
            exact ⟨_, rfl, mark_cut start.1 (by omega) (fun _ => by omega) second skipped
              (by decide)⟩
          next =>
            exact ⟨_, rfl, mark_cut start.1 (Nat.le_succ s) (fun _ => Nat.lt_succ_self s) advance
              skipped (by decide)⟩
        next last =>
          have begins : inWord (charAt line s) = true := by
            have apart : strchr symbols (charAt line s) = false := by
              simp only [not_or] at other
              simp [strchr, symbols, other, last]
            rw [inWord, start.2.2, apart, bne_iff_ne.mpr nonzero]
            rfl
          have cut := word_slice visible begins
          exact ⟨_, rfl, word_cut start.1 cut.1 cut.2.1 cut.2.2.1 begins cut.2.2.2⟩

end Tokens

end OsWorkbench.Shell
