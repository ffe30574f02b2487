import OsWorkbench.Shell.RoundTrip

/-!
# The parser on printed pieces

One lemma for each function and loop of the parser: at the pieces of a command of its class,
followed by something that the class cannot go on with, it reads that command. With enough fuel the
result does not depend on the fuel.
-/

namespace OsWorkbench.Shell

/-- With enough fuel, this is the result. -/
def Settles {α : Type} (parse : Nat → Except Halt α) (result : α) : Prop :=
  ∃ least, ∀ fuel, least ≤ fuel → parse fuel = .ok result

section Redirections

variable {line : List UInt8} {ps start : Nat} {pieces rest : List Piece} {cmd : Cmd Span}
  {meaning : Cmd (List UInt8)}

def redirsPieces (redirs : List (Direction × Word)) : List Piece :=
  redirs.flatMap fun redir => redirPieces redir.1 redir.2

def redirected (meaning : Cmd (List UInt8)) (redirs : List (Direction × Word)) :
    Cmd (List UInt8) :=
  redirs.foldl (fun cmd redir => .redir cmd redir.2.text redir.1.mode redir.1.fd) meaning

theorem peek_absent (scan : Scan line ps pieces) {toks : List UInt8}
    (absent : strchr toks (upcoming pieces) = false) :
    peek (line ++ [0]) line.length toks ps = (ps, false) := by
  rw [scan.peek, absent, Bool.and_false]

theorem peek_present {piece : Piece} (scan : Scan line ps (piece :: rest)) {toks : List UInt8}
    (present : strchr toks piece.first = true) :
    peek (line ++ [0]) line.length toks ps = (ps, true) := by
  have visible := (first_visible piece).1
  rw [scan.peek]
  change (ps, piece.first != 0 && strchr toks piece.first) = _
  rw [present, bne_iff_ne.mpr visible]
  rfl

theorem after_le (ps : Nat) (piece : Piece) (rest : List Piece) : ps ≤ after ps piece rest := by
  unfold after
  omega

theorem parseredirs_none (scan : Scan line ps pieces)
    (absent : strchr [less, greater] (upcoming pieces) = false) (fuel : Nat) :
    parseredirs (line ++ [0]) line.length (fuel + 1) cmd ps = .ok (cmd, ps) := by
  unfold parseredirs
  rw [peek_absent scan absent]
  rfl

theorem redircmd_direction (direction : Direction) (cmd : Cmd Span) (file : Span) :
    redircmd (Piece.direction direction).ret cmd file =
      .redir cmd file direction.mode direction.fd := by
  cases direction <;> rfl

theorem direction_first (direction : Direction) :
    strchr [less, greater] (Piece.direction direction).first = true := by
  cases direction <;> rfl

theorem parseredirs_step {buf : List UInt8} {es fuel s : Nat} {tok file : Token}
    (found : peek buf es [less, greater] ps = (s, true)) (first : gettoken buf es s = .ok tok)
    (second : gettoken buf es tok.next = .ok file) (word : file.ret = letter) :
    parseredirs buf es (fuel + 1) cmd ps =
      parseredirs buf es fuel (redircmd tok.ret cmd ⟨file.q, file.eq⟩) file.next := by
  rw [parseredirs, found]
  simp only [if_true]
  rw [first]
  change (gettoken buf es tok.next).bind _ = _
  rw [second]
  change (if file.ret ≠ letter then _ else _) = _
  rw [if_neg (not_not.mpr word)]

/-- One redirection. -/
theorem parseredirs_one {direction : Direction} {file : Word}
    (scan : Scan line ps (redirPieces direction file ++ rest)) (reads : Reads line start ps cmd meaning) :
    ∃ cmd' next, (∀ fuel, parseredirs (line ++ [0]) line.length (fuel + 1) cmd ps =
        parseredirs (line ++ [0]) line.length fuel cmd' next) ∧
      Scan line next rest ∧
        Reads line start next cmd' (.redir meaning file.text direction.mode direction.fd) := by
  have second : Scan line (after ps (.direction direction) (.arg (.word file) :: rest))
      (.arg (.word file) :: rest) := scan.next
  have redir := @Reads.redir line start ps _ _ cmd meaning reads _ direction.mode direction.fd
    (after_le ps (.direction direction) (.arg (.word file) :: rest)) second.word_inside
  rw [second.word_text] at redir
  refine ⟨_, _, ?_, second.next, redir⟩
  intro fuel
  have step := @parseredirs_step ps cmd _ _ fuel _ _ _
    (peek_present scan (direction_first direction)) scan.gettoken second.gettoken rfl
  rw [redircmd_direction] at step
  exact step

theorem parseredirs_reads (redirs : List (Direction × Word))
    (scan : Scan line ps (redirsPieces redirs ++ rest)) (reads : Reads line start ps cmd meaning)
    (absent : strchr [less, greater] (upcoming rest) = false) :
    ∃ cmd' next, (∀ fuel, redirs.length < fuel →
        parseredirs (line ++ [0]) line.length fuel cmd ps = .ok (cmd', next)) ∧
      Scan line next rest ∧ Reads line start next cmd' (redirected meaning redirs) := by
  induction redirs generalizing ps cmd meaning with
  | nil =>
      refine ⟨cmd, ps, ?_, scan, reads⟩
      intro fuel more
      cases fuel with
      | zero => cases more
      | succ fuel => exact parseredirs_none scan absent fuel
  | cons redir redirs hypothesis =>
      have split : redirsPieces (redir :: redirs) ++ rest =
          redirPieces redir.1 redir.2 ++ (redirsPieces redirs ++ rest) := by
        simp [redirsPieces]
      rw [split] at scan
      rcases parseredirs_one scan reads with ⟨cmd', next, step, scan', reads'⟩
      rcases hypothesis scan' reads' with ⟨last, stop, ran, scan'', reads''⟩
      refine ⟨last, stop, ?_, scan'', reads''⟩
      intro fuel more
      cases fuel with
      | zero => cases more
      | succ fuel =>
          rw [step]
          exact ran fuel (Nat.lt_of_succ_lt_succ more)

end Redirections

section Arguments

variable {line : List UInt8} {ps start : Nat} {pieces rest : List Piece}

theorem arg_first (arg : Arg) {toks : List UInt8} (inside : toks.all (strchr symbols) = true) :
    strchr toks (Piece.arg arg).first = false := by
  have absent : (Piece.arg arg).first ∉ symbols := by
    cases arg with
    | word word =>
        have first := (word_first word).2.2.2
        simpa [strchr] using first
    | quoted quoted =>
        rcases quoted.isQuote with known | known
        · change quoted.quote ∉ symbols
          rw [known]
          decide
        · change quoted.quote ∉ symbols
          rw [known]
          decide
  unfold strchr
  rw [List.contains_eq_mem, decide_eq_false_iff_not]
  intro listed
  have known := List.all_eq_true.mp inside _ listed
  exact absent (List.contains_iff_mem.mp known)

/-- What an argument list cannot go on with. -/
def Ends (rest : List Piece) : Prop := upcoming rest ∈ [0, bar, right, amp, semi]

theorem Ends.unredirected (ends : Ends rest) : strchr [less, greater] (upcoming rest) = false := by
  unfold Ends at ends
  simp only [List.mem_cons, List.not_mem_nil, or_false] at ends
  rcases ends with known | known | known | known | known <;>
    · rw [known]
      rfl

theorem parseargs_stop (scan : Scan line ps rest) (ends : Ends rest) (cmd : Cmd Span)
    (argc fuel : Nat) :
    parseargs (line ++ [0]) line.length (fuel + 1) cmd argc ps = .ok (cmd, ps) := by
  unfold parseargs
  cases rest with
  | nil =>
      rw [peek_absent scan rfl]
      simp only [Bool.false_eq_true, if_false]
      rw [scan.gettoken_end]
      rfl
  | cons piece rest =>
      have present : strchr [bar, right, amp, semi] piece.first = true := by
        have visible := (first_visible piece).1
        unfold Ends at ends
        change piece.first ∈ _ at ends
        simp only [List.mem_cons, List.not_mem_nil, or_false] at ends
        rcases ends with known | known | known | known | known
        · exact absurd known visible
        all_goals
          rw [known]
          rfl
      rw [peek_present scan present]
      rfl

/-- One argument, up to the redirections behind it. -/
theorem parseargs_step {buf : List UInt8} {es fuel argc s next : Nat} {tok : Token}
    {cmd cmd' : Cmd Span} (ended : peek buf es [bar, right, amp, semi] ps = (s, false))
    (token : gettoken buf es s = .ok tok) (argument : tok.ret = doubleQuote ∨ tok.ret = letter)
    (few : argc + 1 < maxArgs)
    (redirs : parseredirs buf es fuel (cmd.addArg
      (if tok.ret = doubleQuote then ⟨tok.q + 1, tok.eq - 1⟩ else ⟨tok.q, tok.eq⟩)) tok.next =
        .ok (cmd', next)) :
    parseargs buf es (fuel + 1) cmd argc ps = parseargs buf es fuel cmd' (argc + 1) next := by
  have some : tok.ret ≠ 0 := by
    rcases argument with quoted | word
    · exact quoted ▸ by decide
    · exact word ▸ by decide
  have known : ¬(tok.ret ≠ doubleQuote ∧ tok.ret ≠ letter) := by
    rintro ⟨quoted, word⟩
    exact argument.elim quoted word
  rw [parseargs, ended]
  simp only [Bool.false_eq_true, if_false]
  rw [token]
  change (if tok.ret = 0 then _ else _) = _
  rw [if_neg some, if_neg known, if_neg (Nat.not_le_of_lt few)]
  change (parseredirs buf es fuel _ tok.next).bind _ = _
  rw [redirs]
  rfl

theorem parseargs_one {arg : Arg} (scan : Scan line ps (.arg arg :: rest)) :
    ∃ span : Span, span.Inside line ps (after ps (.arg arg) rest) ∧ span.text line = arg.text ∧
      ∀ (fuel argc : Nat) (cmd cmd' : Cmd Span) (next : Nat), argc + 1 < maxArgs →
        parseredirs (line ++ [0]) line.length fuel (cmd.addArg span) (after ps (.arg arg) rest) =
            .ok (cmd', next) →
          parseargs (line ++ [0]) line.length (fuel + 1) cmd argc ps =
            parseargs (line ++ [0]) line.length fuel cmd' (argc + 1) next := by
  have token := scan.gettoken
  have goes : strchr [bar, right, amp, semi] (Piece.arg arg).first = false :=
    arg_first arg (by decide)
  cases arg with
  | word word =>
      refine ⟨⟨ps, ps + word.text.length⟩, scan.word_inside, scan.word_text, ?_⟩
      intro fuel argc cmd cmd' next few redirs
      exact parseargs_step (peek_absent scan goes) token (Or.inr rfl) few redirs
  | quoted quoted =>
      refine ⟨⟨ps + 1, ps + (Piece.arg (.quoted quoted)).text.length - 1⟩, scan.quoted_inside,
        scan.quoted_text, ?_⟩
      intro fuel argc cmd cmd' next few redirs
      exact parseargs_step (peek_absent scan goes) token (Or.inl rfl) few redirs

theorem parseargs_reads (args : List Arg) {arg : Arg} {argv : List Span}
    {texts : List (List UInt8)} {redirs : List (Direction × Word)}
    (scan : Scan line ps ((arg :: args).map Piece.arg ++ redirsPieces redirs ++ rest))
    (reads : Reads line start ps (.exec argv) (.exec texts))
    (few : argv.length + args.length + 1 < maxArgs) (ends : Ends rest) :
    ∃ cmd next, Settles (fun fuel =>
        parseargs (line ++ [0]) line.length fuel (.exec argv) argv.length ps) (cmd, next) ∧
      Scan line next rest ∧
        Reads line start next cmd (redirected (.exec (texts ++ (arg :: args).map Arg.text)) redirs) := by
  induction args generalizing arg argv texts ps with
  | nil =>
      rcases parseargs_one scan with ⟨span, inside, text, step⟩
      have added := reads.arg (Nat.le_refl ps) inside
      rw [text] at added
      rcases parseredirs_reads redirs scan.next added ends.unredirected with
        ⟨cmd, next, ran, scan', reads'⟩
      refine ⟨cmd, next, ⟨redirs.length + 2, ?_⟩, scan', reads'⟩
      intro fuel more
      obtain ⟨fuel, rfl⟩ : ∃ less, fuel = less + 1 := ⟨fuel - 1, by omega⟩
      change parseargs _ _ (fuel + 1) _ _ _ = _
      rw [step fuel argv.length (.exec argv) cmd next (by omega) (ran fuel (by omega))]
      obtain ⟨fuel, rfl⟩ : ∃ less, fuel = less + 1 := ⟨fuel - 1, by omega⟩
      exact parseargs_stop scan' ends cmd _ fuel
  | cons other args hypothesis =>
      rcases parseargs_one scan with ⟨span, inside, text, step⟩
      have added := reads.arg (Nat.le_refl ps) inside
      rw [text] at added
      have second : Scan line _ ((other :: args).map Piece.arg ++ redirsPieces redirs ++ rest) :=
        scan.next
      have size : (argv ++ [span]).length = argv.length + 1 := by simp
      have fewer : (argv ++ [span]).length + args.length + 1 < maxArgs := by
        rw [size]
        simp only [List.length_cons] at few
        omega
      rcases hypothesis second added fewer with ⟨cmd, next, ⟨least, ran⟩, scan', reads'⟩
      refine ⟨cmd, next, ⟨least + 2, ?_⟩, scan', ?_⟩
      · intro fuel more
        obtain ⟨fuel, rfl⟩ : ∃ less, fuel = less + 2 := ⟨fuel - 2, by omega⟩
        have goes : strchr [less, greater] (Piece.arg other).first = false :=
          arg_first other (by decide)
        have none := @parseredirs_none line _ _ (.exec (argv ++ [span])) second goes fuel
        change parseargs _ _ (fuel + 1 + 1) _ _ _ = _
        rw [step (fuel + 1) argv.length (.exec argv) _ _ (by omega) none]
        have done := ran (fuel + 1) (by omega)
        rw [size] at done
        exact done
      · simp only [List.map_cons, List.append_assoc, List.cons_append, List.nil_append] at reads' ⊢
        exact reads'

end Arguments

end OsWorkbench.Shell
