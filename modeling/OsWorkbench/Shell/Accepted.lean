import OsWorkbench.Shell.Classes
import OsWorkbench.Shell.Slices

/-!
# Every line

The parser on any line ends: it panics or it reads a command, and what it reads are slices of
tokens at places that do not touch. So the NUL that `nulterminate` puts behind one of them is in
no other.
-/

namespace OsWorkbench.Shell

section Held

variable {line : List UInt8} {start middle resumed stop : Nat} {spans firsts seconds : List Span}

/-- The strings of a command that was read between two positions of the cursor. -/
structure Held (line : List UInt8) (start stop : Nat) (spans : List Span) : Prop where
  inside : ∀ span ∈ spans, span.Lies line start stop
  apart : ∀ span ∈ spans, ∀ other ∈ spans, other.eq < span.q ∨ span.eq ≤ other.eq
  forward : start ≤ stop
  bound : stop ≤ line.length

theorem Span.Lies.widen {span : Span} {earlier later : Nat} (lies : span.Lies line start stop)
    (before : earlier ≤ start) (behind : stop ≤ later) : span.Lies line earlier later where
  slice := lies.slice
  order := lies.order
  begins := Nat.le_trans before lies.begins
  quoted := lies.quoted.imp_right (Nat.lt_of_le_of_lt before)
  ends := Nat.le_trans lies.ends behind
  followed := lies.followed.imp_right fun short => Nat.lt_of_lt_of_le short behind

/-- A slice ends before a slice that is read later begins: one that ended where the other begins
would end at a character of a word. -/
theorem Span.Lies.before {first second : Span} (former : first.Lies line start middle)
    (order : middle ≤ resumed) (latter : second.Lies line resumed stop) : first.eq < second.q := by
  have ends := former.ends
  have begins := latter.begins
  rcases Nat.lt_or_ge first.eq second.q with short | touching
  · exact short
  · exfalso
    have same : first.eq = second.q := by omega
    rcases former.followed with outside | short
    · rcases latter.quoted with word | quoted
      · rw [same, word] at outside
        cases outside
      · omega
    · omega

theorem Span.Lies.moves {span : Span} (lies : span.Lies line start stop) : start < stop := by
  have order := lies.order
  have begins := lies.begins
  have ends := lies.ends
  rcases Nat.lt_or_ge start stop with forward | still
  · exact forward
  · exfalso
    have same : span.eq = span.q := by omega
    rcases lies.followed with outside | short
    · rcases lies.quoted with word | quoted
      · rw [same, word] at outside
        cases outside
      · omega
    · omega

theorem Held.nothing (bound : start ≤ line.length) : Held line start start [] where
  inside := nofun
  apart := nofun
  forward := Nat.le_refl start
  bound := bound

theorem Held.single {span : Span} (lies : span.Lies line start stop) (bound : stop ≤ line.length) :
    Held line start stop [span] where
  inside := by
    intro other listed
    rw [List.mem_singleton.mp listed]
    exact lies
  apart := by
    intro one listed other second
    rw [List.mem_singleton.mp listed, List.mem_singleton.mp second]
    exact Or.inr (Nat.le_refl _)
  forward := Nat.le_trans lies.begins (Nat.le_trans lies.order lies.ends)
  bound := bound

theorem Held.widen {earlier later : Nat} (held : Held line start stop spans)
    (before : earlier ≤ start) (behind : stop ≤ later) (bound : later ≤ line.length) :
    Held line earlier later spans where
  inside := fun span listed => (held.inside span listed).widen before behind
  apart := held.apart
  forward := Nat.le_trans before (Nat.le_trans held.forward behind)
  bound := bound

theorem Held.join (former : Held line start middle firsts) (order : middle ≤ resumed)
    (latter : Held line resumed stop seconds)
    (all : ∀ span ∈ spans, span ∈ firsts ∨ span ∈ seconds) : Held line start stop spans where
  inside := by
    intro span listed
    rcases all span listed with first | second
    · exact (former.inside span first).widen (Nat.le_refl _) (Nat.le_trans order latter.forward)
    · exact (latter.inside span second).widen (Nat.le_trans former.forward order) (Nat.le_refl _)
  apart := by
    intro span listed other also
    rcases all span listed with first | second
    · rcases all other also with early | late
      · exact former.apart span first other early
      · have before := (former.inside span first).before order (latter.inside other late)
        have inner := (latter.inside other late).order
        right
        omega
    · rcases all other also with early | late
      · exact Or.inl ((former.inside other early).before order (latter.inside span second))
      · exact latter.apart span second other late
  forward := Nat.le_trans former.forward (Nat.le_trans order latter.forward)
  bound := latter.bound

/-- A command with one more string, which was read behind the others. -/
theorem Held.add {span : Span} (former : Held line start middle firsts) (order : middle ≤ resumed)
    (lies : span.Lies line resumed stop) (bound : stop ≤ line.length)
    (all : ∀ other ∈ spans, other ∈ firsts ∨ other = span) : Held line start stop spans := by
  apply former.join order (.single lies bound)
  intro other listed
  exact (all other listed).imp_right fun same => List.mem_singleton.mpr same

end Held

section Finishing

/-- With enough fuel the result is a `panic`, or a command that was read from `start` on and a
cursor not before `ps`. -/
def Finishes (line : List UInt8) (start ps : Nat)
    (parse : Nat → Except Halt (Cmd Span × Nat)) : Prop :=
  (∃ least, ∀ fuel, least ≤ fuel → parse fuel = .error .panic) ∨
    ∃ cmd next, Settles parse (cmd, next) ∧ ps ≤ next ∧ Held line start next cmd.strings

variable {line : List UInt8} {start earlier ps next resumed : Nat} {cmd : Cmd Span}
  {parse body : Nat → Except Halt (Cmd Span × Nat)}

theorem finishes_panic (same : ∀ fuel, parse fuel = .error .panic) : Finishes line start ps parse :=
  Or.inl ⟨0, fun fuel _ => same fuel⟩

theorem finishes_ok (same : ∀ fuel, parse fuel = .ok (cmd, next))
    (order : ps ≤ next) (held : Held line start next cmd.strings) : Finishes line start ps parse :=
  Or.inr ⟨cmd, next, ⟨0, fun fuel _ => same fuel⟩, order, held⟩

/-- A function of the parser finishes if its body does. -/
theorem finishes_succ (unfolds : ∀ fuel, parse (fuel + 1) = body fuel)
    (finishes : Finishes line start ps body) : Finishes line start ps parse := by
  rcases finishes with ⟨least, panics⟩ | ⟨cmd, next, ⟨least, ran⟩, order, held⟩
  · refine Or.inl ⟨least + 1, ?_⟩
    intro fuel more
    cases fuel with
    | zero => cases more
    | succ fuel => exact (unfolds fuel).trans (panics fuel (Nat.le_of_succ_le_succ more))
  · refine Or.inr ⟨cmd, next, settles_succ least ?_, order, held⟩
    intro fuel more
    exact (unfolds fuel).trans (ran fuel more)

/-- One function after the other. -/
theorem finishes_bind (more : Cmd Span → Nat → Nat → Except Halt (Cmd Span × Nat))
    (first : Finishes line earlier resumed parse)
    (second : ∀ cmd next, resumed ≤ next → Held line earlier next cmd.strings →
      Finishes line start ps fun fuel => more cmd next fuel) :
    Finishes line start ps fun fuel => parse fuel >>= fun result => more result.1 result.2 fuel := by
  rcases first with ⟨least, panics⟩ | ⟨cmd, next, ⟨least, ran⟩, order, held⟩
  · refine Or.inl ⟨least, ?_⟩
    intro fuel enough
    simp only [panics fuel enough]
    rfl
  · rcases second cmd next order held with ⟨limit, panics⟩ | ⟨last, stop, ⟨limit, behind⟩, kept⟩
    · refine Or.inl ⟨least + limit, ?_⟩
      intro fuel enough
      simp only [ran fuel (by omega)]
      exact panics fuel (by omega)
    · refine Or.inr ⟨last, stop, ⟨least + limit, ?_⟩, kept⟩
      intro fuel enough
      simp only [ran fuel (by omega)]
      exact behind fuel (by omega)

/-- A token, and then the rest. -/
theorem finishes_token (visible : ∀ c ∈ line, c ≠ 0) (inside : resumed ≤ line.length)
    {more : Token → Nat → Except Halt (Cmd Span × Nat)}
    (rest : ∀ tok, tok.Cut line resumed → Finishes line start ps fun fuel => more tok fuel) :
    Finishes line start ps fun fuel =>
      gettoken (line ++ [0]) line.length resumed >>= fun tok => more tok fuel := by
  rcases gettoken_cut visible inside with panics | ⟨tok, found, cut⟩
  · simp only [panics]
    exact finishes_panic fun _ => rfl
  · simp only [found]
    exact rest tok cut

theorem Finishes.widen (finishes : Finishes line start resumed parse) (before : earlier ≤ start)
    (order : ps ≤ resumed) : Finishes line earlier ps parse := by
  rcases finishes with panics | ⟨cmd, next, settles, forward, held⟩
  · exact Or.inl panics
  · exact Or.inr ⟨cmd, next, settles, Nat.le_trans order forward,
      held.widen before (Nat.le_refl _) held.bound⟩

theorem Token.Cut.moved {tok : Token} (cut : tok.Cut line ps)
    (still : skipBlanks (line ++ [0]) line.length ps = ps) (shown : charAt line ps ≠ 0) :
    ps < tok.next := by
  apply cut.moves
  rw [still]
  exact shown

/-- Where `peek` leaves the cursor: on a character that is not blank, a token if it says so. -/
theorem peek_place (toks : List UInt8) (inside : ps ≤ line.length) :
    ∃ s found, peek (line ++ [0]) line.length toks ps = (s, found) ∧ ps ≤ s ∧ s ≤ line.length ∧
      skipBlanks (line ++ [0]) line.length s = s ∧ (found = true → charAt line s ≠ 0) := by
  have stops := skip_blanks_stops inside
  refine ⟨_, _, rfl, stops.1, stops.2.1, skip_blanks_again stops.2.2, ?_⟩
  intro found
  rw [char_line stops.2.1] at found
  exact bne_iff_ne.mp (Bool.and_eq_true_iff.mp found).1

end Finishing

section Loops

variable {line : List UInt8} {start ps : Nat} {cmd : Cmd Span}

theorem redircmd_strings (tok : UInt8) (cmd : Cmd Span) (file : Span) :
    ∀ other ∈ (redircmd tok cmd file).strings, other ∈ cmd.strings ∨ other = file := by
  intro other listed
  unfold redircmd at listed
  split at listed
  · simpa [Cmd.strings] using listed
  · split at listed
    · simpa [Cmd.strings] using listed
    · split at listed
      · simpa [Cmd.strings] using listed
      · exact Or.inl listed

theorem add_arg_strings (arg : Span) (cmd : Cmd Span) :
    ∀ other ∈ (cmd.addArg arg).strings, other ∈ cmd.strings ∨ other = arg := by
  induction cmd with
  | exec argv =>
      intro other listed
      simpa [Cmd.addArg, Cmd.strings] using listed
  | redir cmd file mode fd hypothesis =>
      intro other listed
      rcases List.mem_append.mp listed with inner | last
      · exact (hypothesis other inner).imp_left fun known => List.mem_append_left _ known
      · exact Or.inl (List.mem_append_right _ last)
  | pipe left right _ _ => exact fun other listed => Or.inl listed
  | list left right _ _ => exact fun other listed => Or.inl listed
  | back cmd _ => exact fun other listed => Or.inl listed

/-- Each turn of the loop moves the cursor, and its file lies behind what was read. -/
theorem parseredirs_finishes (visible : ∀ c ∈ line, c ≠ 0)
    (held : Held line start ps cmd.strings) :
    Finishes line start ps fun fuel => parseredirs (line ++ [0]) line.length fuel cmd ps := by
  induction remaining : line.length - ps using Nat.strong_induction_on generalizing cmd ps with
  | _ remaining hypothesis =>
      rcases peek_place [less, greater] held.bound with
        ⟨s, found, looked, order, bound, still, shown⟩
      cases found with
      | false =>
          have unfolds : ∀ fuel, parseredirs (line ++ [0]) line.length (fuel + 1) cmd ps =
              .ok (cmd, s) := by
            intro fuel
            simp only [parseredirs, looked]
            rfl
          exact finishes_succ unfolds
            (finishes_ok (fun _ => rfl) order (held.widen (Nat.le_refl _) order bound))
      | true =>
          have unfolds : ∀ fuel, parseredirs (line ++ [0]) line.length (fuel + 1) cmd ps =
              gettoken (line ++ [0]) line.length s >>= fun tok =>
                gettoken (line ++ [0]) line.length tok.next >>= fun file =>
                  if file.ret ≠ letter then .error .panic
                  else parseredirs (line ++ [0]) line.length fuel
                    (redircmd tok.ret cmd ⟨file.q, file.eq⟩) file.next := by
            intro fuel
            simp only [parseredirs, looked]
            rfl
          refine finishes_succ unfolds (finishes_token visible bound fun tok cut =>
            finishes_token visible cut.bound fun file slice => ?_)
          have moved := cut.moved still (shown rfl)
          have later := slice.forward
          have within := slice.bound
          by_cases isWord : file.ret = letter
          · simp only [isWord, ne_eq, not_true_eq_false, if_false]
            refine (hypothesis (line.length - file.next) (by omega) ?_ rfl).widen (Nat.le_refl _)
              (by omega)
            exact held.add (Nat.le_trans order cut.forward) (slice.word isWord) slice.bound
              (redircmd_strings _ _ _)
          · exact finishes_panic fun _ => if_pos isWord

/-- Each turn of the loop moves the cursor, and its argument lies behind what was read. -/
theorem parseargs_finishes (visible : ∀ c ∈ line, c ≠ 0) (argc : Nat)
    (held : Held line start ps cmd.strings) :
    Finishes line start ps fun fuel => parseargs (line ++ [0]) line.length fuel cmd argc ps := by
  induction remaining : line.length - ps using Nat.strong_induction_on generalizing cmd argc ps with
  | _ remaining hypothesis =>
      rcases peek_place [bar, right, amp, semi] held.bound with
        ⟨s, stop, looked, order, bound, still, shown⟩
      cases stop with
      | true =>
          have unfolds : ∀ fuel, parseargs (line ++ [0]) line.length (fuel + 1) cmd argc ps =
              .ok (cmd, s) := by
            intro fuel
            simp only [parseargs, looked]
            rfl
          exact finishes_succ unfolds
            (finishes_ok (fun _ => rfl) order (held.widen (Nat.le_refl _) order bound))
      | false =>
          have unfolds : ∀ fuel, parseargs (line ++ [0]) line.length (fuel + 1) cmd argc ps =
              gettoken (line ++ [0]) line.length s >>= fun tok =>
                if tok.ret = 0 then .ok (cmd, tok.next)
                else if tok.ret ≠ doubleQuote ∧ tok.ret ≠ letter then .error .panic
                else if argc + 1 ≥ maxArgs then .error .panic
                else parseredirs (line ++ [0]) line.length fuel
                  (cmd.addArg (if tok.ret = doubleQuote then ⟨tok.q + 1, tok.eq - 1⟩
                    else ⟨tok.q, tok.eq⟩)) tok.next >>= fun result =>
                      parseargs (line ++ [0]) line.length fuel result.1 (argc + 1) result.2 := by
            intro fuel
            simp only [parseargs, looked]
            rfl
          refine finishes_succ unfolds (finishes_token visible bound fun tok cut => ?_)
          by_cases ends : tok.ret = 0
          · simp only [ends, if_true]
            exact finishes_ok (fun _ => rfl) (Nat.le_trans order cut.forward)
              (held.widen (Nat.le_refl _) (Nat.le_trans order cut.forward) cut.bound)
          by_cases other : tok.ret ≠ doubleQuote ∧ tok.ret ≠ letter
          · exact finishes_panic fun _ => (if_neg ends).trans (if_pos other)
          by_cases many : argc + 1 ≥ maxArgs
          · exact finishes_panic fun _ =>
              (if_neg ends).trans ((if_neg other).trans (if_pos many))
          have lies : Span.Lies line s tok.next (if tok.ret = doubleQuote
              then ⟨tok.q + 1, tok.eq - 1⟩ else ⟨tok.q, tok.eq⟩) := by
            split
            next isQuoted => exact cut.quoted isQuoted
            next unquoted => exact cut.word (by tauto)
          have moved := lies.moves
          have inside := cut.bound
          simp only [if_neg ends, if_neg other, if_neg many]
          have added := held.add order lies cut.bound (add_arg_strings _ cmd)
          refine finishes_bind (fun cmd ps fuel =>
            parseargs (line ++ [0]) line.length fuel cmd (argc + 1) ps)
            (parseredirs_finishes visible added) fun last next later kept => ?_
          have within := kept.bound
          exact (hypothesis (line.length - next) (by omega) (argc + 1) kept rfl).widen
            (Nat.le_refl _) (by omega)

theorem parseback_finishes (visible : ∀ c ∈ line, c ≠ 0) (held : Held line start ps cmd.strings) :
    Finishes line start ps fun fuel => parseback (line ++ [0]) line.length fuel cmd ps := by
  induction remaining : line.length - ps using Nat.strong_induction_on generalizing cmd ps with
  | _ remaining hypothesis =>
      rcases peek_place [amp] held.bound with ⟨s, found, looked, order, bound, still, shown⟩
      cases found with
      | false =>
          have unfolds : ∀ fuel, parseback (line ++ [0]) line.length (fuel + 1) cmd ps =
              .ok (cmd, s) := by
            intro fuel
            simp only [parseback, looked]
            rfl
          exact finishes_succ unfolds
            (finishes_ok (fun _ => rfl) order (held.widen (Nat.le_refl _) order bound))
      | true =>
          have unfolds : ∀ fuel, parseback (line ++ [0]) line.length (fuel + 1) cmd ps =
              gettoken (line ++ [0]) line.length s >>= fun tok =>
                parseback (line ++ [0]) line.length fuel (.back cmd) tok.next := by
            intro fuel
            simp only [parseback, looked]
            rfl
          refine finishes_succ unfolds (finishes_token visible bound fun tok cut => ?_)
          have moved := cut.moved still (shown rfl)
          have within := cut.bound
          have wide : Held line start tok.next (Cmd.back cmd).strings :=
            held.widen (Nat.le_refl _) (Nat.le_trans order cut.forward) cut.bound
          exact (hypothesis (line.length - tok.next) (by omega) wide rfl).widen (Nat.le_refl _)
            (by omega)

end Loops

section Functions

variable {line : List UInt8} {ps : Nat}

/-- `parseline` finishes wherever the cursor is behind `ps`. -/
def FinishesBehind (line : List UInt8) (ps : Nat) : Prop :=
  ∀ next, ps < next → next ≤ line.length →
    Finishes line next next fun fuel => parseline (line ++ [0]) line.length fuel next

theorem parseblock_finishes (visible : ∀ c ∈ line, c ≠ 0) (inside : ps ≤ line.length)
    (behind : FinishesBehind line ps) :
    Finishes line ps ps fun fuel => parseblock (line ++ [0]) line.length fuel ps := by
  rcases peek_place [left] inside with ⟨s, found, looked, order, bound, still, shown⟩
  cases found with
  | false =>
      have unfolds : ∀ fuel, parseblock (line ++ [0]) line.length (fuel + 1) ps =
          .error .panic := by
        intro fuel
        simp only [parseblock, looked]
        rfl
      exact finishes_succ unfolds (finishes_panic fun _ => rfl)
  | true =>
      have unfolds : ∀ fuel, parseblock (line ++ [0]) line.length (fuel + 1) ps =
          gettoken (line ++ [0]) line.length s >>= fun tok =>
            parseline (line ++ [0]) line.length fuel tok.next >>= fun result =>
              if (peek (line ++ [0]) line.length [right] result.2).2 then
                gettoken (line ++ [0]) line.length
                    (peek (line ++ [0]) line.length [right] result.2).1 >>= fun close =>
                  parseredirs (line ++ [0]) line.length fuel result.1 close.next
              else .error .panic := by
        intro fuel
        simp only [parseblock, looked]
        rfl
      refine finishes_succ unfolds (finishes_token visible bound fun tok cut => ?_)
      have moved := cut.moved still (shown rfl)
      refine finishes_bind (fun cmd ps fuel =>
        if (peek (line ++ [0]) line.length [right] ps).2 then
          gettoken (line ++ [0]) line.length (peek (line ++ [0]) line.length [right] ps).1 >>=
            fun close => parseredirs (line ++ [0]) line.length fuel cmd close.next
        else .error .panic) (behind tok.next (by omega) cut.bound) fun cmd next later held => ?_
      rcases peek_place [right] held.bound with ⟨t, closed, seen, after, limit, _, _⟩
      simp only [seen]
      cases closed with
      | false => exact finishes_panic fun _ => rfl
      | true =>
          simp only [if_true]
          refine finishes_token visible limit fun close end' => ?_
          have wide : Held line tok.next close.next cmd.strings :=
            held.widen (Nat.le_refl _) (Nat.le_trans after end'.forward) end'.bound
          have forward := end'.forward
          exact (parseredirs_finishes visible wide).widen (by omega) (by omega)

theorem parseexec_finishes (visible : ∀ c ∈ line, c ≠ 0) (inside : ps ≤ line.length)
    (behind : FinishesBehind line ps) :
    Finishes line ps ps fun fuel => parseexec (line ++ [0]) line.length fuel ps := by
  rcases peek_place [left] inside with ⟨s, found, looked, order, bound, _, _⟩
  cases found with
  | true =>
      have unfolds : ∀ fuel, parseexec (line ++ [0]) line.length (fuel + 1) ps =
          parseblock (line ++ [0]) line.length fuel s := by
        intro fuel
        simp only [parseexec, looked]
        rfl
      have later : FinishesBehind line s := fun next past => behind next (Nat.lt_of_le_of_lt order past)
      exact finishes_succ unfolds ((parseblock_finishes visible bound later).widen order order)
  | false =>
      have unfolds : ∀ fuel, parseexec (line ++ [0]) line.length (fuel + 1) ps =
          parseredirs (line ++ [0]) line.length fuel (.exec []) s >>= fun result =>
            parseargs (line ++ [0]) line.length fuel result.1 0 result.2 := by
        intro fuel
        simp only [parseexec, looked]
        rfl
      have empty : Held line s s (Cmd.exec ([] : List Span)).strings := .nothing bound
      refine finishes_succ unfolds (finishes_bind (fun cmd ps fuel =>
        parseargs (line ++ [0]) line.length fuel cmd 0 ps) (parseredirs_finishes visible empty)
          fun cmd next later held => ?_)
      exact (parseargs_finishes visible 0 held).widen order (Nat.le_trans order later)

theorem parsepipe_finishes (visible : ∀ c ∈ line, c ≠ 0) (inside : ps ≤ line.length)
    (behind : FinishesBehind line ps) :
    Finishes line ps ps fun fuel => parsepipe (line ++ [0]) line.length fuel ps := by
  induction remaining : line.length - ps using Nat.strong_induction_on generalizing ps with
  | _ remaining hypothesis =>
      have unfolds : ∀ fuel, parsepipe (line ++ [0]) line.length (fuel + 1) ps =
          parseexec (line ++ [0]) line.length fuel ps >>= fun result =>
            if (peek (line ++ [0]) line.length [bar] result.2).2 then
              gettoken (line ++ [0]) line.length
                  (peek (line ++ [0]) line.length [bar] result.2).1 >>= fun tok =>
                parsepipe (line ++ [0]) line.length fuel tok.next >>= fun next =>
                  .ok (.pipe result.1 next.1, next.2)
            else .ok (result.1, (peek (line ++ [0]) line.length [bar] result.2).1) := by
        intro fuel
        rw [parsepipe]
      refine finishes_succ unfolds (finishes_bind (fun cmd ps fuel =>
        if (peek (line ++ [0]) line.length [bar] ps).2 then
          gettoken (line ++ [0]) line.length (peek (line ++ [0]) line.length [bar] ps).1 >>=
            fun tok => parsepipe (line ++ [0]) line.length fuel tok.next >>= fun next =>
              .ok (.pipe cmd next.1, next.2)
        else .ok (cmd, (peek (line ++ [0]) line.length [bar] ps).1))
          (parseexec_finishes visible inside behind) fun cmd next later held => ?_)
      rcases peek_place [bar] held.bound with ⟨s, found, looked, order, bound, still, shown⟩
      simp only [looked]
      cases found with
      | false =>
          exact finishes_ok (fun _ => rfl) (Nat.le_trans later order)
            (held.widen (Nat.le_refl _) order bound)
      | true =>
          simp only [if_true]
          refine finishes_token visible bound fun tok cut => ?_
          have moved := cut.moved still (shown rfl)
          have within := cut.bound
          refine finishes_bind (fun more ps _ => .ok (.pipe cmd more, ps))
            (hypothesis (line.length - tok.next) (by omega) cut.bound
              (fun next past => behind next (by omega)) rfl) fun more stop after kept => ?_
          refine finishes_ok (fun _ => rfl) (by omega) (held.join (by omega) kept ?_)
          exact fun span listed => List.mem_append.mp listed

theorem parseline_finishes (visible : ∀ c ∈ line, c ≠ 0) (inside : ps ≤ line.length) :
    Finishes line ps ps fun fuel => parseline (line ++ [0]) line.length fuel ps := by
  induction remaining : line.length - ps using Nat.strong_induction_on generalizing ps with
  | _ remaining hypothesis =>
      have behind : FinishesBehind line ps := fun next past within =>
        hypothesis (line.length - next) (by omega) within rfl
      have unfolds : ∀ fuel, parseline (line ++ [0]) line.length (fuel + 1) ps =
          parsepipe (line ++ [0]) line.length fuel ps >>= fun first =>
            parseback (line ++ [0]) line.length fuel first.1 first.2 >>= fun result =>
              if (peek (line ++ [0]) line.length [semi] result.2).2 then
                gettoken (line ++ [0]) line.length
                    (peek (line ++ [0]) line.length [semi] result.2).1 >>= fun tok =>
                  parseline (line ++ [0]) line.length fuel tok.next >>= fun next =>
                    .ok (.list result.1 next.1, next.2)
              else .ok (result.1, (peek (line ++ [0]) line.length [semi] result.2).1) := by
        intro fuel
        rw [parseline]
      refine finishes_succ unfolds (finishes_bind (fun cmd ps fuel =>
        parseback (line ++ [0]) line.length fuel cmd ps >>= fun result =>
          if (peek (line ++ [0]) line.length [semi] result.2).2 then
            gettoken (line ++ [0]) line.length
                (peek (line ++ [0]) line.length [semi] result.2).1 >>= fun tok =>
              parseline (line ++ [0]) line.length fuel tok.next >>= fun next =>
                .ok (.list result.1 next.1, next.2)
          else .ok (result.1, (peek (line ++ [0]) line.length [semi] result.2).1))
        (parsepipe_finishes visible inside behind) fun first middle past read => ?_)
      refine finishes_bind (fun cmd ps fuel =>
        if (peek (line ++ [0]) line.length [semi] ps).2 then
          gettoken (line ++ [0]) line.length (peek (line ++ [0]) line.length [semi] ps).1 >>=
            fun tok => parseline (line ++ [0]) line.length fuel tok.next >>= fun next =>
              .ok (.list cmd next.1, next.2)
        else .ok (cmd, (peek (line ++ [0]) line.length [semi] ps).1))
        (parseback_finishes visible read) fun cmd next later held => ?_
      rcases peek_place [semi] held.bound with ⟨s, found, looked, order, bound, still, shown⟩
      simp only [looked]
      cases found with
      | false =>
          exact finishes_ok (fun _ => rfl) (by omega) (held.widen (Nat.le_refl _) order bound)
      | true =>
          simp only [if_true]
          refine finishes_token visible bound fun tok cut => ?_
          have moved := cut.moved still (shown rfl)
          refine finishes_bind (fun more ps _ => .ok (.list cmd more, ps))
            (behind tok.next (by omega) cut.bound) fun more stop after kept => ?_
          refine finishes_ok (fun _ => rfl) (by omega) (held.join (by omega) kept ?_)
          exact fun span listed => List.mem_append.mp listed

end Functions

section Strings

variable {line : List UInt8} {start stop : Nat} {cmd : Cmd Span}

/-- The strings of a command, read in the buffer that `nulterminate` leaves. -/
theorem Held.read (held : Held line start stop cmd.strings) (visible : ∀ c ∈ line, c ≠ 0)
    {span : Span} (listed : span ∈ cmd.strings) :
    cString (nulterminate cmd (line ++ [0])) span.q = span.text line := by
  have lies := held.inside span listed
  rw [nulterminate_strings]
  exact terminated_reads visible listed lies.order (Nat.le_trans lies.ends held.bound)
    (held.apart span listed)

end Strings

/-- `parsecmd` panics on a line, or returns a command whose strings are slices of tokens. -/
theorem parsecmd_ends {line : List UInt8} (visible : ∀ c ∈ line, c ≠ 0) :
    (∃ least, ∀ fuel, least ≤ fuel → parsecmd fuel (line ++ [0]) = .error .panic) ∨
      ∃ cmd, Held line 0 line.length cmd.strings ∧ ∃ least, ∀ fuel, least ≤ fuel →
        parsecmd fuel (line ++ [0]) = .ok (cmd, nulterminate cmd (line ++ [0])) := by
  have es := strlen_line visible
  rcases parseline_finishes visible (Nat.zero_le line.length) with
    ⟨least, panics⟩ | ⟨cmd, next, ⟨least, ran⟩, _, held⟩
  · refine Or.inl ⟨least, ?_⟩
    intro fuel enough
    simp only [parsecmd, es, panics fuel enough]
    rfl
  · rcases peek_place [] held.bound with ⟨s, found, looked, _⟩
    by_cases whole : s = line.length
    · refine Or.inr ⟨cmd, held.widen (Nat.le_refl _) held.bound (Nat.le_refl _), least, ?_⟩
      intro fuel enough
      simp only [parsecmd, es, ran fuel enough, bind, Except.bind, looked, whole]
      exact if_neg fun other => other rfl
    · refine Or.inl ⟨least, ?_⟩
      intro fuel enough
      simp only [parsecmd, es, ran fuel enough, bind, Except.bind, looked]
      exact if_pos whole

/-- `parsecmd` ends on every line, and what it accepts reads its tokens from the buffer as they
were in the line. -/
theorem parsecmd_keeps (line : List UInt8) (visible : ∀ c ∈ line, c ≠ 0) :
    ∃ least result, (∀ fuel, least ≤ fuel → parsecmd fuel (line ++ [0]) = result) ∧
      (result = .error .panic ∨ ∃ cmd buf, result = .ok (cmd, buf) ∧
        ∀ span ∈ cmd.strings, span.Slice line ∧ cString buf span.q = span.text line ∧
          ∀ other ∈ cmd.strings, ¬(span.q ≤ other.eq ∧ other.eq < span.eq)) := by
  rcases parsecmd_ends visible with ⟨least, panics⟩ | ⟨cmd, held, least, ran⟩
  · exact ⟨least, .error .panic, panics, Or.inl rfl⟩
  · refine ⟨least, _, ran, Or.inr ⟨cmd, _, rfl, ?_⟩⟩
    intro span listed
    refine ⟨(held.inside span listed).slice, held.read visible listed, ?_⟩
    rintro other second ⟨after, before⟩
    rcases held.apart span listed other second with early | late
    · omega
    · omega

/-- `"a"'b'>c;d`, where every NUL replaces a quote or an operator. -/
def touching : List UInt8 := [0x22, 0x61, 0x22, 0x27, 0x62, 0x27, 0x3e, 0x63, 0x3b, 0x64]

def touchingCmd : Cmd Span :=
  .list (.redir (.exec [⟨1, 2⟩, ⟨4, 5⟩]) ⟨7, 8⟩ (oWronly ||| oCreate) 1) (.exec [⟨9, 10⟩])

theorem touching_accepted (fuel : Nat) : parsecmd (fuel + 9) (touching ++ [0]) =
    .ok (touchingCmd, nulterminate touchingCmd (touching ++ [0])) := by
  have es : strlen (touching ++ [0]) = 10 := rfl
  have a : gettoken (touching ++ [0]) 10 0 = .ok ⟨doubleQuote, 0, 3, 3⟩ := rfl
  have b : gettoken (touching ++ [0]) 10 3 = .ok ⟨doubleQuote, 3, 6, 6⟩ := rfl
  have into : gettoken (touching ++ [0]) 10 6 = .ok ⟨greater, 6, 7, 7⟩ := rfl
  have c : gettoken (touching ++ [0]) 10 7 = .ok ⟨letter, 7, 8, 8⟩ := rfl
  have behind : gettoken (touching ++ [0]) 10 8 = .ok ⟨semi, 8, 9, 9⟩ := rfl
  have d : gettoken (touching ++ [0]) 10 9 = .ok ⟨letter, 9, 10, 10⟩ := rfl
  have last : gettoken (touching ++ [0]) 10 10 = .ok ⟨0, 10, 10, 10⟩ := rfl
  have peek0 (toks : List UInt8) : peek (touching ++ [0]) 10 toks 0 = (0, strchr toks doubleQuote) := rfl
  have peek3 (toks : List UInt8) : peek (touching ++ [0]) 10 toks 3 = (3, strchr toks singleQuote) := rfl
  have peek6 (toks : List UInt8) : peek (touching ++ [0]) 10 toks 6 = (6, strchr toks greater) := rfl
  have peek8 (toks : List UInt8) : peek (touching ++ [0]) 10 toks 8 = (8, strchr toks semi) := rfl
  have peek9 (toks : List UInt8) : peek (touching ++ [0]) 10 toks 9 = (9, strchr toks 0x64) := rfl
  have peek10 (toks : List UInt8) : peek (touching ++ [0]) 10 toks 10 = (10, false) := rfl
  -- only what is said of the buffer above is used of it below
  generalize touching ++ [0] = buf at *
  simp [parsecmd, parseline, parsepipe, parseexec, parseargs, parseredirs, parseback, es, a, b, into,
    c, behind, d, last, peek0, peek3, peek6, peek8, peek9, peek10, bind, Except.bind, strchr, redircmd,
    Cmd.addArg, left, right, bar, less, greater, amp, semi, maxArgs, doubleQuote, singleQuote, letter,
    touchingCmd]

/-- The line is accepted, with its four strings. -/
theorem parsecmd_keeps_touching :
    ∃ cmd buf least, (∀ fuel, least ≤ fuel → parsecmd fuel (touching ++ [0]) = .ok (cmd, buf)) ∧
      (cmd.strings.map fun span => cString buf span.q) = [[0x61], [0x62], [0x63], [0x64]] ∧
      ∀ span ∈ cmd.strings, span.Slice touching ∧ cString buf span.q = span.text touching ∧
        ∀ other ∈ cmd.strings, ¬(span.q ≤ other.eq ∧ other.eq < span.eq) := by
  obtain ⟨least, result, ran, ends⟩ := parsecmd_keeps touching (by simp [touching])
  have accepted := (ran (least + 9) (Nat.le_add_right _ _)).symm.trans (touching_accepted least)
  rcases ends with panics | ⟨cmd, buf, returned, kept⟩
  · exact absurd (panics.symm.trans accepted) (by simp)
  · cases returned.symm.trans accepted
    exact ⟨_, _, least, fun fuel enough => (ran fuel enough).trans returned, by decide, kept⟩

end OsWorkbench.Shell
