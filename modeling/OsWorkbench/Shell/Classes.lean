import OsWorkbench.Shell.Grammar

/-!
# The classes of the grammar

What `parseexec`, `parsepipe`, the loop of `parseline` and `parseline` accept, each before the
characters that its class leaves alone. A class contains the ones below it and, in parentheses, all.
-/

namespace OsWorkbench.Shell

/-- A parsing function reads these pieces as this command when one of `stops` follows. -/
def Accepts (parse : List UInt8 → Nat → Nat → Nat → Except Halt (Cmd Span × Nat))
    (stops : List UInt8) (pieces : List Piece) (meaning : Cmd (List UInt8)) : Prop :=
  ∀ line ps rest, Scan line ps (pieces ++ rest) → upcoming rest ∈ stops →
    ∃ cmd next, Settles (fun fuel => parse (line ++ [0]) line.length fuel ps) (cmd, next) ∧
      Scan line next rest ∧ Reads line ps next cmd meaning

/-- Redirections may follow a command of the innermost class. -/
def AcceptsExec (pieces : List Piece) (meaning : Cmd (List UInt8)) : Prop :=
  ∀ redirs, Accepts parseexec [0, bar, right, amp, semi] (pieces ++ redirsPieces redirs)
    (redirected meaning redirs)

def AcceptsPipe (pieces : List Piece) (meaning : Cmd (List UInt8)) : Prop :=
  Accepts parsepipe [0, right, amp, semi] pieces meaning

/-- After `parsepipe`, some turns of the loop over `&` read the pieces. -/
def AcceptsBack (pieces : List Piece) (meaning : Cmd (List UInt8)) : Prop :=
  ∀ line ps rest, Scan line ps (pieces ++ rest) → upcoming rest ∈ [0, right, amp, semi] →
    ∃ first middle cmd next turns,
      Settles (fun fuel => parsepipe (line ++ [0]) line.length fuel ps) (first, middle) ∧
        (∀ fuel, parseback (line ++ [0]) line.length (fuel + turns) first middle =
          parseback (line ++ [0]) line.length fuel cmd next) ∧
        Scan line next rest ∧ Reads line ps next cmd meaning

def AcceptsLine (pieces : List Piece) (meaning : Cmd (List UInt8)) : Prop :=
  Accepts parseline [0, right] pieces meaning

section Steps

variable {buf : List UInt8} {es fuel ps s t u : Nat} {cmd next last : Cmd Span} {tok : Token}

theorem settles_succ {α : Type} {parse : Nat → Except Halt α} {result : α} (least : Nat)
    (ran : ∀ fuel, least ≤ fuel → parse (fuel + 1) = .ok result) : Settles parse result := by
  refine ⟨least + 1, ?_⟩
  intro fuel more
  cases fuel with
  | zero => cases more
  | succ fuel => exact ran fuel (Nat.le_of_succ_le_succ more)

theorem parsepipe_stop (ran : parseexec buf es fuel ps = .ok (cmd, s))
    (absent : peek buf es [bar] s = (t, false)) : parsepipe buf es (fuel + 1) ps = .ok (cmd, t) := by
  simp [parsepipe, ran, absent, bind, Except.bind]

theorem parsepipe_bar (ran : parseexec buf es fuel ps = .ok (cmd, s))
    (found : peek buf es [bar] s = (t, true)) (token : gettoken buf es t = .ok tok)
    (more : parsepipe buf es fuel tok.next = .ok (next, u)) :
    parsepipe buf es (fuel + 1) ps = .ok (.pipe cmd next, u) := by
  simp [parsepipe, ran, found, token, more, bind, Except.bind]

theorem parseback_stop (absent : peek buf es [amp] s = (t, false)) :
    parseback buf es (fuel + 1) cmd s = .ok (cmd, t) := by
  simp [parseback, absent]

theorem parseback_amp (found : peek buf es [amp] s = (t, true))
    (token : gettoken buf es t = .ok tok) :
    parseback buf es (fuel + 1) cmd s = parseback buf es fuel (.back cmd) tok.next := by
  simp [parseback, found, token, bind, Except.bind]

theorem parseline_stop (ran : parsepipe buf es fuel ps = .ok (cmd, s))
    (turned : parseback buf es fuel cmd s = .ok (last, t))
    (absent : peek buf es [semi] t = (u, false)) :
    parseline buf es (fuel + 1) ps = .ok (last, u) := by
  simp [parseline, ran, turned, absent, bind, Except.bind]

theorem parseline_semi {v : Nat} (ran : parsepipe buf es fuel ps = .ok (cmd, s))
    (turned : parseback buf es fuel cmd s = .ok (last, t))
    (found : peek buf es [semi] t = (u, true)) (token : gettoken buf es u = .ok tok)
    (more : parseline buf es fuel tok.next = .ok (next, v)) :
    parseline buf es (fuel + 1) ps = .ok (.list last next, v) := by
  simp [parseline, ran, turned, found, token, more, bind, Except.bind]

theorem parseblock_closed {close : Token} {v : Nat} (found : peek buf es [left] ps = (s, true))
    (token : gettoken buf es s = .ok tok) (ran : parseline buf es fuel tok.next = .ok (cmd, t))
    (closed : peek buf es [right] t = (u, true)) (closing : gettoken buf es u = .ok close)
    (redirs : parseredirs buf es fuel cmd close.next = .ok (last, v)) :
    parseblock buf es (fuel + 1) ps = .ok (last, v) := by
  simp [parseblock, found, token, ran, closed, closing, redirs, bind, Except.bind]

theorem parseexec_block (found : peek buf es [left] ps = (s, true)) :
    parseexec buf es (fuel + 1) ps = parseblock buf es fuel s := by
  simp [parseexec, found]

theorem parseexec_args (absent : peek buf es [left] ps = (s, false))
    (redirs : parseredirs buf es fuel (.exec []) s = .ok (cmd, t)) :
    parseexec buf es (fuel + 1) ps = parseargs buf es fuel cmd 0 t := by
  simp [parseexec, absent, redirs, bind, Except.bind]

end Steps

section Inclusions

variable {pieces : List Piece} {meaning : Cmd (List UInt8)}

/-- A stop of a class that is not a token of the next one up. -/
theorem stops_absent {rest : List Piece} {stops toks : List UInt8} (stop : upcoming rest ∈ stops)
    (apart : (stops.all fun c => !strchr toks c) = true) :
    strchr toks (upcoming rest) = false := by
  have known := List.all_eq_true.mp apart _ stop
  simpa using known

theorem exec_pipe (accepts : AcceptsExec pieces meaning) : AcceptsPipe pieces meaning := by
  intro line ps rest scan stop
  have bare : Scan line ps (pieces ++ redirsPieces [] ++ rest) := by
    rw [show redirsPieces [] = [] from rfl, List.append_nil]
    exact scan
  have ends : upcoming rest ∈ [0, bar, right, amp, semi] := by
    simp only [List.mem_cons, List.not_mem_nil, or_false] at stop ⊢
    tauto
  rcases accepts [] line ps rest bare ends with ⟨cmd, next, ⟨least, ran⟩, scan', reads⟩
  refine ⟨cmd, next, settles_succ least ?_, scan', reads⟩
  intro fuel more
  exact parsepipe_stop (ran fuel more) (peek_absent scan' (stops_absent stop (by decide)))

theorem pipe_back (accepts : AcceptsPipe pieces meaning) : AcceptsBack pieces meaning := by
  intro line ps rest scan stop
  rcases accepts line ps rest scan stop with ⟨cmd, next, settles, scan', reads⟩
  exact ⟨cmd, next, cmd, next, 0, settles, fun _ => rfl, scan', reads⟩

theorem back_line (accepts : AcceptsBack pieces meaning) : AcceptsLine pieces meaning := by
  intro line ps rest scan stop
  have loops : upcoming rest ∈ [0, right, amp, semi] := by
    simp only [List.mem_cons, List.not_mem_nil, or_false] at stop ⊢
    tauto
  rcases accepts line ps rest scan loops with
    ⟨first, middle, cmd, next, turns, ⟨least, ran⟩, turned, scan', reads⟩
  refine ⟨cmd, next, settles_succ (least + turns + 1) ?_, scan', reads⟩
  intro fuel more
  have stopped := @parseback_stop _ _ (fuel - turns - 1) _ _ cmd
    (peek_absent scan' (stops_absent stop (by decide)))
  have turn := turned (fuel - turns - 1 + 1)
  rw [show fuel - turns - 1 + 1 + turns = fuel by omega] at turn
  exact parseline_stop (ran fuel (by omega)) (turn.trans stopped)
    (peek_absent scan' (stops_absent stop (by decide)))

theorem line_exec (accepts : AcceptsLine pieces meaning) :
    AcceptsExec (parenthesised pieces) meaning := by
  intro redirs line ps rest scan stop
  have opens : Scan line ps (.sign .left :: (pieces ++
      (.sign .right :: (redirsPieces redirs ++ rest)))) := by
    simpa [parenthesised] using scan
  have inner := opens.next
  rcases accepts line _ _ inner (by decide : right ∈ [0, right]) with
    ⟨cmd, next, ⟨least, ran⟩, closes, reads⟩
  have wider := reads.widen (after_le ps (.sign .left) _)
    (after_le next (.sign .right) (redirsPieces redirs ++ rest))
  have ends : Ends rest := stop
  rcases parseredirs_reads redirs closes.next wider ends.unredirected with
    ⟨last, final, redirected, scan', reads'⟩
  refine ⟨last, final, settles_succ (least + redirs.length + 2) ?_, scan', reads'⟩
  intro fuel more
  have found := peek_present opens (by decide : strchr [left] (Piece.sign .left).first = true)
  have closed := peek_present closes (by decide : strchr [right] (Piece.sign .right).first = true)
  have block := @parseblock_closed _ _ (fuel - 1) _ _ _ _ _ _ _ _ _ found opens.gettoken
    (ran (fuel - 1) (by omega)) closed closes.gettoken (redirected (fuel - 1) (by omega))
  rw [show fuel - 1 + 1 = fuel by omega] at block
  exact (parseexec_block found).trans block

end Inclusions

section Constructions

variable {pieces more : List Piece} {meaning further : Cmd (List UInt8)}

/-- The arguments of a command, and none. -/
theorem exec_accepts (args : List Arg) (few : args.length < maxArgs) :
    AcceptsExec (args.map Piece.arg) (.exec (args.map Arg.text)) := by
  intro redirs line ps rest scan stop
  have ends : Ends rest := stop
  have nothing := @reads_nothing line ps
  cases args with
  | nil =>
      have bare : Scan line ps (redirsPieces redirs ++ rest) := scan
      have closed : strchr [left] (upcoming (redirsPieces redirs ++ rest)) = false := by
        cases redirs with
        | nil => exact stops_absent stop (by decide)
        | cons redir redirs =>
            change strchr [left] (Piece.direction redir.1).first = false
            cases redir.1 <;> rfl
      rcases parseredirs_reads redirs bare nothing ends.unredirected with
        ⟨cmd, next, ran, scan', reads⟩
      refine ⟨cmd, next, settles_succ (redirs.length + 1) ?_, scan', reads⟩
      intro fuel enough
      obtain ⟨fuel, rfl⟩ : ∃ less, fuel = less + 1 := ⟨fuel - 1, by omega⟩
      rw [parseexec_args (peek_absent bare closed) (ran _ (by omega))]
      exact parseargs_stop scan' ends cmd 0 fuel
  | cons arg args =>
      have closed : strchr [left] (Piece.arg arg).first = false := arg_first arg (by decide)
      have plain : strchr [less, greater] (Piece.arg arg).first = false := arg_first arg (by decide)
      have few' : ([] : List Span).length + args.length + 1 < maxArgs := by
        simp only [List.length_nil, List.length_cons] at few ⊢
        omega
      rcases parseargs_reads args scan nothing few' ends with
        ⟨cmd, next, ⟨least, ran⟩, scan', reads⟩
      refine ⟨cmd, next, settles_succ (least + 1) ?_, scan', reads⟩
      intro fuel enough
      have first : Scan line ps (.arg arg :: (args.map Piece.arg ++ redirsPieces redirs ++ rest)) := by
        simpa using scan
      obtain ⟨fuel, rfl⟩ : ∃ less, fuel = less + 1 := ⟨fuel - 1, by omega⟩
      rw [parseexec_args (peek_absent first closed) (parseredirs_none first plain fuel)]
      exact ran (fuel + 1) (by omega)

theorem redir_accepts (accepts : AcceptsExec pieces meaning) (direction : Direction)
    (file : Word) :
    AcceptsExec (pieces ++ redirPieces direction file)
      (.redir meaning file.text direction.mode direction.fd) := by
  intro redirs
  have longer := accepts ((direction, file) :: redirs)
  have same : pieces ++ redirPieces direction file ++ redirsPieces redirs =
      pieces ++ redirsPieces ((direction, file) :: redirs) := by
    simp [redirsPieces]
  rw [same]
  exact longer

theorem pipe_accepts (accepts : AcceptsExec pieces meaning) (behind : AcceptsPipe more further) :
    AcceptsPipe (pieces ++ [.sign .bar] ++ more) (.pipe meaning further) := by
  intro line ps rest scan stop
  have split : Scan line ps (pieces ++ redirsPieces [] ++ (.sign .bar :: (more ++ rest))) := by
    simpa [redirsPieces] using scan
  rcases accepts [] line ps _ split (by decide : bar ∈ [0, bar, right, amp, semi]) with
    ⟨cmd, middle, ⟨least, ran⟩, bars, reads⟩
  rcases behind line _ rest bars.next stop with ⟨next, last, ⟨enough, went⟩, scan', reads'⟩
  refine ⟨.pipe cmd next, last, settles_succ (least + enough) ?_, scan',
    reads.pipe (after_le middle (.sign .bar) (more ++ rest)) reads'⟩
  intro fuel big
  exact parsepipe_bar (ran fuel (by omega)) (peek_present bars (by decide)) bars.gettoken
    (went fuel (by omega))

theorem back_accepts (accepts : AcceptsBack pieces meaning) :
    AcceptsBack (pieces ++ [.sign .amp]) (.back meaning) := by
  intro line ps rest scan stop
  have split : Scan line ps (pieces ++ (.sign .amp :: rest)) := by
    simpa using scan
  rcases accepts line ps _ split (by decide : amp ∈ [0, right, amp, semi]) with
    ⟨first, middle, cmd, next, turns, settles, turned, amps, reads⟩
  refine ⟨first, middle, .back cmd, _, turns + 1, settles, ?_, amps.next,
    (reads.widen (Nat.le_refl ps) (after_le next (.sign .amp) rest)).back⟩
  intro fuel
  have turn := turned (fuel + 1)
  rw [Nat.add_assoc, Nat.add_comm 1 turns] at turn
  exact turn.trans (parseback_amp (peek_present amps (by decide)) amps.gettoken)

theorem list_accepts (accepts : AcceptsBack pieces meaning) (behind : AcceptsLine more further) :
    AcceptsLine (pieces ++ [.sign .semi] ++ more) (.list meaning further) := by
  intro line ps rest scan stop
  have split : Scan line ps (pieces ++ (.sign .semi :: (more ++ rest))) := by
    simpa using scan
  rcases accepts line ps _ split (by decide : semi ∈ [0, right, amp, semi]) with
    ⟨first, middle, cmd, next, turns, ⟨least, ran⟩, turned, semis, reads⟩
  rcases behind line _ rest semis.next stop with ⟨second, last, ⟨enough, went⟩, scan', reads'⟩
  refine ⟨.list cmd second, last, settles_succ (least + enough + turns + 1) ?_, scan',
    reads.list (after_le next (.sign .semi) (more ++ rest)) reads'⟩
  intro fuel big
  have stopped := @parseback_stop _ _ (fuel - turns - 1) _ _ cmd
    (peek_absent semis (by decide : strchr [amp] semi = false))
  have turn := turned (fuel - turns - 1 + 1)
  rw [show fuel - turns - 1 + 1 + turns = fuel by omega] at turn
  exact parseline_semi (ran fuel (by omega)) (turn.trans stopped)
    (peek_present semis (by decide)) semis.gettoken (went fuel (by omega))

end Constructions

section Trees

/-- What it is to accept a command at a rank. -/
def AcceptsAt (rank : Nat) (pieces : List Piece) (meaning : Cmd (List UInt8)) : Prop :=
  match rank with
  | 0 => AcceptsExec pieces meaning
  | 1 => AcceptsPipe pieces meaning
  | 2 => AcceptsBack pieces meaning
  | _ => AcceptsLine pieces meaning

variable {pieces : List Piece} {meaning : Cmd (List UInt8)}

theorem rank_succ {rank : Nat} (accepts : AcceptsAt rank pieces meaning) :
    AcceptsAt (rank + 1) pieces meaning := by
  match rank with
  | 0 => exact exec_pipe accepts
  | 1 => exact pipe_back accepts
  | 2 => exact back_line accepts
  | _ + 3 => exact accepts

theorem rank_mono {rank limit : Nat} (accepts : AcceptsAt rank pieces meaning)
    (below : rank ≤ limit) : AcceptsAt limit pieces meaning := by
  induction below with
  | refl => exact accepts
  | step _ hypothesis => exact rank_succ hypothesis

/-- In parentheses, a command of any class is of the innermost one. -/
theorem operand_accepts {rank : Nat} (accepts : AcceptsAt rank pieces meaning) (low : rank ≤ 3)
    (limit : Nat) : AcceptsAt limit (operand rank limit pieces) meaning := by
  unfold operand
  split
  next below => exact rank_mono accepts below
  next beyond =>
    have line : AcceptsAt 3 pieces meaning := rank_mono accepts low
    have exec : AcceptsAt 0 (parenthesised pieces) meaning := line_exec line
    exact rank_mono exec (Nat.zero_le limit)

theorem rank_le (tree : Tree) : tree.rank ≤ 3 := by
  cases tree <;> simp [Tree.rank]

theorem tree_accepts (tree : Tree) : AcceptsAt tree.rank tree.pieces tree.cmd := by
  induction tree with
  | exec args few => exact exec_accepts args few
  | redir cmd direction file hypothesis =>
      exact redir_accepts (operand_accepts hypothesis (rank_le cmd) 0) direction file
  | pipe left right first second =>
      exact pipe_accepts (operand_accepts first (rank_le left) 0)
        (operand_accepts second (rank_le right) 1)
  | list left right first second =>
      exact list_accepts (operand_accepts first (rank_le left) 2)
        (rank_mono second (rank_le right))
  | back cmd hypothesis => exact back_accepts (operand_accepts hypothesis (rank_le cmd) 2)

end Trees

end OsWorkbench.Shell
