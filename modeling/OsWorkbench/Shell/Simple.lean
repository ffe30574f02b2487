import Mathlib.Data.List.Induction
import OsWorkbench.Shell.Accepted

/-!
# Simple commands on any line

A line whose tokens are arguments and redirections, in any order and with any blanks between them.
`parsecmd` makes one `exec` of the arguments and wraps a `redir` around it for each redirection, the
first one on the line innermost.
-/

namespace OsWorkbench.Shell

section Items

/-- An argument, or an operator and its file. -/
inductive Item where
  | arg (tok : Token)
  | redir (op file : Token)

/-- The slice that `parseexec` takes for an argument. -/
def Token.argument (tok : Token) : Span :=
  if tok.ret = doubleQuote then ⟨tok.q + 1, tok.eq - 1⟩ else ⟨tok.q, tok.eq⟩

def Token.file (tok : Token) : Span := ⟨tok.q, tok.eq⟩

/-- These are the tokens from the cursor to the end of the line. -/
def Spelled (line : List UInt8) : Nat → List Item → Prop
  | ps, [] => skipBlanks (line ++ [0]) line.length ps = line.length
  | ps, .arg tok :: rest =>
      gettoken (line ++ [0]) line.length ps = .ok tok ∧
        (tok.ret = letter ∨ tok.ret = doubleQuote) ∧ Spelled line tok.next rest
  | ps, .redir op file :: rest =>
      gettoken (line ++ [0]) line.length ps = .ok op ∧
        (op.ret = less ∨ op.ret = greater ∨ op.ret = plus) ∧
          gettoken (line ++ [0]) line.length op.next = .ok file ∧ file.ret = letter ∧
            Spelled line file.next rest

/-- A redirection of a command. -/
structure Redirection (α : Type) where
  file : α
  mode : Nat
  fd : Nat

def Redirection.map {α β : Type} (read : α → β) (redir : Redirection α) : Redirection β :=
  ⟨read redir.file, redir.mode, redir.fd⟩

/-- The mode and the descriptor of an operator. -/
def redirection (op : UInt8) {α : Type} (file : α) : Redirection α :=
  if op = less then ⟨file, oRdonly, 0⟩
  else if op = greater then ⟨file, oWronly ||| oCreate, 1⟩
  else ⟨file, oWronly ||| oCreate ||| oAppend, 1⟩

/-- The arguments on a line. -/
def arguments : List Item → List Span
  | [] => []
  | .arg tok :: rest => tok.argument :: arguments rest
  | .redir _ _ :: rest => arguments rest

/-- The redirections on a line, in their order. -/
def redirections : List Item → List (Redirection Span)
  | [] => []
  | .arg _ :: rest => redirections rest
  | .redir op file :: rest => redirection op.ret file.file :: redirections rest

/-- A command in redirections, the first one innermost. -/
def wrap {α : Type} (cmd : Cmd α) (redirs : List (Redirection α)) : Cmd α :=
  redirs.foldl (fun cmd redir => .redir cmd redir.file redir.mode redir.fd) cmd

variable {α β : Type}

theorem wrap_append (cmd : Cmd α) (redirs more : List (Redirection α)) :
    wrap cmd (redirs ++ more) = wrap (wrap cmd redirs) more := List.foldl_append

theorem wrap_map (read : α → β) (cmd : Cmd α) (redirs : List (Redirection α)) :
    (wrap cmd redirs).map read = wrap (cmd.map read) (redirs.map (Redirection.map read)) := by
  induction redirs generalizing cmd with
  | nil => rfl
  | cons redir rest hypothesis => exact hypothesis (.redir cmd redir.file redir.mode redir.fd)

theorem wrap_add (arg : Span) (argv : List Span) (redirs : List (Redirection Span)) :
    (wrap (.exec argv) redirs).addArg arg = wrap (.exec (argv ++ [arg])) redirs := by
  induction redirs using List.reverseRecOn with
  | nil => rfl
  | append_singleton redirs redir hypothesis =>
      rw [wrap_append, wrap_append, ← hypothesis]
      rfl

end Items

section Characters

variable {line : List UInt8} {ps : Nat} {tok : Token}

/-- The character behind the blanks at the cursor. -/
def ahead (line : List UInt8) (ps : Nat) : UInt8 :=
  charAt (line ++ [0]) (skipBlanks (line ++ [0]) line.length ps)

/-- What `gettoken` returns for the character ahead. -/
theorem gettoken_ret (found : gettoken (line ++ [0]) line.length ps = .ok tok) :
    (ahead line ps = doubleQuote ∨ ahead line ps = singleQuote) ∧ tok.ret = doubleQuote ∨
      ahead line ps = 0 ∧ tok.ret = 0 ∨
      ahead line ps ∈ [bar, left, right, semi, amp, less] ∧ tok.ret = ahead line ps ∨
      ahead line ps = greater ∧ (tok.ret = plus ∨ tok.ret = greater) ∨
      strchr symbols (ahead line ps) = false ∧ tok.ret = letter := by
  have read : charAt (line ++ [0]) (skipBlanks (line ++ [0]) line.length ps) = ahead line ps := rfl
  unfold gettoken at found
  simp only [read] at found
  split at found
  next isQuote =>
    split at found
    next => cases found
    next =>
      cases found
      exact Or.inl ⟨isQuote, rfl⟩
  next =>
    right
    split at found
    next zero =>
      cases found
      exact Or.inl ⟨zero, rfl⟩
    next =>
      right
      split at found
      next known =>
        cases found
        exact Or.inl ⟨by simpa using known, rfl⟩
      next other =>
        right
        split at found
        next isGreater =>
          left
          refine ⟨isGreater, ?_⟩
          split at found
          · cases found
            exact Or.inl rfl
          · cases found
            exact Or.inr rfl
        next last =>
          cases found
          simp only [not_or] at other
          exact Or.inr ⟨by simp [strchr, symbols, other, last], rfl⟩

theorem argument_ahead (found : gettoken (line ++ [0]) line.length ps = .ok tok)
    (isArg : tok.ret = letter ∨ tok.ret = doubleQuote) :
    strchr symbols (ahead line ps) = false := by
  rcases gettoken_ret found with ⟨quote, _⟩ | ⟨_, ret⟩ | ⟨known, ret⟩ | ⟨_, ret⟩ | ⟨other, _⟩
  · rcases quote with same | same <;> rw [same] <;> decide
  · rw [ret] at isArg
    exact absurd isArg (by decide)
  · rw [ret] at isArg
    simp only [List.mem_cons, List.not_mem_nil, or_false] at known
    rcases known with same | same | same | same | same | same <;> rw [same] at isArg <;>
      exact absurd isArg (by decide)
  · rcases ret with same | same <;> rw [same] at isArg <;> exact absurd isArg (by decide)
  · exact other

theorem operator_ahead (found : gettoken (line ++ [0]) line.length ps = .ok tok)
    (isOp : tok.ret = less ∨ tok.ret = greater ∨ tok.ret = plus) :
    ahead line ps = less ∨ ahead line ps = greater := by
  rcases gettoken_ret found with ⟨_, ret⟩ | ⟨_, ret⟩ | ⟨known, ret⟩ | ⟨isGreater, _⟩ | ⟨_, ret⟩
  · rw [ret] at isOp
    exact absurd isOp (by decide)
  · rw [ret] at isOp
    exact absurd isOp (by decide)
  · rw [ret] at isOp
    simp only [List.mem_cons, List.not_mem_nil, or_false] at known
    rcases known with same | same | same | same | same | same <;> rw [same] at isOp ⊢ <;>
      first | exact Or.inl rfl | exact absurd isOp (by decide)
  · exact Or.inr isGreater
  · rw [ret] at isOp
    exact absurd isOp (by decide)

theorem skip_twice (inside : ps ≤ line.length) :
    skipBlanks (line ++ [0]) line.length (skipBlanks (line ++ [0]) line.length ps) =
      skipBlanks (line ++ [0]) line.length ps :=
  skip_blanks_again (skip_blanks_stops inside).2.2

theorem gettoken_skip (inside : ps ≤ line.length) :
    gettoken (line ++ [0]) line.length (skipBlanks (line ++ [0]) line.length ps) =
      gettoken (line ++ [0]) line.length ps := by
  unfold gettoken
  rw [skip_twice inside]

theorem ahead_skip (inside : ps ≤ line.length) :
    ahead line (skipBlanks (line ++ [0]) line.length ps) = ahead line ps := by
  unfold ahead
  rw [skip_twice inside]

theorem ahead_end (ends : skipBlanks (line ++ [0]) line.length ps = line.length) :
    ahead line ps = 0 := by
  unfold ahead charAt
  rw [ends, List.getD_append_right _ _ _ _ (Nat.le_refl _), Nat.sub_self]
  rfl

/-- `peek` finds nothing before an argument or at the end of the line. -/
theorem peek_plain {toks : List UInt8} (known : (toks.all fun c => strchr symbols c) = true)
    (plain : strchr symbols (ahead line ps) = false) :
    peek (line ++ [0]) line.length toks ps = (skipBlanks (line ++ [0]) line.length ps, false) := by
  have absent : strchr toks (ahead line ps) = false := by
    by_contra listed
    have member : ahead line ps ∈ toks := by simpa [strchr] using listed
    have clash := List.all_eq_true.mp known _ member
    rw [plain] at clash
    cases clash
  refine Prod.ext rfl ?_
  change (ahead line ps != 0 && strchr toks (ahead line ps)) = false
  rw [absent, Bool.and_false]

theorem peek_operator {toks : List UInt8} (operator : ahead line ps = less ∨ ahead line ps = greater) :
    peek (line ++ [0]) line.length toks ps =
      (skipBlanks (line ++ [0]) line.length ps, strchr toks (ahead line ps)) := by
  refine Prod.ext rfl ?_
  change (ahead line ps != 0 && strchr toks (ahead line ps)) = _
  rcases operator with same | same <;> rw [same] <;> rfl

end Characters

section Loops

variable {line : List UInt8} {ps : Nat}

/-- The command after the items. -/
def Item.apply (cmd : Cmd Span) : Item → Cmd Span
  | .arg tok => cmd.addArg tok.argument
  | .redir op file => redircmd op.ret cmd file.file

theorem apply_items (items : List Item) (argv : List Span) (redirs : List (Redirection Span))
    (operators : ∀ op file, Item.redir op file ∈ items →
      op.ret = less ∨ op.ret = greater ∨ op.ret = plus) :
    items.foldl Item.apply (wrap (.exec argv) redirs) =
      wrap (.exec (argv ++ arguments items)) (redirs ++ redirections items) := by
  induction items generalizing argv redirs with
  | nil => rw [arguments, redirections, List.append_nil, List.append_nil, List.foldl_nil]
  | cons item rest hypothesis =>
      have later : ∀ op file, Item.redir op file ∈ rest →
          op.ret = less ∨ op.ret = greater ∨ op.ret = plus :=
        fun op file listed => operators op file (List.mem_cons_of_mem _ listed)
      cases item with
      | arg tok =>
          rw [List.foldl_cons, Item.apply, wrap_add, hypothesis _ _ later, List.append_assoc]
          rfl
      | redir op file =>
          have wrapped : redircmd op.ret (wrap (.exec argv) redirs) file.file =
              wrap (.exec argv) (redirs ++ [redirection op.ret file.file]) := by
            rw [wrap_append]
            unfold redircmd redirection
            rcases operators op file List.mem_cons_self with same | same | same <;> rw [same] <;>
              rfl
          rw [List.foldl_cons, Item.apply, wrapped, hypothesis _ _ later, List.append_assoc]
          rfl

theorem Spelled.operators {items : List Item} (spelled : Spelled line ps items) :
    ∀ op file, Item.redir op file ∈ items → op.ret = less ∨ op.ret = greater ∨ op.ret = plus := by
  induction items generalizing ps with
  | nil => exact nofun
  | cons item rest hypothesis =>
      intro op file listed
      cases item with
      | arg tok =>
          rcases List.mem_cons.mp listed with same | later
          · cases same
          · exact hypothesis spelled.2.2 op file later
      | redir first second =>
          rcases List.mem_cons.mp listed with same | later
          · cases same
            exact spelled.2.1
          · exact hypothesis spelled.2.2.2.2 op file later

theorem cut_of_found {tok : Token} (visible : ∀ c ∈ line, c ≠ 0) (inside : ps ≤ line.length)
    (found : gettoken (line ++ [0]) line.length ps = .ok tok) : tok.Cut line ps := by
  rcases gettoken_cut visible inside with panics | ⟨other, also, cut⟩
  · rw [found] at panics
    cases panics
  · rw [found] at also
    cases also
    exact cut

theorem redirs_done (plain : strchr symbols (ahead line ps) = false) (cmd : Cmd Span) (gas : Nat) :
    parseredirs (line ++ [0]) line.length (gas + 1) cmd ps =
      .ok (cmd, skipBlanks (line ++ [0]) line.length ps) := by
  simp only [parseredirs, peek_plain (by decide : ([less, greater].all fun c =>
    strchr symbols c) = true) plain]
  rfl

/-- `parseredirs` and the loop of `parseexec` take the items one after the other. -/
theorem parse_items (visible : ∀ c ∈ line, c ≠ 0) {items : List Item} {argc : Nat}
    (inside : ps ≤ line.length) (spelled : Spelled line ps items)
    (few : argc + (arguments items).length < maxArgs) (cmd : Cmd Span) {gas fuel : Nat}
    (enough : items.length < gas) (plenty : items.length < fuel) :
    (parseredirs (line ++ [0]) line.length gas cmd ps >>= fun result =>
      parseargs (line ++ [0]) line.length fuel result.1 argc result.2) =
        .ok (items.foldl Item.apply cmd, line.length) := by
  induction items generalizing ps argc cmd gas fuel with
  | nil =>
      have ends : skipBlanks (line ++ [0]) line.length ps = line.length := spelled
      have plain : strchr symbols (ahead line ps) = false := by
        rw [ahead_end ends]
        decide
      have scan : Scan line line.length [] := ⟨List.drop_length, Nat.le_refl _⟩
      have looked := peek_absent scan (by decide : strchr [bar, right, amp, semi] 0 = false)
      obtain ⟨gas, rfl⟩ := Nat.exists_eq_succ_of_ne_zero (Nat.ne_zero_of_lt enough)
      obtain ⟨fuel, rfl⟩ := Nat.exists_eq_succ_of_ne_zero (Nat.ne_zero_of_lt plenty)
      rw [redirs_done plain, ends]
      simp only [bind, Except.bind, parseargs, looked, scan.gettoken_end]
      rfl
  | cons item rest hypothesis =>
      obtain ⟨gas, rfl⟩ := Nat.exists_eq_succ_of_ne_zero (Nat.ne_zero_of_lt enough)
      obtain ⟨fuel, rfl⟩ := Nat.exists_eq_succ_of_ne_zero (Nat.ne_zero_of_lt plenty)
      rw [List.length_cons] at enough plenty
      cases item with
      | arg tok =>
          rcases spelled with ⟨found, isArg, later⟩
          rw [arguments, List.length_cons] at few
          have plain := argument_ahead found isArg
          have again : strchr symbols (ahead line (skipBlanks (line ++ [0]) line.length ps)) =
              false := by
            rw [ahead_skip inside]
            exact plain
          have looked := peek_plain (by decide : ([bar, right, amp, semi].all fun c =>
            strchr symbols c) = true) again
          have token := (gettoken_skip inside).trans found
          have nonzero : tok.ret ≠ 0 := by
            intro zero
            rw [zero] at isArg
            exact absurd isArg (by decide)
          have known : ¬(tok.ret ≠ doubleQuote ∧ tok.ret ≠ letter) := by tauto
          have room : ¬argc + 1 ≥ maxArgs := by omega
          have onward := @hypothesis tok.next (argc + 1) (cut_of_found visible inside found).bound
            later (by omega) (cmd.addArg tok.argument) fuel fuel (Nat.lt_of_succ_lt_succ plenty)
            (Nat.lt_of_succ_lt_succ plenty)
          rw [redirs_done plain]
          simp only [bind, Except.bind, parseargs, looked, skip_twice inside, token, if_neg nonzero, if_neg known, if_neg room, Bool.false_eq_true, if_false]
          exact onward
      | redir op file =>
          rcases spelled with ⟨opFound, isOp, fileFound, isWord, later⟩
          have operator := operator_ahead opFound isOp
          have looked := @peek_operator line ps [less, greater] operator
          have known : strchr [less, greater] (ahead line ps) = true := by
            rcases operator with same | same <;> rw [same] <;> decide
          rw [known] at looked
          have token := (gettoken_skip inside).trans opFound
          have behind := (cut_of_found visible inside opFound).bound
          have onward := @hypothesis file.next argc (cut_of_found visible behind fileFound).bound
            later few (redircmd op.ret cmd file.file) gas (fuel + 1) (Nat.lt_of_succ_lt_succ enough)
            (Nat.lt_of_succ_lt plenty)
          simp only [Nat.succ_eq_add_one, parseredirs, looked, token, fileFound, isWord, bind,
            Except.bind, if_true, ne_eq, not_true_eq_false, if_false]
          exact onward

end Loops

section Commands

variable {line : List UInt8} {ps : Nat} {items : List Item}

theorem Spelled.skip (inside : ps ≤ line.length) (spelled : Spelled line ps items) :
    Spelled line (skipBlanks (line ++ [0]) line.length ps) items := by
  cases items with
  | nil => exact (skip_twice inside).trans spelled
  | cons item rest =>
      cases item with
      | arg tok => exact ⟨(gettoken_skip inside).trans spelled.1, spelled.2⟩
      | redir op file => exact ⟨(gettoken_skip inside).trans spelled.1, spelled.2⟩

theorem Spelled.unblocked (spelled : Spelled line ps items) :
    peek (line ++ [0]) line.length [left] ps =
      (skipBlanks (line ++ [0]) line.length ps, false) := by
  have known : ([left].all fun c => strchr symbols c) = true := by decide
  cases items with
  | nil =>
      apply peek_plain known
      rw [ahead_end spelled]
      decide
  | cons item rest =>
      cases item with
      | arg tok => exact peek_plain known (argument_ahead spelled.1 spelled.2.1)
      | redir op file =>
          have operator := operator_ahead spelled.1 spelled.2.1
          rw [peek_operator operator]
          rcases operator with same | same <;> rw [same] <;> rfl

/-- The command of a line of arguments and redirections. -/
def simpleCmd (items : List Item) : Cmd Span := wrap (.exec (arguments items)) (redirections items)

theorem parsecmd_spelled (visible : ∀ c ∈ line, c ≠ 0) (spelled : Spelled line 0 items)
    (few : (arguments items).length < maxArgs) :
    ∃ least, ∀ fuel, least ≤ fuel → parsecmd fuel (line ++ [0]) =
      .ok (simpleCmd items, nulterminate (simpleCmd items) (line ++ [0])) := by
  refine ⟨items.length + 4, ?_⟩
  intro fuel enough
  obtain ⟨fuel, rfl⟩ := Nat.exists_eq_add_of_le enough
  have stop := skip_blanks_stops (Nat.zero_le line.length)
  have scan : Scan line line.length [] := ⟨List.drop_length, Nat.le_refl _⟩
  have loops := @parse_items line _ visible items 0 stop.2.1 (spelled.skip (Nat.zero_le _))
    (by omega) (.exec []) (items.length + 1 + fuel) (items.length + 1 + fuel) (by omega) (by omega)
  have made : items.foldl Item.apply (.exec []) = simpleCmd items :=
    apply_items items [] [] spelled.operators
  rw [made] at loops
  have exec : parseexec (line ++ [0]) line.length (items.length + 2 + fuel) 0 =
      .ok (simpleCmd items, line.length) := by
    rw [show items.length + 2 + fuel = items.length + 1 + fuel + 1 by omega]
    simp only [parseexec, spelled.unblocked, Bool.false_eq_true, if_false]
    exact loops
  have pipe := parsepipe_stop exec (peek_absent scan (by decide : strchr [bar] 0 = false))
  have back := @parseback_stop (line ++ [0]) line.length (items.length + 2 + fuel) line.length
    line.length (simpleCmd items) (peek_absent scan (by decide : strchr [amp] 0 = false))
  have parsed := parseline_stop pipe back (peek_absent scan (by decide : strchr [semi] 0 = false))
  have looked := peek_absent scan (by decide : strchr [] 0 = false)
  rw [show items.length + 4 + fuel = items.length + 2 + fuel + 1 + 1 by omega]
  simp only [parsecmd, strlen_line visible, parsed, looked, bind, Except.bind]
  exact if_neg fun other => other rfl

/-- Its strings are the slices of its tokens. -/
theorem simple_held (visible : ∀ c ∈ line, c ≠ 0) (spelled : Spelled line 0 items)
    (few : (arguments items).length < maxArgs) :
    Held line 0 line.length (simpleCmd items).strings := by
  rcases parsecmd_spelled visible spelled few with ⟨least, ran⟩
  rcases parsecmd_ends visible with ⟨limit, panics⟩ | ⟨cmd, held, limit, also⟩
  · have first := ran (least + limit) (Nat.le_add_right _ _)
    rw [panics (least + limit) (Nat.le_add_left _ _)] at first
    cases first
  · have first := ran (least + limit) (Nat.le_add_right _ _)
    rw [also (least + limit) (Nat.le_add_left _ _), Except.ok.injEq, Prod.mk.injEq] at first
    exact first.1 ▸ held

/-- `parsecmd` accepts the line, and the command has the arguments and the redirections on it. -/
theorem parsecmd_simple (visible : ∀ c ∈ line, c ≠ 0) (spelled : Spelled line 0 items)
    (few : (arguments items).length < maxArgs) :
    ∃ least, ∀ fuel, least ≤ fuel →
      ∃ cmd buf, parsecmd fuel (line ++ [0]) = .ok (cmd, buf) ∧
        cmd.map (fun span => cString buf span.q) =
          wrap (.exec ((arguments items).map (Span.text line)))
            ((redirections items).map (Redirection.map (Span.text line))) := by
  rcases parsecmd_spelled visible spelled few with ⟨least, ran⟩
  have held := simple_held visible spelled few
  refine ⟨least, ?_⟩
  intro fuel enough
  refine ⟨_, _, ran fuel enough, ?_⟩
  rw [map_congr fun span listed => held.read visible listed, simpleCmd, wrap_map]
  rfl

end Commands

end OsWorkbench.Shell
