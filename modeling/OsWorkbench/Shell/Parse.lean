import Mathlib.Data.List.Basic

/-!
# `parse.c`

The parser of the shell on the bytes of a line and their final NUL. A pointer into the line is an
index, and the cursor `*ps` is passed on. Loops and recursive calls count down a fuel; `panic`
exits the task. A command is parametrised over its strings: the parser builds it from the pointers
`q` and `eq` of each.
-/

namespace OsWorkbench.Shell

/-- `argv[i]` and `eargv[i]`, or `file` and `efile`. -/
structure Span where
  q : Nat
  eq : Nat
  deriving DecidableEq

/-- `struct cmd`; `exec` has the entries of `argv` before the terminating null pointer. -/
inductive Cmd (α : Type) where
  | exec (argv : List α)
  | redir (cmd : Cmd α) (file : α) (mode fd : Nat)
  | pipe (left right : Cmd α)
  | list (left right : Cmd α)
  | back (cmd : Cmd α)
  deriving DecidableEq

/-- Why there is no command. -/
inductive Halt where
  | panic
  | fuel
  deriving DecidableEq

def maxArgs : Nat := 10

def oRdonly : Nat := 0x01
def oWronly : Nat := 0x02
def oCreate : Nat := 0x04
def oAppend : Nat := 0x10

section Characters

def bar : UInt8 := 0x7c
def amp : UInt8 := 0x26
def semi : UInt8 := 0x3b
def left : UInt8 := 0x28
def right : UInt8 := 0x29
def less : UInt8 := 0x3c
def greater : UInt8 := 0x3e
def plus : UInt8 := 0x2b
def doubleQuote : UInt8 := 0x22
def singleQuote : UInt8 := 0x27
def blank : UInt8 := 0x20
def letter : UInt8 := 0x61

/-- `" \t\r\n\v"`. -/
def whitespace : List UInt8 := [0x20, 0x09, 0x0d, 0x0a, 0x0b]

/-- `"<|>&;()"`. -/
def symbols : List UInt8 := [less, bar, greater, amp, semi, left, right]

/-- `strchr` finds no NUL. -/
def strchr (s : List UInt8) (c : UInt8) : Bool := s.contains c

end Characters

section Parser

variable (buf : List UInt8) (es : Nat)

def charAt (s : Nat) : UInt8 := buf.getD s 0

/-- Where `while(s < es && strchr(whitespace,*s))s++` ends. -/
def skipBlanks (s : Nat) : Nat :=
  s + (((buf.take es).drop s).takeWhile fun c => strchr whitespace c).length

/-- Where a word that starts at `s` ends. -/
def skipWord (s : Nat) : Nat :=
  s + (((buf.take es).drop s).takeWhile fun c =>
    !strchr whitespace c && !strchr symbols c).length

/-- Where `do{s++;}while(*s!=match&&*s)` ends. -/
def skipQuoted (quote : UInt8) (s : Nat) : Nat :=
  s + 1 + ((buf.drop (s + 1)).takeWhile fun c => c != quote && c != 0).length

/-- What `gettoken` returns and stores. -/
structure Token where
  ret : UInt8
  q : Nat
  eq : Nat
  next : Nat

def gettoken (ps : Nat) : Except Halt Token :=
  let s := skipBlanks buf es ps
  let c := charAt buf s
  let found (ret : UInt8) (eq : Nat) : Except Halt Token := .ok ⟨ret, s, eq, skipBlanks buf es eq⟩
  if c = doubleQuote ∨ c = singleQuote then
    let quote := skipQuoted buf c s
    if charAt buf quote = 0 then .error .panic else found doubleQuote (quote + 1)
  else if c = 0 then found 0 s
  else if c = bar ∨ c = left ∨ c = right ∨ c = semi ∨ c = amp ∨ c = less then found c (s + 1)
  else if c = greater then
    if charAt buf (s + 1) = greater then found plus (s + 2) else found greater (s + 1)
  else found letter (skipWord buf es s)

/-- The cursor after `peek`, and what it returns. -/
def peek (toks : List UInt8) (ps : Nat) : Nat × Bool :=
  let s := skipBlanks buf es ps
  let c := charAt buf s
  (s, c != 0 && strchr toks c)

/-- `*cmd->argv[argc] = q`, where `ret` is the command with the redirections around it. -/
def Cmd.addArg (arg : Span) : Cmd Span → Cmd Span
  | .exec argv => .exec (argv ++ [arg])
  | .redir cmd file mode fd => .redir (cmd.addArg arg) file mode fd
  | other => other

/-- What `parseredirs` makes of a command, the token `tok` and a file. -/
def redircmd (tok : UInt8) (cmd : Cmd Span) (file : Span) : Cmd Span :=
  if tok = less then .redir cmd file oRdonly 0
  else if tok = greater then .redir cmd file (oWronly ||| oCreate) 1
  else if tok = plus then .redir cmd file (oWronly ||| oCreate ||| oAppend) 1
  else cmd

def parseredirs : Nat → Cmd Span → Nat → Except Halt (Cmd Span × Nat)
  | 0, _, _ => .error .fuel
  | fuel + 1, cmd, ps =>
      let (ps, found) := peek buf es [less, greater] ps
      if found then do
        let tok ← gettoken buf es ps
        let file ← gettoken buf es tok.next
        if file.ret ≠ letter then .error .panic
        else parseredirs fuel (redircmd tok.ret cmd ⟨file.q, file.eq⟩) file.next
      else .ok (cmd, ps)

/-- The loop of `parseexec` over the arguments. -/
def parseargs : Nat → Cmd Span → Nat → Nat → Except Halt (Cmd Span × Nat)
  | 0, _, _, _ => .error .fuel
  | fuel + 1, ret, argc, ps =>
      let (ps, stop) := peek buf es [bar, right, amp, semi] ps
      if stop then .ok (ret, ps)
      else do
        let tok ← gettoken buf es ps
        if tok.ret = 0 then .ok (ret, tok.next)
        else if tok.ret ≠ doubleQuote ∧ tok.ret ≠ letter then .error .panic
        else
          let arg := if tok.ret = doubleQuote then ⟨tok.q + 1, tok.eq - 1⟩ else ⟨tok.q, tok.eq⟩
          if argc + 1 ≥ maxArgs then .error .panic
          else do
            let (ret, ps) ← parseredirs buf es fuel (ret.addArg arg) tok.next
            parseargs fuel ret (argc + 1) ps

/-- The loop of `parseline` over `&`. -/
def parseback : Nat → Cmd Span → Nat → Except Halt (Cmd Span × Nat)
  | 0, _, _ => .error .fuel
  | fuel + 1, cmd, ps =>
      let (ps, found) := peek buf es [amp] ps
      if found then do
        let tok ← gettoken buf es ps
        parseback fuel (.back cmd) tok.next
      else .ok (cmd, ps)

mutual

def parseline : Nat → Nat → Except Halt (Cmd Span × Nat)
  | 0, _ => .error .fuel
  | fuel + 1, ps => do
      let (cmd, ps) ← parsepipe fuel ps
      let (cmd, ps) ← parseback buf es fuel cmd ps
      let (ps, found) := peek buf es [semi] ps
      if found then do
        let tok ← gettoken buf es ps
        let (next, ps) ← parseline fuel tok.next
        .ok (.list cmd next, ps)
      else .ok (cmd, ps)

def parsepipe : Nat → Nat → Except Halt (Cmd Span × Nat)
  | 0, _ => .error .fuel
  | fuel + 1, ps => do
      let (cmd, ps) ← parseexec fuel ps
      let (ps, found) := peek buf es [bar] ps
      if found then do
        let tok ← gettoken buf es ps
        let (next, ps) ← parsepipe fuel tok.next
        .ok (.pipe cmd next, ps)
      else .ok (cmd, ps)

def parseblock : Nat → Nat → Except Halt (Cmd Span × Nat)
  | 0, _ => .error .fuel
  | fuel + 1, ps => do
      let (ps, found) := peek buf es [left] ps
      if found then do
        let tok ← gettoken buf es ps
        let (cmd, ps) ← parseline fuel tok.next
        let (ps, closed) := peek buf es [right] ps
        if closed then do
          let tok ← gettoken buf es ps
          parseredirs buf es fuel cmd tok.next
        else .error .panic
      else .error .panic

def parseexec : Nat → Nat → Except Halt (Cmd Span × Nat)
  | 0, _ => .error .fuel
  | fuel + 1, ps => do
      let (ps, block) := peek buf es [left] ps
      if block then parseblock fuel ps
      else do
        let (ret, ps) ← parseredirs buf es fuel (.exec []) ps
        parseargs buf es fuel ret 0 ps

end

end Parser

/-- The buffer after `nulterminate`. -/
def nulterminate : Cmd Span → List UInt8 → List UInt8
  | .exec argv, buf => argv.foldl (fun buf arg => buf.set arg.eq 0) buf
  | .redir cmd file _ _, buf => (nulterminate cmd buf).set file.eq 0
  | .pipe left right, buf => nulterminate right (nulterminate left buf)
  | .list left right, buf => nulterminate right (nulterminate left buf)
  | .back cmd, buf => nulterminate cmd buf

def strlen (buf : List UInt8) : Nat := (buf.takeWhile fun c => c != 0).length

/-- The command, and the buffer as `parsecmd` leaves it. -/
def parsecmd (fuel : Nat) (buf : List UInt8) : Except Halt (Cmd Span × List UInt8) := do
  let es := strlen buf
  let (cmd, s) ← parseline buf es fuel 0
  let (s, _) := peek buf es [] s
  if s ≠ es then .error .panic else .ok (cmd, nulterminate cmd buf)

/-- The C string that starts at a pointer. -/
def cString (buf : List UInt8) (s : Nat) : List UInt8 := (buf.drop s).takeWhile fun c => c != 0

def Cmd.map {α β : Type} (read : α → β) : Cmd α → Cmd β
  | .exec argv => .exec (argv.map read)
  | .redir cmd file mode fd => .redir (cmd.map read) (read file) mode fd
  | .pipe left right => .pipe (left.map read) (right.map read)
  | .list left right => .list (left.map read) (right.map read)
  | .back cmd => .back (cmd.map read)

end OsWorkbench.Shell
