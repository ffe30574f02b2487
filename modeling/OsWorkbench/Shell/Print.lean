import OsWorkbench.Shell.Parse
import Mathlib.Data.List.GetD

/-!
# Printing commands

Command trees, the pieces of a line that shows one, and the line. An operand that is not of the
class that the grammar has in its place stands in parentheses, and a blank stands between pieces.
-/

namespace OsWorkbench.Shell

/-- A word without quotes around it. -/
structure Word where
  text : List UInt8
  nonempty : text ≠ []
  plain : ∀ c ∈ text, c ≠ 0 ∧ strchr whitespace c = false ∧ strchr symbols c = false
  unquoted : text.head? ≠ some doubleQuote ∧ text.head? ≠ some singleQuote

structure Quoted where
  quote : UInt8
  isQuote : quote = doubleQuote ∨ quote = singleQuote
  content : List UInt8
  clean : ∀ c ∈ content, c ≠ 0 ∧ c ≠ quote

inductive Arg where
  | word (word : Word)
  | quoted (quoted : Quoted)

inductive Direction where
  | input
  | output
  | append
  deriving DecidableEq

inductive Tree where
  | exec (args : List Arg) (few : args.length < maxArgs)
  | redir (cmd : Tree) (direction : Direction) (file : Word)
  | pipe (left right : Tree)
  | list (left right : Tree)
  | back (cmd : Tree)

section Meaning

def Arg.text : Arg → List UInt8
  | .word bare => bare.text
  | .quoted string => string.content

def Direction.mode : Direction → Nat
  | .input => oRdonly
  | .output => oWronly ||| oCreate
  | .append => oWronly ||| oCreate ||| oAppend

def Direction.fd : Direction → Nat
  | .input => 0
  | .output => 1
  | .append => 1

/-- The command that a tree stands for. -/
def Tree.cmd : Tree → Cmd (List UInt8)
  | .exec args _ => .exec (args.map Arg.text)
  | .redir cmd direction file => .redir cmd.cmd file.text direction.mode direction.fd
  | .pipe left right => .pipe left.cmd right.cmd
  | .list left right => .list left.cmd right.cmd
  | .back cmd => .back cmd.cmd

end Meaning

section Pieces

inductive Sign where
  | bar
  | amp
  | semi
  | left
  | right
  deriving DecidableEq

def Sign.char : Sign → UInt8
  | .bar => Shell.bar
  | .amp => Shell.amp
  | .semi => Shell.semi
  | .left => Shell.left
  | .right => Shell.right

inductive Piece where
  | arg (arg : Arg)
  | direction (direction : Direction)
  | sign (sign : Sign)

def Piece.text : Piece → List UInt8
  | .arg (.word bare) => bare.text
  | .arg (.quoted string) => string.quote :: string.content ++ [string.quote]
  | .direction .input => [less]
  | .direction .output => [greater]
  | .direction .append => [greater, greater]
  | .sign mark => [mark.char]

/-- The class of a tree: what `parseexec`, `parsepipe`, the loop of `parseline` and `parseline`
accept. -/
def Tree.rank : Tree → Nat
  | .exec _ _ => 0
  | .redir _ _ _ => 0
  | .pipe _ _ => 1
  | .back _ => 2
  | .list _ _ => 3

def parenthesised (pieces : List Piece) : List Piece :=
  [.sign .left] ++ pieces ++ [.sign .right]

def operand (rank limit : Nat) (pieces : List Piece) : List Piece :=
  if rank ≤ limit then pieces else parenthesised pieces

def redirPieces (direction : Direction) (file : Word) : List Piece :=
  [.direction direction, .arg (.word file)]

def Tree.pieces : Tree → List Piece
  | .exec args _ => args.map Piece.arg
  | .redir cmd direction file => operand cmd.rank 0 cmd.pieces ++ redirPieces direction file
  | .pipe left right =>
      operand left.rank 0 left.pieces ++ [.sign .bar] ++ operand right.rank 1 right.pieces
  | .list left right => operand left.rank 2 left.pieces ++ [.sign .semi] ++ right.pieces
  | .back cmd => operand cmd.rank 2 cmd.pieces ++ [.sign .amp]

def joined : List Piece → List UInt8
  | [] => []
  | [piece] => piece.text
  | piece :: next :: rest => piece.text ++ blank :: joined (next :: rest)

def Tree.printed (tree : Tree) : List UInt8 := joined tree.pieces

end Pieces

section Scanning

/-- The first character of a piece. -/
def Piece.first (piece : Piece) : UInt8 := piece.text.headD 0

/-- The character at the cursor when these pieces are left. -/
def upcoming : List Piece → UInt8
  | [] => 0
  | piece :: _ => piece.first

/-- What `gettoken` says about a piece. -/
def Piece.ret : Piece → UInt8
  | .arg (.word _) => letter
  | .arg (.quoted _) => doubleQuote
  | .direction .input => less
  | .direction .output => greater
  | .direction .append => plus
  | .sign mark => mark.char

/-- The pieces are what is left of the line at the cursor. -/
structure Scan (line : List UInt8) (ps : Nat) (pieces : List Piece) : Prop where
  rest : line.drop ps = joined pieces
  inside : ps ≤ line.length

theorem piece_nonempty (piece : Piece) : piece.text ≠ [] := by
  cases piece with
  | arg arg =>
      cases arg with
      | word word => exact word.nonempty
      | quoted quoted => simp [Piece.text]
  | direction direction => cases direction <;> simp [Piece.text]
  | sign sign => simp [Piece.text]

theorem piece_first (piece : Piece) : piece.text = piece.first :: piece.text.tail := by
  unfold Piece.first
  cases known : piece.text with
  | nil => exact absurd known (piece_nonempty piece)
  | cons c rest => rfl

/-- A piece does not start with a blank or a NUL. -/
theorem first_visible (piece : Piece) :
    piece.first ≠ 0 ∧ strchr whitespace piece.first = false := by
  cases piece with
  | arg arg =>
      cases arg with
      | word word =>
          have listed : (Piece.arg (.word word)).first ∈ word.text := by
            change _ ∈ (Piece.arg (.word word)).text
            rw [piece_first]
            exact List.mem_cons_self
          have plain := word.plain _ listed
          exact ⟨plain.1, plain.2.1⟩
      | quoted quoted =>
          rcases quoted.isQuote with known | known
          · change quoted.quote ≠ 0 ∧ strchr whitespace quoted.quote = false
            rw [known]
            decide
          · change quoted.quote ≠ 0 ∧ strchr whitespace quoted.quote = false
            rw [known]
            decide
  | direction direction => cases direction <;> decide
  | sign sign => cases sign <;> decide

theorem joined_cons (piece : Piece) (rest : List Piece) :
    joined (piece :: rest) = piece.text ++ if rest = [] then [] else blank :: joined rest := by
  cases rest with
  | nil => simp [joined]
  | cons next rest => simp [joined]

theorem joined_first (pieces : List Piece) :
    (joined pieces).headD 0 = upcoming pieces := by
  cases pieces with
  | nil => rfl
  | cons piece rest =>
      rw [joined_cons, piece_first]
      rfl

variable {line : List UInt8} {ps : Nat} {pieces : List Piece}

theorem char_drop (inside : ps ≤ line.length) :
    charAt (line ++ [0]) ps = (line.drop ps).headD 0 := by
  unfold charAt
  rcases Nat.lt_or_ge ps line.length with within | outside
  · rw [List.getD_append _ _ _ _ within, List.drop_eq_getElem_cons within]
    simp
  · have ends : ps = line.length := Nat.le_antisymm inside outside
    rw [ends]
    simp

theorem Scan.char (scan : Scan line ps pieces) : charAt (line ++ [0]) ps = upcoming pieces := by
  rw [char_drop scan.inside, scan.rest, joined_first]

theorem scanned_rest (line : List UInt8) (ps : Nat) :
    (((line ++ [0]).take line.length).drop ps) = line.drop ps := by
  rw [List.take_left]

/-- No blank stands at the cursor. -/
theorem Scan.skip (scan : Scan line ps pieces) : skipBlanks (line ++ [0]) line.length ps = ps := by
  unfold skipBlanks
  rw [scanned_rest, scan.rest]
  cases pieces with
  | nil => rfl
  | cons piece rest =>
      have visible := (first_visible piece).2
      rw [joined_cons, piece_first, List.cons_append, List.takeWhile_cons, if_neg (by simp [visible])]
      rfl

theorem Scan.peek (scan : Scan line ps pieces) (toks : List UInt8) :
    peek (line ++ [0]) line.length toks ps =
      (ps, upcoming pieces != 0 && strchr toks (upcoming pieces)) := by
  unfold Shell.peek
  simp only [scan.skip, scan.char]

/-- The cursor after a piece. -/
def after (ps : Nat) (piece : Piece) (rest : List Piece) : Nat :=
  ps + piece.text.length + if rest = [] then 0 else 1

theorem Scan.drop_text {piece : Piece} {rest : List Piece} (scan : Scan line ps (piece :: rest)) :
    line.drop (ps + piece.text.length) = if rest = [] then [] else blank :: joined rest := by
  rw [← List.drop_drop, scan.rest, joined_cons, List.drop_left]

theorem Scan.end_inside {piece : Piece} {rest : List Piece} (scan : Scan line ps (piece :: rest)) :
    after ps piece rest ≤ line.length ∧
      (after ps piece rest < line.length → ps + piece.text.length < after ps piece rest) := by
  have lengths := congrArg List.length scan.rest
  have inside := scan.inside
  rw [List.length_drop, joined_cons, List.length_append] at lengths
  unfold after
  split at lengths
  next none =>
    rw [if_pos none]
    simp only [List.length_nil] at lengths
    constructor <;> omega
  next some =>
    rw [if_neg some]
    simp only [List.length_cons] at lengths
    constructor <;> omega

theorem Scan.next {piece : Piece} {rest : List Piece} (scan : Scan line ps (piece :: rest)) :
    Scan line (after ps piece rest) rest where
  rest := by
    have dropped := scan.drop_text
    unfold after
    rw [← List.drop_drop, dropped]
    by_cases none : rest = []
    · rw [if_pos none, if_pos none, none]
      rfl
    · rw [if_neg none, if_neg none]
      rfl
  inside := scan.end_inside.1

/-- After a piece, the blank is skipped. -/
theorem Scan.skip_after {piece : Piece} {rest : List Piece} (scan : Scan line ps (piece :: rest)) :
    skipBlanks (line ++ [0]) line.length (ps + piece.text.length) = after ps piece rest := by
  unfold skipBlanks after
  rw [scanned_rest, scan.drop_text]
  by_cases none : rest = []
  · rw [if_pos none, if_pos none]
    rfl
  · rw [if_neg none, if_neg none]
    have stops : (joined rest).takeWhile (fun c => strchr whitespace c) = [] := by
      cases rest with
      | nil => rfl
      | cons piece others =>
          have visible := (first_visible piece).2
          rw [joined_cons, piece_first, List.cons_append, List.takeWhile_cons,
            if_neg (by simp [visible])]
    have space : strchr whitespace blank = true := by decide
    rw [List.takeWhile_cons, if_pos space, stops]
    rfl

/-- What follows the text of a piece. -/
def trail (rest : List Piece) : List UInt8 := if rest = [] then [] else blank :: joined rest

theorem trail_first (rest : List Piece) : (trail rest).headD 0 = 0 ∨ (trail rest).headD 0 = blank := by
  unfold trail
  split
  · exact Or.inl rfl
  · exact Or.inr rfl

theorem Scan.text_end {piece : Piece} {rest : List Piece} (scan : Scan line ps (piece :: rest)) :
    ps + piece.text.length ≤ line.length := by
  have lengths := congrArg List.length scan.rest
  rw [List.length_drop, joined_cons, List.length_append] at lengths
  have inside := scan.inside
  omega

theorem Scan.line_rest {piece : Piece} {rest : List Piece} (scan : Scan line ps (piece :: rest)) :
    line.drop ps = piece.text ++ trail rest := by
  rw [scan.rest, joined_cons]
  rfl

theorem Scan.skip_word {word : Word} {rest : List Piece}
    (scan : Scan line ps (.arg (.word word) :: rest)) :
    skipWord (line ++ [0]) line.length ps = ps + word.text.length := by
  unfold skipWord
  rw [scanned_rest, scan.line_rest]
  have plain : ∀ c ∈ word.text, (!strchr whitespace c && !strchr symbols c) = true := by
    intro c listed
    have known := word.plain c listed
    simp [known.2.1, known.2.2]
  have stops : (trail rest).takeWhile (fun c => !strchr whitespace c && !strchr symbols c) = [] := by
    unfold trail
    split
    · rfl
    · exact List.takeWhile_cons_of_neg (by decide)
  rw [show Piece.text (.arg (.word word)) = word.text from rfl,
    List.takeWhile_append_of_pos plain, stops, List.append_nil]

theorem Scan.skip_quoted {quoted : Quoted} {rest : List Piece}
    (scan : Scan line ps (.arg (.quoted quoted) :: rest)) :
    skipQuoted (line ++ [0]) quoted.quote ps = ps + 1 + quoted.content.length ∧
      charAt (line ++ [0]) (ps + 1 + quoted.content.length) = quoted.quote := by
  have ends := scan.text_end
  have text : (Piece.arg (.quoted quoted)).text =
      quoted.quote :: (quoted.content ++ [quoted.quote]) := rfl
  rw [text, List.length_cons, List.length_append, List.length_singleton] at ends
  have dropped : line.drop (ps + 1) = quoted.content ++ (quoted.quote :: trail rest) := by
    rw [← List.drop_drop, scan.line_rest, text]
    simp
  constructor
  · unfold skipQuoted
    have clean : ∀ c ∈ quoted.content, (c != quoted.quote && c != 0) = true := by
      intro c listed
      have known := quoted.clean c listed
      simp [known.1, known.2]
    rw [List.drop_append_of_le_length (by omega), dropped, List.append_assoc,
      List.takeWhile_append_of_pos clean, List.cons_append,
      List.takeWhile_cons_of_neg (by simp), List.append_nil]
  · rw [char_drop (by omega), ← List.drop_drop, dropped, List.drop_left]
    rfl

/-- The character after `>` belongs to the token only if it is another one. -/
theorem Scan.greater_alone {rest : List Piece}
    (scan : Scan line ps (.direction .output :: rest)) :
    charAt (line ++ [0]) (ps + 1) ≠ greater := by
  have ends : ps + 1 ≤ line.length := scan.text_end
  have dropped : line.drop (ps + 1) = trail rest := by
    rw [← List.drop_drop, scan.line_rest]
    rfl
  rw [char_drop ends, dropped]
  rcases trail_first rest with zero | space
  · rw [zero]
    decide
  · rw [space]
    decide

theorem Scan.greater_twice {rest : List Piece}
    (scan : Scan line ps (.direction .append :: rest)) :
    charAt (line ++ [0]) (ps + 1) = greater := by
  have ends : ps + 2 ≤ line.length := scan.text_end
  rw [char_drop (by omega), ← List.drop_drop, scan.line_rest]
  rfl

theorem word_first (word : Word) :
    (Piece.arg (.word word)).first ≠ doubleQuote ∧ (Piece.arg (.word word)).first ≠ singleQuote ∧
      (Piece.arg (.word word)).first ≠ 0 ∧
        strchr symbols (Piece.arg (.word word)).first = false := by
  have text : word.text = (Piece.arg (.word word)).first :: word.text.tail :=
    piece_first (.arg (.word word))
  have unquoted := word.unquoted
  rw [text] at unquoted
  simp only [List.head?_cons, ne_eq, Option.some.injEq] at unquoted
  have listed : (Piece.arg (.word word)).first ∈ word.text := by
    rw [text]
    exact List.mem_cons_self
  have plain := word.plain _ listed
  exact ⟨unquoted.1, unquoted.2, plain.1, plain.2.2⟩

/-- `gettoken` finds the next piece. -/
theorem Scan.gettoken {piece : Piece} {rest : List Piece} (scan : Scan line ps (piece :: rest)) :
    gettoken (line ++ [0]) line.length ps =
      .ok ⟨piece.ret, ps, ps + piece.text.length, after ps piece rest⟩ := by
  have skip := scan.skip
  have char : charAt (line ++ [0]) ps = piece.first := scan.char
  have next := scan.skip_after
  unfold Shell.gettoken
  simp only [skip, char]
  cases piece with
  | arg arg =>
      cases arg with
      | word word =>
          have first := word_first word
          have ends := scan.skip_word
          have apart : ∀ c ∈ symbols, (Piece.arg (.word word)).first ≠ c := by
            intro c listed same
            have clash := first.2.2.2
            rw [same] at clash
            simp [strchr, listed] at clash
          simp only [symbols, List.mem_cons, List.not_mem_nil, or_false, forall_eq_or_imp,
            forall_eq] at apart
          rw [if_neg (by simp [first]), if_neg first.2.2.1, if_neg (by simp [apart]),
            if_neg apart.2.2.1, ends]
          change skipBlanks _ _ (ps + word.text.length) = _ at next
          rw [next]
          rfl
      | quoted quoted =>
          have quoted_ends := scan.skip_quoted
          have first : (Piece.arg (.quoted quoted)).first = quoted.quote := rfl
          have visible : quoted.quote ≠ 0 := by
            rw [← first]
            exact (first_visible _).1
          have length : (Piece.arg (.quoted quoted)).text.length =
              1 + quoted.content.length + 1 := by
            simp [Piece.text]
            omega
          rw [first, if_pos quoted.isQuote, quoted_ends.1, quoted_ends.2, if_neg visible]
          rw [length] at next ⊢
          rw [← Nat.add_assoc, ← Nat.add_assoc] at next ⊢
          rw [next]
          rfl
  | direction direction =>
      cases direction with
      | input =>
          change skipBlanks _ _ (ps + 1) = _ at next
          rw [if_neg (by decide), if_neg (by decide), if_pos (by decide), next]
          rfl
      | output =>
          change skipBlanks _ _ (ps + 1) = _ at next
          rw [if_neg (by decide), if_neg (by decide), if_neg (by decide), if_pos (by decide),
            if_neg scan.greater_alone, next]
          rfl
      | append =>
          change skipBlanks _ _ (ps + 2) = _ at next
          rw [if_neg (by decide), if_neg (by decide), if_neg (by decide), if_pos (by decide),
            if_pos scan.greater_twice, next]
          rfl
  | sign mark =>
      change skipBlanks _ _ (ps + 1) = _ at next
      have place : (Piece.sign mark).first = mark.char := rfl
      rw [place, next]
      cases mark <;> rfl

/-- At the end of the line `gettoken` returns 0. -/
theorem Scan.gettoken_end (scan : Scan line ps []) :
    Shell.gettoken (line ++ [0]) line.length ps = .ok ⟨0, ps, ps, ps⟩ := by
  have skip := scan.skip
  have char := scan.char
  unfold Shell.gettoken
  simp only [skip, char]
  rfl

end Scanning

end OsWorkbench.Shell
