import OsWorkbench.Shell.Print

/-!
# Parsing a printed command

What each function of the parser does with the pieces of a command: it stops where they end, and
the strings of its command stand in the line in their order. The buffer that `nulterminate` leaves
then has them as C strings.
-/

namespace OsWorkbench.Shell

section Strings

variable {line : List UInt8}

def Cmd.strings {α : Type} : Cmd α → List α
  | .exec argv => argv
  | .redir cmd file _ _ => cmd.strings ++ [file]
  | .pipe left right => left.strings ++ right.strings
  | .list left right => left.strings ++ right.strings
  | .back cmd => cmd.strings

def Span.text (line : List UInt8) (span : Span) : List UInt8 :=
  (line.drop span.q).take (span.eq - span.q)

/-- A string stands between two positions of the cursor, and a character follows it there. -/
structure Span.Inside (line : List UInt8) (start stop : Nat) (span : Span) : Prop where
  begins : start ≤ span.q
  order : span.q ≤ span.eq
  within : span.q < line.length
  ends : span.eq ≤ stop
  followed : stop < line.length → span.eq < stop

/-- A command that was read between two positions of the cursor. -/
structure Reads (line : List UInt8) (start stop : Nat) (cmd : Cmd Span)
    (meaning : Cmd (List UInt8)) : Prop where
  same : cmd.map (Span.text line) = meaning
  inside : ∀ span ∈ cmd.strings, span.Inside line start stop
  sorted : cmd.strings.Pairwise fun first second => first.eq < second.q
  forward : start ≤ stop

theorem Span.Inside.mono {span : Span} {start stop earlier later : Nat}
    (inside : span.Inside line start stop) (before : earlier ≤ start) (behind : stop ≤ later) :
    span.Inside line earlier later where
  begins := Nat.le_trans before inside.begins
  order := inside.order
  within := inside.within
  ends := Nat.le_trans inside.ends behind
  followed := by
    intro more
    exact Nat.lt_of_lt_of_le (inside.followed (Nat.lt_of_le_of_lt behind more)) behind

/-- Strings that were read one after the other do not meet. -/
theorem Span.Inside.before {first second : Span} {start middle resumed stop : Nat}
    (former : first.Inside line start middle) (order : middle ≤ resumed)
    (latter : second.Inside line resumed stop) : first.eq < second.q := by
  have place := latter.begins
  have within := latter.within
  have followed := former.followed (by omega)
  omega

theorem strings_append {firsts seconds : List Span} {start middle resumed stop : Nat}
    (former : ∀ span ∈ firsts, span.Inside line start middle)
    (latter : ∀ span ∈ seconds, span.Inside line resumed stop)
    (first : firsts.Pairwise fun first second => first.eq < second.q)
    (second : seconds.Pairwise fun first second => first.eq < second.q)
    (early : start ≤ middle) (order : middle ≤ resumed) (late : resumed ≤ stop) :
    (∀ span ∈ firsts ++ seconds, span.Inside line start stop) ∧
      (firsts ++ seconds).Pairwise fun first second => first.eq < second.q := by
  constructor
  · intro span listed
    rcases List.mem_append.mp listed with left | right
    · exact (former span left).mono (Nat.le_refl _) (Nat.le_trans order late)
    · exact (latter span right).mono (Nat.le_trans early order) (Nat.le_refl _)
  · rw [List.pairwise_append]
    constructor
    · exact first
    · constructor
      · exact second
      · intro one left other right
        exact (former one left).before order (latter other right)

variable {start middle resumed stop : Nat} {cmd next : Cmd Span} {meaning further : Cmd (List UInt8)}

theorem Reads.widen (reads : Reads line middle resumed cmd meaning) (before : start ≤ middle)
    (behind : resumed ≤ stop) : Reads line start stop cmd meaning where
  same := reads.same
  inside := fun span listed => (reads.inside span listed).mono before behind
  sorted := reads.sorted
  forward := Nat.le_trans before (Nat.le_trans reads.forward behind)

theorem Reads.pipe (reads : Reads line start middle cmd meaning) (order : middle ≤ resumed)
    (more : Reads line resumed stop next further) :
    Reads line start stop (.pipe cmd next) (.pipe meaning further) := by
  have both := strings_append reads.inside more.inside reads.sorted more.sorted reads.forward order
    more.forward
  constructor
  · rw [Cmd.map, reads.same, more.same]
  · exact both.1
  · exact both.2
  · exact Nat.le_trans reads.forward (Nat.le_trans order more.forward)

theorem Reads.list (reads : Reads line start middle cmd meaning) (order : middle ≤ resumed)
    (more : Reads line resumed stop next further) :
    Reads line start stop (.list cmd next) (.list meaning further) := by
  have both := strings_append reads.inside more.inside reads.sorted more.sorted reads.forward order
    more.forward
  constructor
  · rw [Cmd.map, reads.same, more.same]
  · exact both.1
  · exact both.2
  · exact Nat.le_trans reads.forward (Nat.le_trans order more.forward)

theorem Reads.back (reads : Reads line start stop cmd meaning) :
    Reads line start stop (.back cmd) (.back meaning) where
  same := by rw [Cmd.map, reads.same]
  inside := reads.inside
  sorted := reads.sorted
  forward := reads.forward

theorem Reads.redir (reads : Reads line start middle cmd meaning) {file : Span} {mode fd : Nat}
    (order : middle ≤ resumed) (inside : file.Inside line resumed stop) :
    Reads line start stop (.redir cmd file mode fd) (.redir meaning (file.text line) mode fd) := by
  have forward : resumed ≤ stop := Nat.le_trans inside.begins (Nat.le_trans inside.order inside.ends)
  have single : ∀ span ∈ [file], span.Inside line resumed stop := by
    intro span listed
    rw [List.mem_singleton.mp listed]
    exact inside
  have both := strings_append reads.inside single reads.sorted (List.pairwise_singleton _ _)
    reads.forward order forward
  constructor
  · rw [Cmd.map, reads.same]
  · exact both.1
  · exact both.2
  · exact Nat.le_trans reads.forward (Nat.le_trans order forward)

theorem Reads.arg {argv : List Span} {texts : List (List UInt8)}
    (reads : Reads line start middle (.exec argv) (.exec texts)) {arg : Span}
    (order : middle ≤ resumed) (inside : arg.Inside line resumed stop) :
    Reads line start stop (.exec (argv ++ [arg])) (.exec (texts ++ [arg.text line])) := by
  have forward : resumed ≤ stop := Nat.le_trans inside.begins (Nat.le_trans inside.order inside.ends)
  have single : ∀ span ∈ [arg], span.Inside line resumed stop := by
    intro span listed
    rw [List.mem_singleton.mp listed]
    exact inside
  have both := strings_append reads.inside single reads.sorted (List.pairwise_singleton _ _)
    reads.forward order forward
  have same := reads.same
  simp only [Cmd.map, Cmd.exec.injEq] at same
  constructor
  · rw [Cmd.map, List.map_append, same]
    rfl
  · exact both.1
  · exact both.2
  · exact Nat.le_trans reads.forward (Nat.le_trans order forward)

theorem reads_nothing (start : Nat) : Reads line start start (.exec []) (.exec []) where
  same := rfl
  inside := fun _ listed => nomatch listed
  sorted := List.Pairwise.nil
  forward := Nat.le_refl start

end Strings

section Pieces

variable {line : List UInt8} {ps : Nat} {rest : List Piece}

theorem Scan.word_text {word : Word} (scan : Scan line ps (.arg (.word word) :: rest)) :
    Span.text line ⟨ps, ps + word.text.length⟩ = word.text := by
  unfold Span.text
  rw [scan.line_rest, Nat.add_sub_cancel_left]
  exact List.take_left

theorem Scan.word_inside {word : Word} (scan : Scan line ps (.arg (.word word) :: rest)) :
    Span.Inside line ps (after ps (.arg (.word word)) rest) ⟨ps, ps + word.text.length⟩ where
  begins := Nat.le_refl _
  order := Nat.le_add_right _ _
  within := by
    have ends : ps + word.text.length ≤ line.length := scan.text_end
    have nonempty := List.length_pos_of_ne_nil word.nonempty
    change ps < line.length
    omega
  ends := Nat.le_add_right _ _
  followed := scan.end_inside.2

theorem Scan.quoted_text {quoted : Quoted} (scan : Scan line ps (.arg (.quoted quoted) :: rest)) :
    Span.text line ⟨ps + 1, ps + (Piece.arg (.quoted quoted)).text.length - 1⟩ =
      quoted.content := by
  have length : (Piece.arg (.quoted quoted)).text.length = quoted.content.length + 2 := by
    simp [Piece.text]
  have text : (Piece.arg (.quoted quoted)).text =
      quoted.quote :: (quoted.content ++ [quoted.quote]) := rfl
  unfold Span.text
  rw [length, ← List.drop_drop, scan.line_rest, text]
  have size : ps + (quoted.content.length + 2) - 1 - (ps + 1) = quoted.content.length := by omega
  simp only [size, List.cons_append, List.drop_succ_cons, List.drop_zero, List.append_assoc]
  exact List.take_left

theorem Scan.quoted_inside {quoted : Quoted} (scan : Scan line ps (.arg (.quoted quoted) :: rest)) :
    Span.Inside line ps (after ps (.arg (.quoted quoted)) rest)
      ⟨ps + 1, ps + (Piece.arg (.quoted quoted)).text.length - 1⟩ := by
  have length : (Piece.arg (.quoted quoted)).text.length = quoted.content.length + 2 := by
    simp [Piece.text]
  have ends := scan.text_end
  have behind : ps + (Piece.arg (.quoted quoted)).text.length ≤
      after ps (.arg (.quoted quoted)) rest := Nat.le_add_right _ _
  constructor
  · exact Nat.le_succ ps
  · change ps + 1 ≤ ps + _ - 1
    omega
  · change ps + 1 < line.length
    omega
  · change ps + _ - 1 ≤ _
    omega
  · intro _
    change ps + _ - 1 < _
    omega

end Pieces

end OsWorkbench.Shell
