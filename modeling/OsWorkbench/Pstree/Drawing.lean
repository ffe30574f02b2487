import OsWorkbench.Pstree.Siblings

/-!
# `pstree.c`: drawing the tree

`print_tree` keeps what the lines of deeper processes start with in two arrays of 20 levels. What it
prints is the tree drawn with the levels passed down.
-/

namespace OsWorkbench.Pstree

section Source

/-- A process with what its links lead to: the first son and the next brother. -/
inductive Kin where
  | null
  | node (pid : Nat) (proc : Proc) (son bro : Kin)
  deriving Inhabited

def Kin.isNull : Kin → Bool
  | .null => true
  | .node _ _ _ _ => false

/-- `bro!=NULL` of what a link leads to. -/
def Kin.hasBro : Kin → Bool
  | .null => false
  | .node _ _ _ bro => !bro.isNull

/-- `MAX_DEP`. -/
def maxDep : Nat := 20

/-- `level` is `depth` and one. -/
structure Canvas where
  blankLen : Nat → Nat
  barExist : Nat → Bool
  level : Nat
  printed : List UInt8

def Canvas.blank : Canvas := ⟨fun _ => 0, fun _ => false, 0, []⟩

def Canvas.print (canvas : Canvas) (text : List UInt8) : Canvas :=
  { canvas with printed := canvas.printed ++ text }

/-- `%d` of a number that is not negative. -/
def numeral (n : Nat) : List UInt8 := (Nat.toDigits 10 n).map fun digit => UInt8.ofNat digit.toNat

/-- `%*s` of one blank. -/
def blanks (width : Nat) : List UInt8 := List.replicate (max width 1) 0x20

/-- The characters `│`, `├`, `└`, `─` and `┬`, in UTF-8. -/
def boxBar : List UInt8 := [0xe2, 0x94, 0x82]
def boxFork : List UInt8 := [0xe2, 0x94, 0x9c]
def boxEnd : List UInt8 := [0xe2, 0x94, 0x94]
def boxLine : List UInt8 := [0xe2, 0x94, 0x80]
def boxTee : List UInt8 := [0xe2, 0x94, 0xac]

/-- What `output` prints for a process. -/
def label (showPids : Bool) (pid : Nat) (proc : Proc) : List UInt8 :=
  (if proc.cnt > 1 then numeral proc.cnt.toNat ++ [0x2a, 0x5b] else []) ++ proc.name ++
    (if showPids then 0x28 :: (numeral pid ++ [0x29]) else []) ++
    (if proc.cnt > 1 then [0x5d] else [])

/-- A level in the pattern of the indent. -/
def barText (exist : Bool) : List UInt8 := if exist then boxBar ++ [0x20] else [0x20, 0x20]

/-- The loop for the pattern of the indent. -/
def Canvas.indent (canvas : Canvas) : List UInt8 :=
  (List.range canvas.level).flatMap fun i =>
    blanks (canvas.blankLen i) ++ if i + 1 < canvas.level then barText (canvas.barExist i) else []

/-- `bar_exist[depth]=exist`; without a level it is an access before the array. -/
def Canvas.setBar (canvas : Canvas) (exist : Bool) : Option Canvas :=
  match canvas.level with
  | 0 => none
  | depth + 1 => some { canvas with barExist := Function.update canvas.barExist depth exist }

/-- The start of the line, or what joins a first son to its parent. -/
def Canvas.join (canvas : Canvas) (pid : Nat) (bro : Kin) (isFirst : Bool) : Option Canvas :=
  if isFirst = false then
    let canvas := canvas.print canvas.indent
    if bro.isNull then (canvas.print (boxEnd ++ boxLine)).setBar false
    else some (canvas.print (boxFork ++ boxLine))
  else if pid ≠ 1 then
    if bro.isNull then (canvas.print (boxLine ++ boxLine ++ boxLine)).setBar false
    else some (canvas.print (boxLine ++ boxTee ++ boxLine))
  else some canvas

/-- `blank_len[++depth]=len+1`. -/
def Canvas.deeper (canvas : Canvas) (len : Nat) : Option Canvas :=
  if canvas.level < maxDep then
    some { canvas with
      blankLen := Function.update canvas.blankLen canvas.level (len + 1)
      level := canvas.level + 1 }
  else none

def Canvas.back (canvas : Canvas) : Canvas := { canvas with level := canvas.level - 1 }

/-- The line ends behind a process without sons; else they are drawn one level below. -/
def Canvas.sons (canvas : Canvas) (len : Nat) (son : Kin) (draw : Canvas → Option Canvas) :
    Option Canvas :=
  if son.isNull then some (canvas.print [0x0a])
  else do
    let below ← canvas.deeper len
    let barred ← below.setBar son.hasBro
    (draw barred).map Canvas.back

/-- The next turn of the loop over the sons. -/
def Canvas.turn (canvas : Canvas) (cur : Kin) (draw : Canvas → Option Canvas) : Option Canvas :=
  if cur.isNull then some canvas
  else do
    let barred ← canvas.setBar cur.hasBro
    draw barred

/-- `print_tree`, and behind it the turns of its caller's loop for the brothers that follow. -/
def printTree (showPids : Bool) : Kin → Bool → Canvas → Option Canvas
  | .null, _, canvas => some canvas
  | .node pid proc son bro, isFirst, canvas => do
      let text := label showPids pid proc
      let joined ← canvas.join pid bro isFirst
      let drawn ← (joined.print text).sons text.length son (printTree showPids son true)
      drawn.turn bro (printTree showPids bro false)

end Source

section Purpose

/-- The start of a line: the levels from the root on, with their widths and their bars. -/
def lead : List (Nat × Bool) → List UInt8
  | [] => []
  | [(width, _)] => blanks width
  | (width, bar) :: level :: rest =>
      blanks width ++ barText bar ++ lead (level :: rest)

/-- A tree and the brothers behind it, below these levels: on the line of the parent for a first son,
else on a line of its own. A level has a bar as long as a brother is to come. -/
def drawing (showPids : Bool) : Kin → List (Nat × Bool) → Option Nat → Bool → List UInt8
  | .null, _, _, _ => []
  | .node pid proc son bro, levels, width, isFirst =>
      let here := levels ++ (width.map fun width => (width, !bro.isNull)).toList
      let text := label showPids pid proc
      (if isFirst then
          if pid = 1 then []
          else if bro.isNull then boxLine ++ boxLine ++ boxLine else boxLine ++ boxTee ++ boxLine
        else lead here ++ (if bro.isNull then boxEnd else boxFork) ++ boxLine) ++
        text ++
        (if son.isNull then [0x0a] else drawing showPids son here (some (text.length + 1)) true) ++
        drawing showPids bro levels width false

/-- The levels below a process and its brothers. -/
def Kin.height : Kin → Nat
  | .null => 0
  | .node _ _ son bro => max (if son.isNull then 0 else son.height + 1) bro.height

end Purpose

section Levels

/-- The canvas is at a level of this width, below these levels. -/
structure Canvas.Below (canvas : Canvas) (levels : List (Nat × Bool)) (width : Nat) : Prop where
  level : canvas.level = levels.length + 1
  above : (List.range levels.length).map (fun i => (canvas.blankLen i, canvas.barExist i)) = levels
  width : canvas.blankLen levels.length = width

variable {showPids : Bool} {canvas : Canvas} {levels : List (Nat × Bool)} {width : Nat}

theorem lead_concat (levels : List (Nat × Bool)) (width : Nat) (bar : Bool) :
    lead (levels ++ [(width, bar)]) =
      levels.flatMap (fun level => blanks level.1 ++ barText level.2) ++ blanks width := by
  induction levels with
  | nil => rfl
  | cons level rest hypothesis =>
      obtain ⟨first, shown⟩ := level
      have further : ∃ next more, rest ++ [(width, bar)] = next :: more := by
        cases rest with
        | nil => exact ⟨_, _, rfl⟩
        | cons next more => exact ⟨_, _, rfl⟩
      obtain ⟨next, more, split⟩ := further
      rw [List.cons_append, split, lead, ← split, hypothesis, List.flatMap_cons]
      exact (List.append_assoc _ _ _).symm

/-- The loop over the arrays prints the levels. -/
theorem Canvas.Below.indent (below : canvas.Below levels width) (bar : Bool) :
    canvas.indent = lead (levels ++ [(width, bar)]) := by
  have outer : (List.range levels.length).flatMap (fun i =>
      blanks (canvas.blankLen i) ++
        if i + 1 < levels.length + 1 then barText (canvas.barExist i) else []) =
          levels.flatMap fun level => blanks level.1 ++ barText level.2 := by
    conv_rhs => rw [← below.above, List.flatMap_map]
    apply List.flatMap_congr
    intro i member
    have inside : i + 1 < levels.length + 1 := Nat.succ_lt_succ (List.mem_range.mp member)
    rw [if_pos inside]
  rw [lead_concat, Canvas.indent, below.level, List.range_succ, List.flatMap_append, outer,
    List.flatMap_singleton, if_neg (Nat.lt_irrefl _), List.append_nil, below.width]

theorem Canvas.Below.printed (below : canvas.Below levels width) (text : List UInt8) :
    (canvas.print text).Below levels width :=
  ⟨below.level, below.above, below.width⟩

/-- Only the bar of the level itself changes. -/
theorem Canvas.Below.barred (below : canvas.Below levels width) (exist : Bool) :
    ∃ after, canvas.setBar exist = some after ∧ after.Below levels width ∧
      after.barExist levels.length = exist ∧ after.printed = canvas.printed := by
  refine ⟨{ canvas with barExist := Function.update canvas.barExist levels.length exist }, ?_, ?_, ?_,
    rfl⟩
  · simp only [Canvas.setBar, below.level]
  · refine ⟨below.level, ?_, below.width⟩
    conv_rhs => rw [← below.above]
    apply List.map_congr_left
    intro i member
    dsimp only
    rw [Function.update_of_ne (Nat.ne_of_lt (List.mem_range.mp member))]
  · exact Function.update_self _ _ _

/-- One level more, or none behind the twentieth. -/
theorem Canvas.Below.deeper {bar : Bool} (below : canvas.Below levels width)
    (shown : canvas.barExist levels.length = bar) (len : Nat) :
    if levels.length + 1 < maxDep then
      ∃ after, canvas.deeper len = some after ∧ after.Below (levels ++ [(width, bar)]) (len + 1) ∧
        after.printed = canvas.printed
    else canvas.deeper len = none := by
  have level := below.level
  split
  case isTrue room =>
    refine ⟨{ canvas with
        blankLen := Function.update canvas.blankLen canvas.level (len + 1)
        level := canvas.level + 1 }, ?_, ?_, rfl⟩
    · rw [Canvas.deeper, if_pos (level ▸ room)]
    · constructor
      · rw [List.length_append, List.length_singleton, level]
      · rw [List.length_append, List.length_singleton, List.range_succ, List.map_append]
        congr 1
        · conv_rhs => rw [← below.above]
          apply List.map_congr_left
          intro i member
          have inside := List.mem_range.mp member
          dsimp only
          rw [Function.update_of_ne (by omega)]
        · simp only [List.map_cons, List.map_nil]
          rw [Function.update_of_ne (by omega), below.width, shown]
      · rw [List.length_append, List.length_singleton, ← level]
        exact Function.update_self _ _ _
  case isFalse full =>
    rw [Canvas.deeper, if_neg (level ▸ full)]

/-- Back at the level above, its bar is as it was. -/
theorem Canvas.Below.back {bar : Bool} {len : Nat}
    (below : canvas.Below (levels ++ [(width, bar)]) len) :
    canvas.back.Below levels width ∧ canvas.back.barExist levels.length = bar := by
  have level := below.level
  have above := below.above
  rw [List.length_append, List.length_singleton] at level
  rw [List.length_append, List.length_singleton, List.range_succ, List.map_append] at above
  obtain ⟨outer, here⟩ := List.append_inj' above rfl
  simp only [List.map_cons, List.map_nil, List.cons.injEq, Prod.mk.injEq, and_true] at here
  exact ⟨⟨by rw [Canvas.back, level]; rfl, outer, here.1⟩, here.2⟩

/-- What stands before the name of a process that is not the root. -/
theorem Canvas.Below.join (pid : Nat) (bro : Kin) (below : canvas.Below levels width)
    (shown : canvas.barExist levels.length = !bro.isNull) (isFirst : Bool) :
    ∃ after, canvas.join pid bro isFirst = some after ∧ after.Below levels width ∧
      after.barExist levels.length = !bro.isNull ∧
      after.printed = canvas.printed ++
        if isFirst then
          if pid = 1 then []
          else if bro.isNull then boxLine ++ boxLine ++ boxLine else boxLine ++ boxTee ++ boxLine
        else lead (levels ++ [(width, !bro.isNull)]) ++
          (if bro.isNull then boxEnd else boxFork) ++ boxLine := by
  have cleared (text : List UInt8) (last : bro.isNull = true) :
      ∃ after, (canvas.print text).setBar false = some after ∧ after.Below levels width ∧
        after.barExist levels.length = !bro.isNull ∧ after.printed = canvas.printed ++ text := by
    obtain ⟨after, set, kept, bar, printed⟩ := (below.printed text).barred false
    exact ⟨after, set, kept, by rw [bar, last]; rfl, printed⟩
  have left (text : List UInt8) (more : bro.isNull = false) :
      ∃ after, some (canvas.print text) = some after ∧ after.Below levels width ∧
        after.barExist levels.length = !bro.isNull ∧ after.printed = canvas.printed ++ text :=
    ⟨_, rfl, below.printed text, shown, rfl⟩
  cases isFirst with
  | false =>
      have started (text : List UInt8) : (canvas.print canvas.indent).print text =
          canvas.print (lead (levels ++ [(width, !bro.isNull)]) ++ text) := by
        rw [below.indent (!bro.isNull)]
        simp only [Canvas.print, List.append_assoc]
      simp only [Canvas.join, if_true, started, Bool.false_eq_true, if_false, List.append_assoc]
      cases last : bro.isNull with
      | true => simpa only [last, if_true] using cleared _ last
      | false => simpa only [last, Bool.false_eq_true, if_false] using left _ last
  | true =>
      simp only [Canvas.join, Bool.true_eq_false, if_false, if_true]
      by_cases root : pid = 1
      · rw [if_neg (not_not.mpr root), if_pos root]
        exact ⟨canvas, rfl, below, shown, (List.append_nil _).symm⟩
      · rw [if_pos root, if_neg root]
        cases last : bro.isNull with
        | true => simpa only [last, if_true] using cleared _ last
        | false => simpa only [last, Bool.false_eq_true, if_false] using left _ last

end Levels

section Tree

variable {showPids : Bool} {canvas : Canvas} {levels : List (Nat × Bool)} {width : Nat}
  {draw : Canvas → Option Canvas} {bar : Bool} {room : Prop} {text : List UInt8}

/-- At a level, with the bar it starts with: this text is printed if there is room, and the level is
left as it was but for its bar. -/
structure Draws (draw : Canvas → Option Canvas) (levels : List (Nat × Bool)) (width : Nat)
    (bar : Bool) (room : Prop) (text : List UInt8) : Prop where
  printed : room → ∀ canvas : Canvas, canvas.Below levels width →
    canvas.barExist levels.length = bar →
      ∃ after, draw canvas = some after ∧ after.Below levels width ∧
        after.printed = canvas.printed ++ text
  refused : ¬ room → ∀ canvas : Canvas, canvas.Below levels width →
    canvas.barExist levels.length = bar → draw canvas = none

theorem Draws.turn {cur : Kin} (draws : Draws draw levels width cur.hasBro room text)
    (below : canvas.Below levels width) (present : cur.isNull = false) :
    (room → ∃ after, canvas.turn cur draw = some after ∧ after.Below levels width ∧
      after.printed = canvas.printed ++ text) ∧ (¬ room → canvas.turn cur draw = none) := by
  obtain ⟨barred, set, again, shown, same⟩ := below.barred cur.hasBro
  have turn : canvas.turn cur draw = draw barred := by
    simp only [Canvas.turn, present, Bool.false_eq_true, if_false, set, Option.bind_eq_bind,
      Option.bind_some]
  rw [turn, ← same]
  exact ⟨fun room => draws.printed room barred again shown,
    fun full => draws.refused full barred again shown⟩

theorem Draws.sons {son : Kin} {len : Nat}
    (draws : Draws draw (levels ++ [(width, bar)]) (len + 1) son.hasBro room text)
    (below : canvas.Below levels width) (shown : canvas.barExist levels.length = bar)
    (present : son.isNull = false) :
    (levels.length + 1 < maxDep → room → ∃ after, canvas.sons len son draw = some after ∧
      after.Below levels width ∧ after.printed = canvas.printed ++ text) ∧
    (¬ (levels.length + 1 < maxDep ∧ room) → canvas.sons len son draw = none) := by
  have step := below.deeper shown len
  by_cases inside : levels.length + 1 < maxDep
  · rw [if_pos inside] at step
    obtain ⟨under, went, there, same⟩ := step
    obtain ⟨barred, set, again, exist, kept⟩ := there.barred son.hasBro
    have sons : canvas.sons len son draw = (draw barred).map Canvas.back := by
      simp only [Canvas.sons, present, Bool.false_eq_true, if_false, went, set, Option.bind_eq_bind,
        Option.bind_some]
    rw [sons, ← same, ← kept]
    constructor
    · intro _ enough
      obtain ⟨after, drawn, left, printed⟩ := draws.printed enough barred again exist
      exact ⟨after.back, by rw [drawn]; rfl, left.back.1, printed⟩
    · intro full
      rw [draws.refused (fun enough => full ⟨inside, enough⟩) barred again exist]
      rfl
  · rw [if_neg inside] at step
    constructor
    · exact fun room _ => absurd room inside
    · intro _
      simp only [Canvas.sons, present, Bool.false_eq_true, if_false, step, Option.bind_eq_bind,
        Option.bind_none]

theorem drawing_node (showPids : Bool) (pid : Nat) (proc : Proc) (son bro : Kin)
    (levels : List (Nat × Bool)) (width : Nat) (isFirst : Bool) :
    drawing showPids (.node pid proc son bro) levels (some width) isFirst =
      (if isFirst then
          if pid = 1 then []
          else if bro.isNull then boxLine ++ boxLine ++ boxLine else boxLine ++ boxTee ++ boxLine
        else lead (levels ++ [(width, !bro.isNull)]) ++
          (if bro.isNull then boxEnd else boxFork) ++ boxLine) ++
        label showPids pid proc ++
        (if son.isNull then [0x0a]
          else drawing showPids son (levels ++ [(width, !bro.isNull)])
            (some ((label showPids pid proc).length + 1)) true) ++
        drawing showPids bro levels (some width) false := by
  rw [drawing]
  rfl

/-- The levels that the sons of a process take. -/
def Kin.sonsHeight (son : Kin) : Nat := if son.isNull then 0 else son.height + 1

/-- The end of the line, or the sons. -/
theorem sons_drawn {son : Kin} {len : Nat}
    (draws : levels.length + 1 < maxDep →
      Draws (printTree showPids son true) (levels ++ [(width, bar)]) (len + 1) son.hasBro
        ((levels ++ [(width, bar)]).length + 1 + son.height ≤ maxDep)
        (drawing showPids son (levels ++ [(width, bar)]) (some (len + 1)) true))
    (fits : levels.length + 1 ≤ maxDep) (below : canvas.Below levels width)
    (shown : canvas.barExist levels.length = bar) :
    (levels.length + 1 + son.sonsHeight ≤ maxDep →
      ∃ after, canvas.sons len son (printTree showPids son true) = some after ∧
        after.Below levels width ∧ after.printed = canvas.printed ++
          if son.isNull then [0x0a]
          else drawing showPids son (levels ++ [(width, bar)]) (some (len + 1)) true) ∧
    (¬ levels.length + 1 + son.sonsHeight ≤ maxDep →
      canvas.sons len son (printTree showPids son true) = none) := by
  rw [List.length_append, List.length_singleton] at draws
  cases null : son.isNull with
  | true =>
      simp only [Kin.sonsHeight, Canvas.sons, null, if_true, Nat.add_zero]
      exact ⟨fun _ => ⟨_, rfl, below.printed _, rfl⟩, fun full => absurd fits full⟩
  | false =>
      simp only [Kin.sonsHeight, null, Bool.false_eq_true, if_false]
      by_cases inside : levels.length + 1 < maxDep
      · obtain ⟨enough, full⟩ := (draws inside).sons below shown null
        exact ⟨fun room => enough inside (by omega), fun more => full fun both => more (by omega)⟩
      · refine ⟨fun room => absurd room (by omega), fun _ => ?_⟩
        have step := below.deeper shown len
        rw [if_neg inside] at step
        simp only [Canvas.sons, null, Bool.false_eq_true, if_false, step, Option.bind_eq_bind,
          Option.bind_none]

/-- The brothers, in the loop of the caller. -/
theorem brothers_drawn {bro : Kin}
    (draws : Draws (printTree showPids bro false) levels width bro.hasBro
      (levels.length + 1 + bro.height ≤ maxDep) (drawing showPids bro levels (some width) false))
    (fits : levels.length + 1 ≤ maxDep) (below : canvas.Below levels width) :
    (levels.length + 1 + bro.height ≤ maxDep →
      ∃ after, canvas.turn bro (printTree showPids bro false) = some after ∧
        after.Below levels width ∧
        after.printed = canvas.printed ++ drawing showPids bro levels (some width) false) ∧
    (¬ levels.length + 1 + bro.height ≤ maxDep →
      canvas.turn bro (printTree showPids bro false) = none) := by
  cases bro with
  | null =>
      exact ⟨fun _ => ⟨canvas, rfl, below, (List.append_nil _).symm⟩, fun full => absurd fits full⟩
  | node pid proc son bro => exact draws.turn below rfl

theorem print_tree_node (showPids : Bool) (pid : Nat) (proc : Proc) (son bro : Kin) (isFirst : Bool)
    (canvas : Canvas) :
    printTree showPids (.node pid proc son bro) isFirst canvas =
      (canvas.join pid bro isFirst).bind fun joined =>
        ((joined.print (label showPids pid proc)).sons (label showPids pid proc).length son
          (printTree showPids son true)).bind fun drawn =>
            drawn.turn bro (printTree showPids bro false) := rfl

/-- What is printed below the root, as long as the levels fit into the arrays. -/
theorem draws_tree (showPids : Bool) (tree : Kin) (levels : List (Nat × Bool)) (width : Nat)
    (isFirst : Bool)
    (fits : levels.length + 1 ≤ maxDep) :
    Draws (printTree showPids tree isFirst) levels width tree.hasBro
      (levels.length + 1 + tree.height ≤ maxDep)
      (drawing showPids tree levels (some width) isFirst) := by
  induction tree generalizing levels width isFirst with
  | null =>
      constructor
      · exact fun _ canvas below _ => ⟨canvas, rfl, below, (List.append_nil _).symm⟩
      · exact fun full => absurd fits full
  | node pid proc son bro sons brothers =>
      have height : (Kin.node pid proc son bro).height = max son.sonsHeight bro.height := rfl
      have deeper (bar : Bool) (room : levels.length + 1 < maxDep) :=
        sons (levels ++ [(width, bar)]) ((label showPids pid proc).length + 1) true (by
          rw [List.length_append, List.length_singleton]
          exact room)
      have further := brothers levels width false fits
      constructor
      · intro room canvas below shown
        obtain ⟨joined, met, here, exist, start⟩ := below.join pid bro shown isFirst
        have named := here.printed (label showPids pid proc)
        obtain ⟨drawn, inner, left, lines⟩ :=
          (sons_drawn (deeper _) fits named exist).1 (by omega)
        obtain ⟨after, outer, kept, rest⟩ := (brothers_drawn further fits left).1 (by omega)
        refine ⟨after, ?_, kept, ?_⟩
        · rw [print_tree_node, met, Option.bind_some, inner, Option.bind_some, outer]
        · rw [rest, lines, drawing_node, Canvas.print, start]
          simp only [List.append_assoc]
      · intro full canvas below shown
        obtain ⟨joined, met, here, exist, start⟩ := below.join pid bro shown isFirst
        have named := here.printed (label showPids pid proc)
        rw [print_tree_node, met, Option.bind_some]
        by_cases enough : levels.length + 1 + son.sonsHeight ≤ maxDep
        · obtain ⟨drawn, inner, left, lines⟩ := (sons_drawn (deeper _) fits named exist).1 enough
          rw [inner, Option.bind_some]
          exact (brothers_drawn further fits left).2 (by omega)
        · rw [(sons_drawn (deeper _) fits named exist).2 enough, Option.bind_none]

end Tree

section Whole

variable {showPids : Bool}

/-- `print_tree(info[1],1)` of `main`: the init process has no brothers. -/
def printAll (showPids : Bool) (proc : Proc) (son : Kin) : Option (List UInt8) :=
  (printTree showPids (.node 1 proc son .null) true Canvas.blank).map Canvas.printed

theorem drawing_root (proc : Proc) (son : Kin) :
    drawing showPids (.node 1 proc son .null) [] none true =
      label showPids 1 proc ++ if son.isNull then [0x0a]
        else drawing showPids son [] (some ((label showPids 1 proc).length + 1)) true := by
  rw [drawing, drawing, List.append_nil]
  rfl

theorem blank_sons (text : List UInt8) (len : Nat) (son : Kin) (draw : Canvas → Option Canvas) :
    ∃ canvas : Canvas, canvas.Below [] (len + 1) ∧ canvas.barExist 0 = son.hasBro ∧
      canvas.printed = text ∧ (Canvas.blank.print text).sons len son draw =
        if son.isNull then some (Canvas.blank.print (text ++ [0x0a]))
        else (draw canvas).map Canvas.back := by
  refine ⟨⟨Function.update (fun _ => 0) 0 (len + 1), Function.update (fun _ => false) 0 son.hasBro, 1,
    text⟩, ⟨rfl, rfl, rfl⟩, rfl, rfl, ?_⟩
  cases null : son.isNull with
  | true =>
      simp only [Canvas.sons, null, if_true]
      rfl
  | false =>
      simp only [Canvas.sons, null, Bool.false_eq_true, if_false]
      rfl

/-- `print_tree` of the init process prints the drawing if no process is more than 20 levels below
it, and else writes behind its arrays. -/
theorem print_tree_draws (showPids : Bool) (proc : Proc) (son : Kin) :
    printAll showPids proc son =
      if son.sonsHeight ≤ maxDep then some (drawing showPids (.node 1 proc son .null) [] none true)
      else none := by
  have named := print_tree_node showPids 1 proc son .null true Canvas.blank
  have turn (drawn : Canvas) : drawn.turn .null (printTree showPids .null false) = some drawn := rfl
  have join : Canvas.blank.join 1 .null true = some Canvas.blank := rfl
  obtain ⟨canvas, below, shown, printed, sons⟩ := blank_sons (label showPids 1 proc)
    (label showPids 1 proc).length son (printTree showPids son true)
  rw [join, Option.bind_some, sons] at named
  simp only [turn, Option.bind_fun_some] at named
  rw [printAll, named, drawing_root]
  cases null : son.isNull with
  | true =>
      simp only [if_true, Kin.sonsHeight, null, Nat.zero_le]
      rfl
  | false =>
      simp only [Bool.false_eq_true, if_false, Kin.sonsHeight, null]
      have draws := draws_tree showPids son [] ((label showPids 1 proc).length + 1) true
        (by decide)
      rw [List.length_nil, Nat.zero_add, Nat.add_comm 1] at draws
      by_cases room : son.height + 1 ≤ maxDep
      · obtain ⟨after, drawn, _, lines⟩ := draws.printed room canvas below shown
        rw [drawn, if_pos room]
        rw [printed] at lines
        exact congrArg some lines
      · rw [draws.refused room canvas below shown, if_neg room]
        rfl

-- a─┬─b─┬─c
--   │   └─d
--   └─2*[e]
example : printAll false ⟨1, [0x61]⟩ (.node 2 ⟨1, [0x62]⟩ (.node 4 ⟨1, [0x63]⟩ .null
      (.node 5 ⟨1, [0x64]⟩ .null .null)) (.node 3 ⟨2, [0x65]⟩ .null .null)) =
    some ([0x61] ++ boxLine ++ boxTee ++ boxLine ++ [0x62] ++ boxLine ++ boxTee ++ boxLine ++
      [0x63, 0x0a] ++
      [0x20, 0x20] ++ boxBar ++ [0x20, 0x20, 0x20] ++ boxEnd ++ boxLine ++ [0x64, 0x0a] ++
      [0x20, 0x20] ++ boxEnd ++ boxLine ++ [0x32, 0x2a, 0x5b, 0x65, 0x5d, 0x0a]) := by
  decide

end Whole

end OsWorkbench.Pstree
