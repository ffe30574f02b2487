import Mathlib.Data.List.GetD
import OsWorkbench.Kernel.Dir

/-!
# Normal forms of paths

A directory is the list of the components that lead to it. `dir_cat` walks through the components
of `src` from the directory in `dest`: between two turns `dest` is that directory written with a
slash behind each component, and at the end it is the directory in its normal form.
-/

namespace OsWorkbench.Kernel

section Directories

/-- A name on a path. -/
structure Component where
  text : List UInt8
  nonempty : text ≠ []
  whole : slash ∉ text
  named : text ≠ [dot] ∧ text ≠ [dot, dot]
  deriving DecidableEq

/-- The component that these characters are. -/
def component (text : List UInt8) : Option Component :=
  if known : text ≠ [] ∧ slash ∉ text ∧ text ≠ [dot] ∧ text ≠ [dot, dot] then
    some ⟨text, known.1, known.2.1, known.2.2⟩
  else none

/-- The directory that a name leads to. -/
def climb (stack : List Component) (name : List UInt8) : List Component :=
  if name = [dot, dot] then stack.dropLast
  else
    match component name with
    | none => stack
    | some c => stack ++ [c]

/-- The directory that a path leads to. -/
def resolve (stack : List Component) (path : List UInt8) : List Component :=
  (path.splitOn slash).foldl climb stack

/-- A slash before each component. -/
def joined (stack : List Component) : List UInt8 := stack.flatMap fun c => slash :: c.text

def normal (stack : List Component) : List UInt8 := if stack = [] then [slash] else joined stack

/-- Slashes before, between and behind the components. -/
def opened (stack : List Component) : List UInt8 := joined stack ++ [slash]

theorem joined_append (stack more : List Component) :
    joined (stack ++ more) = joined stack ++ joined more := List.flatMap_append

theorem joined_single (c : Component) : joined [c] = slash :: c.text := by
  simp [joined]

theorem joined_push (stack : List Component) (c : Component) :
    joined (stack ++ [c]) = opened stack ++ c.text := by
  rw [joined_append, joined_single, opened, List.append_assoc]
  rfl

theorem joined_nonempty {stack : List Component} (some : stack ≠ []) : joined stack ≠ [] := by
  cases stack with
  | nil => exact absurd rfl some
  | cons c rest => exact nofun

theorem component_text {text : List UInt8} {c : Component} (known : component text = some c) :
    c.text = text := by
  unfold component at known
  split at known
  · cases known
    rfl
  · cases known

theorem component_none {text : List UInt8} (whole : slash ∉ text) :
    component text = none ↔ text = [] ∨ text = [dot] ∨ text = [dot, dot] := by
  unfold component
  split
  next known => simp [known]
  next other =>
    simp only [true_iff]
    by_contra none
    simp only [not_or] at none
    exact other ⟨none.1, whole, none.2⟩

end Directories

section Slashes

variable {path front tail : List UInt8}

theorem first_slash_none (whole : slash ∉ path) : getFirstSlash path = none := by
  unfold getFirstSlash
  rw [List.findIdx?_eq_none_iff]
  intro c listed
  exact beq_eq_false_iff_ne.mpr fun same => whole (same ▸ listed)

theorem first_slash_some (whole : slash ∉ front) :
    getFirstSlash (front ++ slash :: tail) = some front.length := by
  have absent := first_slash_none whole
  unfold getFirstSlash at absent ⊢
  rw [List.findIdx?_append, absent, List.findIdx?_cons, if_pos (beq_self_eq_true slash)]
  simp

/-- A path is one name, or a name, a slash and a path. -/
theorem path_cases (path : List UInt8) :
    slash ∉ path ∨ ∃ front tail, slash ∉ front ∧ path = front ++ slash :: tail := by
  induction path with
  | nil => exact Or.inl nofun
  | cons c rest hypothesis =>
      by_cases here : c = slash
      · exact Or.inr ⟨[], rest, nofun, by rw [here]; rfl⟩
      · rcases hypothesis with whole | ⟨front, tail, whole, same⟩
        · left
          intro listed
          rcases List.mem_cons.mp listed with first | later
          · exact here first.symm
          · exact whole later
        · right
          refine ⟨c :: front, tail, ?_, congrArg (c :: ·) same⟩
          intro listed
          rcases List.mem_cons.mp listed with first | later
          · exact here first.symm
          · exact whole later

theorem last_slash_at {idx : Nat} (found : path.getD idx 0 = slash) :
    getLastSlashFrom path idx = some idx := by
  cases idx with
  | zero => exact if_pos found
  | succ idx => exact if_pos found

theorem last_slash_from (front : List UInt8) (whole : slash ∉ tail) (idx : Nat) :
    getLastSlashFrom (front ++ slash :: tail) (front.length + idx) = some front.length := by
  induction idx with
  | zero =>
      apply last_slash_at
      rw [List.getD_append_right _ _ _ _ (Nat.le_add_right _ _), Nat.add_zero, Nat.sub_self]
      rfl
  | succ idx hypothesis =>
      have other : (front ++ slash :: tail).getD (front.length + idx + 1) 0 ≠ slash := by
        rw [List.getD_append_right _ _ _ _ (by omega),
          show front.length + idx + 1 - front.length = idx + 1 by omega]
        change tail.getD idx 0 ≠ slash
        intro same
        rcases Nat.lt_or_ge idx tail.length with within | beyond
        · rw [List.getD_eq_getElem _ _ within] at same
          exact whole (same ▸ List.getElem_mem within)
        · rw [List.getD_eq_default _ _ beyond] at same
          exact absurd same (by decide)
      exact (if_neg other).trans hypothesis

theorem last_slash (front : List UInt8) (whole : slash ∉ tail) :
    getLastSlash (front ++ slash :: tail) = some front.length := by
  have from' := last_slash_from front whole (tail.length + 1)
  unfold getLastSlash
  rw [List.length_append, List.length_cons]
  exact from'

end Slashes

section Turns

variable {dest : Text} {stack : List Component} {name tail : List UInt8}

/-- The buffer after another string was put there. -/
def Text.becomes (dest : Text) (chars : List UInt8) : Text :=
  ⟨chars, max dest.reach (chars.length + 1), by omega⟩

theorem becomes_self (dest : Text) : dest.becomes dest.chars = dest := by
  refine Text.ext rfl ?_
  have held := dest.held
  change max dest.reach (dest.chars.length + 1) = dest.reach
  omega

theorem strncat_becomes (dest : Text) (src : List UInt8) (n : Nat) :
    strncat dest src n = dest.becomes (dest.chars ++ src.take n) := by
  refine Text.ext rfl ?_
  change max dest.reach _ = max dest.reach _
  rw [List.length_append]

theorem cut_becomes {i : Nat} (inside : i ≤ dest.chars.length) :
    dest.cut i = dest.becomes (dest.chars.take i) := by
  refine Text.ext rfl ?_
  change max dest.reach _ = max dest.reach _
  rw [List.length_take, Nat.min_eq_left inside]

/-- For `..` the last component goes. -/
theorem cut_last {c : Component} (opens : dest.chars = opened (stack ++ [c])) :
    cutLast dest = some (dest.becomes (opened stack)) := by
  have shape : dest.chars = (opened stack ++ c.text) ++ slash :: [] := by
    rw [opens, opened, joined_push]
  have last : getLastSlash dest.chars = some (opened stack ++ c.text).length := by
    rw [shape]
    exact last_slash _ nofun
  have inside : (opened stack ++ c.text).length ≤ dest.chars.length := by
    rw [shape]
    exact (List.prefix_append _ _).length_le
  have chars : (dest.cut (opened stack ++ c.text).length).chars = opened stack ++ c.text := by
    change dest.chars.take _ = _
    rw [shape, List.take_left]
  have before : getLastSlash (opened stack ++ c.text) = some (joined stack).length := by
    rw [opened, List.append_assoc]
    exact last_slash _ c.whole
  have width : (joined stack).length + 1 = (opened stack).length := by
    rw [opened, List.length_append]
    rfl
  unfold cutLast
  simp only [last, chars, before]
  refine congrArg some (Text.ext ?_ ?_)
  · change (dest.chars.take _).take _ = opened stack
    rw [shape, List.take_left, width, List.take_left]
  · change max (max dest.reach _) _ = max dest.reach _
    have held := dest.held
    omega

theorem char_difference (a b : UInt8) : (a.toNat : Int) - b.toNat = 0 ↔ a = b := by
  rw [Int.sub_eq_zero, Int.ofNat_inj, UInt8.toNat_inj]

theorem strncmp_dot (a : UInt8) (rest : List UInt8) :
    strncmp (a :: rest) [dot] 1 = 0 ↔ a = dot := char_difference a dot

theorem strncmp_dots (a b : UInt8) (rest : List UInt8) :
    strncmp (a :: b :: rest) [dot, dot] 2 = 0 ↔ a = dot ∧ b = dot := by
  change (if a = dot ∧ a ≠ 0 then strncmp (b :: rest) [dot] 1 else (a.toNat : Int) - dot.toNat) = 0 ↔ _
  by_cases same : a = dot ∧ a ≠ 0
  · rw [if_pos same, strncmp_dot]
    exact ⟨fun second => ⟨same.1, second⟩, fun both => both.2⟩
  · rw [if_neg same, char_difference]
    constructor
    · intro first
      exact absurd ⟨first, by rw [first]; decide⟩ same
    · exact fun both => both.1

theorem take_name (name tail : List UInt8) :
    (name ++ tail).take (name.length + 1) = name ++ tail.take 1 := by
  rw [List.take_length_add_append]

/-- A component is copied, with the slash behind it if there is one. -/
theorem turn_named {c : Component} (known : component name = some c) :
    catTurn dest (name ++ tail) name.length =
      some (dest.becomes (dest.chars ++ (name ++ tail.take 1))) := by
  have text := component_text known
  have nonempty := c.nonempty
  have named := c.named
  rw [text] at nonempty named
  rw [← take_name, ← strncat_becomes]
  unfold catTurn
  rw [if_neg (by rw [List.length_eq_zero_iff]; exact nonempty)]
  split
  next one =>
    rcases List.length_eq_one_iff.mp one with ⟨a, same⟩
    rw [same, List.singleton_append, if_pos]
    intro zero
    rw [strncmp_dot] at zero
    exact named.1 (by rw [same, zero])
  next =>
    split
    next two =>
      rcases List.length_eq_two.mp two with ⟨a, b, same⟩
      rw [same, List.cons_append, List.singleton_append, if_pos]
      intro zero
      rw [strncmp_dots] at zero
      exact named.2 (by rw [same, zero.1, zero.2])
    next => rfl

theorem dropLast_append (stack : List Component) :
    stack = [] ∨ ∃ front c, stack = front ++ [c] ∧ stack.dropLast = front := by
  rcases stack.eq_nil_or_concat' with empty | ⟨front, c, same⟩
  · exact Or.inl empty
  · exact Or.inr ⟨front, c, same, by rw [same]; exact List.dropLast_concat⟩

/-- An empty name and `.` change nothing, and `..` cuts. -/
theorem turn_other (whole : slash ∉ name) (opens : dest.chars = opened stack)
    (other : component name = none) :
    catTurn dest (name ++ tail) name.length = some (dest.becomes (opened (climb stack name))) := by
  have stays : climb stack name = stack → some dest =
      some (dest.becomes (opened (climb stack name))) := by
    intro same
    rw [same, ← opens, becomes_self]
  rcases (component_none whole).mp other with empty | single | double
  · subst empty
    exact stays (by unfold climb; rw [other]; rfl)
  · subst single
    have equal : strncmp ([dot] ++ tail) [dot] 1 = 0 := (strncmp_dot dot tail).mpr rfl
    unfold catTurn
    rw [if_neg (by decide), if_pos (show [dot].length = 1 from rfl), if_neg (not_not_intro equal)]
    exact stays (by unfold climb; rw [other]; rfl)
  · subst double
    have equal : strncmp ([dot, dot] ++ tail) [dot, dot] 2 = 0 :=
      (strncmp_dots dot dot tail).mpr ⟨rfl, rfl⟩
    have up : climb stack [dot, dot] = stack.dropLast := if_pos rfl
    unfold catTurn
    rw [if_neg (by decide), if_neg (by decide), if_pos (show [dot, dot].length = 2 from rfl),
      if_neg (not_not_intro equal)]
    rcases dropLast_append stack with root | ⟨front, c, same, rest⟩
    · subst root
      rw [if_pos (show dest.chars = [slash] from opens)]
      exact stays up
    · rw [if_neg, up, rest]
      · rw [same] at opens
        exact cut_last opens
      · rw [opens, opened, same]
        intro root
        exact @joined_nonempty (front ++ [c]) (by simp) (List.append_left_eq_self.mp root)

theorem climb_named {c : Component} (known : component name = some c) :
    climb stack name = stack ++ [c] := by
  unfold climb
  rw [known, if_neg]
  intro same
  exact c.named.2 ((component_text known).trans same)

theorem turn_slash (whole : slash ∉ name) (opens : dest.chars = opened stack) :
    catTurn dest (name ++ slash :: tail) name.length =
      some (dest.becomes (opened (climb stack name))) := by
  cases known : component name with
  | none => exact turn_other whole opens known
  | some c =>
      rw [turn_named known, climb_named known, opened, joined_push, opens, component_text known,
        List.append_assoc]
      rfl

/-- What the last name of a path leaves in `dest`. -/
def lastly (stack : List Component) (name : List UInt8) : List UInt8 :=
  match component name with
  | some c => joined (stack ++ [c])
  | none => opened (climb stack name)

theorem turn_last (whole : slash ∉ name) (opens : dest.chars = opened stack) :
    catTurn dest name name.length = some (dest.becomes (lastly stack name)) := by
  unfold lastly
  cases known : component name with
  | none =>
      have turn := @turn_other dest stack name [] whole opens known
      rw [List.append_nil] at turn
      exact turn
  | some c =>
      have turn := @turn_named dest name [] c known
      rw [List.append_nil, List.take_nil, List.append_nil] at turn
      change catTurn dest name name.length = some (dest.becomes (joined (stack ++ [c])))
      rw [turn, joined_push, opens, component_text known]

end Turns

section Walks

/-- What `dest` holds after each turn. -/
def passed (stack : List Component) : List (List UInt8) → List (List UInt8)
  | [] => []
  | [name] => [lastly stack name]
  | name :: next :: rest => opened (climb stack name) :: passed (climb stack name) (next :: rest)

def Text.holds (dest : Text) (strings : List (List UInt8)) : Text := strings.foldl Text.becomes dest

theorem passed_cons (stack : List Component) (name : List UInt8) {rest : List (List UInt8)}
    (more : rest ≠ []) :
    passed stack (name :: rest) = opened (climb stack name) :: passed (climb stack name) rest := by
  cases rest with
  | nil => exact absurd rfl more
  | cons next rest => rfl

/-- The loop ends, and `dest` held these strings. -/
theorem real_holds {turns : Nat} {dest : Text} {stack : List Component} {src : List UInt8}
    (enough : src.length < turns) (opens : dest.chars = opened stack) :
    dirCatReal turns dest src = some (dest.holds (passed stack (src.splitOn slash))) := by
  induction turns generalizing dest stack src with
  | zero => cases enough
  | succ turns hypothesis =>
      rcases path_cases src with whole | ⟨front, tail, whole, same⟩
      · unfold dirCatReal
        rw [first_slash_none whole, List.splitOn_eq_singleton whole]
        exact turn_last whole opens
      · subst same
        have shorter : tail.length < turns := by
          rw [List.length_append, List.length_cons] at enough
          omega
        have behind : (front ++ slash :: tail).drop (front.length + 1) = tail := by
          rw [← List.drop_drop, List.drop_left]
          rfl
        unfold dirCatReal
        rw [first_slash_some whole, List.splitOn_append_cons_self_of_not_mem whole,
          passed_cons _ _ (List.splitOn_ne_nil _ _)]
        simp only [turn_slash whole opens, Option.bind_some, behind]
        exact hypothesis shorter rfl

/-- The last string that `dest` holds is the directory, with a slash behind it or not. -/
theorem holds_chars {dest : Text} {stack : List Component} {names : List (List UInt8)}
    (some : names ≠ []) :
    ((dest.holds (passed stack names)).chars = opened (names.foldl climb stack)) ∨
      (names.foldl climb stack ≠ [] ∧
        (dest.holds (passed stack names)).chars = joined (names.foldl climb stack)) := by
  induction names generalizing dest stack with
  | nil => exact absurd rfl some
  | cons name rest hypothesis =>
      cases rest with
      | cons next rest =>
          exact @hypothesis (dest.becomes (opened (climb stack name))) (climb stack name) nofun
      | nil =>
          change lastly stack name = opened (climb stack name) ∨
            climb stack name ≠ [] ∧ lastly stack name = joined (climb stack name)
          unfold lastly
          cases known : component name with
          | none => exact Or.inl rfl
          | some c =>
              rw [climb_named known]
              exact Or.inr ⟨by simp, rfl⟩

end Walks

section Ends

variable {dest : Text} {stack : List Component}

theorem opened_last (stack : List Component) :
    (opened stack).getD ((opened stack).length - 1) 0 = slash := by
  unfold opened
  rw [List.length_append, List.length_singleton, Nat.add_sub_cancel,
    List.getD_append_right _ _ _ _ (Nat.le_refl _), Nat.sub_self]
  rfl

theorem joined_last (some : stack ≠ []) :
    (joined stack).getD ((joined stack).length - 1) 0 ≠ slash := by
  rcases dropLast_append stack with root | ⟨front, c, same, _⟩
  · exact absurd root some
  · have inside : c.text.length - 1 < c.text.length :=
      Nat.sub_lt (List.length_pos_of_ne_nil c.nonempty) Nat.one_pos
    rw [same, joined_push, List.length_append, List.getD_append_right _ _ _ _ (by omega),
      show (opened front).length + c.text.length - 1 - (opened front).length = c.text.length - 1 by
        omega, List.getD_eq_getElem _ _ inside]
    intro clash
    exact c.whole (clash ▸ List.getElem_mem inside)

theorem normal_first (stack : List Component) : (normal stack).headD 0 = slash := by
  unfold normal
  split
  · rfl
  · cases stack with
    | nil => contradiction
    | cons c rest => rfl

theorem opened_first (stack : List Component) : (opened stack).headD 0 = slash := by
  cases stack <;> rfl

/-- An absolute path to a directory: its normal form, or that with a slash at the end. -/
def LeadsTo (chars : List UInt8) (stack : List Component) : Prop :=
  chars = normal stack ∨ chars = opened stack

theorem LeadsTo.first {chars : List UInt8} (leads : LeadsTo chars stack) :
    chars.headD 0 = slash := by
  rcases leads with same | same
  · rw [same, normal_first]
  · rw [same, opened_first]

/-- Where the walk starts. -/
def origin (stack : List Component) (src : List UInt8) : List Component :=
  if src.headD 0 = slash then [] else stack

theorem start_becomes (leads : LeadsTo dest.chars stack) (src : List UInt8) :
    catStart dest src = dest.becomes (opened (origin stack src)) := by
  unfold catStart origin
  split
  next absolute =>
    have nonempty : 1 ≤ dest.chars.length := by
      have first := leads.first
      cases known : dest.chars with
      | nil =>
          rw [known] at first
          exact absurd first (by decide)
      | cons c rest => exact Nat.succ_le_succ (Nat.zero_le _)
    rw [cut_becomes nonempty]
    refine congrArg dest.becomes ?_
    have first := leads.first
    cases known : dest.chars with
    | nil =>
        rw [known] at nonempty
        cases nonempty
    | cons c rest =>
        rw [known] at first
        exact congrArg (fun c => [c]) first
  next relative =>
    by_cases root : stack = []
    · have slashed : dest.chars = opened [] := by
        rcases leads with same | same
        · rw [same, normal, if_pos root]
          rfl
        · rw [same, root]
      rw [root, ← slashed, becomes_self, if_neg]
      rw [slashed, opened_last]
      exact not_not_intro rfl
    · rcases leads with same | same
      · rw [normal, if_neg root] at same
        rw [if_pos (by rw [same]; exact joined_last root), strncat_becomes, same]
        rfl
      · rw [if_neg (by rw [same, opened_last]; exact not_not_intro rfl), ← same, becomes_self]

/-- The slash at the end goes. -/
theorem finish_normal (ends : dest.chars = opened stack ∨ stack ≠ [] ∧ dest.chars = joined stack) :
    catFinish dest = dest.becomes (normal stack) := by
  unfold catFinish normal
  rcases ends with same | ⟨some, same⟩
  · have width : dest.chars.length = (joined stack).length + 1 := by
      rw [same, opened, List.length_append]
      rfl
    have last : dest.chars.getD (dest.chars.length - 1) 0 = slash := by
      rw [same]
      exact opened_last stack
    by_cases root : stack = []
    · rw [if_pos root]
      have single : dest.chars = [slash] := by
        rw [same, root]
        rfl
      simp only
      rw [if_neg, ← single, becomes_self]
      rw [single]
      exact fun both => absurd both.2 (by decide)
    · have wide := List.length_pos_of_ne_nil (joined_nonempty root)
      simp only
      rw [if_neg root, if_pos ⟨last, by omega⟩, cut_becomes (Nat.sub_le _ _), width,
        Nat.add_sub_cancel, same]
      exact congrArg dest.becomes List.take_left
  · simp only
    rw [if_neg some, if_neg, ← same, becomes_self]
    intro both
    rw [same] at both
    exact joined_last some both.1

/-- Every string that `dir_cat` leaves in `dest`, in their order. -/
theorem dir_cat_holds (leads : LeadsTo dest.chars stack) (src : List UInt8) :
    dirCat dest src =
      some ((((dest.becomes (opened (origin stack src))).holds
        (passed (origin stack src) (src.splitOn slash))).becomes
          (normal (resolve (origin stack src) src)))) := by
  unfold dirCat
  rw [if_neg (not_not_intro leads.first), start_becomes leads,
    real_holds (Nat.lt_succ_self _) rfl, Option.map_some,
    finish_normal (holds_chars (List.splitOn_ne_nil _ _))]
  rfl

end Ends

/-- `dir_cat` leaves the normal form in `dest`. -/
theorem dir_cat_normal (dest : Text) (stack : List Component) (src : List UInt8)
    (leads : LeadsTo dest.chars stack) :
    (dirCat dest src).map Text.chars = some (normal (resolve (origin stack src) src)) := by
  rw [dir_cat_holds leads]
  rfl

/-- `/a/` and `b/../../c`. -/
theorem dir_cat_normal_up :
    LeadsTo [slash, 0x61, slash] [⟨[0x61], by decide, by decide, by decide⟩] ∧
      (dirCat (.copy [slash, 0x61, slash])
        [0x62, slash, dot, dot, slash, dot, dot, slash, 0x63]).map Text.chars =
        some (normal (resolve (origin [⟨[0x61], by decide, by decide, by decide⟩]
          [0x62, slash, dot, dot, slash, dot, dot, slash, 0x63])
          [0x62, slash, dot, dot, slash, dot, dot, slash, 0x63])) :=
  ⟨Or.inr rfl, dir_cat_normal _ _ _ (Or.inr rfl)⟩

end OsWorkbench.Kernel
