import OsWorkbench.Klib.FormatText
import Mathlib.Data.Nat.Digits.Lemmas

/-!
# `%u` and `%d` of `vsnprintf_real`

The digits and the blanks share `num[10]`, the sign goes before both, zero has digits only where there is
no width, and the negative number that has no positive counterpart has none.
-/

namespace OsWorkbench.Klib

open ByteStore

section Digits

variable {uval width : Nat}

def digitChar (digit : Nat) : UInt8 := UInt8.ofNat (digit + 0x30)

/-- The digits of a number, none for zero. -/
def digitsOf (uval : Nat) : List UInt8 := (Nat.digits 10 uval).reverse.map digitChar

def decimal (uval : Nat) : List UInt8 := if uval = 0 then [0x30] else digitsOf uval

theorem digits_of_length (uval : Nat) : (digitsOf uval).length = (Nat.digits 10 uval).length := by
  rw [digitsOf, List.length_map, List.length_reverse]

theorem digits_of_step (positive : 0 < uval) :
    digitsOf uval = digitsOf (uval / 10) ++ [digitChar (uval % 10)] := by
  rw [digitsOf, Nat.digits_def' (by decide) positive, List.reverse_cons, List.map_append]
  rfl

theorem digits_of_short (small : uval < 2 ^ 32) : (digitsOf uval).length ≤ 10 := by
  rw [digits_of_length, Nat.digits_length_le_iff (by decide)]
  exact Nat.lt_trans small (by decide)

theorem digits_of_positive (positive : 0 < uval) : 0 < (digitsOf uval).length := by
  rw [digits_of_step positive, List.length_append]
  exact Nat.succ_pos _

theorem push_digits {room : Nat} (enough : (digitsOf uval).length ≤ room) (num : List UInt8) :
    pushDigits room uval num = some (digitsOf uval ++ num) := by
  induction room generalizing uval num with
  | zero =>
      cases uval with
      | zero => rfl
      | succ uval =>
          have positive := digits_of_positive (Nat.succ_pos uval)
          exact absurd (Nat.lt_of_lt_of_le positive enough) (lt_irrefl 0)
  | succ room hypothesis =>
      cases uval with
      | zero => rfl
      | succ uval =>
          rw [digits_of_step (Nat.succ_pos uval), List.length_append] at enough
          rw [pushDigits, hypothesis (Nat.le_of_succ_le_succ enough), digits_of_step (Nat.succ_pos uval),
            List.append_assoc]
          rfl

theorem push_fill {width : Int} {room : Nat} (num : List UInt8) : pushFill width room num =
    if width ≤ (num.length + room : Nat) then
      some (List.replicate (width.toNat - num.length) 0x20 ++ num)
    else none := by
  induction room generalizing num with
  | zero =>
      rw [pushFill, Nat.add_zero]
      by_cases fits : width ≤ num.length
      · rw [if_neg (Int.not_lt.mpr fits), if_pos fits, Nat.sub_eq_zero_of_le (by omega)]
        rfl
      · rw [if_pos (Int.not_le.mp fits), if_neg fits]
  | succ room hypothesis =>
      rw [pushFill]
      by_cases fits : width ≤ num.length
      · rw [if_neg (Int.not_lt.mpr fits), if_pos (by omega), Nat.sub_eq_zero_of_le (by omega)]
        rfl
      · have gap : width.toNat - num.length = width.toNat - (num.length + 1) + 1 := by omega
        have blank : fill percent = 0x20 := rfl
        rw [if_pos (Int.not_le.mp fits), hypothesis, List.length_cons, gap, List.replicate_succ',
          List.append_assoc, blank, Nat.add_right_comm, Nat.add_assoc]
        rfl

/-- The ten places of `num` are enough for every number, but not for every width. -/
theorem number_text {width : Int} (small : uval < 2 ^ 32) : number width uval =
    if width ≤ 10 then
      some (if width.toNat = 0 ∧ uval = 0 then [0x30]
        else List.replicate (width.toNat - (digitsOf uval).length) 0x20 ++ digitsOf uval)
    else none := by
  have short := digits_of_short small
  have all : (((digitsOf uval).length + (10 - (digitsOf uval).length) : Nat) : Int) = 10 := by omega
  rw [number, push_digits short, List.append_nil, Option.bind_some, push_fill, all]
  by_cases narrow : width ≤ 10
  · rw [if_pos narrow, if_pos narrow, Option.map_some]
    congr 1
    by_cases nothing : width.toNat = 0 ∧ uval = 0
    · obtain ⟨none, rfl⟩ := nothing
      rw [none]
      rfl
    · rw [if_neg nothing, if_neg]
      intro empty
      obtain ⟨blanks, digits⟩ := List.append_eq_nil_iff.mp empty
      have none : uval = 0 := by
        refine Nat.eq_zero_of_not_pos fun positive => ?_
        have some := digits_of_positive positive
        rw [digits] at some
        exact absurd some (lt_irrefl 0)
      have gap := congrArg List.length blanks
      rw [List.length_replicate, digits, List.length_nil, Nat.sub_zero] at gap
      exact nothing ⟨gap, none⟩
  · rw [if_neg narrow, if_neg narrow]
    rfl

theorem number_short {width : Int} {text : List UInt8} (small : uval < 2 ^ 32)
    (known : number width uval = some text) : width ≤ 10 ∧ text.length ≤ 10 := by
  have short := digits_of_short small
  rw [number_text small] at known
  by_cases narrow : width ≤ 10
  · rw [if_pos narrow] at known
    obtain rfl := Option.some.inj known
    refine ⟨narrow, ?_⟩
    split
    · decide
    · rw [List.length_append, List.length_replicate]
      omega
  · rw [if_neg narrow] at known
    exact absurd known (Option.some_ne_none text).symm

end Digits

section Widths

variable {args : Arguments} {n : UInt32} {c : UInt8} {ap : Nat}

theorem to_int32_small {value : Int} (low : -2 ^ 31 ≤ value) (high : value < 2 ^ 31) :
    toInt32 value = value := Int.bmod_eq_of_le (by omega) (by omega)

/-- The number that digits with the first one in front stand for. -/
def value (digits : List Nat) (start : Nat) : Nat := digits.foldl (fun number digit => number * 10 + digit) start

theorem value_digits (width : Nat) : value (Nat.digits 10 width).reverse 0 = width := by
  rw [value, List.foldl_reverse]
  refine Eq.trans ?_ (Nat.ofDigits_digits 10 width)
  rw [Nat.ofDigits_eq_foldr]
  congr 1
  funext digit number
  exact Eq.trans (Nat.add_comm ..) (congrArg (digit + ·) (Nat.mul_comm ..))

theorem digit_char_code {digit : Nat} (small : digit < 10) : (digitChar digit).toNat = digit + 0x30 := by
  rw [digitChar, UInt8.toNat_ofNat']
  exact Nat.mod_eq_of_lt (by omega)

theorem digit_char_is {digit : Nat} (small : digit < 10) : isdigit (digitChar digit) := by
  have code := digit_char_code small
  constructor
  · rw [UInt8.le_iff_toNat_le, code]
    exact Nat.le_add_left ..
  · rw [UInt8.le_iff_toNat_le, code]
    change digit + 48 ≤ 57
    omega

theorem widen_digit {digit : Nat} (small : digit < 10) (width : Nat) :
    widen (toInt32 width) (digitChar digit) = toInt32 (width * 10 + digit : Nat) := by
  have step : ((digit + 0x30 : Nat) : Int) - 0x30 = digit := by omega
  rw [widen, digit_char_code small, step, Nat.cast_add, Nat.cast_mul]
  change Int.bmod (Int.bmod width (2 ^ 32) * 10 + digit) (2 ^ 32) = Int.bmod (width * 10 + digit) (2 ^ 32)
  rw [← Int.bmod_add_bmod, Int.bmod_mul_bmod, Int.bmod_add_bmod]

/-- What reads a format digit by digit has read a width behind its last digit. -/
theorem width_digits {β : Type} {read : Option Int → List UInt8 → β}
    (step : ∀ width c rest, isdigit c → read (some width) (c :: rest) = read (some (widen width c)) rest)
    {digits : List Nat} (small : ∀ digit ∈ digits, digit < 10) (width : Nat) (rest : List UInt8) :
    read (some (toInt32 width)) (digits.map digitChar ++ rest) =
      read (some (toInt32 (value digits width))) rest := by
  induction digits generalizing width with
  | nil => rfl
  | cons digit digits hypothesis =>
      have first := small digit List.mem_cons_self
      rw [List.map_cons, List.cons_append, step _ _ _ (digit_char_is first), widen_digit first,
        hypothesis fun other member => small other (List.mem_cons_of_mem digit member)]
      rfl

theorem format_text_digits {digits : List Nat} (small : ∀ digit ∈ digits, digit < 10) (width : Nat)
    (rest : List UInt8) : formatText args (some (toInt32 width)) (digits.map digitChar ++ rest) ap =
      formatText args (some (toInt32 (value digits width))) rest ap :=
  @width_digits _ (fun mode fmt => formatText args mode fmt ap)
    (fun _ _ _ digit => by rw [formatText, if_pos digit]) digits small width rest

theorem print_loop_digits {digits : List Nat} (small : ∀ digit ∈ digits, digit < 10) (width : Nat)
    (rest : List UInt8) (s : Printing) :
    printLoop args n (some (toInt32 width)) (digits.map digitChar ++ rest) s =
      printLoop args n (some (toInt32 (value digits width))) rest s :=
  @width_digits _ (fun mode fmt => printLoop args n mode fmt s)
    (fun _ _ _ digit => by rw [printLoop, if_pos digit]) digits small width rest

/-- A directive with a width, which a `0` may stand in front of. -/
def directive (zero : Bool) (width : Nat) (c : UInt8) : List UInt8 :=
  percent :: (((if zero then [0] else []) ++ (Nat.digits 10 width).reverse).map digitChar ++ [c])

theorem directive_digits (zero : Bool) (width : Nat) :
    value ((if zero then [0] else []) ++ (Nat.digits 10 width).reverse) 0 = width ∧
      ∀ digit ∈ (if zero then [0] else []) ++ (Nat.digits 10 width).reverse, digit < 10 := by
  constructor
  · rw [value, List.foldl_append]
    cases zero with
    | false => exact value_digits width
    | true => exact value_digits width
  · intro digit member
    rcases List.mem_append.mp member with front | back
    · cases zero with
      | false => exact absurd front List.not_mem_nil
      | true => exact List.mem_singleton.mp front ▸ Nat.zero_lt_succ 9
    · exact Nat.digits_lt_base (by decide) (List.mem_reverse.mp back)

/-- What `sprintf` leaves of one directive. -/
theorem sprintf_directive (args : Arguments) (out : Bytes) (zero : Bool) (width : Nat)
    (letter : ¬isdigit c)
    (short : ∀ text, conversionText args (toInt32 width) c 0 = some text → text.length ≤ 11) :
    sprintf args out (directive zero width c ++ [0]) =
      (conversionText args (toInt32 width) c 0).map fun text =>
        (overlay out 0 (text ++ [0]), (text.length : Int)) := by
  obtain ⟨same, small⟩ := directive_digits zero width
  have start : (some (0 : Int)) = some (toInt32 (0 : Nat)) := rfl
  have live : percent ≠ 0 := by decide
  have begin : (⟨out, 0, 0⟩ : Printing) = holding out [] 0 := by
    rw [holding, overlay_nil, List.length_nil]
  cases known : conversionText args (toInt32 width) c 0 with
  | none =>
      have stuck : printLoop args (-1) none (directive zero width c ++ [0]) ⟨out, 0, 0⟩ = none := by
        rw [directive, List.cons_append, printLoop, if_neg live, if_pos rfl, start, List.append_assoc,
          print_loop_digits small, same, List.singleton_append, printLoop, if_neg letter, begin,
          convert_none known (by decide)]
      rw [sprintf, vsnprintf, stuck]
      rfl
  | some text =>
      have bound := short text known
      have whole : formatText args none (directive zero width c ++ [0]) 0 = some text := by
        rw [directive, List.cons_append, formatText, if_neg live, if_pos rfl, start, List.append_assoc,
          format_text_digits small, same, List.singleton_append, formatText, if_neg letter, known,
          Option.bind_some, formatText, if_pos rfl, Option.map_some, List.append_nil]
      have room : ((-1 : UInt32) - 1).toNat = 4294967294 := rfl
      rw [sprintf, vsnprintf_text whole, room, List.take_of_length_le (by omega),
        Nat.min_eq_right (by omega), to_int32_small (by omega) (by omega)]
      rfl

end Widths

section Formatting

variable {word : UInt32} {zero : Bool} {width : Nat} {c : UInt8} {text : List UInt8}

/-- A directive leaves a text for an argument, whatever else there is. -/
def Prints (format : List UInt8) (word : UInt32) (text : List UInt8) : Prop :=
  ∀ args out, args.words 0 = word →
    sprintf args out (format ++ [0]) = some (overlay out 0 (text ++ [0]), (text.length : Int))

/-- The numeral padded on the left, with zeros behind the sign or with blanks before it. -/
def padded (zero : Bool) (width : Nat) (sign numeral : List UInt8) : List UInt8 :=
  let gap := width - (sign ++ numeral).length
  if zero then sign ++ List.replicate gap 0x30 ++ numeral
  else List.replicate gap 0x20 ++ sign ++ numeral

theorem padded_length (zero : Bool) (width : Nat) (sign numeral : List UInt8) :
    (padded zero width sign numeral).length = max width (sign ++ numeral).length := by
  rw [padded]
  cases zero with
  | false =>
      rw [if_neg Bool.false_ne_true, List.append_assoc, List.length_append, List.length_replicate]
      omega
  | true =>
      rw [if_pos rfl, List.length_append, List.length_append, List.length_replicate, List.length_append]
      omega

theorem padded_last (zero : Bool) (width : Nat) (sign numeral : List UInt8) (a : UInt8) :
    (padded zero width sign (numeral ++ [a])).getLast? = some a := by
  rw [padded]
  cases zero with
  | false => rw [if_neg Bool.false_ne_true, ← List.append_assoc, List.getLast?_concat]
  | true => rw [if_pos rfl, ← List.append_assoc, List.getLast?_concat]

theorem prints_iff {result : Option (List UInt8)} (letter : ¬isdigit c)
    (known : ∀ args : Arguments, args.words 0 = word →
      conversionText args (toInt32 width) c 0 = result)
    (short : ∀ other, result = some other → other.length ≤ 11) :
    Prints (directive zero width c) word text ↔ result = some text := by
  have printed (args : Arguments) (out : Bytes) (first : args.words 0 = word) :
      sprintf args out (directive zero width c ++ [0]) =
        result.map fun text => (overlay out 0 (text ++ [0]), (text.length : Int)) := by
    rw [sprintf_directive args out zero width letter (known args first ▸ short), known args first]
  constructor
  · intro prints
    have left := prints ⟨fun _ => word, fun _ => [], fun _ _ => none⟩ (fun _ => 0) rfl
    rw [printed _ _ rfl] at left
    obtain ⟨other, found, same⟩ := Option.map_eq_some_iff.mp left
    obtain ⟨memory, length⟩ := Prod.mk.inj same
    have lengths : (other ++ [0]).length = (text ++ [0]).length := by
      rw [List.length_append, List.length_append, Int.ofNat_inj.mp length]
    have bytes := slice_overlay_self (fun _ => 0) 0 (other ++ [0])
    rw [memory, lengths, slice_overlay_self] at bytes
    rw [found, List.append_cancel_right bytes]
  · intro found args out first
    rw [printed args out first, found]
    rfl

/-- When a number is padded as it should be: zero has no digits where there is a width, and the blanks
must not be zeros. -/
def Fits (zero : Bool) (width uval : Nat) : Prop :=
  uval = 0 ∧ width = 0 ∨
    0 < uval ∧ (width ≤ (Nat.digits 10 uval).length ∨ width ≤ 10 ∧ zero = false)

theorem width_small (narrow : width ≤ 11) : toInt32 width = width :=
  to_int32_small (by omega) (by omega)

/-- A number with a width that `num` has room for. -/
theorem number_narrow {uval : Nat} (small : uval < 2 ^ 32) (narrow : width ≤ 10) :
    number (toInt32 width) uval = some (if width = 0 ∧ uval = 0 then [0x30]
      else List.replicate (width - (digitsOf uval).length) 0x20 ++ digitsOf uval) := by
  rw [width_small (by omega), number_text small, if_pos (by omega), Int.toNat_natCast]

theorem last_replicate {count : Nat} (some : 0 < count) (a : UInt8) :
    (List.replicate count a).getLast? = Option.some a := by
  rw [List.getLast?_replicate, if_neg (Nat.pos_iff_ne_zero.mp some)]

theorem unsigned_text {uval : Nat} (small : uval < 2 ^ 32) :
    number (toInt32 width) uval = some (padded zero width [] (decimal uval)) ↔ Fits zero width uval := by
  by_cases narrow : width ≤ 10
  · rw [number_narrow small narrow, Option.some_inj, Fits, decimal]
    rcases Nat.eq_zero_or_pos uval with rfl | positive
    · rw [if_pos rfl]
      by_cases none : width = 0
      · refine iff_of_true ?_ (Or.inl ⟨rfl, none⟩)
        subst none
        cases zero <;> rfl
      · -- The last character is a blank and not the digit.
        refine iff_of_false (fun same => ?_) fun fits => ?_
        · have nothing : digitsOf 0 = [] := rfl
          have last := padded_last zero width [] [] 0x30
          rw [List.nil_append] at last
          rw [if_neg fun both => none both.1, nothing, List.append_nil, List.length_nil,
            Nat.sub_zero] at same
          rw [← same, last_replicate (Nat.pos_of_ne_zero none)] at last
          exact absurd (Option.some.inj last) (by decide)
        · exact fits.elim (fun both => none both.2) fun both => absurd both.1 (lt_irrefl 0)
    · have live := Nat.pos_iff_ne_zero.mp positive
      have length := digits_of_length uval
      rw [if_neg live, if_neg fun both => live both.2, padded, List.nil_append, length]
      cases zero with
      | false =>
          rw [if_neg Bool.false_ne_true, List.append_nil, List.nil_append, length]
          exact iff_of_true rfl (Or.inr ⟨positive, Or.inr ⟨narrow, rfl⟩⟩)
      | true =>
          rw [if_pos rfl, List.nil_append, length, List.append_left_inj]
          constructor
          · intro same
            refine Or.inr ⟨positive, Or.inl (Nat.le_of_sub_eq_zero ?_)⟩
            rcases List.replicate_inj.mp same with ⟨-, none | equal⟩
            · exact none
            · exact absurd equal (by decide)
          · rintro (⟨none, -⟩ | ⟨-, within | ⟨-, other⟩⟩)
            · exact absurd none live
            · rw [Nat.sub_eq_zero_of_le within]
              rfl
            · exact Bool.noConfusion other
  · refine iff_of_false (fun known => ?_) ?_
    · have short := (number_short small known).2
      rw [padded_length] at short
      omega
    · rintro (⟨-, none⟩ | ⟨positive, within | ⟨within, -⟩⟩)
      · omega
      · have digits := digits_of_short small
        rw [digits_of_length] at digits
        omega
      · exact narrow within

/-- What zero gives ends with a zero or with a blank. -/
theorem number_zero_last {width : Int} (known : number width 0 = some text) :
    text.getLast? = some 0x30 ∨ text.getLast? = some 0x20 := by
  rw [number_text (by decide)] at known
  split at known
  next narrow =>
    obtain rfl := Option.some.inj known
    have nothing : digitsOf 0 = [] := rfl
    by_cases none : width.toNat = 0
    · rw [if_pos ⟨none, rfl⟩]
      exact Or.inl rfl
    · rw [if_neg fun both => none both.1, nothing, List.append_nil]
      exact Or.inr (last_replicate (Nat.pos_of_ne_zero none) 0x20)
  next wide => exact absurd known (Option.some_ne_none text).symm

theorem negated_natAbs {ival : Int} (low : -2 ^ 31 < ival) (negative : ival < 0) :
    (toInt32 (-ival)).toNat = ival.natAbs := by
  rw [to_int32_small (by omega) (by omega)]
  omega

/-- The numeral of a negative number: the blanks go between the sign and the digits. -/
theorem negative_text {ival : Int} (range : -2 ^ 31 ≤ ival) (negative : ival < 0) :
    (number (toInt32 width) (toInt32 (-ival)).toNat).map (0x2d :: ·) =
      some (padded zero width [0x2d] (decimal ival.natAbs)) ↔
        ival ≠ -2 ^ 31 ∧ width ≤ (Nat.digits 10 ival.natAbs).length := by
  by_cases least : ival = -2 ^ 31
  · subst least
    have nothing : (toInt32 (- -2 ^ 31)).toNat = 0 := by decide
    refine iff_of_false (fun known => ?_) fun both => both.1 rfl
    rw [nothing] at known
    obtain ⟨num, pushed, same⟩ := Option.map_eq_some_iff.mp known
    have eight : decimal (-2 ^ 31 : Int).natAbs = digitsOf 214748364 ++ [digitChar 8] :=
      digits_of_step (by decide)
    have last : (0x2d :: num).getLast? = some (digitChar 8) := by
      rw [same, eight, padded_last]
    rcases number_zero_last pushed with digit | blank
    · rw [List.getLast?_cons, digit] at last
      exact absurd (Option.some.inj last) (by decide)
    · rw [List.getLast?_cons, blank] at last
      exact absurd (Option.some.inj last) (by decide)
  · have size : 0 < ival.natAbs := by omega
    have small : ival.natAbs < 2 ^ 32 := by omega
    have live : ival.natAbs ≠ 0 := Nat.pos_iff_ne_zero.mp size
    have length := digits_of_length ival.natAbs
    rw [negated_natAbs (by omega) negative, decimal, if_neg live, ← length]
    constructor
    · intro known
      refine ⟨least, Nat.le_of_not_lt fun wide => ?_⟩
      obtain ⟨num, pushed, same⟩ := Option.map_eq_some_iff.mp known
      have lengths := congrArg List.length same
      rw [padded_length, List.length_cons, List.length_append, List.length_singleton] at lengths
      by_cases narrow : width ≤ 10
      · rw [number_narrow small narrow, if_neg fun both => live both.2] at pushed
        obtain rfl := Option.some.inj pushed
        rw [List.length_append, List.length_replicate] at lengths
        omega
      · obtain ⟨bound, short⟩ := number_short small pushed
        have eleven : width = 11 := by omega
        rw [eleven, width_small (le_refl 11)] at bound
        exact absurd bound (by decide)
    · rintro ⟨-, within⟩
      have digits := digits_of_short small
      rw [number_narrow small (by omega), if_neg fun both => live both.2, Nat.sub_eq_zero_of_le within,
        Option.map_some, padded, List.length_append, List.length_singleton, Nat.sub_eq_zero_of_le (by omega)]
      cases zero <;> rfl

end Formatting

/-- The sign of the numeral of a number. -/
def signOf (ival : Int) : List UInt8 := if ival < 0 then [0x2d] else []

theorem to_int32_range (value : Int) : -2 ^ 31 ≤ toInt32 value ∧ toInt32 value < 2 ^ 31 :=
  ⟨Int.le_bmod (by decide), Int.bmod_lt (by decide)⟩

/-- `%u` and `%d` give the padded numeral exactly where a number that is not negative fits and where a
negative one, other than the least, is not wider than its digits. -/
theorem integer_formatting (word : UInt32) (zero : Bool) (width : Nat) :
    (Prints (directive zero width 0x75) word (padded zero width [] (decimal word.toNat)) ↔
      Fits zero width word.toNat) ∧
    (Prints (directive zero width 0x64) word
        (padded zero width (signOf (toInt32 word.toNat)) (decimal (toInt32 word.toNat).natAbs)) ↔
      if toInt32 word.toNat < 0 then toInt32 word.toNat ≠ -2 ^ 31 ∧
        width ≤ (Nat.digits 10 (toInt32 word.toNat).natAbs).length
      else Fits zero width (toInt32 word.toNat).natAbs) := by
  constructor
  · refine (prints_iff (by decide) (fun args first => ?_) fun other known =>
      Nat.le_succ_of_le (number_short word.toNat_lt known).2).trans (unsigned_text word.toNat_lt)
    rw [← first]
    rfl
  · obtain ⟨low, high⟩ := to_int32_range word.toNat
    obtain ⟨ival, value⟩ : ∃ ival, ival = toInt32 word.toNat := ⟨_, rfl⟩
    have text (args : Arguments) (first : args.words 0 = word) :
        conversionText args (toInt32 width) 0x64 0 =
          if ival < 0 then (number (toInt32 width) (toInt32 (-ival)).toNat).map (0x2d :: ·)
          else number (toInt32 width) ival.toNat := by
      rw [value, ← first, conversionText]
      dsimp only
      rw [if_neg (by decide), if_neg (by decide), if_neg (by decide), if_pos rfl]
    rw [← value] at low high ⊢
    by_cases negative : ival < 0
    · have small : (toInt32 (-ival)).toNat < 2 ^ 32 := by
        have range := to_int32_range (-ival)
        omega
      rw [if_pos negative, signOf, if_pos negative]
      refine (prints_iff (by decide) (fun args first => ?_) fun other known => ?_).trans
        (negative_text low negative)
      · rw [text args first, if_pos negative]
      · obtain ⟨num, pushed, rfl⟩ := Option.map_eq_some_iff.mp known
        exact Nat.succ_le_succ (number_short small pushed).2
    · have size : ival.toNat = ival.natAbs := by omega
      have small : ival.natAbs < 2 ^ 32 := by omega
      rw [if_neg negative, signOf, if_neg negative]
      refine (prints_iff (by decide) (fun args first => ?_) fun other known =>
        Nat.le_succ_of_le (number_short small known).2).trans (unsigned_text small)
      rw [text args first, if_neg negative, size]

/-- `%5d` gives five blanks for zero, and no digit. -/
theorem blank_zero : Prints (directive false 5 0x64) 0 (List.replicate 5 0x20) ∧
    ¬Prints (directive false 5 0x64) 0 (padded false 5 (signOf 0) (decimal 0)) := by
  have prints (text : List UInt8) : Prints (directive false 5 0x64) 0 text ↔
      number (toInt32 5) 0 = some text := by
    refine prints_iff (by decide) (fun args first => ?_) fun other known =>
      Nat.le_succ_of_le (number_short (by decide) known).2
    have zero : toInt32 (args.words 0).toNat = 0 := by
      rw [first]
      decide
    rw [conversionText]
    dsimp only
    rw [if_neg (by decide), if_neg (by decide), if_neg (by decide), if_pos rfl, zero,
      if_neg (lt_irrefl 0)]
    rfl
  rw [prints, prints]
  exact ⟨rfl, by decide⟩

end OsWorkbench.Klib
