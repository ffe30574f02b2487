import OsWorkbench.Klib.Numerals

/-!
# `snprintf` and the size of the buffer

The bound `n - 1` is unsigned, so that without room there is no bound. The result is an `int`.
-/

namespace OsWorkbench.Klib

open ByteStore

inductive Conversion
  | c | u | d | x | p | s
  deriving DecidableEq

def Conversion.letter : Conversion → UInt8
  | c => 0x63
  | u => 0x75
  | d => 0x64
  | x => 0x78
  | p => 0x70
  | s => 0x73

/-- What formats are built from: characters that stand for themselves, and conversions with the digits
of a width that is not above ten. -/
inductive Piece
  | literal (a : UInt8) (live : a ≠ 0) (other : a ≠ percent)
  | directive (digits : List Nat) (small : ∀ digit ∈ digits, digit < 10) (narrow : value digits 0 ≤ 10)
      (conversion : Conversion)

def Piece.chars : Piece → List UInt8
  | literal a _ _ => [a]
  | directive digits _ _ conversion => percent :: (digits.map digitChar ++ [conversion.letter])

/-- A format, with its NUL. -/
def format (pieces : List Piece) : List UInt8 := pieces.flatMap Piece.chars ++ [0]

section Truncation

variable {args : Arguments} {n : UInt32} {out after : Bytes} {text : List UInt8}

theorem letter_no_digit (conversion : Conversion) : ¬isdigit conversion.letter := by
  cases conversion <;> decide

theorem number_some {width uval : Nat} (narrow : width ≤ 10) (small : uval < 2 ^ 32) :
    ∃ text, number (toInt32 width) uval = some text := ⟨_, number_narrow small narrow⟩

/-- Narrow conversions have texts for all arguments. -/
theorem conversion_some (args : Arguments) {width : Nat} (narrow : width ≤ 10) (conversion : Conversion)
    (ap : Nat) : ∃ text, conversionText args (toInt32 width) conversion.letter ap = some text := by
  cases conversion with
  | c => exact ⟨_, rfl⟩
  | u => exact number_some narrow (args.words ap).toNat_lt
  | x => exact ⟨_, rfl⟩
  | p => exact ⟨_, rfl⟩
  | s => exact ⟨_, rfl⟩
  | d =>
      rw [Conversion.letter, conversionText]
      dsimp only
      rw [if_neg (by decide), if_neg (by decide), if_neg (by decide), if_pos rfl]
      have small (ival : Int) : (toInt32 ival).toNat < 2 ^ 32 := by
        have range := to_int32_range ival
        omega
      by_cases negative : toInt32 (args.words ap).toNat < 0
      · obtain ⟨num, pushed⟩ := number_some narrow (small (-toInt32 (args.words ap).toNat))
        rw [if_pos negative, pushed]
        exact ⟨_, rfl⟩
      · rw [if_neg negative]
        exact number_some narrow (small (args.words ap).toNat)

theorem format_some (args : Arguments) (pieces : List Piece) (ap : Nat) :
    ∃ text, formatText args none (format pieces) ap = some text := by
  induction pieces generalizing ap with
  | nil => exact ⟨[], rfl⟩
  | cons piece pieces hypothesis =>
      cases piece with
      | literal a live other =>
          obtain ⟨rest, known⟩ := hypothesis ap
          have split : format (.literal a live other :: pieces) = a :: format pieces := rfl
          rw [split, formatText, if_neg live, if_neg other, known]
          exact ⟨_, rfl⟩
      | directive digits small narrow conversion =>
          obtain ⟨first, converted⟩ := conversion_some args narrow conversion ap
          obtain ⟨rest, known⟩ := hypothesis (ap + taken conversion.letter)
          have split : format (.directive digits small narrow conversion :: pieces) =
              percent :: (digits.map digitChar ++ conversion.letter :: format pieces) := by
            rw [format, List.flatMap_cons, Piece.chars, List.cons_append, List.cons_append,
              List.append_assoc, List.append_assoc]
            rfl
          have start : (some (0 : Int)) = some (toInt32 (0 : Nat)) := rfl
          have live : percent ≠ 0 := by decide
          rw [split, formatText, if_neg live, if_pos rfl, start, format_text_digits small, formatText,
            if_neg (letter_no_digit conversion), converted, Option.bind_some, known]
          exact ⟨_, rfl⟩

/-- What `snprintf` is to leave of a text: nothing behind the buffer is written, the text is cut before
its last byte, and the result is its length. -/
structure Truncated (n : UInt32) (text : List UInt8) (out after : Bytes) (ret : Int) : Prop where
  inside : ∀ i, n.toNat ≤ i → after i = out i
  left : slice after 0 (min (n.toNat - 1) text.length + 1) = text.take (n.toNat - 1) ++ [0]
  result : ret = (min (n.toNat - 1) text.length : Nat)

theorem size_room (some : 0 < n) : (n - 1).toNat = n.toNat - 1 := by
  have positive : 1 ≤ n.toNat := UInt32.lt_iff_toNat_lt.mp some
  exact UInt32.toNat_sub_of_le n 1 (UInt32.le_iff_toNat_le.mpr positive)

/-- A text that is cut at a size, with its NUL, is as long as it is to be. -/
theorem cut_length (text : List UInt8) (room : Nat) :
    (text.take room ++ [0]).length = min room text.length + 1 := by
  rw [List.length_append, List.length_take, List.length_singleton]

theorem cut_truncated (some : 0 < n) (range : n.toNat ≤ 2 ^ 31 ∨ text.length < 2 ^ 31) (out : Bytes) :
    Truncated n text out (overlay out 0 (text.take (n - 1).toNat ++ [0]))
      (toInt32 (min (n - 1).toNat text.length : Nat)) := by
  have positive : 1 ≤ n.toNat := UInt32.lt_iff_toNat_lt.mp some
  rw [size_room some]
  constructor
  case inside =>
    intro i behind
    refine overlay_after ?_
    rw [cut_length]
    omega
  case left =>
    have written := slice_overlay_self out 0 (text.take (n.toNat - 1) ++ [0])
    rwa [cut_length] at written
  case result => exact to_int32_small (by omega) (by omega)

/-- Without room the first character is written nevertheless. -/
theorem no_room_written (text : List UInt8) (room : Nat) :
    ∃ out : Bytes, overlay out 0 (text.take room ++ [0]) 0 ≠ out 0 := by
  cases cut : text.take room ++ [0] with
  | nil => exact absurd cut (List.append_ne_nil_of_right_ne_nil _ (List.cons_ne_nil 0 []))
  | cons a rest =>
      refine ⟨fun _ => if a = 0 then 1 else 0, ?_⟩
      have written : overlay (fun _ => if a = 0 then 1 else 0) 0 (a :: rest) 0 = a :=
        @overlay_inside _ 0 0 (a :: rest) (Nat.succ_pos _)
      rw [written]
      by_cases nul : a = 0
      · rw [if_pos nul, nul]
        decide
      · rwa [if_neg nul]

end Truncation

/-- `snprintf` cuts what `sprintf` produces, for every buffer, if and only if the buffer has room for a
NUL and the result is an `int`. -/
theorem snprintf_truncates (args : Arguments) (pieces : List Piece) : ∃ text : List UInt8,
    formatText args none (format pieces) 0 = some text ∧
    (∀ out, sprintf args out (format pieces) = some (overlay out 0 (text.take (2 ^ 32 - 2) ++ [0]),
      toInt32 (min (2 ^ 32 - 2) text.length : Nat))) ∧
    ∀ n, (∀ out, ∃ after ret, snprintf args out n (format pieces) = some (after, ret) ∧
      Truncated n text out after ret) ↔ 0 < n ∧ (n.toNat ≤ 2 ^ 31 ∨ text.length < 2 ^ 31) := by
  obtain ⟨text, known⟩ := format_some args pieces 0
  refine ⟨text, known, fun out => vsnprintf_text known out (-1), fun n => ⟨fun cuts => ?_, ?_⟩⟩
  · have printed (out : Bytes) := vsnprintf_text known out n
    have some : 0 < n := by
      refine UInt32.pos_iff_ne_zero.mpr fun zero => ?_
      obtain ⟨out, other⟩ := no_room_written text (n - 1).toNat
      obtain ⟨after, ret, same, cut⟩ := cuts out
      obtain ⟨rfl, -⟩ := Prod.mk.inj (Option.some.inj ((printed out).symm.trans same))
      exact other (cut.inside 0 (zero ▸ Nat.le_refl 0))
    obtain ⟨after, ret, same, cut⟩ := cuts fun _ => 0
    obtain ⟨-, rfl⟩ := Prod.mk.inj (Option.some.inj ((printed _).symm.trans same))
    have range := (to_int32_range (min (n - 1).toNat text.length : Nat)).2
    have result := cut.result
    rw [result] at range
    refine ⟨some, ?_⟩
    omega
  · rintro ⟨some, range⟩ out
    exact ⟨_, _, vsnprintf_text known out n, cut_truncated some range out⟩

/-- `snprintf(out, 0, "")` writes a NUL. -/
theorem snprintf_no_room : ¬∃ after ret,
    snprintf ⟨fun _ => 0, fun _ => [], fun _ _ => none⟩ (fun _ => 1) 0 (format []) = some (after, ret) ∧
      Truncated 0 [] (fun _ => 1) after ret := by
  rintro ⟨after, ret, printed, cut⟩
  obtain ⟨rfl, -⟩ := Prod.mk.inj (Option.some.inj printed)
  exact absurd (cut.inside 0 (Nat.le_refl 0)) (by decide)

end OsWorkbench.Klib
