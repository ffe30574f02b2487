import Mathlib.Data.BitVec
import Mathlib.Logic.Function.Basic

/-!
# Stacks in a memory of words

A stack grows downwards, four bytes a word; the memory is a table of its words. What is pushed is
found again, and nothing else changes.
-/

namespace OsWorkbench.Library

section Pushing

/-- Words by their addresses, which are multiples of four. -/
abbrev Ram := BitVec 32 → BitVec 32

/-- The words are pushed one after the other: the new memory and stack pointer. -/
def pushAll : List (BitVec 32) → Ram → BitVec 32 → Ram × BitVec 32
  | [], ram, esp => (ram, esp)
  | word :: words, ram, esp => pushAll words (Function.update ram (esp - 4) word) (esp - 4)

/-- The place of the word that is pushed after `count` others. -/
def pushPlace (esp : BitVec 32) (count : Nat) : BitVec 32 := esp - BitVec.ofNat 32 (4 * (count + 1))

variable {words : List (BitVec 32)} {ram : Ram} {esp x : BitVec 32}

theorem push_place_zero : pushPlace esp 0 = esp - 4 := rfl

theorem push_place_succ (count : Nat) : pushPlace (esp - 4) count = pushPlace esp (count + 1) := by
  unfold pushPlace
  bv_omega

theorem push_all_append (first second : List (BitVec 32)) : pushAll (first ++ second) ram esp =
    pushAll second (pushAll first ram esp).1 (pushAll first ram esp).2 := by
  induction first generalizing ram esp with
  | nil => rfl
  | cons word first hypothesis => exact hypothesis

theorem push_all_pointer : (pushAll words ram esp).2 = esp - BitVec.ofNat 32 (4 * words.length) := by
  induction words generalizing ram esp with
  | nil => exact (BitVec.sub_zero esp).symm
  | cons word words hypothesis =>
      rw [pushAll, hypothesis, List.length_cons]
      bv_omega

theorem push_all_frame (outside : ∀ count < words.length, x ≠ pushPlace esp count) :
    (pushAll words ram esp).1 x = ram x := by
  induction words generalizing ram esp with
  | nil => rfl
  | cons word words hypothesis =>
      rw [pushAll, hypothesis, Function.update_of_ne]
      · exact outside 0 (Nat.succ_pos _)
      · intro count inside
        rw [push_place_succ]
        exact outside (count + 1) (Nat.succ_lt_succ inside)

theorem push_all_get {count : Nat} (inside : count < words.length) (few : words.length < 2 ^ 30) :
    (pushAll words ram esp).1 (pushPlace esp count) = words[count] := by
  induction words generalizing ram esp count with
  | nil => exact absurd inside (Nat.not_lt_zero count)
  | cons word words hypothesis =>
      have fewer : words.length < 2 ^ 30 := Nat.lt_of_succ_lt few
      rw [pushAll]
      cases count with
      | zero =>
          rw [push_all_frame, push_place_zero, Function.update_self]
          · rfl
          · intro count inside same
            unfold pushPlace at same
            bv_omega
      | succ count =>
          rw [← push_place_succ, hypothesis (Nat.lt_of_succ_lt_succ inside) fewer]
          rfl

end Pushing

section Writing

/-- The words are written one after the other. -/
def storeAll (writes : List (BitVec 32 × BitVec 32)) (ram : Ram) : Ram :=
  writes.foldl (fun ram write => Function.update ram write.1 write.2) ram

end Writing

end OsWorkbench.Library
