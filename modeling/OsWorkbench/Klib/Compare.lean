import OsWorkbench.Library.ByteStore

/-!
# `string.c` of klib: `memcmp` and `strncmp`

Both look for the first place at which the arrays differ, and give the difference of the characters
there: `strncmp` takes the second from the first one, `memcmp` the first from the second one.
-/

namespace OsWorkbench.Klib

open ByteStore

/-- The value of a `char`, which is signed. -/
def char (c : UInt8) : Int := c.toInt8.toInt

/-- The loop of `memcmp`, with the number of turns that are left. -/
def memcmpLoop (mem : Bytes) (s1 s2 : Nat) : Nat → Nat → Int
  | 0, _ => 0
  | left + 1, i =>
      if char (mem (s2 + i)) = char (mem (s1 + i)) then memcmpLoop mem s1 s2 left (i + 1)
      else char (mem (s2 + i)) - char (mem (s1 + i))

def memcmp (mem : Bytes) (s1 s2 n : Nat) : Int := if n = 0 then 0 else memcmpLoop mem s1 s2 n 0

/-- `strncmp`; the last of the `n` characters ends the loop, whatever it is. -/
def strncmp (mem : Bytes) (s1 s2 : Nat) : Nat → Int
  | 0 => 0
  | 1 => char (mem s1) - char (mem s2)
  | n + 2 =>
      if char (mem s1) = char (mem s2) ∧ char (mem s1) ≠ 0 then strncmp mem (s1 + 1) (s2 + 1) (n + 1)
      else char (mem s1) - char (mem s2)

section Comparing

/-- The first `n` bytes are the same. -/
def Agree (mem : Bytes) (s1 s2 n : Nat) : Prop := ∀ i < n, mem (s1 + i) = mem (s2 + i)

/-- The first place of `n` at which the arrays differ. -/
structure Differ (mem : Bytes) (s1 s2 n i : Nat) : Prop where
  inside : i < n
  before : Agree mem s1 s2 i
  unlike : mem (s1 + i) ≠ mem (s2 + i)

/-- There is no NUL in the first `n` bytes. -/
def NulFree (mem : Bytes) (s n : Nat) : Prop := ∀ i < n, mem (s + i) ≠ 0

/-- The order of `memcmp` is that of the first characters that differ, and that of `strncmp`. -/
structure Compares (mem : Bytes) (s1 s2 n : Nat) : Prop where
  same : memcmp mem s1 s2 n = 0 ↔ Agree mem s1 s2 n
  sign : ∀ i, Differ mem s1 s2 n i →
    (memcmp mem s1 s2 n).sign = (char (mem (s1 + i)) - char (mem (s2 + i))).sign
  strings : NulFree mem s1 n → NulFree mem s2 n →
    (memcmp mem s1 s2 n).sign = (strncmp mem s1 s2 n).sign

variable {mem : Bytes} {s1 s2 n i j : Nat}

theorem char_inj {a b : UInt8} : char a = char b ↔ a = b := by
  refine ⟨fun same => ?_, congrArg char⟩
  exact congrArg Int8.toUInt8 (Int8.toInt_inj.mp same)

theorem memcmp_eq_loop : memcmp mem s1 s2 n = memcmpLoop mem s1 s2 n 0 := by
  rw [memcmp]
  split
  next zero => rw [zero, memcmpLoop]
  next => rfl

theorem memcmp_loop_agrees (left i : Nat) (agree : Agree mem s1 s2 (i + left)) :
    memcmpLoop mem s1 s2 left i = 0 := by
  induction left generalizing i with
  | zero => rfl
  | succ left hypothesis =>
      have same := agree i (Nat.lt_add_of_pos_right (Nat.succ_pos left))
      rw [memcmpLoop, if_pos (char_inj.mpr same.symm)]
      exact hypothesis (i + 1) fun j less => agree j (by omega)

theorem memcmp_loop_differs (left i : Nat) (differ : Differ mem s1 s2 (i + left) j) (reached : i ≤ j) :
    memcmpLoop mem s1 s2 left i = char (mem (s2 + j)) - char (mem (s1 + j)) := by
  induction left generalizing i with
  | zero => exact absurd differ.inside (Nat.not_lt_of_le reached)
  | succ left hypothesis =>
      rw [memcmpLoop]
      rcases Nat.eq_or_lt_of_le reached with rfl | before
      · rw [if_neg fun same => differ.unlike (char_inj.mp same).symm]
      · rw [if_pos (char_inj.mpr (differ.before i before).symm)]
        refine hypothesis (i + 1) ⟨?_, differ.before, differ.unlike⟩ before
        have inside := differ.inside
        omega

/-- `memcmp` is `strncmp` with the arrays exchanged. -/
theorem memcmp_loop_strncmp (left i : Nat) (first : NulFree mem s1 (i + left)) :
    memcmpLoop mem s1 s2 left i = strncmp mem (s2 + i) (s1 + i) left := by
  induction left generalizing i with
  | zero => rfl
  | succ left hypothesis =>
      have live : char (mem (s1 + i)) ≠ 0 := fun zero =>
        first i (Nat.lt_add_of_pos_right (Nat.succ_pos left)) (char_inj.mp zero)
      have rest : NulFree mem s1 (i + 1 + left) := fun j less => first j (by omega)
      rw [memcmpLoop]
      split
      next same =>
        cases left with
        | zero => rw [memcmpLoop, strncmp, same, Int.sub_self]
        | succ left =>
            rw [strncmp, if_pos ⟨same, same ▸ live⟩]
            exact hypothesis (i + 1) rest
      next unlike =>
        cases left with
        | zero => rw [strncmp]
        | succ left => rw [strncmp, if_neg fun both => unlike both.1]

/-- Arrays that are not the same have a first place at which they differ. -/
theorem agree_or_differ (mem : Bytes) (s1 s2 n : Nat) :
    Agree mem s1 s2 n ∨ ∃ i, Differ mem s1 s2 n i := by
  induction n with
  | zero => exact Or.inl fun i less => absurd less (Nat.not_lt_zero i)
  | succ n hypothesis =>
      rcases hypothesis with agree | ⟨i, inside, before, unlike⟩
      · by_cases same : mem (s1 + n) = mem (s2 + n)
        · refine Or.inl fun i less => ?_
          rcases Nat.lt_succ_iff_lt_or_eq.mp less with earlier | rfl
          · exact agree i earlier
          · exact same
        · exact Or.inr ⟨n, Nat.lt_succ_self n, agree, same⟩
      · exact Or.inr ⟨i, Nat.lt_succ_of_lt inside, before, unlike⟩

theorem memcmp_agrees (agree : Agree mem s1 s2 n) : memcmp mem s1 s2 n = 0 := by
  rw [memcmp_eq_loop]
  exact memcmp_loop_agrees n 0 (by rwa [Nat.zero_add])

theorem memcmp_differs (differ : Differ mem s1 s2 n i) :
    memcmp mem s1 s2 n = char (mem (s2 + i)) - char (mem (s1 + i)) := by
  rw [memcmp_eq_loop]
  exact memcmp_loop_differs n 0 (by rwa [Nat.zero_add]) (Nat.zero_le i)

theorem memcmp_strncmp (first : NulFree mem s1 n) : memcmp mem s1 s2 n = strncmp mem s2 s1 n := by
  rw [memcmp_eq_loop]
  exact memcmp_loop_strncmp n 0 (by rwa [Nat.zero_add])

/-- The order of `memcmp` is the one that is expected of it only where it finds no difference. -/
theorem compares_iff (mem : Bytes) (s1 s2 n : Nat) : Compares mem s1 s2 n ↔ Agree mem s1 s2 n := by
  constructor
  · intro compares
    refine (agree_or_differ mem s1 s2 n).resolve_right ?_
    rintro ⟨i, differ⟩
    have sign := compares.sign i differ
    rw [memcmp_differs differ, ← Int.neg_sub, Int.sign_neg] at sign
    have nonzero : char (mem (s1 + i)) - char (mem (s2 + i)) ≠ 0 :=
      fun zero => differ.unlike (char_inj.mp (Int.sub_eq_zero.mp zero))
    have signed : (char (mem (s1 + i)) - char (mem (s2 + i))).sign ≠ 0 :=
      fun zero => nonzero (Int.sign_eq_zero_iff_zero.mp zero)
    omega
  · intro agree
    have zero := memcmp_agrees agree
    constructor
    case same => exact iff_of_true zero agree
    case sign => exact fun i differ => absurd (agree i differ.inside) differ.unlike
    case strings =>
      intro first second
      have back : Agree mem s2 s1 n := fun i less => (agree i less).symm
      rw [zero, ← memcmp_strncmp second, memcmp_agrees back]

/-- 1 and 2: `memcmp` finds the first array greater, `strncmp` finds it less. -/
theorem memcmp_reversed : memcmp (fun a => UInt8.ofNat a) 1 2 1 = 1 ∧
    strncmp (fun a => UInt8.ofNat a) 1 2 1 = -1 ∧ ¬Compares (fun a => UInt8.ofNat a) 1 2 1 := by
  refine ⟨by decide, by decide, fun compares => ?_⟩
  have signs := compares.strings (by unfold NulFree; decide) (by unfold NulFree; decide)
  exact absurd signs (by decide)

end Comparing

end OsWorkbench.Klib
