import OsWorkbench.Library.ByteStore

/-!
# `string.c` of klib: `memmove`

Both loops copy upwards. Where the destination is behind the source the loop starts at the last byte
and counts on from there, so that it ends only when its counter, an `int`, overflows.
-/

namespace OsWorkbench.Klib

open ByteStore

/-- `_dest[i]=_src[i]`. -/
def copyByte (mem : Bytes) (dest src i : Nat) : Bytes := overlay mem (dest + i) [mem (src + i)]

/-- The loop for `dest>src`. It has no result once `++i` is not an `int` any more. -/
def moveBehind : Nat → Bytes → Nat → Nat → Int → Option Bytes
  | 0, _, _, _, _ => none
  | fuel + 1, mem, dest, src, i =>
      if 0 ≤ i then
        if i + 1 < 2 ^ 31 then moveBehind fuel (copyByte mem dest src i.toNat) dest src (i + 1)
        else none
      else some mem

/-- The other loop. -/
def moveAhead : Nat → Bytes → Nat → Nat → Nat → Nat → Option Bytes
  | 0, _, _, _, _, _ => none
  | fuel + 1, mem, dest, src, n, i =>
      if i < n then moveAhead fuel (copyByte mem dest src i) dest src n (i + 1) else some mem

/-- `memmove`, for lengths that are an `int`. -/
def memmove (fuel : Nat) (mem : Bytes) (dest src n : Nat) : Option Bytes :=
  if dest > src then moveBehind fuel mem dest src ((n : Int) - 1)
  else moveAhead fuel mem dest src n 0

section Moving

variable {mem : Bytes} {dest src n i fuel : Nat}

theorem copy_byte_here (mem : Bytes) (dest src i : Nat) :
    copyByte mem dest src i (dest + i) = mem (src + i) := by
  have written := @overlay_inside mem (dest + i) 0 [mem (src + i)] Nat.zero_lt_one
  rwa [Nat.add_zero] at written

theorem copy_byte_other {a : Nat} (other : a ≠ dest + i) : copyByte mem dest src i a = mem a := by
  rcases Nat.lt_or_gt_of_ne other with before | after
  · exact overlay_before before
  · exact overlay_after (by rw [List.length_singleton]; omega)

/-- A copy through a temporary of `n` bytes. -/
structure Moved (mem moved : Bytes) (dest src n : Nat) : Prop where
  inside : ∀ i < n, moved (dest + i) = mem (src + i)
  outside : ∀ a, a ∉ span dest n → moved a = mem a

/-- The bytes before `i` are in their places; those that are still to be read have not been written
over, since the destination is not behind the source. -/
structure Moving (mem now : Bytes) (dest src i : Nat) : Prop where
  copied : ∀ j < i, now (dest + j) = mem (src + j)
  kept : ∀ a, a ∉ span dest i → now a = mem a

theorem Moving.next {now : Bytes} (moving : Moving mem now dest src i) (order : dest ≤ src) :
    Moving mem (copyByte now dest src i) dest src (i + 1) := by
  constructor
  case copied =>
    intro j before
    rcases Nat.lt_succ_iff_lt_or_eq.mp before with less | rfl
    · rw [copy_byte_other (by omega)]
      exact moving.copied j less
    · rw [copy_byte_here]
      exact moving.kept _ (by rw [mem_span]; omega)
  case kept =>
    intro a outside
    rw [mem_span] at outside
    rw [copy_byte_other (by omega)]
    exact moving.kept a (by rw [mem_span]; omega)

theorem move_ahead_moves {now : Bytes} (moving : Moving mem now dest src i) (order : dest ≤ src)
    (inside : i ≤ n) (enough : n - i < fuel) :
    ∃ moved, moveAhead fuel now dest src n i = some moved ∧ Moved mem moved dest src n := by
  induction fuel generalizing now i with
  | zero => omega
  | succ fuel hypothesis =>
      rw [moveAhead]
      split
      next more => exact hypothesis (moving.next order) more (by omega)
      next done =>
        obtain rfl : i = n := by omega
        exact ⟨now, rfl, moving.copied, moving.kept⟩

/-- With anything to copy the other loop has no result. -/
theorem move_behind_none {j : Int} (started : 0 ≤ j) : moveBehind fuel mem dest src j = none := by
  induction fuel generalizing mem j with
  | zero => rfl
  | succ fuel hypothesis =>
      rw [moveBehind, if_pos started]
      split
      · exact hypothesis (by omega)
      · rfl

/-- `memmove` copies as through a temporary if and only if the destination is not behind the source or
there is nothing to copy. -/
theorem memmove_exact (mem : Bytes) (dest src n : Nat) (int : n < 2 ^ 31) :
    (∃ fuel moved, memmove fuel mem dest src n = some moved ∧ Moved mem moved dest src n) ↔
      dest ≤ src ∨ n = 0 := by
  constructor
  · rintro ⟨fuel, moved, returned, -⟩
    by_contra neither
    rw [not_or] at neither
    rw [memmove, if_pos (by omega), move_behind_none (by omega)] at returned
    exact nomatch returned
  · intro either
    rcases Nat.lt_or_ge src dest with behind | order
    · obtain rfl : n = 0 := either.resolve_left (by omega)
      refine ⟨1, mem, ?_, fun i below => absurd below (Nat.not_lt_zero i), fun _ _ => rfl⟩
      rw [memmove, if_pos behind, moveBehind, if_neg (by decide)]
    · have begun : Moving mem mem dest src 0 :=
        ⟨fun j below => absurd below (Nat.not_lt_zero j), fun _ _ => rfl⟩
      obtain ⟨moved, returned, same⟩ := move_ahead_moves begun order (Nat.zero_le n) (Nat.lt_succ_self _)
      exact ⟨_, moved, by rw [memmove, if_neg (by omega)]; exact returned, same⟩

theorem memmove_exact_overlap :
    (∃ fuel moved, memmove fuel (fun a => UInt8.ofNat a) 4 6 5 = some moved ∧
      Moved (fun a => UInt8.ofNat a) moved 4 6 5) ↔ 4 ≤ 6 ∨ 5 = 0 :=
  memmove_exact (fun a => UInt8.ofNat a) 4 6 5 (by decide)

/-- One byte that is to be moved one place up. -/
theorem memmove_never_returns : ¬∃ fuel moved, memmove fuel (fun a => UInt8.ofNat a) 1 0 1 = some moved ∧
    Moved (fun a => UInt8.ofNat a) moved 1 0 1 := by
  rintro ⟨fuel, moved, returned, -⟩
  rw [memmove, if_pos (by decide), move_behind_none (by decide)] at returned
  exact nomatch returned

end Moving

end OsWorkbench.Klib
