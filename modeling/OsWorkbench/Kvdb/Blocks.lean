import OsWorkbench.Kvdb.Source
import Mathlib.Data.List.Infix
import Mathlib.Tactic.Cases

/-!
# Strings stored in chains of blocks

`Stored` says that a string is laid out in a given list of blocks. Reading it
back with `string_cpy` gives the string, and comparing a key with it decides
`Matches`, which is equality except when the stored length is a multiple of the
block payload: then nothing marks the end of the stored string.
-/

namespace OsWorkbench.Kvdb

open ByteStore WriteTrace

attribute [simp] headerLen blockLen sizeofString sizeofTab

section Words

theorem u32_of_lt {value : Nat} (small : value < 2 ^ 32) : u32 value = value :=
  Nat.mod_eq_of_lt small

@[simp] theorem zeros_length (count : Nat) : (zeros count).length = count := by simp [zeros]

@[simp] theorem word_bytes_zero : wordBytes 0 = zeros 4 := rfl

/-- The file offset of a database offset does not wrap. -/
theorem u32_header_add {offset count : Nat} (small : headerLen + offset + count < 2 ^ 32) :
    u32 (headerLen + offset) = headerLen + offset :=
  u32_of_lt (by omega)

end Words

/-- The payload of the block at `block` and its `next` field. -/
def info (bytes : Bytes) (block : Nat) : List UInt8 := slice bytes (headerLen + block) blockLen

def link (bytes : Bytes) (block : Nat) : Nat := word bytes (headerLen + block + blockLen)

def strAt (bytes : Bytes) (block : Nat) : Str := ⟨info bytes block, link bytes block⟩

def tabAt (bytes : Bytes) (offset : Nat) : Tab :=
  Tab.ofBytes (slice bytes (headerLen + offset) sizeofTab)

/-- `chars` lies in `blocks`: full blocks linked to the next one, and a last
block padded with zeros whose link is zero. -/
def Stored (bytes : Bytes) : List UInt8 → List Nat → Prop
  | _, [] => False
  | chars, [block] =>
      chars.length ≤ blockLen ∧ info bytes block = chars ++ zeros (blockLen - chars.length) ∧
        link bytes block = 0
  | chars, block :: next :: rest =>
      blockLen < chars.length ∧ info bytes block = chars.take blockLen ∧
        link bytes block = next ∧ Stored bytes (chars.drop blockLen) (next :: rest)

/-- The comparison that `string_cmp` decides. -/
def Matches (stored key : List UInt8) : Prop :=
  key = stored ∨ (stored ≠ [] ∧ stored.length % blockLen = 0 ∧ stored <+: key)

instance (stored key : List UInt8) : Decidable (Matches stored key) := by
  unfold Matches; infer_instance

section Frames

theorem link_congr {bytes other : Bytes} {block : Nat}
    (same : Set.EqOn other bytes (span (headerLen + block) sizeofString)) :
    link other block = link bytes block := by
  apply word_congr
  intro address member
  apply same
  simp only [mem_span, headerLen, blockLen, sizeofString] at member ⊢
  omega

theorem info_congr {bytes other : Bytes} {block : Nat}
    (same : Set.EqOn other bytes (span (headerLen + block) sizeofString)) :
    info other block = info bytes block := by
  apply slice_congr
  intro address member
  apply same
  simp only [mem_span, headerLen, blockLen, sizeofString] at member ⊢
  omega

/-- A stored string depends on its own blocks only. -/
theorem stored_congr {bytes other : Bytes} {chars : List UInt8} {blocks : List Nat}
    (same : ∀ block ∈ blocks, Set.EqOn other bytes (span (headerLen + block) sizeofString))
    (stored : Stored bytes chars blocks) : Stored other chars blocks := by
  induction blocks generalizing chars with
  | nil => exact stored
  | cons block rest ih =>
      have infoSame := info_congr (same block (by simp))
      have linkSame := link_congr (same block (by simp))
      cases rest with
      | nil =>
          obtain ⟨short, payload, ending⟩ := stored
          exact ⟨short, infoSame.trans payload, linkSame.trans ending⟩
      | cons next rest =>
          obtain ⟨long, payload, linked, later⟩ := stored
          refine ⟨long, infoSame.trans payload, linkSame.trans linked, ?_⟩
          exact ih (fun block member => same block (by simp [member])) later

theorem stored_ne_nil {bytes : Bytes} {chars : List UInt8} {blocks : List Nat}
    (stored : Stored bytes chars blocks) : blocks ≠ [] := by
  rintro rfl
  exact stored

end Frames

section Reads

theorem pread_inside {file : File} {offset count : Nat} (inside : offset + count ≤ file.size) :
    file.pread offset count = slice file.bytes offset count := by
  rw [File.pread, Nat.min_eq_left (by omega)]

theorem pread_safe_does {file : File} {offset count : Nat} (inside : offset + count ≤ file.size) :
    Does (preadSafe offset count) file [] (slice file.bytes offset count) := by
  have got : Does (Prog.read fun file : File => file.pread offset count : Db (List UInt8)) file
      [] (file.pread offset count) := does_read _ _
  refine does_bind_read got ?_
  simp only [pread_inside inside, slice_length, if_true]
  exact does_ret _ _

theorem pread_unchecked_does {file : File} {offset count : Nat}
    (inside : offset + count ≤ file.size) :
    Does (preadUnchecked offset count) file [] (slice file.bytes offset count) := by
  have got : Does (Prog.read fun file : File => file.pread offset count : Db (List UInt8)) file
      [] (file.pread offset count) := does_read _ _
  refine does_bind_read got ?_
  simp only [pread_inside inside, slice_length, if_true]
  exact does_ret _ _

theorem read_db_does {file : File} {offset count : Nat}
    (inside : headerLen + offset + count ≤ file.size)
    (small : headerLen + offset + count < 2 ^ 32) :
    Does (readDb offset count) file [] (slice file.bytes (headerLen + offset) count) := by
  rw [readDb, u32_header_add small]
  exact pread_safe_does inside

theorem str_of_slice (bytes : Bytes) (block : Nat) :
    Str.ofBytes (slice bytes (headerLen + block) sizeofString) = strAt bytes block := by
  have payload : (slice bytes (headerLen + block) sizeofString).take blockLen =
      info bytes block := by
    simp [slice, info, ← List.map_take, List.take_range]
  have next := word_of_slice bytes (headerLen + block) sizeofString blockLen (by simp)
  simp only [Str.ofBytes, strAt, payload, next, link]

theorem read_str_does {file : File} {block : Nat}
    (inside : headerLen + block + sizeofString ≤ file.size)
    (small : headerLen + block + sizeofString < 2 ^ 32) :
    Does (readStr block) file [] (strAt file.bytes block) := by
  rw [← str_of_slice]
  exact does_bind_pure (read_db_does inside small)

theorem read_tab_does {file : File} {offset : Nat}
    (inside : headerLen + offset + sizeofTab ≤ file.size)
    (small : headerLen + offset + sizeofTab < 2 ^ 32) :
    Does (readTab offset) file [] (tabAt file.bytes offset) :=
  does_bind_pure (read_db_does inside small)

end Reads

section Comparing

/-- `strncmp` against a zero-padded field compares exactly the characters kept. -/
theorem strncmp_eq_zero (count : Nat) (key chars : List UInt8) (keyPlain : 0 ∉ key)
    (charsPlain : 0 ∉ chars) (fits : chars.length ≤ count) :
    strncmp count key (chars ++ zeros (count - chars.length)) = 0 ↔ key.take count = chars := by
  induction count generalizing key chars with
  | zero =>
      have empty : chars = [] := List.length_eq_zero_iff.mp (by omega)
      simp [strncmp, empty]
  | succ count ih =>
      cases key with
      | nil =>
          cases chars with
          | nil => simp [strncmp, zeros, List.replicate_succ]
          | cons char chars =>
              have positive : char ≠ 0 := fun same => charsPlain (by simp [same])
              have value : char.toNat ≠ 0 := fun same => positive (UInt8.toNat_inj.mp same)
              simp [strncmp, positive.symm, value]
      | cons head key =>
          have headNonzero : head ≠ 0 := fun same => keyPlain (by simp [same])
          have headValue : head.toNat ≠ 0 := fun same => headNonzero (UInt8.toNat_inj.mp same)
          cases chars with
          | nil => simp [strncmp, zeros, List.replicate_succ, headNonzero, headValue]
          | cons char chars =>
              have later := ih key chars (fun member => keyPlain (by simp [member]))
                (fun member => charsPlain (by simp [member])) (by simpa using fits)
              by_cases same : head = char
              · subst same
                simpa [strncmp, headNonzero] using later
              · have apart : (head.toNat : Int) - char.toNat ≠ 0 := by
                  intro zero
                  exact same (UInt8.toNat_inj.mp (by omega))
                simp [strncmp, same, apart]

theorem matches_short {stored key : List UInt8} (short : stored.length ≤ blockLen) :
    Matches stored key ↔ key.take blockLen = stored := by
  simp only [blockLen] at short
  constructor
  · rintro (rfl | ⟨present, divides, pre⟩)
    · simpa using short
    · have positive : 0 < stored.length := List.length_pos_iff.mpr present
      have full : stored.length = 28 := by simp only [blockLen] at divides; omega
      obtain ⟨rest, rfl⟩ := pre
      simp [List.take_append_of_le_length (Nat.le_of_eq full.symm), full]
  · intro cut
    by_cases full : stored.length = blockLen
    · refine Or.inr ⟨?_, by simp [full], ?_⟩
      · rintro rfl
        simp at full
      · rw [← cut]
        exact List.take_prefix _ _
    · left
      have bound : key.length ≤ blockLen := by
        have size := congrArg List.length cut
        simp only [List.length_take, blockLen] at size full ⊢
        omega
      rwa [List.take_of_length_le bound] at cut

theorem matches_long {stored key : List UInt8} (long : blockLen < stored.length) :
    Matches stored key ↔
      key.take blockLen = stored.take blockLen ∧
        Matches (stored.drop blockLen) (key.drop blockLen) := by
  simp only [blockLen] at long
  constructor
  · rintro (rfl | ⟨-, divides, rest, rfl⟩)
    · exact ⟨rfl, Or.inl rfl⟩
    · refine ⟨List.take_append_of_le_length (by simp only [blockLen]; omega), Or.inr ⟨?_, ?_, ?_⟩⟩
      · simp only [ne_eq, List.drop_eq_nil_iff, blockLen]
        omega
      · simp only [List.length_drop, blockLen] at divides ⊢
        omega
      · rw [List.drop_append_of_le_length (by simp only [blockLen]; omega)]
        exact List.prefix_append _ _
  · rintro ⟨front, same | ⟨present, divides, rest, same⟩⟩
    · left
      rw [← List.take_append_drop blockLen key, ← List.take_append_drop blockLen stored,
        front, same]
    · refine Or.inr ⟨by rintro rfl; simp at long, ?_, rest, ?_⟩
      · simp only [List.length_drop, blockLen] at divides ⊢
        omega
      · rw [← List.take_append_drop blockLen key, front, ← same, ← List.append_assoc,
          List.take_append_drop]

/-- `string_cmp` performs no write and returns zero exactly on a match. -/
theorem string_cmp_returns {file : File} {stored key : List UInt8} {block : Nat}
    {rest : List Nat} (chain : Stored file.bytes stored (block :: rest))
    (storedPlain : 0 ∉ stored) (keyPlain : 0 ∉ key)
    (readable : ∀ block ∈ rest, headerLen + block + sizeofString ≤ file.size ∧
      headerLen + block + sizeofString < 2 ^ 32) (nonzero : ∀ block ∈ rest, block ≠ 0) :
    ∃ ret, Returns (fun fuel => stringCmp fuel key (strAt file.bytes block)) file [] ret ∧
      (ret = 0 ↔ Matches stored key) := by
  induction rest generalizing stored key block with
  | nil =>
      obtain ⟨short, payload, ending⟩ := chain
      refine ⟨strncmp blockLen key (info file.bytes block), returns_of_succ ?_, ?_⟩
      · simp only [stringCmp, strAt, ending, ne_eq, not_true_eq_false, if_false]
        exact (does_ret _ _).returns
      · rw [payload, strncmp_eq_zero _ _ _ keyPlain storedPlain short, matches_short short]
  | cons next rest ih =>
      obtain ⟨long, payload, linked, later⟩ := chain
      have frontPlain : 0 ∉ stored.take blockLen := fun member =>
        storedPlain (List.mem_of_mem_take member)
      have noPad : blockLen - (stored.take blockLen).length = 0 := by
        simp only [List.length_take, blockLen] at long ⊢
        omega
      have compare : strncmp blockLen key (info file.bytes block) = 0 ↔
          key.take blockLen = stored.take blockLen := by
        have padded := strncmp_eq_zero blockLen key (stored.take blockLen) keyPlain frontPlain
          (by simp)
        rw [noPad, zeros, List.replicate_zero, List.append_nil] at padded
        rwa [payload]
      have linkNonzero : link file.bytes block ≠ 0 := by
        rw [linked]
        exact nonzero next (by simp)
      by_cases agree : strncmp blockLen key (info file.bytes block) = 0
      · have front := compare.mp agree
        have reaches : ¬ key.length < blockLen := by
          have size := congrArg List.length front
          simp only [List.length_take, blockLen] at size long ⊢
          omega
        obtain ⟨ret, returns, meaning⟩ := @ih _ (key.drop blockLen) _ later
          (fun member => storedPlain (List.mem_of_mem_drop member))
          (fun member => keyPlain (List.mem_of_mem_drop member))
          (fun block member => readable block (by simp [member]))
          (fun block member => nonzero block (by simp [member]))
        refine ⟨ret, returns_of_succ ?_, ?_⟩
        · simp only [stringCmp, strAt, ne_eq, linkNonzero, not_false_eq_true, if_true, agree,
            not_true_eq_false, if_false, reaches]
          have bounds := readable next (by simp)
          rw [linked]
          exact returns_bind_read (read_str_does bounds.1 bounds.2).returns returns
        · rw [meaning, matches_long long]
          exact ⟨fun tail => ⟨front, tail⟩, fun both => both.2⟩
      · refine ⟨strncmp blockLen key (info file.bytes block), returns_of_succ ?_, ?_⟩
        · simp only [stringCmp, strAt, ne_eq, linkNonzero, not_false_eq_true, if_true, agree]
          exact (does_ret _ _).returns
        · rw [matches_long long, compare]
          exact ⟨fun front => absurd (compare.mpr front) agree,
            fun both => absurd (compare.mpr both.1) agree⟩

end Comparing

section Copying

theorem takeWhile_nonzero_append {chars rest : List UInt8} (plain : 0 ∉ chars) :
    (chars ++ rest).takeWhile nonzero = chars ++ rest.takeWhile nonzero := by
  apply List.takeWhile_append_of_pos
  intro char member
  have positive : char ≠ 0 := fun same => plain (same ▸ member)
  simpa [nonzero] using positive

theorem takeWhile_nonzero_zeros (count : Nat) : (zeros count).takeWhile nonzero = [] := by
  cases count <;> simp [zeros, List.replicate_succ, nonzero]

theorem takeWhile_nonzero_plain {chars : List UInt8} (plain : 0 ∉ chars) :
    chars.takeWhile nonzero = chars := by
  have kept := @takeWhile_nonzero_append chars [] plain
  simpa using kept

/-- `string_cpy` writes the stored characters and one terminator. -/
theorem string_cpy_returns {file : File} {stored : List UInt8} {block : Nat} {rest : List Nat}
    (chain : Stored file.bytes stored (block :: rest)) (plain : 0 ∉ stored)
    (readable : ∀ block ∈ rest, headerLen + block + sizeofString ≤ file.size ∧
      headerLen + block + sizeofString < 2 ^ 32) (nonzero : ∀ block ∈ rest, block ≠ 0) :
    Returns (fun fuel => stringCpy fuel (strAt file.bytes block)) file [] (stored ++ [0]) := by
  induction rest generalizing stored block with
  | nil =>
      obtain ⟨short, payload, ending⟩ := chain
      apply returns_of_succ
      simp only [stringCpy, strAt, ending, ne_eq, not_true_eq_false, if_false, payload,
        word_bytes_zero, List.append_assoc]
      have kept : (stored ++ (zeros (blockLen - stored.length) ++ zeros 4)).takeWhile
          Kvdb.nonzero = stored := by
        rw [takeWhile_nonzero_append plain, zeros, zeros, List.replicate_append_replicate,
          ← zeros, takeWhile_nonzero_zeros, List.append_nil]
      rw [kept]
      exact (does_ret _ _).returns
  | cons next rest ih =>
      obtain ⟨long, payload, linked, later⟩ := chain
      have linkNonzero : link file.bytes block ≠ 0 := by
        rw [linked]
        exact nonzero next (by simp)
      have bounds := readable next (by simp)
      have copied := ih later (fun member => plain (List.mem_of_mem_drop member))
        (fun block member => readable block (by simp [member]))
        (fun block member => nonzero block (by simp [member]))
      have frontPlain : 0 ∉ stored.take blockLen := fun member =>
        plain (List.mem_of_mem_take member)
      have front : strncpyBytes (info file.bytes block) = stored.take blockLen := by
        have full : blockLen - (stored.take blockLen).length = 0 := by
          simp only [List.length_take, blockLen] at long ⊢
          omega
        simp only [strncpyBytes, payload, takeWhile_nonzero_plain frontPlain, full]
        simp [zeros]
      have whole : strncpyBytes (info file.bytes block) ++ (stored.drop blockLen ++ [0]) =
          stored ++ [0] := by
        rw [front, ← List.append_assoc, List.take_append_drop]
      apply returns_of_succ
      simp only [stringCpy, strAt, ne_eq, linkNonzero, not_false_eq_true, if_true]
      rw [linked, ← whole]
      exact returns_bind_read (read_str_does bounds.1 bounds.2).returns (returns_bind_pure copied)

end Copying

end OsWorkbench.Kvdb
