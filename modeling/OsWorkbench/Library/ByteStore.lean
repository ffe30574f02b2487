import Mathlib.Data.List.OfFn
import Mathlib.Data.List.GetD
import Mathlib.Data.Set.Function
import Mathlib.Data.Nat.ModEq
import Mathlib.Tactic.Ring

/-!
# Byte-addressed stores

A store is a total map from addresses to bytes. A write replaces a run of
consecutive bytes; 32-bit words are four bytes, least significant first.
The lemmas are the frame rules: a write changes nothing outside its run, and
a word or a run of bytes read back depends on its own addresses only.
-/

namespace OsWorkbench.ByteStore

abbrev Bytes := Nat → UInt8

/-- Replaces the bytes at `base, base + 1, ...` by the list `payload`. -/
def overlay (store : Bytes) (base : Nat) (payload : List UInt8) : Bytes :=
  fun address =>
    if base ≤ address then (payload[address - base]?).getD (store address) else store address

/-- The `count` bytes from `base` on. -/
def slice (store : Bytes) (base count : Nat) : List UInt8 :=
  (List.range count).map fun index => store (base + index)

/-- The four bytes of a 32-bit word, least significant first. -/
def wordBytes (value : Nat) : List UInt8 :=
  [UInt8.ofNat value, UInt8.ofNat (value / 256), UInt8.ofNat (value / 65536),
    UInt8.ofNat (value / 16777216)]

/-- The word at index `index` of a list of bytes; absent bytes count as zero. -/
def wordOf (payload : List UInt8) (index : Nat) : Nat :=
  (payload.getD index 0).toNat + 256 * (payload.getD (index + 1) 0).toNat +
    65536 * (payload.getD (index + 2) 0).toNat + 16777216 * (payload.getD (index + 3) 0).toNat

/-- The word stored at `base`. -/
def word (store : Bytes) (base : Nat) : Nat :=
  (store base).toNat + 256 * (store (base + 1)).toNat +
    65536 * (store (base + 2)).toNat + 16777216 * (store (base + 3)).toNat

/-- The addresses of the `count` bytes from `base` on. -/
def span (base count : Nat) : Set Nat := {address | base ≤ address ∧ address < base + count}

@[simp] theorem mem_span {base count address : Nat} :
    address ∈ span base count ↔ base ≤ address ∧ address < base + count := Iff.rfl

@[simp] theorem slice_length (store : Bytes) (base count : Nat) :
    (slice store base count).length = count := by
  simp [slice]

@[simp] theorem word_bytes_length (value : Nat) : (wordBytes value).length = 4 := rfl

theorem slice_getElem (store : Bytes) (base count index : Nat) (bound : index < count) :
    (slice store base count)[index]? = some (store (base + index)) := by
  simp [slice, bound]

theorem slice_getD (store : Bytes) (base count index : Nat) (bound : index < count) :
    (slice store base count).getD index 0 = store (base + index) := by
  rw [List.getD_eq_getElem?_getD, slice_getElem store base count index bound]
  rfl

theorem overlay_before {store : Bytes} {base address : Nat} {payload : List UInt8}
    (before : address < base) : overlay store base payload address = store address := by
  simp [overlay, Nat.not_le.mpr before]

theorem overlay_after {store : Bytes} {base address : Nat} {payload : List UInt8}
    (after : base + payload.length ≤ address) :
    overlay store base payload address = store address := by
  have outside : payload.length ≤ address - base := by omega
  simp [overlay, List.getElem?_eq_none outside]

theorem overlay_inside {store : Bytes} {base index : Nat} {payload : List UInt8}
    (bound : index < payload.length) :
    overlay store base payload (base + index) = payload[index] := by
  simp [overlay, bound]

/-- A write changes nothing outside the run it replaces. -/
theorem overlay_frame (store : Bytes) (base : Nat) (payload : List UInt8) :
    Set.EqOn (overlay store base payload) store (span base payload.length)ᶜ := by
  intro address outside
  simp only [Set.mem_compl_iff, mem_span, not_and, not_lt] at outside
  by_cases before : address < base
  · exact overlay_before before
  · exact overlay_after (outside (by omega))

@[simp] theorem overlay_nil (store : Bytes) (base : Nat) : overlay store base [] = store := by
  funext address
  simp [overlay]

/-- Two writes one behind the other. -/
theorem overlay_append (store : Bytes) (base : Nat) (first second : List UInt8) :
    overlay (overlay store base first) (base + first.length) second =
      overlay store base (first ++ second) := by
  funext address
  by_cases before : address < base + first.length
  · rw [overlay_before before]
    by_cases inside : base ≤ address
    · obtain ⟨index, rfl⟩ := Nat.exists_eq_add_of_le inside
      have bound : index < first.length := by omega
      have whole : index < (first ++ second).length := by
        rw [List.length_append]
        omega
      rw [overlay_inside bound, overlay_inside whole, List.getElem_append_left bound]
    · rw [overlay_before (by omega), overlay_before (by omega)]
  · obtain ⟨index, rfl⟩ := Nat.exists_eq_add_of_le (Nat.le_of_not_lt before)
    by_cases inside : index < second.length
    · have whole : first.length + index < (first ++ second).length := by
        rw [List.length_append]
        omega
      rw [overlay_inside inside, Nat.add_assoc, overlay_inside whole,
        List.getElem_append_right (Nat.le_add_right ..)]
      congr 1
      omega
    · rw [overlay_after (by omega), overlay_after (by omega),
        overlay_after (by rw [List.length_append]; omega)]

theorem word_congr {store other : Bytes} {base : Nat}
    (same : Set.EqOn store other (span base 4)) : word store base = word other base := by
  simp only [word]
  rw [same (show base ∈ span base 4 by simp), same (show base + 1 ∈ span base 4 by simp),
    same (show base + 2 ∈ span base 4 by simp), same (show base + 3 ∈ span base 4 by simp)]

theorem slice_congr {store other : Bytes} {base count : Nat}
    (same : Set.EqOn store other (span base count)) :
    slice store base count = slice other base count := by
  apply List.map_congr_left
  intro index member
  have bound : index < count := List.mem_range.mp member
  exact same ⟨by omega, by omega⟩

theorem word_lt (store : Bytes) (base : Nat) : word store base < 2 ^ 32 := by
  have first := (store base).toNat_lt
  have second := (store (base + 1)).toNat_lt
  have third := (store (base + 2)).toNat_lt
  have fourth := (store (base + 3)).toNat_lt
  simp only [word]
  omega

theorem word_of_lt (payload : List UInt8) (index : Nat) : wordOf payload index < 2 ^ 32 := by
  have first := (payload.getD index 0).toNat_lt
  have second := (payload.getD (index + 1) 0).toNat_lt
  have third := (payload.getD (index + 2) 0).toNat_lt
  have fourth := (payload.getD (index + 3) 0).toNat_lt
  simp only [wordOf]
  omega

/-- A word written reads back reduced to 32 bits. -/
theorem word_overlay_self (store : Bytes) (base value : Nat) :
    word (overlay store base (wordBytes value)) base = value % 2 ^ 32 := by
  have inside (index : Nat) (bound : index < 4) :
      overlay store base (wordBytes value) (base + index) = (wordBytes value)[index] :=
    @overlay_inside store base index (wordBytes value) bound
  have first := inside 0 (by omega)
  rw [Nat.add_zero] at first
  simp only [word]
  rw [first, inside 1 (by omega), inside 2 (by omega), inside 3 (by omega)]
  simp only [wordBytes, List.getElem_cons_zero, List.getElem_cons_succ, UInt8.toNat_ofNat']
  omega

theorem slice_overlay_self (store : Bytes) (base : Nat) (payload : List UInt8) :
    slice (overlay store base payload) base payload.length = payload := by
  apply List.ext_getElem?
  intro index
  by_cases inside : index < payload.length
  · rw [slice_getElem _ _ _ _ inside, overlay_inside inside, List.getElem?_eq_getElem inside]
  · rw [List.getElem?_eq_none (by simpa using inside), List.getElem?_eq_none (by omega)]

/-- A word inside the run just written. -/
theorem word_overlay_inside (store : Bytes) (base spot : Nat) (payload : List UInt8)
    (bound : spot + 4 ≤ payload.length) :
    word (overlay store base payload) (base + spot) = wordOf payload spot := by
  have inside (index : Nat) (small : index < payload.length) :
      overlay store base payload (base + index) = payload.getD index 0 := by
    rw [overlay_inside small, List.getD_eq_getElem _ _ small]
  simp only [word, wordOf, Nat.add_assoc]
  rw [inside spot (by omega), inside (spot + 1) (by omega), inside (spot + 2) (by omega),
    inside (spot + 3) (by omega)]

theorem slice_overlay_inside (store : Bytes) (base skip count : Nat) (payload : List UInt8)
    (bound : skip + count ≤ payload.length) :
    slice (overlay store base payload) (base + skip) count = (payload.drop skip).take count := by
  apply List.ext_getElem?
  intro index
  by_cases inside : index < count
  · rw [slice_getElem _ _ _ _ inside, Nat.add_assoc, overlay_inside (by omega),
      List.getElem?_take_of_lt inside, List.getElem?_drop, List.getElem?_eq_getElem]
  · rw [List.getElem?_eq_none (by simpa using inside),
      List.getElem?_eq_none (by simp; omega)]

/-- Equal slices are equal bytes. -/
theorem eqOn_of_slice {store other : Bytes} {base count : Nat}
    (same : slice store base count = slice other base count) :
    Set.EqOn store other (span base count) := by
  intro address inside
  rw [mem_span] at inside
  have at_index := congrArg (fun bytes : List UInt8 => bytes.getD (address - base) 0) same
  simp only [slice_getD _ _ _ _ (show address - base < count by omega)] at at_index
  rwa [show base + (address - base) = address by omega] at at_index

theorem slice_append (store : Bytes) (base first second : Nat) :
    slice store base (first + second) =
      slice store base first ++ slice store (base + first) second := by
  simp [slice, List.range_add, Nat.add_assoc, Function.comp_def]

/-- Part of a run of equal bytes just written. -/
theorem slice_part (store : Bytes) (base skip part count : Nat) (inside : skip + part ≤ count) :
    ((slice store base count).drop skip).take part = slice store (base + skip) part := by
  obtain ⟨rest, rfl⟩ := Nat.exists_eq_add_of_le inside
  rw [slice_append, slice_append, List.append_assoc,
    List.drop_append_of_le_length (by simp), List.drop_eq_nil_of_le (by simp), List.nil_append,
    List.take_append_of_le_length (by simp), List.take_of_length_le (by simp)]

theorem slice_overlay_replicate (store : Bytes) (base total skip count : Nat) (byte : UInt8)
    (inside : skip + count ≤ total) :
    slice (overlay store base (List.replicate total byte)) (base + skip) count =
      List.replicate count byte := by
  refine List.eq_replicate_iff.mpr ⟨slice_length _ _ _, ?_⟩
  intro value member
  obtain ⟨index, bound, rfl⟩ := List.mem_map.mp member
  have small := List.mem_range.mp bound
  rw [Nat.add_assoc, overlay_inside (by simp; omega)]
  exact List.getElem_replicate _

/-- The word at an index of a slice is the word of the store there. -/
theorem word_of_slice (store : Bytes) (base count index : Nat) (bound : index + 4 ≤ count) :
    wordOf (slice store base count) index = word store (base + index) := by
  simp only [wordOf, word]
  rw [slice_getD _ _ _ _ (by omega), slice_getD _ _ _ _ (by omega),
    slice_getD _ _ _ _ (by omega), slice_getD _ _ _ _ (by omega)]
  simp only [Nat.add_assoc]

theorem word_overlay_outside {store : Bytes} {base spot : Nat} {payload : List UInt8}
    (disjoint : spot + 4 ≤ base ∨ base + payload.length ≤ spot) :
    word (overlay store base payload) spot = word store spot := by
  apply word_congr
  intro address member
  apply overlay_frame
  simp only [Set.mem_compl_iff, mem_span] at member ⊢
  omega

theorem slice_overlay_outside {store : Bytes} {base spot count : Nat} {payload : List UInt8}
    (disjoint : spot + count ≤ base ∨ base + payload.length ≤ spot) :
    slice (overlay store base payload) spot count = slice store spot count := by
  apply slice_congr
  intro address member
  apply overlay_frame
  simp only [Set.mem_compl_iff, mem_span] at member ⊢
  omega

section Splicing

variable {left right source first second : List UInt8} {skip : Nat}

/-- The list with `source` in place of what it has from `skip` on. -/
def splice (target : List UInt8) (skip : Nat) (source : List UInt8) : List UInt8 :=
  target.take skip ++ source ++ target.drop (skip + source.length)

theorem splice_zero (target source : List UInt8) :
    splice target 0 source = source ++ target.drop source.length := by
  rw [splice, List.take_zero, List.nil_append, Nat.zero_add]

theorem splice_append_right (left right source : List UInt8) (skip : Nat) :
    splice (left ++ right) (left.length + skip) source = left ++ splice right skip source := by
  simp only [splice, List.take_length_add_append, Nat.add_assoc, List.drop_length_add_append,
    List.append_assoc]

theorem splice_append_left (right : List UInt8) (inside : skip + source.length ≤ left.length) :
    splice (left ++ right) skip source = splice left skip source ++ right := by
  simp only [splice, List.take_append_of_le_length (show skip ≤ left.length by omega),
    List.drop_append_of_le_length inside, List.append_assoc]

/-- A source that fills the end of the first list and goes on in the second one. -/
theorem splice_append_across (second : List UInt8) (reaches : skip + first.length = left.length) :
    splice (left ++ right) skip (first ++ second) = left.take skip ++ first ++ splice right 0 second := by
  rw [splice, List.take_append_of_le_length (by omega), List.length_append, ← Nat.add_assoc, reaches,
    List.drop_length_add_append, splice_zero, List.append_assoc, List.append_assoc, List.append_assoc]

theorem splice_length_ge {target : List UInt8} (inside : skip ≤ target.length) (source : List UInt8) :
    skip + source.length ≤ (splice target skip source).length := by
  rw [splice, List.length_append, List.length_append, List.length_take_of_le inside]
  exact Nat.le_add_right _ _

theorem splice_reads_back {target : List UInt8} (inside : skip ≤ target.length) (source : List UInt8) :
    ((splice target skip source).drop skip).take source.length = source := by
  rw [splice, List.append_assoc, List.drop_left' (List.length_take_of_le inside), List.take_left]

/-- Nothing changes outside the place of the source. -/
theorem splice_outside {target : List UInt8} (inside : skip ≤ target.length) (source : List UInt8)
    {index : Nat} (outside : index < skip ∨ skip + source.length ≤ index) :
    (splice target skip source)[index]? = target[index]? := by
  have front : (target.take skip ++ source).length = skip + source.length := by
    rw [List.length_append, List.length_take_of_le inside]
  rcases outside with before | after
  · rw [splice, List.getElem?_append_left (by omega), List.getElem?_append_left (by simp; omega),
      List.getElem?_take_of_lt before]
  · rw [splice, List.getElem?_append_right (by omega), front, List.getElem?_drop]
    congr 1
    omega

/-- A run of bytes of which some were just written. -/
theorem slice_overlay_splice (store : Bytes) (base count skip : Nat) (payload : List UInt8)
    (bound : skip + payload.length ≤ count) :
    slice (overlay store (base + skip) payload) base count =
      splice (slice store base count) skip payload := by
  obtain ⟨rest, rfl⟩ := Nat.exists_eq_add_of_le bound
  have before : slice (overlay store (base + skip) payload) base skip = slice store base skip :=
    slice_overlay_outside (Or.inl le_rfl)
  have after : slice (overlay store (base + skip) payload) (base + (skip + payload.length)) rest =
      slice store (base + (skip + payload.length)) rest :=
    slice_overlay_outside (Or.inr (by omega))
  have old : (slice store base skip ++ slice store (base + skip) payload.length).length =
      skip + payload.length := by
    rw [List.length_append, slice_length, slice_length]
  have taken (left : List UInt8) :
      (slice store base skip ++ slice store (base + skip) payload.length ++ left).take skip =
        slice store base skip := by
    rw [List.append_assoc, List.take_left' (slice_length _ _ _)]
  rw [splice, slice_append _ base (skip + payload.length), slice_append _ base skip, before,
    slice_overlay_self, after, slice_append _ base (skip + payload.length) rest,
    slice_append _ base skip, List.drop_left' old, taken]

end Splicing

end OsWorkbench.ByteStore
