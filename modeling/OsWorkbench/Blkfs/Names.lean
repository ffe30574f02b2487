import OsWorkbench.Blkfs.CreateFind
import OsWorkbench.Blkfs.Preserving

/-!
# Names in directories

A name of less than 80 bytes ends inside what `block_cmp` reads of its block, so what else is in the
buffer does not matter. A search then stops at the first slot that is zero or has the name.
-/

namespace OsWorkbench.Blkfs

open Kernel ByteStore

section Strings

/-- The string at the beginning of some bytes. -/
def stringOf (bytes : List UInt8) : List UInt8 := bytes.takeWhile fun c => c != 0

theorem string_of_cons {c : UInt8} {bytes : List UInt8} (live : c ≠ 0) :
    stringOf (c :: bytes) = c :: stringOf bytes :=
  List.takeWhile_cons_of_pos (by simpa using live)

theorem string_of_ended {bytes : List UInt8} (ended : bytes.headD 0 = 0) : stringOf bytes = [] := by
  cases bytes with
  | nil => rfl
  | cons c bytes => exact List.takeWhile_cons_of_neg (by simpa using ended)

theorem string_of_append {s tail : List UInt8} (live : 0 ∉ s) (ended : tail.headD 0 = 0) :
    stringOf (s ++ tail) = s := by
  have whole : ∀ c ∈ s, (c != 0) = true := fun c member => by simpa using ne_of_mem_of_not_mem member live
  rw [stringOf, List.takeWhile_append_of_pos whole]
  exact (congrArg (s ++ ·) (string_of_ended ended)).trans (List.append_nil s)

/-- A string that ends before the bytes do ends where they go on. -/
theorem string_of_longer {bytes : List UInt8} (shorter : (stringOf bytes).length < bytes.length)
    (tail : List UInt8) : stringOf (bytes ++ tail) = stringOf bytes := by
  induction bytes with
  | nil => exact absurd shorter (Nat.lt_irrefl 0)
  | cons c bytes hypothesis =>
      by_cases live : c = 0
      · subst live
        exact (string_of_ended rfl).trans (string_of_ended rfl).symm
      · rw [List.cons_append, string_of_cons live, string_of_cons live]
        rw [string_of_cons live, List.length_cons, List.length_cons] at shorter
        rw [hypothesis (by omega)]

/-- `strncmp` of strings that end within the bound compares them. -/
theorem strncmp_strings {first second : List UInt8} {n : Nat} (live : 0 ∉ second)
    (short : (stringOf first).length < n) : strncmp first second n = 0 ↔ stringOf first = second := by
  have heads (first second : List UInt8) :
      ((first.headD 0).toNat : Int) - (second.headD 0).toNat = 0 ↔ first.headD 0 = second.headD 0 := by
    rw [Int.sub_eq_zero, Int.natCast_inj, UInt8.toNat_inj]
  have empty (second : List UInt8) (live : 0 ∉ second) : 0 = second.headD 0 ↔ [] = second := by
    cases second with
    | nil => exact Iff.intro (fun _ => rfl) fun _ => rfl
    | cons c second =>
        have other : c ≠ 0 := ne_of_mem_of_not_mem List.mem_cons_self live
        exact iff_of_false other.symm (List.cons_ne_nil c second).symm
  induction n generalizing first second with
  | zero => exact absurd short (Nat.not_lt_zero _)
  | succ n hypothesis =>
      cases first with
      | nil =>
          have both : strncmp [] second (n + 1) = 0 ↔ ([] : List UInt8).headD 0 = second.headD 0 := by
            cases n with
            | zero => exact heads [] second
            | succ n =>
                rw [strncmp, if_neg (fun both => both.2 rfl)]
                exact heads [] second
          exact both.trans (empty second live)
      | cons c first =>
          by_cases ended : c = 0
          · subst ended
            have both : strncmp (0 :: first) second (n + 1) = 0 ↔ 0 = second.headD 0 := by
              cases n with
              | zero => exact heads (0 :: first) second
              | succ n =>
                  rw [strncmp, if_neg (fun both => both.2 rfl)]
                  exact heads (0 :: first) second
            rw [string_of_ended rfl]
            exact both.trans (empty second live)
          · rw [string_of_cons ended] at short ⊢
            rw [List.length_cons] at short
            obtain ⟨n, rfl⟩ := Nat.exists_eq_add_one.mpr (show 0 < n by omega)
            rw [strncmp]
            cases second with
            | nil =>
                rw [if_neg (fun both => ended both.1), heads]
                exact iff_of_false ended (List.cons_ne_nil _ _)
            | cons e second =>
                have rest : 0 ∉ second := fun member => live (List.mem_cons_of_mem _ member)
                by_cases same : c = e
                · subst same
                  have further := @hypothesis first second rest (by omega)
                  rw [if_pos ⟨rfl, ended⟩, List.tail_cons, List.tail_cons, List.cons_inj_right]
                  exact further
                · rw [if_neg (fun both => same both.1), heads]
                  exact iff_of_false same fun both => same (List.cons.inj both).1

end Strings

/-- What `block_cmp` reads of a name block. -/
def nameOf (dev : Rd) (b : Nat) : List UInt8 := stringOf (slice dev.mem (b + 4) 80)

/-- A name block whose name is complete in what is read. -/
structure Titled (dev : Rd) (b : Nat) : Prop where
  short : (nameOf dev b).length < 80
  final : nextOf dev b = 0

/-- All names in directories are complete. -/
def Titles (dev : Rd) : Prop :=
  ∀ i, Directory dev i → ∀ k < slotCount,
    NameBlock dev (slotAt dev (nodeAt dev i).info k) → Titled dev (slotAt dev (nodeAt dev i).info k)

section Comparing

variable {dev : Rd} {b k m fuel : Nat} {bytes name : List UInt8} {stack : Nat → List UInt8}

/-- `block_cmp` tells whether the names are the same. -/
theorem block_cmp_name (block : Block dev b) (titled : Titled dev b) (live : 0 ∉ name) :
    ∃ ret, blockCmp (fuel + 1) bytes dev b name = some ret ∧ (ret = 0 ↔ nameOf dev b = name) := by
  have last := block.inside
  unfold blkSz at last
  have length : (slice dev.mem (b + 4) 80).length = 80 := slice_length _ _ _
  have ended : (nameOf dev b).length < (slice dev.mem (b + 4) 80).length := by
    rw [length]
    exact titled.short
  have buffer : stringOf (slice dev.mem (b + 4) 80 ++ bytes.drop 80) = nameOf dev b :=
    string_of_longer ended _
  have compared := @strncmp_strings (slice dev.mem (b + 4) 80 ++ bytes.drop 80) name (blkSz - 8) live (by
    rw [buffer]
    exact Nat.lt_trans titled.short (by decide))
  rw [buffer] at compared
  rw [blockCmp, block.place_word (by decide), rd_read_inside (by omega), length, block.read_next]
  dsimp only
  by_cases same : nameOf dev b = name
  · refine ⟨0, ?_, iff_of_true rfl same⟩
    rw [if_neg (not_not.mpr (compared.mpr same)), titled.final, followName, if_pos rfl]
    rfl
  · refine ⟨_, if_pos fun zero => same (compared.mp zero), compared⟩

/-- Whether a search for a name stops at a slot. -/
def Stops (dev : Rd) (b : Nat) (name : List UInt8) (m : Nat) : Prop :=
  slotAt dev b m = 0 ∨ slotAt dev b m ≠ ylsWipe ∧ nameOf dev (slotAt dev b m) = name

theorem slot_cmp_other (slots : Slots dev b)
    (titled : ∀ k < slotCount, NameBlock dev (slotAt dev b k) → Titled dev (slotAt dev b k))
    (live : 0 ∉ name) (bound : k < slotCount) (goes : ¬Stops dev b name k) :
    ∃ ret, slotCmp (fuel + 1) bytes dev (slotAt dev b k) name = some ret ∧ ret ≠ 0 := by
  rcases slots.filled k bound with zero | wiped | named
  · exact absurd (Or.inl zero) goes
  · exact ⟨1, by rw [slotCmp, if_pos wiped], one_ne_zero⟩
  · obtain ⟨ret, compared, equal⟩ := @block_cmp_name dev _ fuel bytes name named.block (titled k bound named) live
    refine ⟨ret, by rw [slotCmp, if_neg named.block.not_wipe, compared], fun zero => goes ?_⟩
    exact Or.inr ⟨named.block.not_wipe, equal.mp zero⟩

/-- The search goes on to the first slot that it stops at. -/
theorem slot_search_stops (slots : Slots dev b)
    (titled : ∀ k < slotCount, NameBlock dev (slotAt dev b k) → Titled dev (slotAt dev b k))
    (live : 0 ∉ name) (before : k ≤ m) (bound : m < slotCount)
    (goes : ∀ j, k ≤ j → j < m → ¬Stops dev b name j) (stops : Stops dev b name m)
    (enough : m - k + 1 < fuel) : slotSearch stack fuel dev (slotPlace b k) name =
      some (if slotAt dev b m = 0 then .unused (slotPlace b m)
        else .found (slotPlace b m) (slotAt dev b m)) := by
  induction fuel generalizing k with
  | zero => omega
  | succ fuel hypothesis =>
      obtain ⟨fuel, rfl⟩ := Nat.exists_eq_add_one.mpr (show 0 < fuel by omega)
      have positive : slotPlace b k ≠ 0 := by
        unfold slotPlace
        omega
      rw [slotSearch, if_neg positive, read_slot slots.block (by omega)]
      dsimp only
      by_cases here : k = m
      · subst here
        by_cases zero : slotAt dev b k = 0
        · rw [if_pos (Or.inr zero), if_pos zero]
        · obtain ⟨kept, same⟩ := stops.resolve_left zero
          have named := ((slots.filled k bound).resolve_left zero).resolve_left kept
          obtain ⟨ret, compared, equal⟩ :=
            @block_cmp_name dev _ fuel (stack (slotPlace b k)) name named.block (titled k bound named) live
          rw [if_neg (fun missing => missing.elim (absurd rfl) zero), slotCmp, if_neg kept, compared,
            Option.bind_some, if_neg (not_not.mpr (equal.mpr same)), if_neg zero]
      · have passes := goes k le_rfl (by omega)
        obtain ⟨ret, compared, other⟩ := @slot_cmp_other dev b k fuel (stack (slotPlace b k)) name slots
          titled live (by omega) passes
        rw [if_neg (fun missing => missing.elim (absurd rfl) fun zero => passes (Or.inl zero)), compared,
          Option.bind_some, if_pos other, next_slot slots.block (by omega), if_pos (by omega)]
        exact hypothesis (by omega) (fun j from_k => goes j (by omega)) (by omega)

/-- In a directory without a slot that is zero the search for a name that is not there runs past the
end. -/
theorem slot_search_full (slots : Slots dev b)
    (titled : ∀ k < slotCount, NameBlock dev (slotAt dev b k) → Titled dev (slotAt dev b k))
    (live : 0 ∉ name) (bound : k < slotCount)
    (goes : ∀ j, k ≤ j → j < slotCount → ¬Stops dev b name j) (enough : slotCount - k < fuel) :
    slotSearch stack fuel dev (slotPlace b k) name = some .ended := by
  induction fuel generalizing k with
  | zero => omega
  | succ fuel hypothesis =>
      obtain ⟨fuel, rfl⟩ := Nat.exists_eq_add_one.mpr (show 0 < fuel by omega)
      have positive : slotPlace b k ≠ 0 := by
        unfold slotPlace
        omega
      have passes := goes k le_rfl bound
      obtain ⟨ret, compared, other⟩ := @slot_cmp_other dev b k fuel (stack (slotPlace b k)) name slots
        titled live bound passes
      rw [slotSearch, if_neg positive, read_slot slots.block bound]
      dsimp only
      rw [if_neg (fun missing => missing.elim (absurd rfl) fun zero => passes (Or.inl zero)), compared,
        Option.bind_some, if_pos other, next_slot slots.block bound]
      split
      next further => exact hypothesis further (fun j from_k => goes j (by omega)) (by omega)
      next => rw [slots.final, slotSearch, if_pos rfl]

end Comparing

end OsWorkbench.Blkfs
