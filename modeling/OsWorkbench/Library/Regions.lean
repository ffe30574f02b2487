import OsWorkbench.Library.ByteStore
import Mathlib.Data.List.Pairwise
import Mathlib.Order.Interval.Finset.Nat
import Mathlib.Data.Finset.Card
import Mathlib.Data.Set.BooleanAlgebra
import Mathlib.Order.CompletePartialOrder

/-!
# Regions of an address space

A region is a run of addresses. `Packed` says that a list of regions lies between
two bounds without overlap, in whatever order the list has them; such a list
cannot hold more addresses than there are between the bounds. `Covers` says that a list leaves no
address between two bounds out.
-/

namespace OsWorkbench.Regions

open ByteStore

structure Region where
  start : Nat
  count : Nat
  deriving DecidableEq, Repr

def Region.addresses (region : Region) : Set Nat := span region.start region.count

/-- Two regions do not overlap. -/
def Clear (region other : Region) : Prop :=
  region.start + region.count ≤ other.start ∨ other.start + other.count ≤ region.start

theorem Clear.symm {region other : Region} (clear : Clear region other) : Clear other region :=
  Or.symm clear

instance : Std.Symm Clear := ⟨fun _ _ => Clear.symm⟩

theorem Clear.disjoint {region other : Region} (clear : Clear region other) :
    Disjoint region.addresses other.addresses := by
  rw [Set.disjoint_left]
  intro address left right
  simp only [Region.addresses, mem_span] at left right
  rcases clear with before | after <;> omega

structure Packed (regions : List Region) (low high : Nat) : Prop where
  apart : regions.Pairwise Clear
  inside : ∀ region ∈ regions, low ≤ region.start ∧ region.start + region.count ≤ high

section Packing

variable {regions others : List Region} {low middle high : Nat}

theorem Packed.perm (packed : Packed regions low high) (perm : others.Perm regions) :
    Packed others low high where
  apart := (perm.pairwise_iff Clear.symm).mpr packed.apart
  inside region member := packed.inside region (perm.subset member)

theorem Packed.mono {floor ceiling : Nat} (packed : Packed regions low high)
    (lower : floor ≤ low) (higher : high ≤ ceiling) : Packed regions floor ceiling where
  apart := packed.apart
  inside region member := by
    have bounds := packed.inside region member
    omega

/-- Regions above a bound do not overlap regions below it. -/
theorem Packed.append (packed : Packed regions low middle) (more : Packed others middle high)
    (lower : low ≤ middle) (higher : middle ≤ high) : Packed (regions ++ others) low high where
  apart := by
    refine List.pairwise_append.mpr ⟨packed.apart, more.apart, ?_⟩
    intro region member other further
    have below := packed.inside region member
    have above := more.inside other further
    exact Or.inl (by omega)
  inside region member := by
    rcases List.mem_append.mp member with left | right
    · have bounds := packed.inside region left
      omega
    · have bounds := more.inside region right
      omega

theorem Packed.cross (packed : Packed (regions ++ others) low high) {region other : Region}
    (left : region ∈ regions) (right : other ∈ others) : Clear region other :=
  (List.pairwise_append.mp packed.apart).2.2 region left other right

theorem Packed.clear_of_ne (packed : Packed regions low high) {region other : Region}
    (left : region ∈ regions) (right : other ∈ regions) (unlike : region ≠ other) :
    Clear region other :=
  packed.apart.forall left right unlike

/-- Disjoint regions inside a finite set have no more addresses than the set. -/
theorem sum_le_card (addresses : Finset Nat) (apart : regions.Pairwise Clear)
    (inside : ∀ region ∈ regions,
      Finset.Ico region.start (region.start + region.count) ⊆ addresses) :
    (regions.map Region.count).sum ≤ addresses.card := by
  induction regions generalizing addresses with
  | nil => simp
  | cons region rest ih =>
      have clear := List.pairwise_cons.mp apart
      have here := inside region (by simp)
      have later := ih (addresses \ Finset.Ico region.start (region.start + region.count))
        clear.2 (by
          intro other member address within
          refine Finset.mem_sdiff.mpr ⟨inside other (by simp [member]) within, ?_⟩
          have away := clear.1 other member
          simp only [Clear, Finset.mem_Ico] at away within ⊢
          omega)
      have left := Finset.card_sdiff_add_card_eq_card here
      simp only [Nat.card_Ico] at left
      simp only [List.map_cons, List.sum_cons]
      omega

theorem Packed.room (packed : Packed regions low high) :
    (regions.map Region.count).sum ≤ high - low := by
  have fits := sum_le_card (Finset.Ico low high) packed.apart (by
    intro region member address within
    have bounds := packed.inside region member
    simp only [Finset.mem_Ico] at within ⊢
    omega)
  simpa using fits

/-- A finite set covered by regions has no more addresses than they have. -/
theorem card_le_sum (addresses : Finset Nat)
    (covered : ∀ address ∈ addresses, ∃ region ∈ regions, address ∈ region.addresses) :
    addresses.card ≤ (regions.map Region.count).sum := by
  induction regions generalizing addresses with
  | nil =>
      rw [Finset.card_eq_zero.mpr (Finset.eq_empty_of_forall_notMem fun address member => ?_)]
      · exact Nat.zero_le _
      · obtain ⟨region, listed, -⟩ := covered address member
        simp at listed
  | cons region rest ih =>
      have later := ih (addresses \ Finset.Ico region.start (region.start + region.count)) (by
        intro address member
        obtain ⟨inside, outside⟩ := Finset.mem_sdiff.mp member
        obtain ⟨other, listed, within⟩ := covered address inside
        rcases List.mem_cons.mp listed with rfl | further
        · exact absurd (Finset.mem_Ico.mpr within) outside
        · exact ⟨other, further, within⟩)
      have split := Finset.card_le_card_sdiff_add_card
        (s := addresses) (t := Finset.Ico region.start (region.start + region.count))
      simp only [Nat.card_Ico] at split
      simp only [List.map_cons, List.sum_cons]
      omega

/-- Every address between two bounds is in one of the regions. -/
def Covers (regions : List Region) (low high : Nat) : Prop :=
  ∀ address, low ≤ address → address < high → ∃ region ∈ regions, address ∈ region.addresses

theorem Covers.room (covers : Covers regions low high) :
    high - low ≤ (regions.map Region.count).sum := by
  have enough := card_le_sum (Finset.Ico low high) fun address member =>
    covers address (Finset.mem_Ico.mp member).1 (Finset.mem_Ico.mp member).2
  simpa using enough

/-- The regions, none of them empty, are exactly what lies between the bounds. -/
structure Tiles (regions : List Region) (low high : Nat) : Prop where
  packed : Packed regions low high
  covers : Covers regions low high
  some : ∀ region ∈ regions, 0 < region.count

theorem tiles_single (room : low < high) : Tiles [⟨low, high - low⟩] low high where
  packed := ⟨List.pairwise_singleton _ _, by
    intro region member
    rw [List.mem_singleton.mp member]
    dsimp only
    omega⟩
  covers address above below := ⟨_, List.mem_singleton_self _, by
    simp only [Region.addresses, mem_span]
    omega⟩
  some region member := by
    rw [List.mem_singleton.mp member]
    dsimp only
    omega

theorem Tiles.perm (tiles : Tiles regions low high) (perm : others.Perm regions) :
    Tiles others low high where
  packed := tiles.packed.perm perm
  covers address above below := by
    obtain ⟨region, member, inside⟩ := tiles.covers address above below
    exact ⟨region, perm.symm.subset member, inside⟩
  some region member := tiles.some region (perm.subset member)

/-- One region is cut into two. -/
theorem Tiles.split {start first second : Nat}
    (tiles : Tiles (⟨start, first + second⟩ :: others) low high) (left : 0 < first)
    (right : 0 < second) :
    Tiles (⟨start, first⟩ :: ⟨start + first, second⟩ :: others) low high where
  packed := by
    obtain ⟨clear, apart⟩ := List.pairwise_cons.mp tiles.packed.apart
    have bounds := tiles.packed.inside _ (List.mem_cons_self ..)
    dsimp only at bounds
    constructor
    · refine List.pairwise_cons.mpr ⟨?_, List.pairwise_cons.mpr ⟨?_, apart⟩⟩
      · intro other member
        rcases List.mem_cons.mp member with rfl | further
        · exact Or.inl le_rfl
        · have away := clear other further
          simp only [Clear] at away ⊢
          omega
      · intro other member
        have away := clear other member
        simp only [Clear] at away ⊢
        omega
    · intro region member
      rcases List.mem_cons.mp member with rfl | later
      · dsimp only
        omega
      · rcases List.mem_cons.mp later with rfl | further
        · dsimp only
          omega
        · exact tiles.packed.inside region (List.mem_cons_of_mem _ further)
  covers address above below := by
    obtain ⟨region, member, inside⟩ := tiles.covers address above below
    rcases List.mem_cons.mp member with rfl | further
    · simp only [Region.addresses, mem_span] at inside
      rcases Nat.lt_or_ge address (start + first) with before | after
      · exact ⟨⟨start, first⟩, by simp, inside.1, before⟩
      · refine ⟨⟨start + first, second⟩, by simp, after, ?_⟩
        dsimp only
        omega
    · exact ⟨region, by simp [further], inside⟩
  some region member := by
    rcases List.mem_cons.mp member with rfl | later
    · exact left
    · rcases List.mem_cons.mp later with rfl | further
      · exact right
      · exact tiles.some region (List.mem_cons_of_mem _ further)

/-- Two regions that meet are joined. -/
theorem Tiles.merge {start first second : Nat}
    (tiles : Tiles (⟨start, first⟩ :: ⟨start + first, second⟩ :: others) low high) :
    Tiles (⟨start, first + second⟩ :: others) low high where
  packed := by
    obtain ⟨clear, rest⟩ := List.pairwise_cons.mp tiles.packed.apart
    obtain ⟨clearNext, apart⟩ := List.pairwise_cons.mp rest
    have bounds := tiles.packed.inside ⟨start, first⟩ (by simp)
    have boundsNext := tiles.packed.inside ⟨start + first, second⟩ (by simp)
    dsimp only at bounds boundsNext
    constructor
    · refine List.pairwise_cons.mpr ⟨?_, apart⟩
      intro other member
      have away := clear other (List.mem_cons_of_mem _ member)
      have awayNext := clearNext other member
      have something := tiles.some other (by simp [member])
      simp only [Clear] at away awayNext ⊢
      omega
    · intro region member
      rcases List.mem_cons.mp member with rfl | further
      · dsimp only
        omega
      · exact tiles.packed.inside region (by simp [further])
  covers address above below := by
    obtain ⟨region, member, inside⟩ := tiles.covers address above below
    rcases List.mem_cons.mp member with rfl | later
    · refine ⟨_, List.mem_cons_self .., inside.1, ?_⟩
      have under := inside.2
      dsimp only at under ⊢
      omega
    · rcases List.mem_cons.mp later with rfl | further
      · have within : start + first ≤ address ∧ address < start + first + second := inside
        refine ⟨_, List.mem_cons_self .., ?_, ?_⟩
        · dsimp only
          omega
        · dsimp only
          omega
      · exact ⟨region, by simp [further], inside⟩
  some region member := by
    rcases List.mem_cons.mp member with rfl | further
    · have left := tiles.some ⟨start, first⟩ (by simp)
      dsimp only at left ⊢
      omega
    · exact tiles.some region (by simp [further])

/-- No two regions start at the same place. -/
theorem Tiles.starts (tiles : Tiles regions low high) : (regions.map Region.start).Nodup := by
  rw [List.Nodup, List.pairwise_map]
  refine tiles.packed.apart.imp_of_mem ?_
  intro region other member also clear same
  have left := tiles.some region member
  have right := tiles.some other also
  simp only [Clear] at clear
  omega

end Packing

end OsWorkbench.Regions
