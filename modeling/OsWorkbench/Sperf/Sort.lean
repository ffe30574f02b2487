import OsWorkbench.Library.LinkedList
import Mathlib.Order.Nat
import Mathlib.Order.Lattice

/-!
# `sperf.c`: the list of system calls

A bubble sort that exchanges neighbours by their links. `p` is the first of the nodes that are in
their places, or the sentinel `head`; its time of 0 keeps it at the end of the list.
-/

namespace OsWorkbench.Sperf

open LinkedList

variable {N T : Type*} [LinearOrder T]

section Source

variable [DecidableEq N]

/-- `swap`, one assignment after the other. -/
def swap (next : N → N) (p a b : N) : N → N :=
  let next := Function.update next p b
  let next := Function.update next a (next b)
  Function.update next b a

/-- The inner loop of `sort`: the links and `r` at its end. -/
def sortPass (time : N → T) (p : N) : Nat → (N → N) → N → N → Option ((N → N) × N)
  | 0, _, _, _ => none
  | fuel + 1, next, q, r =>
      if q = p then some (next, r)
      else if time q < time (next q) then
        let next := swap next r q (next q)
        sortPass time p fuel next (next r) r
      else sortPass time p fuel next (next q) q

/-- The outer loop of `sort`. -/
def sortLoop (time : N → T) (head : N) (fuel : Nat) : Nat → (N → N) → N → Option (N → N)
  | 0, _, _ => none
  | turns + 1, next, p =>
      if p = next head then some next
      else
        (sortPass time p fuel next (next head) head).bind fun ended =>
          sortLoop time head fuel turns ended.1 ended.2

def sort (time : N → T) (head : N) (fuel : Nat) (next : N → N) : Option (N → N) :=
  sortLoop time head fuel fuel next head

end Source

section Swapping

variable [DecidableEq N] {next : N → N} {head a b : N} {left right : List N}

/-- `swap` takes the second of two nodes out and puts it in before the first one. -/
theorem swap_eq {r : N} (leads : next r = a) (before : r ≠ a) (behind : r ≠ b) :
    swap next r a b = Function.update (Function.update (Function.update next a (next b)) b
      (Function.update next a (next b) r)) r b := by
  rw [swap, Function.update_of_ne behind.symm, Function.update_of_ne before, leads,
    Function.update_comm before, Function.update_comm behind]

/-- `swap` exchanges two neighbours behind `left`. -/
theorem swap_path (path : Path next head (left ++ a :: b :: right) head)
    (distinct : (head :: (left ++ a :: b :: right)).Nodup) :
    Path (swap next (left.getLastD head) a b) head (left ++ b :: a :: right) head := by
  have apart : (head :: left ++ a :: b :: right).Nodup := distinct
  obtain ⟨-, -, cross⟩ := List.nodup_append.mp apart
  have last : left.getLastD head ∈ head :: left := List.getLastD_mem_cons
  have before := cross _ last a List.mem_cons_self
  have behind := cross _ last b (List.mem_cons_of_mem a List.mem_cons_self)
  obtain ⟨front, -⟩ := path_append.mp path
  have whole : left ++ a :: b :: right = left ++ [a] ++ b :: right := List.append_cons left a _
  have removed : Path (Function.update next a (next b)) head (left ++ a :: right) head := by
    rw [whole] at path distinct
    have without := path.remove distinct
    rwa [List.getLastD_concat, ← List.append_cons] at without
  rw [swap_eq front.last before behind]
  have order : (head :: (left ++ a :: b :: right)).Perm (b :: head :: (left ++ a :: right)) := by
    rw [whole, ← List.cons_append, ← List.cons_append]
    refine List.perm_middle.trans ?_
    rw [List.append_cons left a right]
    exact List.Perm.refl _
  obtain ⟨new, rest⟩ := List.nodup_cons.mp (order.nodup distinct)
  exact removed.insert rest new

end Swapping

section Passing

variable {next : N → N} {head a : N} {time : N → T} {visited more front tail nodes : List N}
  {fuel turns : Nat}

/-- The nodes of `tail` are in order, and none of them has more time than one of `front`. -/
structure Settled (time : N → T) (front tail : List N) : Prop where
  below : ∀ x ∈ front, ∀ y ∈ tail, time y ≤ time x
  sorted : tail.Pairwise fun x y => time y ≤ time x

/-- The node that a pass looks at is not the one at which it ends. -/
theorem not_settled (distinct : (head :: (visited ++ a :: (more ++ tail))).Nodup) :
    a ≠ tail.headD head := by
  have order : (head :: (visited ++ a :: (more ++ tail))).Perm
      (a :: head :: (visited ++ (more ++ tail))) := by
    rw [← List.cons_append]
    exact List.perm_middle
  obtain ⟨outside, -⟩ := List.nodup_cons.mp (order.nodup distinct)
  rintro rfl
  cases tail with
  | nil => exact outside List.mem_cons_self
  | cons c tail =>
      refine outside (List.mem_cons_of_mem head ?_)
      exact List.mem_append_right _ (List.mem_append_right _ List.mem_cons_self)

theorem carried_past {c : N} (carried : ∀ x ∈ visited, time a ≤ time x) (past : time a ≤ time c) :
    ∀ x ∈ visited ++ [c], time a ≤ time x := by
  intro x member
  rcases List.mem_append.mp member with old | new
  · exact carried x old
  · obtain rfl := List.mem_singleton.mp new
    exact past

/-- A pass settles one more node. -/
theorem Settled.grow {last : N} (settled : Settled time (a :: more) tail)
    (same : (front ++ [last]).Perm (a :: more)) (under : ∀ x ∈ front, time last ≤ time x) :
    Settled time front (last :: tail) := by
  constructor
  case below =>
    intro x member y listed
    rcases List.mem_cons.mp listed with rfl | old
    · exact under x member
    · exact settled.below x (same.subset (List.mem_append_left _ member)) y old
  case sorted =>
    refine List.pairwise_cons.mpr ⟨fun y member => ?_, settled.sorted⟩
    exact settled.below last (same.subset (List.mem_append_right _ List.mem_cons_self)) y member

variable [DecidableEq N]

/-- A pass takes a node with the least time so far along, and leaves it before `p`. -/
theorem pass_ends (path : Path next head (visited ++ a :: (more ++ tail)) head)
    (distinct : (head :: (visited ++ a :: (more ++ tail))).Nodup)
    (carried : ∀ x ∈ visited, time a ≤ time x)
    (least : ∀ x ∈ a :: more, time (tail.headD head) ≤ time x) (enough : 2 * more.length + 1 < fuel) :
    ∃ next' front last,
      sortPass time (tail.headD head) fuel next a (visited.getLastD head) = some (next', last) ∧
        Path next' head (front ++ last :: tail) head ∧ (front ++ [last]).Perm (visited ++ a :: more) ∧
        ∀ x ∈ front, time last ≤ time x := by
  induction more generalizing next visited a fuel with
  | nil =>
      obtain ⟨fuel, rfl⟩ : ∃ k, fuel = k + 2 := ⟨fuel - 2, by omega⟩
      have leads : next a = tail.headD head := (path_append.mp path).2.first
      have stays : ¬time a < time (next a) := by
        rw [leads]
        exact not_lt_of_ge (least a List.mem_cons_self)
      refine ⟨next, visited, a, ?_, path, List.Perm.refl _, carried⟩
      rw [sortPass, if_neg (not_settled distinct), if_neg stays, sortPass, if_pos leads]
  | cons b more hypothesis =>
      rw [List.length_cons] at enough
      rw [List.cons_append] at path distinct
      obtain ⟨fuel, rfl⟩ : ∃ k, fuel = k + 2 := ⟨fuel - 2, by omega⟩
      have leads : next a = b := (path_append.mp path).2.1
      rw [sortPass, if_neg (@not_settled _ head a visited (b :: more) tail distinct), leads]
      by_cases less : time a < time b
      · -- `b` goes before `a`, and is looked at once more
        have swapped := swap_path path distinct
        have order : (head :: (visited ++ a :: b :: (more ++ tail))).Perm
            (head :: (visited ++ b :: a :: (more ++ tail))) :=
          List.Perm.cons _ (List.Perm.append_left _ (List.Perm.swap b a _))
        have apart := order.nodup distinct
        obtain ⟨before, after⟩ := path_append.mp swapped
        rw [if_pos less]
        dsimp only
        rw [before.last, sortPass, if_neg (@not_settled _ head b visited (a :: more) tail apart),
          after.1, if_neg (not_lt_of_gt less)]
        rw [List.append_cons] at swapped apart
        obtain ⟨next', front, last, ran, ends, same, under⟩ := hypothesis swapped apart
          (carried_past carried (le_of_lt less))
          (fun x member => least x ((List.mem_cons.mp member).elim
            (fun here => here ▸ List.mem_cons_self)
            fun later => List.mem_cons_of_mem a (List.mem_cons_of_mem b later)))
          (show 2 * more.length + 1 < fuel by omega)
        rw [List.getLastD_concat] at ran
        refine ⟨next', front, last, ran, ends, same.trans ?_, under⟩
        rw [← List.append_cons]
        exact List.Perm.append_left _ (List.Perm.swap a b _)
      · rw [List.append_cons] at path distinct
        obtain ⟨next', front, last, ran, ends, same, under⟩ := hypothesis path distinct
          (carried_past (fun x old => le_trans (not_lt.mp less) (carried x old)) (not_lt.mp less))
          (fun x member => least x (List.mem_cons_of_mem a member))
          (show 2 * more.length + 1 < fuel + 1 by omega)
        rw [List.getLastD_concat] at ran
        rw [← List.append_cons] at same
        refine ⟨next', front, last, ?_, ends, same, under⟩
        rw [if_neg less]
        exact ran

theorem loop_ends (path : Path next head (front ++ tail) head)
    (distinct : (head :: (front ++ tail)).Nodup)
    (positive : ∀ x ∈ front, time head ≤ time x) (settled : Settled time front tail)
    (enough : 2 * front.length < fuel) (counted : front.length < turns) :
    ∃ final sorted, sortLoop time head fuel turns next (tail.headD head) = some final ∧
      Path final head sorted head ∧ sorted.Perm (front ++ tail) ∧
        sorted.Pairwise fun x y => time y ≤ time x := by
  induction turns generalizing next front tail with
  | zero => exact absurd counted (Nat.not_lt_zero _)
  | succ turns hypothesis =>
      cases front with
      | nil =>
          refine ⟨next, tail, ?_, path, List.Perm.refl _, settled.sorted⟩
          have first : next head = tail.headD head := Path.first path
          rw [sortLoop, if_pos first.symm]
      | cons a more =>
          rw [List.length_cons] at enough counted
          have least : ∀ x ∈ a :: more, time (tail.headD head) ≤ time x := by
            intro x member
            cases tail with
            | nil => exact positive x member
            | cons c tail => exact settled.below x member c List.mem_cons_self
          have unlike := @not_settled _ head a [] more tail distinct
          obtain ⟨next', front, last, ran, ends, same, under⟩ :=
            @pass_ends _ _ _ next head a time [] more tail fuel _ path distinct
              (fun x member => absurd member List.not_mem_nil) least (by omega)
          have order : (front ++ last :: tail).Perm (a :: more ++ tail) := by
            rw [List.append_cons]
            exact same.append_right tail
          have length := same.length_eq
          rw [List.length_append, List.length_singleton, List.nil_append, List.length_cons] at length
          obtain ⟨final, sorted, did, round, kept, down⟩ := hypothesis ends
            ((order.cons head).symm.nodup distinct)
            (fun x member => positive x (same.subset (List.mem_append_left _ member)))
            (settled.grow same under) (by omega) (by omega)
          refine ⟨final, sorted, ?_, round, kept.trans order, down⟩
          have passed : sortPass time (tail.headD head) fuel next a head = some (next', last) := ran
          rw [sortLoop, path.1, if_neg unlike.symm, passed]
          exact did

end Passing

/-- `sort` ends, with the same nodes in the list, and no node after one with less time. -/
theorem sort_sorts [DecidableEq N] [Zero T] (time : N → T) (head : N) (next : N → N)
    (nodes : List N) (fuel : Nat) (guard : time head = 0) (positive : ∀ x ∈ nodes, 0 ≤ time x)
    (path : Path next head nodes head) (distinct : (head :: nodes).Nodup)
    (enough : 2 * nodes.length < fuel) :
    ∃ final sorted, sort time head fuel next = some final ∧ Path final head sorted head ∧
      sorted.Perm nodes ∧ sorted.Pairwise fun x y => time y ≤ time x := by
  have settled : Settled time nodes [] :=
    ⟨fun _ _ _ member => absurd member List.not_mem_nil, List.Pairwise.nil⟩
  have whole : nodes ++ [] = nodes := List.append_nil nodes
  obtain ⟨final, sorted, ran, round, kept, down⟩ :=
    @loop_ends _ _ _ next head time nodes [] fuel fuel _ (whole.symm ▸ path) (whole.symm ▸ distinct)
      (fun x member => guard ▸ positive x member) settled enough (by omega)
  exact ⟨final, sorted, ran, round, whole ▸ kept, down⟩

theorem sort_sorts_three : ∃ final sorted,
    sort (fun node => [0, 1, 3, 2].getD node 0) 0 8 (fun node => (node + 1) % 4) = some final ∧
      Path final 0 sorted 0 ∧ sorted.Perm [1, 2, 3] ∧
        sorted.Pairwise fun x y => [0, 1, 3, 2].getD y 0 ≤ [0, 1, 3, 2].getD x 0 :=
  sort_sorts (fun node => [0, 1, 3, 2].getD node 0) 0 (fun node => (node + 1) % 4) [1, 2, 3] 8 rfl
    (fun _ _ => Nat.zero_le _) ⟨rfl, rfl, rfl, rfl⟩ (by decide) (by decide)

end OsWorkbench.Sperf
