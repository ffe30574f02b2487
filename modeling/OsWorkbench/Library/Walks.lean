import Mathlib.Tactic.ByContra

/-!
# Walks along names

A node has a list of children with names, of which the first one with a name counts. Taking an entry
out of a list loses what is behind it, and more where other nodes have the same list.
-/

namespace OsWorkbench.Library

section Walks

variable {D N : Type*} [BEq N]

/-- Where a list of names leads to. -/
def walk (children : D → List (N × D)) : D → List N → Option D
  | d, [] => some d
  | d, name :: rest => ((children d).lookup name).bind fun child => walk children child rest

/-- The last step of a walk is from the node `d` to its child `name`. -/
def EndsAt (children : D → List (N × D)) (x : D) (names : List N) (d : D) (name : N) : Prop :=
  ∃ front, names = front ++ [name] ∧ walk children x front = some d

/-- The first entry of a name is taken out of the list that some nodes share. -/
structure Removal (children after : D → List (N × D)) (shares : D → Prop) (d : D) (name : N) (e : D)
    (front back : List (N × D)) : Prop where
  own : shares d
  before : ∀ x, shares x → children x = front ++ (name, e) :: back
  first : name ∉ front.map Prod.fst
  removed : ∀ x, shares x → after x = front ++ back
  others : ∀ x, ¬shares x → after x = children x

/-- The entry `name` of `d` is gone, and every walk that does not end with it leads where it led. -/
structure OnlyRemoves (children after : D → List (N × D)) (starts : D → Prop) (d : D) (name : N) :
    Prop where
  gone : (after d).lookup name = none
  kept : ∀ x names i, starts x → walk children x names = some i → ¬EndsAt children x names d name →
    walk after x names = some i

variable {children after : D → List (N × D)} {shares starts : D → Prop} {d e x i : D} {name other : N}
  {front back : List (N × D)} {names : List N}

theorem walk_cons (children : D → List (N × D)) (x : D) (name : N) (names : List N) :
    walk children x (name :: names) =
      ((children x).lookup name).bind fun child => walk children child names := rfl

theorem EndsAt.cons (found : (children x).lookup other = some e)
    (ends : EndsAt children e names d name) : EndsAt children x (other :: names) d name := by
  obtain ⟨path, rfl, reached⟩ := ends
  refine ⟨other :: path, rfl, ?_⟩
  rw [walk_cons, found]
  exact reached

/-- A walk of one step ends at the node it starts from. -/
theorem ends_at_single : EndsAt children x [other] d name ↔ x = d ∧ other = name := by
  constructor
  · rintro ⟨path, same, reached⟩
    obtain ⟨rfl, single⟩ := List.append_eq_singleton_iff.mp same.symm |>.resolve_right (by simp)
    exact ⟨Option.some.inj reached, (List.singleton_inj.mp single).symm⟩
  · rintro ⟨rfl, rfl⟩
    exact ⟨[], rfl, rfl⟩

variable [LawfulBEq N]

theorem lookup_none_iff {entries : List (N × D)} :
    entries.lookup name = none ↔ name ∉ entries.map Prod.fst := by
  rw [List.lookup_eq_none_iff, List.mem_map]
  constructor
  · rintro none ⟨entry, member, rfl⟩
    exact absurd (none entry member) (by simp)
  · intro none entry member
    simpa using fun same => none ⟨entry, member, same.symm⟩

/-- The first entry of its name is the one that counts. -/
theorem lookup_first (first : name ∉ front.map Prod.fst) :
    (front ++ (name, e) :: back).lookup name = some e := by
  rw [List.lookup_append, lookup_none_iff.mpr first, Option.none_or, List.lookup_cons_self]

/-- Other names do not see the entry. -/
theorem lookup_other (unlike : other ≠ name) :
    (front ++ (name, e) :: back).lookup other = (front ++ back).lookup other := by
  have skipped : (other == name) = false := beq_eq_false_iff_ne.mpr unlike
  rw [List.lookup_append, List.lookup_append, List.lookup_cons, skipped]

theorem lookup_mem {entries : List (N × D)} (found : entries.lookup name = some e) :
    (name, e) ∈ entries := by
  obtain ⟨before, rest, rfl, -⟩ := List.lookup_eq_some_iff.mp found
  exact List.mem_append_right _ List.mem_cons_self

/-- Where the list is the node's own and the lost child has no children, nothing else is lost. -/
theorem Removal.keeps (removal : Removal children after shares d name e front back)
    (alone : ∀ x, shares x → x = d) (last : name ∉ back.map Prod.fst)
    (childless : ∀ child ∈ children e, e = d ∧ child.1 = name)
    (led : walk children x names = some i) (elsewhere : ¬EndsAt children x names d name) :
    walk after x names = some i := by
  have gone : (after d).lookup name = none := by
    rw [removal.removed d removal.own, lookup_none_iff, List.map_append, List.mem_append]
    exact fun either => either.elim removal.first last
  induction names generalizing x with
  | nil => exact led
  | cons other names hypothesis =>
      obtain ⟨child, found, led⟩ := Option.bind_eq_some_iff.mp led
      have onward := hypothesis led fun ends => elsewhere (ends.cons found)
      by_cases same : shares x
      · obtain rfl := alone x same
        by_cases here : other = name
        · subst here
          rw [removal.before x same, lookup_first removal.first] at found
          obtain rfl := Option.some.inj found
          cases names with
          | nil => exact absurd (ends_at_single.mpr ⟨rfl, rfl⟩) elsewhere
          | cons next names =>
              -- the only child is the lost entry itself
              obtain ⟨grandchild, below, -⟩ := Option.bind_eq_some_iff.mp led
              obtain ⟨rfl, rfl⟩ := childless _ (lookup_mem below)
              rw [walk_cons, gone] at onward
              exact nomatch onward
        · rw [removal.before x same, lookup_other here] at found
          rw [walk_cons, removal.removed x same, found]
          exact onward
      · rw [walk_cons, removal.others x same, found]
        exact onward

/-- What is lost with an entry: nothing else exactly if no other node has the list, the list has no
second entry of the name, and the child has no children. -/
theorem Removal.only_removes_iff (removal : Removal children after shares d name e front back)
    (reachable : ∀ x, shares x → starts x) : OnlyRemoves children after starts d name ↔
      (∀ x, shares x → x = d) ∧ name ∉ back.map Prod.fst ∧
        ∀ child ∈ children e, e = d ∧ child.1 = name := by
  have before {x : D} (same : shares x) : (children x).lookup name = some e := by
    rw [removal.before x same]
    exact lookup_first removal.first
  have lost {x : D} (only : OnlyRemoves children after starts d name) (same : shares x) :
      (after x).lookup name = none := by
    rw [removal.removed x same, ← removal.removed d removal.own]
    exact only.gone
  constructor
  · intro only
    refine ⟨fun x same => ?_, ?_, fun child member => ?_⟩
    · by_contra unlike
      have kept := only.kept x [name] e (reachable x same) (by rw [walk_cons, before same]; rfl)
        fun ends => unlike (ends_at_single.mp ends).1
      rw [walk_cons, lost only same] at kept
      exact nomatch kept
    · have gone := only.gone
      rw [removal.removed d removal.own, lookup_none_iff, List.map_append, List.mem_append] at gone
      exact fun member => gone (Or.inr member)
    · by_contra unlike
      obtain ⟨c, found⟩ : ∃ c, (children e).lookup child.1 = some c := by
        rw [← Option.isSome_iff_exists, List.lookup_isSome_iff]
        exact ⟨child, member, by simp⟩
      have led : walk children d [name, child.1] = some c := by
        rw [walk_cons, before removal.own, Option.bind_some, walk_cons, found]
        rfl
      have kept := only.kept d _ c (reachable d removal.own) led ?_
      · rw [walk_cons, only.gone] at kept
        exact nomatch kept
      · rintro ⟨path, same, reached⟩
        have parts : [name] ++ [child.1] = path ++ [name] := same
        obtain ⟨rfl, single⟩ := List.append_inj' parts rfl
        rw [walk_cons, before removal.own] at reached
        exact unlike ⟨Option.some.inj reached, List.singleton_inj.mp single⟩
  · rintro ⟨alone, last, childless⟩
    refine ⟨?_, fun x names i _ led elsewhere => removal.keeps alone last childless led elsewhere⟩
    rw [removal.removed d removal.own, lookup_none_iff, List.map_append, List.mem_append]
    exact fun either => either.elim removal.first last

end Walks

end OsWorkbench.Library
