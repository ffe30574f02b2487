import OsWorkbench.Library.LinkedList
import OsWorkbench.Library.Runs
import OsWorkbench.Library.SortedInsert
import Mathlib.Data.List.Lex
import Mathlib.Data.UInt

/-!
# `pstree.c`: the sons of a process

`add_sonpro` puts a process or a thread into the list of its parent's sons, which is ordered by name.
A thread whose name is there already is only counted, in eight bits; a count that is zero again is
taken for that of a process.
-/

namespace OsWorkbench.Pstree

open Library LinkedList

/-- `Proc`, without its links and its pid. -/
structure Proc where
  cnt : UInt8
  name : List UInt8

/-- What `info` leads to, with the links of the sons of one parent. -/
structure Sons where
  info : Nat → Proc
  son : Option Nat
  bro : Nat → Option Nat

section Source

/-- `strcmp` of strings without their NULs. -/
def strcmp : List UInt8 → List UInt8 → Int
  | a :: first, b :: second => if a = b then strcmp first second else a.toNat - b.toNat
  | first, second => (first.headD 0).toNat - (second.headD 0).toNat

def alpha (s : Sons) (p1 p2 : Nat) : Int := strcmp (s.info p1).name (s.info p2).name

def count (s : Sons) (pid : Nat) : Sons :=
  { s with info := Function.update s.info pid { s.info pid with cnt := (s.info pid).cnt + 1 } }

/-- The loop of `add_sonpro`: `l` and `r` at its end. -/
def findGap (s : Sons) (pid : Nat) : Nat → Nat → Option Nat → Option (Nat × Option Nat)
  | 0, _, _ => none
  | fuel + 1, l, r =>
      match r with
      | none => some (l, none)
      | some p => if alpha s p pid < 0 then findGap s pid fuel p (s.bro p) else some (l, some p)

/-- A node that counts threads and has the name of the new one. -/
def merges (s : Sons) (pid node : Nat) : Prop := (s.info node).cnt ≠ 0 ∧ alpha s node pid = 0

instance (s : Sons) (pid node : Nat) : Decidable (merges s pid node) :=
  inferInstanceAs (Decidable (_ ∧ _))

def insertAfter (s : Sons) (l pid : Nat) : Sons :=
  { s with bro := Function.update (Function.update s.bro pid (s.bro l)) l (some pid) }

def addSonpro (fuel : Nat) (pid : Nat) (s : Sons) : Option Sons :=
  match s.son with
  | none => some { s with son := some pid }
  | some first =>
      if alpha s first pid > 0 then
        some { s with bro := Function.update s.bro pid (some first), son := some pid }
      else if merges s pid first then some (count s first)
      else
        (findGap s pid fuel first (s.bro first)).map fun gap =>
          match gap.2 with
          | none => insertAfter s gap.1 pid
          | some r => if merges s pid r then count s r else insertAfter s gap.1 pid

/-- A parent without sons. -/
def childless (info : Nat → Proc) : Sons := ⟨info, none, fun _ => none⟩

end Source

section Names

variable {first second : List UInt8}

/-- The characters of a name as numbers, which are ordered alphabetically. -/
def codes (name : List UInt8) : List Nat := name.map UInt8.toNat

theorem live_code {c : UInt8} (live : c ≠ 0) : 0 < c.toNat := by
  refine Nat.pos_of_ne_zero fun zero => live (UInt8.toNat.inj ?_)
  exact zero

/-- `strcmp` compares like the alphabetical order, ... -/
theorem strcmp_lt (ended : 0 ∉ first) (other : 0 ∉ second) :
    strcmp first second < 0 ↔ codes first < codes second := by
  induction first generalizing second with
  | nil =>
      cases second with
      | nil => exact iff_of_false (by decide) (lt_irrefl _)
      | cons b second =>
          have live := live_code (c := b) fun zero => other (zero ▸ List.mem_cons_self)
          refine iff_of_true ?_ (List.nil_lt_cons _ _)
          have value : strcmp [] (b :: second) = 0 - (b.toNat : Int) := rfl
          omega
  | cons a first hypothesis =>
      cases second with
      | nil =>
          refine iff_of_false (fun less => ?_) (List.not_lt_nil _)
          have value : strcmp (a :: first) [] = (a.toNat : Int) - 0 := rfl
          omega
      | cons b second =>
          have order : codes (a :: first) < codes (b :: second) ↔
              a.toNat < b.toNat ∨ a.toNat = b.toNat ∧ codes first < codes second :=
            List.cons_lt_cons_iff
          have code : a.toNat = b.toNat ↔ a = b := UInt8.toNat_inj
          rw [strcmp, order]
          by_cases same : a = b
          · rw [if_pos same, hypothesis (fun member => ended (List.mem_cons_of_mem a member))
              fun member => other (List.mem_cons_of_mem b member)]
            have equal := code.mpr same
            exact ⟨fun less => Or.inr ⟨equal, less⟩, fun either =>
              either.elim (fun less => absurd less (by omega)) And.right⟩
          · rw [if_neg same]
            have unlike := fun equal => same (code.mp equal)
            exact ⟨fun less => Or.inl (by omega), fun either =>
              either.elim (fun less => by omega) fun both => absurd both.1 unlike⟩

/-- ... and tells whether the names are the same. -/
theorem strcmp_zero (ended : 0 ∉ first) (other : 0 ∉ second) :
    strcmp first second = 0 ↔ first = second := by
  induction first generalizing second with
  | nil =>
      cases second with
      | nil => exact iff_of_true rfl rfl
      | cons b second =>
          have live := live_code (c := b) fun zero => other (zero ▸ List.mem_cons_self)
          refine iff_of_false (fun zero => ?_) (List.cons_ne_nil b second).symm
          have value : strcmp [] (b :: second) = 0 - (b.toNat : Int) := rfl
          omega
  | cons a first hypothesis =>
      cases second with
      | nil =>
          have live := live_code (c := a) fun zero => ended (zero ▸ List.mem_cons_self)
          refine iff_of_false (fun zero => ?_) (List.cons_ne_nil a first)
          have value : strcmp (a :: first) [] = (a.toNat : Int) - 0 := rfl
          omega
      | cons b second =>
          rw [strcmp]
          by_cases same : a = b
          · rw [if_pos same, hypothesis (fun member => ended (List.mem_cons_of_mem a member))
              fun member => other (List.mem_cons_of_mem b member), same, List.cons_inj_right]
          · rw [if_neg same]
            refine iff_of_false (fun zero => same ?_) fun equal => same (List.cons.inj equal).1
            exact UInt8.toNat.inj (by omega)

theorem codes_injective (same : codes first = codes second) : first = second :=
  List.map_injective_iff.mpr (fun _ _ => UInt8.toNat.inj) same

theorem strcmp_le (ended : 0 ∉ first) (other : 0 ∉ second) :
    strcmp first second ≤ 0 ↔ codes first ≤ codes second := by
  rw [Int.le_iff_lt_or_eq, strcmp_lt ended other, strcmp_zero ended other, le_iff_lt_or_eq]
  exact or_congr_right ⟨congrArg codes, codes_injective⟩

end Names

section Lists

/-- The links of the list, from the parent and back to `NULL`. -/
def link (s : Sons) : Option Nat → Option Nat
  | none => s.son
  | some pid => s.bro pid

def Braced (name : List UInt8) : Prop := ∃ inner, name = 0x7b :: (inner ++ [0x7d])

/-- What `make_tree` passes to `add_sonpro`: names in braces stand for threads. -/
structure Named (info : Nat → Proc) (pids : List Nat) : Prop where
  distinct : pids.Nodup
  ended : ∀ pid ∈ pids, 0 ∉ (info pid).name
  kinds : ∀ pid ∈ pids, (info pid).cnt = 0 ∧ ¬Braced (info pid).name ∨
    (info pid).cnt = 1 ∧ Braced (info pid).name

def threadsNamed (info : Nat → Proc) (pids : List Nat) (name : List UInt8) : Nat :=
  pids.countP fun pid => (info pid).cnt = 1 ∧ (info pid).name = name

/-- What the list of sons is to be: ordered, with every process once and one node for all threads of
a name. -/
structure Grouped (info : Nat → Proc) (s : Sons) (pids nodes : List Nat) : Prop where
  linked : Path (link s) none (nodes.map some) none
  once : nodes.Nodup
  inside : ∀ node ∈ nodes, node ∈ pids
  sorted : nodes.Pairwise fun first second => alpha s first second ≤ 0
  processes : ∀ pid ∈ pids, (info pid).cnt = 0 → pid ∈ nodes
  threads : ∀ pid ∈ pids, (info pid).cnt = 1 → ∃ node ∈ nodes,
    (info node).name = (info pid).name ∧
      (∀ other ∈ nodes, (info other).name = (info pid).name → other = node) ∧
      (s.info node).cnt.toNat = threadsNamed info pids (info pid).name

/-- The invariant: names stay, processes are not counted, and what is not in the list is untouched. -/
structure Kept (info : Nat → Proc) (s : Sons) (pids nodes : List Nat) : Prop
    extends Grouped info s pids nodes where
  names : ∀ pid, (s.info pid).name = (info pid).name
  plain : ∀ pid, (info pid).cnt = 0 → (s.info pid).cnt = 0
  later : ∀ pid, pid ∉ nodes → s.info pid = info pid ∧ s.bro pid = none

variable {info : Nat → Proc} {s : Sons} {pids nodes : List Nat} {pid node fuel : Nat}

theorem childless_kept (info : Nat → Proc) : Kept info (childless info) [] [] where
  linked := rfl
  once := List.nodup_nil
  inside _ member := absurd member List.not_mem_nil
  sorted := .nil
  processes _ member := absurd member List.not_mem_nil
  threads _ member := absurd member List.not_mem_nil
  names _ := rfl
  plain _ zero := zero
  later _ _ := ⟨rfl, rfl⟩

theorem Named.before {more : List Nat} (named : Named info (pids ++ more)) : Named info pids where
  distinct := (List.nodup_append.mp named.distinct).1
  ended old member := named.ended old (List.mem_append_left more member)
  kinds old member := named.kinds old (List.mem_append_left more member)

theorem Named.last (named : Named info (pids ++ [pid])) : pid ∉ pids ∧ 0 ∉ (info pid).name ∧
    ((info pid).cnt = 0 ∧ ¬Braced (info pid).name ∨ (info pid).cnt = 1 ∧ Braced (info pid).name) := by
  have member : pid ∈ pids ++ [pid] := List.mem_append_right pids List.mem_cons_self
  refine ⟨fun old => ?_, named.ended pid member, named.kinds pid member⟩
  exact (List.nodup_append.mp named.distinct).2.2 pid old pid List.mem_cons_self rfl

/-- Two of the same name are of the same kind. -/
theorem Named.same_kind (named : Named info (pids ++ [pid])) (member : node ∈ pids)
    (same : (info node).name = (info pid).name) : (info node).cnt = (info pid).cnt := by
  have first := named.before.kinds node member
  have second := named.last.2.2
  rw [same] at first
  rcases first with ⟨zero, plain⟩ | ⟨one, braced⟩
  · rcases second with ⟨also, -⟩ | ⟨-, other⟩
    · exact zero.trans also.symm
    · exact absurd other plain
  · rcases second with ⟨-, other⟩ | ⟨also, -⟩
    · exact absurd braced other
    · exact one.trans also.symm

theorem threads_push (info : Nat → Proc) (pids : List Nat) (pid : Nat) (name : List UInt8) :
    threadsNamed info (pids ++ [pid]) name = threadsNamed info pids name +
      if (info pid).cnt = 1 ∧ (info pid).name = name then 1 else 0 := by
  rw [threadsNamed, List.countP_append, List.countP_singleton]
  simp only [decide_eq_true_eq]
  rfl

theorem Kept.alpha_le (kept : Kept info s pids nodes) {first second : Nat}
    (one : 0 ∉ (info first).name) (two : 0 ∉ (info second).name) :
    alpha s first second ≤ 0 ↔ codes (info first).name ≤ codes (info second).name := by
  rw [alpha, kept.names, kept.names]
  exact strcmp_le one two

theorem Kept.alpha_lt (kept : Kept info s pids nodes) {first second : Nat}
    (one : 0 ∉ (info first).name) (two : 0 ∉ (info second).name) :
    alpha s first second < 0 ↔ codes (info first).name < codes (info second).name := by
  rw [alpha, kept.names, kept.names]
  exact strcmp_lt one two

/-- Only nodes of threads are added to. -/
theorem Kept.merges_iff (kept : Kept info s pids nodes) (named : Named info (pids ++ [pid]))
    (member : node ∈ nodes) : merges s pid node ↔
      (info node).cnt = 1 ∧ (info node).name = (info pid).name := by
  have listed := kept.inside node member
  have live : (s.info node).cnt ≠ 0 ↔ (info node).cnt = 1 := by
    rcases named.before.kinds node listed with ⟨zero, -⟩ | ⟨one, -⟩
    · refine iff_of_false (not_not.mpr (kept.plain node zero)) fun one => ?_
      exact absurd (zero.symm.trans one) (by decide)
    · refine iff_of_true (fun zero => ?_) one
      obtain ⟨other, -, -, only, count⟩ := kept.threads node listed one
      rw [← only node member rfl, zero] at count
      have positive : 0 < threadsNamed info pids (info node).name :=
        List.countP_pos_iff.mpr ⟨node, listed, decide_eq_true ⟨one, rfl⟩⟩
      exact absurd count.symm (Nat.pos_iff_ne_zero.mp positive)
  rw [merges, live, alpha, kept.names, kept.names,
    strcmp_zero (named.before.ended node listed) named.last.2.1]

/-- A thread whose name is there is counted. -/
theorem Kept.counted (kept : Kept info s pids nodes) (named : Named info (pids ++ [pid]))
    (member : node ∈ nodes) (thread : (info node).cnt = 1)
    (same : (info node).name = (info pid).name)
    (few : threadsNamed info (pids ++ [pid]) (info pid).name ≤ 255) :
    Kept info (count s node) (pids ++ [pid]) nodes := by
  have listed := kept.inside node member
  have also : (info pid).cnt = 1 := (named.same_kind listed same).symm.trans thread
  have here : (count s node).info node = { s.info node with cnt := (s.info node).cnt + 1 } :=
    Function.update_self ..
  have other {p : Nat} (unlike : p ≠ node) : (count s node).info p = s.info p :=
    Function.update_of_ne unlike _ _
  have names (p : Nat) : ((count s node).info p).name = (info p).name := by
    by_cases equal : p = node
    · rw [equal, here]
      exact kept.names node
    · rw [other equal]
      exact kept.names p
  obtain ⟨lead, first, known, only, number⟩ := kept.threads node listed thread
  obtain rfl := only node member rfl
  have grown : ((s.info node).cnt + 1).toNat = threadsNamed info (pids ++ [pid]) (info pid).name := by
    rw [threads_push, if_pos ⟨also, rfl⟩] at few ⊢
    rw [UInt8.toNat_add, number, same]
    exact Nat.mod_eq_of_lt (Nat.lt_succ_of_le few)
  constructor
  case toGrouped =>
    constructor
    case linked => exact kept.linked
    case once => exact kept.once
    case inside => exact fun p inside => List.mem_append_left [pid] (kept.inside p inside)
    case sorted =>
      refine kept.sorted.imp fun {first second} order => ?_
      rw [alpha, kept.names, kept.names] at order
      rw [alpha, names, names]
      exact order
    case processes =>
      intro p inside zero
      rcases List.mem_append.mp inside with old | new
      · exact kept.processes p old zero
      · obtain rfl := List.mem_singleton.mp new
        exact absurd (zero.symm.trans also) (by decide)
    case threads =>
      intro p inside one
      by_cases equal : (info p).name = (info pid).name
      · refine ⟨node, member, same.trans equal.symm, fun q listed called => ?_, ?_⟩
        · exact only q listed (called.trans (equal.trans same.symm))
        · rw [here, grown, equal]
      · have old : p ∈ pids := by
          refine (List.mem_append.mp inside).resolve_right fun new => equal ?_
          rw [List.mem_singleton.mp new]
        obtain ⟨q, listed, called, single, amount⟩ := kept.threads p old one
        have unlike : q ≠ node := fun here => equal (called.symm.trans (here ▸ same))
        refine ⟨q, listed, called, single, ?_⟩
        rw [other unlike, amount, threads_push, if_neg fun both => equal both.2.symm]
        rfl
  case names => exact names
  case plain =>
    intro p zero
    have unlike : p ≠ node := fun here => absurd (zero.symm.trans (here ▸ thread)) (by decide)
    rw [other unlike]
    exact kept.plain p zero
  case later =>
    intro p outside
    have unlike : p ≠ node := fun here => outside (here ▸ member)
    rw [other unlike]
    exact kept.later p outside

theorem Kept.new (kept : Kept info s pids nodes) (named : Named info (pids ++ [pid])) : pid ∉ nodes :=
  fun member => named.last.1 (kept.inside pid member)

/-- A process, or the first thread of a name, is put into the list. -/
theorem Kept.inserted {left right : List Nat} (kept : Kept info s pids (left ++ right))
    (named : Named info (pids ++ [pid]))
    (absent : (info pid).cnt = 1 → ∀ node ∈ left ++ right, (info node).name ≠ (info pid).name)
    (sorted : (left ++ pid :: right).Pairwise fun first second =>
      codes (info first).name ≤ codes (info second).name)
    {next : Sons} (same : next.info = s.info)
    (links : link next =
      Function.update (Function.update (link s) (some pid) (link s ((left.map some).getLastD none)))
        ((left.map some).getLastD none) (some pid)) :
    Kept info next (pids ++ [pid]) (left ++ pid :: right) := by
  have fresh := kept.new named
  have perm : (left ++ pid :: right).Perm (pid :: (left ++ right)) := List.perm_middle
  have listed {p : Nat} : p ∈ left ++ pid :: right ↔ p = pid ∨ p ∈ left ++ right :=
    perm.mem_iff.trans List.mem_cons
  have inside (p : Nat) (member : p ∈ left ++ pid :: right) : p ∈ pids ++ [pid] := by
    rcases listed.mp member with rfl | old
    · exact List.mem_append_right pids List.mem_cons_self
    · exact List.mem_append_left [pid] (kept.inside p old)
  have names (p : Nat) : (next.info p).name = (info p).name := by
    rw [same]
    exact kept.names p
  constructor
  case toGrouped =>
    constructor
    case linked =>
      have path := kept.linked
      rw [List.map_append] at path
      have distinct : (none :: (left.map some ++ right.map some)).Nodup := by
        rw [← List.map_append]
        refine List.nodup_cons.mpr ⟨fun member => ?_, kept.once.map (Option.some_injective Nat)⟩
        obtain ⟨p, -, equal⟩ := List.mem_map.mp member
        exact absurd equal (Option.some_ne_none p)
      have outside : some pid ∉ none :: (left.map some ++ right.map some) := by
        rw [← List.map_append, List.mem_cons, List.mem_map]
        rintro (equal | ⟨p, member, equal⟩)
        · exact absurd equal (Option.some_ne_none pid)
        · exact fresh (Option.some.inj equal ▸ member)
      have inserted := path.insert distinct outside
      rw [← links] at inserted
      rw [List.map_append, List.map_cons]
      exact inserted
    case once => exact perm.nodup_iff.mpr (List.nodup_cons.mpr ⟨fresh, kept.once⟩)
    case inside => exact inside
    case sorted =>
      refine sorted.imp_of_mem fun {first second} one two order => ?_
      rw [alpha, names, names]
      exact (strcmp_le (named.ended first (inside first one))
        (named.ended second (inside second two))).mpr order
    case processes =>
      intro p member zero
      refine listed.mpr ?_
      rcases List.mem_append.mp member with old | new
      · exact Or.inr (kept.processes p old zero)
      · exact Or.inl (List.mem_singleton.mp new)
    case threads =>
      intro p member one
      by_cases equal : (info p).name = (info pid).name
      · have thread : (info pid).cnt = 1 := by
          rcases List.mem_append.mp member with old | new
          · exact (named.same_kind old equal).symm.trans one
          · rwa [List.mem_singleton.mp new] at one
        have none : threadsNamed info pids (info pid).name = 0 := by
          refine List.countP_eq_zero.mpr fun q old both => ?_
          obtain ⟨also, called⟩ := of_decide_eq_true both
          obtain ⟨node, there, named, -⟩ := kept.threads q old also
          exact absent thread node there (named.trans called)
        refine ⟨pid, listed.mpr (Or.inl rfl), equal.symm, fun q there called => ?_, ?_⟩
        · rcases listed.mp there with rfl | old
          · rfl
          · exact absurd (called.trans equal) (absent thread q old)
        · rw [same, (kept.later pid fresh).1, thread, equal, threads_push, if_pos ⟨thread, rfl⟩, none]
          rfl
      · have old : p ∈ pids := by
          refine (List.mem_append.mp member).resolve_right fun new => equal ?_
          rw [List.mem_singleton.mp new]
        obtain ⟨q, there, called, single, amount⟩ := kept.threads p old one
        refine ⟨q, listed.mpr (Or.inr there), called, fun other inside also => ?_, ?_⟩
        · rcases listed.mp inside with rfl | before
          · exact absurd also.symm equal
          · exact single other before also
        · rw [same, amount, threads_push, if_neg fun both => equal both.2.symm]
          rfl
  case names => exact names
  case plain =>
    intro p zero
    rw [same]
    exact kept.plain p zero
  case later =>
    intro p outside
    have unlike : p ≠ pid := fun equal => outside (listed.mpr (Or.inl equal))
    have untouched := kept.later p fun member => outside (listed.mpr (Or.inr member))
    have apart : some p ≠ (left.map some).getLastD none := by
      intro equal
      rcases List.mem_cons.mp (equal ▸ @List.getLastD_mem_cons _ (left.map some) none) with nothing | member
      · exact absurd nothing (Option.some_ne_none p)
      · obtain ⟨q, there, also⟩ := List.mem_map.mp member
        exact outside (List.mem_append_left _ (Option.some.inj also ▸ there))
    have bro : next.bro p = link next (some p) := rfl
    refine ⟨?_, ?_⟩
    · rw [same]
      exact untouched.1
    · rw [bro, links, Function.update_of_ne apart,
        Function.update_of_ne fun equal => unlike (Option.some.inj equal)]
      exact untouched.2

end Lists

section Steps

variable {info : Nat → Proc} {s : Sons} {pids nodes left right : List Nat} {pid first fuel : Nat}

/-- The test that the search for the place of `pid` goes on with. -/
def below (s : Sons) (pid node : Nat) : Bool := alpha s node pid < 0

theorem find_gap_below {l : Nat} {rest : List Nat}
    (path : Path (link s) (some l) (rest.map some) none) (enough : rest.length < fuel) :
    findGap s pid fuel l (s.bro l) =
      some ((rest.takeWhile (below s pid)).getLastD l, (rest.dropWhile (below s pid)).head?) := by
  induction rest generalizing l fuel with
  | nil =>
      obtain ⟨fuel, rfl⟩ := Nat.exists_eq_add_one.mpr enough
      have ends : s.bro l = none := path
      rw [ends, findGap]
      rfl
  | cons r rest hypothesis =>
      obtain ⟨fuel, rfl⟩ := Nat.exists_eq_add_one.mpr (Nat.zero_lt_of_lt enough)
      have onward : s.bro l = some r := path.1
      rw [onward, findGap]
      by_cases low : alpha s r pid < 0
      · have test : below s pid r = true := decide_eq_true low
        rw [if_pos low, hypothesis path.2 (Nat.lt_of_succ_lt_succ enough),
          List.takeWhile_cons_of_pos test, List.dropWhile_cons_of_pos test, List.getLastD_cons]
      · have test : ¬below s pid r = true := fun passed => low (of_decide_eq_true passed)
        rw [if_neg low, List.takeWhile_cons_of_neg test, List.dropWhile_cons_of_neg test]
        rfl

theorem link_insert_after (s : Sons) (l pid : Nat) : link (insertAfter s l pid) =
    Function.update (Function.update (link s) (some pid) (link s (some l))) (some l) (some pid) := by
  funext p
  cases p with
  | none =>
      rw [Function.update_of_ne (Option.some_ne_none l).symm,
        Function.update_of_ne (Option.some_ne_none pid).symm]
      rfl
  | some p =>
      change (insertAfter s l pid).bro p = _
      rw [insertAfter]
      dsimp only
      by_cases last : p = l
      · rw [last, Function.update_self, Function.update_self]
      · rw [Function.update_of_ne last, Function.update_of_ne fun same => last (Option.some.inj same)]
        by_cases new : p = pid
        · rw [new, Function.update_self, Function.update_self]
          rfl
        · rw [Function.update_of_ne new, Function.update_of_ne fun same => new (Option.some.inj same)]
          rfl

theorem last_some (left : List Nat) (first : Nat) :
    ((first :: left).map some).getLastD none = some (left.getLastD first) := by
  rw [List.map_cons, List.getLastD_cons]
  exact List.getLastD_map

theorem Kept.order (kept : Kept info s pids nodes) (named : Named info pids) :
    nodes.Pairwise fun first second => codes (info first).name ≤ codes (info second).name := by
  refine kept.sorted.imp_of_mem fun {one two} first second order => ?_
  exact (kept.alpha_le (named.ended one (kept.inside one first))
    (named.ended two (kept.inside two second))).mp order

/-- A new head goes before all that have larger names. -/
theorem Kept.headed (kept : Kept info s pids nodes) (named : Named info (pids ++ [pid]))
    (links : ∀ first rest, nodes = first :: rest → alpha s first pid > 0) :
    Kept info { s with bro := Function.update s.bro pid s.son, son := some pid } (pids ++ [pid])
      (pid :: nodes) := by
  have larger (node : Nat) (member : node ∈ nodes) :
      codes (info pid).name < codes (info node).name := by
    cases nodes with
    | nil => exact absurd member List.not_mem_nil
    | cons first rest =>
        have listed := named.before.ended first (kept.inside first List.mem_cons_self)
        have high := links first rest rfl
        have order : ¬codes (info first).name ≤ codes (info pid).name := fun low =>
          absurd ((kept.alpha_le listed named.last.2.1).mpr low) (Int.not_le.mpr high)
        refine lt_of_lt_of_le (lt_of_not_ge order) ?_
        rcases List.mem_cons.mp member with rfl | later
        · exact le_refl _
        · exact (List.pairwise_cons.mp (kept.order named.before)).1 node later
  refine @Kept.inserted info s pids pid [] nodes kept named (fun _ node member same => ?_) ?_ _ rfl ?_
  · exact absurd (congrArg codes same).symm (larger node member).ne
  · exact List.pairwise_cons.mpr ⟨fun node member => (larger node member).le,
      kept.order named.before⟩
  · funext p
    cases p with
    | none => rfl
    | some p =>
        change Function.update s.bro pid s.son p =
          Function.update (Function.update (link s) (some pid) (link s none)) none (some pid) (some p)
        rw [Function.update_of_ne (Option.some_ne_none p)]
        by_cases new : p = pid
        · rw [new, Function.update_self, Function.update_self]
          rfl
        · rw [Function.update_of_ne new, Function.update_of_ne fun same => new (Option.some.inj same)]
          rfl

/-- Where no node is added to, the new one goes behind those with smaller names. -/
theorem Kept.gapped {rest : List Nat} (kept : Kept info s pids (first :: rest))
    (named : Named info (pids ++ [pid])) (low : ¬alpha s first pid > 0) (alone : ¬merges s pid first)
    (gap : ∀ r ∈ (rest.dropWhile (below s pid)).head?, ¬merges s pid r) :
    Kept info (insertAfter s ((rest.takeWhile (below s pid)).getLastD first) pid) (pids ++ [pid])
      (first :: rest.takeWhile (below s pid) ++ pid :: rest.dropWhile (below s pid)) := by
  have ended {node : Nat} (member : node ∈ first :: rest) : 0 ∉ (info node).name :=
    named.before.ended node (kept.inside node member)
  have test {node : Nat} (member : node ∈ rest) :
      below s pid node = true ↔ codes (info node).name < codes (info pid).name :=
    decide_eq_true_iff.trans
      (kept.alpha_lt (ended (List.mem_cons_of_mem first member)) named.last.2.1)
  have high {node : Nat} (member : node ∈ rest) (stopped : below s pid node = false) :
      codes (info pid).name ≤ codes (info node).name := by
    refine le_of_not_gt fun less => ?_
    rw [(test member).mpr less] at stopped
    exact Bool.true_eq_false_eq_False.elim stopped
  have front : codes (info first).name ≤ codes (info pid).name :=
    (kept.alpha_le (ended List.mem_cons_self) named.last.2.1).mp (Int.not_lt.mp low)
  have order := kept.order named.before
  have parts : first :: rest =
      first :: rest.takeWhile (below s pid) ++ rest.dropWhile (below s pid) := by
    rw [List.cons_append, List.takeWhile_append_dropWhile]
  have whole := kept
  rw [parts] at whole
  refine whole.inserted named (fun thread node member same => ?_) ?_ rfl ?_
  · -- A node of the same name would be the first, or the one that the search stops at.
    rw [← parts] at member
    have kind := (named.same_kind (kept.inside node member) same).trans thread
    have joins {r : Nat} (member : r ∈ first :: rest) (same : (info r).name = (info pid).name) :
        merges s pid r :=
      (kept.merges_iff named member).mpr ⟨(named.same_kind (kept.inside r member) same).trans thread, same⟩
    rcases List.mem_cons.mp member with rfl | later
    · exact alone (joins member same)
    · have stopped : below s pid node = false := by
        refine Bool.eq_false_of_not_eq_true fun passed => ?_
        exact absurd (congrArg codes same) ((test later).mp passed).ne
      cases back : rest.dropWhile (below s pid) with
      | nil =>
          have passed := List.dropWhile_eq_nil_iff.mp back node later
          exact Bool.false_ne_true (stopped.symm.trans passed)
      | cons r more =>
          have split : rest = rest.takeWhile (below s pid) ++ r :: more := by
            rw [← back, List.takeWhile_append_dropWhile]
          have stop : below s pid r = false := by
            have head := List.head?_dropWhile_not (below s pid) rest
            rw [back] at head
            exact head
          have inside : r ∈ rest := split ▸ List.mem_append_right _ List.mem_cons_self
          have behind : node ∈ r :: more := by
            rw [split] at later
            refine (List.mem_append.mp later).resolve_left fun early => ?_
            exact Bool.false_ne_true (stopped.symm.trans (List.mem_takeWhile_imp early))
          have ordered := (List.pairwise_cons.mp order).2
          rw [split] at ordered
          have least : codes (info r).name ≤ codes (info node).name := by
            rcases List.mem_cons.mp behind with rfl | after
            · exact le_refl _
            · exact (List.pairwise_cons.mp (List.pairwise_append.mp ordered).2.1).1 node after
          rw [same] at least
          refine gap r (by rw [back]; rfl) (joins (List.mem_cons_of_mem first inside) ?_)
          exact codes_injective (le_antisymm least (high inside stop))
  · refine List.pairwise_cons.mpr ⟨fun node member => ?_, ?_⟩
    · rcases List.mem_cons.mp ((insert_perm (below s pid) rest pid).subset member) with rfl | later
      · exact front
      · exact (List.pairwise_cons.mp order).1 node later
    · apply insert_pairwise (List.pairwise_cons.mp order).2
      · exact fun node member passed => ((test member).mp passed).le
      · exact fun node member stopped => high member stopped
      · intro one early two late less stopped
        refine Bool.eq_false_of_not_eq_true fun passed => ?_
        exact absurd ((test late).mp passed) (not_lt.mpr ((high early stopped).trans less))
  · rw [last_some]
    exact link_insert_after s _ pid

theorem add_sonpro_kept (kept : Kept info s pids nodes) (named : Named info (pids ++ [pid]))
    (few : threadsNamed info (pids ++ [pid]) (info pid).name ≤ 255) (enough : pids.length < fuel) :
    ∃ next more, addSonpro fuel pid s = some next ∧ Kept info next (pids ++ [pid]) more := by
  have joined {node : Nat} (member : node ∈ nodes) (joins : merges s pid node) :
      Kept info (count s node) (pids ++ [pid]) nodes := by
    obtain ⟨thread, same⟩ := (kept.merges_iff named member).mp joins
    exact kept.counted named member thread same few
  have length : nodes.length ≤ pids.length :=
    (List.subperm_of_subset kept.once kept.inside).length_le
  cases nodes with
  | nil =>
      have empty : s.son = none := kept.linked
      have headed := kept.headed named fun first rest links => absurd links (List.cons_ne_nil first rest).symm
      have untouched : Function.update s.bro pid none = s.bro := by
        rw [← (kept.later pid (kept.new named)).2, Function.update_eq_self]
      rw [empty, untouched] at headed
      exact ⟨_, _, by rw [addSonpro, empty], headed⟩
  | cons first rest =>
      have start : s.son = some first := kept.linked.1
      have path : Path (link s) (some first) (rest.map some) none := kept.linked.2
      rw [addSonpro, start]
      dsimp only
      by_cases high : alpha s first pid > 0
      · have headed := kept.headed named fun _ _ links => (List.cons.inj links).1 ▸ high
        rw [start] at headed
        rw [if_pos high]
        exact ⟨_, _, rfl, headed⟩
      by_cases same : merges s pid first
      · rw [if_neg high, if_pos same]
        exact ⟨_, _, rfl, joined List.mem_cons_self same⟩
      rw [if_neg high, if_neg same, find_gap_below path (Nat.lt_of_lt_of_le length enough.le),
        Option.map_some]
      dsimp only
      cases back : (rest.dropWhile (below s pid)).head? with
      | none =>
          refine ⟨_, _, rfl, kept.gapped named high same fun r member => ?_⟩
          rw [back] at member
          exact absurd member (Option.not_mem_none r)
      | some r =>
          dsimp only
          by_cases joins : merges s pid r
          · have inside : r ∈ rest := (List.dropWhile_suffix _).subset (List.mem_of_head? back)
            rw [if_pos joins]
            exact ⟨_, _, rfl, joined (List.mem_cons_of_mem first inside) joins⟩
          · rw [if_neg joins]
            refine ⟨_, _, rfl, kept.gapped named high same fun other member => ?_⟩
            rw [back] at member
            exact Option.some.inj member ▸ joins

theorem threads_named_le (info : Nat → Proc) (pids more : List Nat) (name : List UInt8) :
    threadsNamed info pids name ≤ threadsNamed info (pids ++ more) name := by
  rw [threadsNamed, threadsNamed, List.countP_append]
  exact Nat.le_add_right ..

/-- Any number of calls. -/
theorem add_all_kept (more : List Nat) (kept : Kept info s pids nodes)
    (named : Named info (pids ++ more)) (few : ∀ name, threadsNamed info (pids ++ more) name ≤ 255)
    (enough : pids.length + more.length ≤ fuel) : ∃ final all,
      runSteps (addSonpro fuel) more s = some final ∧ Kept info final (pids ++ more) all := by
  induction more generalizing s pids nodes with
  | nil => exact ⟨s, nodes, rfl, by rwa [List.append_nil]⟩
  | cons pid more hypothesis =>
      have shift : pids ++ pid :: more = pids ++ [pid] ++ more := by
        rw [List.append_assoc, List.singleton_append]
      rw [List.length_cons] at enough
      rw [shift] at named few ⊢
      obtain ⟨next, between, added, further⟩ := add_sonpro_kept kept named.before
        ((threads_named_le info _ more _).trans (few (info pid).name))
        (show pids.length < fuel by omega)
      obtain ⟨final, all, ran, held⟩ := hypothesis further named few
        (by rw [List.length_append, List.length_singleton]; omega)
      exact ⟨final, all, by rw [runSteps, added, Option.bind_some, ran], held⟩

end Steps

/-- The list of sons is ordered, with every process once and the threads of a name counted in one
node, if and only if no more than 255 threads have one name. -/
theorem siblings_grouped (info : Nat → Proc) (pids : List Nat) (named : Named info pids) :
    (∃ fuel final nodes, runSteps (addSonpro fuel) pids (childless info) = some final ∧
      Grouped info final pids nodes) ↔ ∀ name, threadsNamed info pids name ≤ 255 := by
  constructor
  · rintro ⟨fuel, final, nodes, -, grouped⟩ name
    rcases Nat.eq_zero_or_pos (threadsNamed info pids name) with none | some
    · omega
    · obtain ⟨pid, member, test⟩ := List.countP_pos_iff.mp some
      obtain ⟨thread, rfl⟩ := of_decide_eq_true test
      obtain ⟨node, -, -, -, number⟩ := grouped.threads pid member thread
      rw [← number]
      exact Nat.le_of_lt_succ (final.info node).cnt.toNat_lt
  · intro few
    obtain ⟨final, nodes, ran, kept⟩ := @add_all_kept info (childless info) [] [] pids.length pids
      (childless_kept info) named few (by rw [List.length_nil, Nat.zero_add])
    exact ⟨pids.length, final, nodes, ran, kept.toGrouped⟩

/-- A process and two threads. -/
def family (pid : Nat) : Proc := if pid = 1 then ⟨0, [0x73, 0x68]⟩ else ⟨1, [0x7b, 0x73, 0x68, 0x7d]⟩

theorem siblings_grouped_family :
    (∃ fuel final nodes, runSteps (addSonpro fuel) [2, 1, 3] (childless family) = some final ∧
      Grouped family final [2, 1, 3] nodes) ↔ ∀ name, threadsNamed family [2, 1, 3] name ≤ 255 :=
  siblings_grouped family [2, 1, 3]
    { distinct := by decide
      ended := by decide
      kinds := by
        have process : ¬Braced (family 1).name := by
          rintro ⟨inner, equal⟩
          exact absurd (List.cons.inj equal).1 (by decide)
        have thread (pid : Nat) (other : pid ≠ 1) : (family pid).cnt = 1 ∧ Braced (family pid).name := by
          rw [family, if_neg other]
          exact ⟨rfl, [0x73, 0x68], rfl⟩
        intro pid member
        by_cases one : pid = 1
        · exact Or.inl (one ▸ ⟨rfl, process⟩)
        · exact Or.inr (thread pid one) }

/-- Of 256 threads with one name the count is zero again. -/
theorem siblings_not_grouped : Named (fun _ => ⟨1, [0x7b, 0x78, 0x7d]⟩) (List.range 256) ∧
    ¬∃ fuel final nodes, runSteps (addSonpro fuel) (List.range 256)
        (childless fun _ => ⟨1, [0x7b, 0x78, 0x7d]⟩) = some final ∧
      Grouped (fun _ => ⟨1, [0x7b, 0x78, 0x7d]⟩) final (List.range 256) nodes := by
  refine ⟨⟨List.nodup_range, fun _ _ => by decide, fun _ _ => Or.inr ⟨rfl, [0x78], rfl⟩⟩, ?_⟩
  rintro ⟨fuel, final, nodes, -, grouped⟩
  obtain ⟨node, -, -, -, number⟩ := grouped.threads 0 (List.mem_range.mpr (by decide)) rfl
  have all : threadsNamed (fun _ => ⟨1, [0x7b, 0x78, 0x7d]⟩) (List.range 256) [0x7b, 0x78, 0x7d] = 256 := by
    refine (List.countP_eq_length.mpr fun _ _ => ?_).trans List.length_range
    exact decide_eq_true ⟨rfl, rfl⟩
  have bound := (final.info node).cnt.toNat_lt
  rw [number, all] at bound
  exact absurd bound (by decide)

end OsWorkbench.Pstree
