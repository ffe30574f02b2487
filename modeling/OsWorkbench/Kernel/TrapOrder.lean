import OsWorkbench.Library.LinkedList
import OsWorkbench.Library.Runs
import OsWorkbench.Library.SortedInsert
import Mathlib.Data.Int.Order.Basic
import Mathlib.Algebra.Group.Int.Defs

/-!
# `os.c`: registering handlers and dispatching traps

The handlers stand in a circular list. A new one goes before the first whose `seq` is larger, at the
latest before the guard, so the list is ordered by `seq` and handlers with the same `seq` stay in the
order of their registration. What a handler does to the rest of the kernel is a parameter.
-/

namespace OsWorkbench.Kernel

open Library LinkedList

/-- `irq_handler`, without its link. -/
structure Irq (H : Type) where
  seq : Int
  event : Int
  handler : H

/-- The memory of the list: what stands at an address, and its link. -/
structure IrqMemory (A H : Type) where
  node : A → Irq H
  next : A → A

def eventNull : Int := 0

section Source

variable {A H E C S : Type} [DecidableEq A]

/-- `irq_guard`, at its address. -/
def irqGuard (guard : A) (handler : H) (memory : IrqMemory A H) : IrqMemory A H where
  node := Function.update memory.node guard ⟨-2 ^ 31, -1, handler⟩
  next := Function.update memory.next guard guard

/-- The loop of `os_on_irq`: `prev` and `p` at its end. -/
def findNext (guard : A) (memory : IrqMemory A H) (seq : Int) : Nat → A → A → Option (A × A)
  | 0, _, _ => none
  | fuel + 1, prev, p =>
      if (memory.node p).seq > seq ∨ p = guard then some (prev, p)
      else findNext guard memory seq fuel p (memory.next p)

/-- `os_on_irq`, with the address that the allocator gives. -/
def osOnIrq (guard : A) (fuel : Nat) (irq : Irq H) (new : A) (memory : IrqMemory A H) :
    Option (IrqMemory A H) :=
  (findNext guard memory irq.seq fuel guard (memory.next guard)).map fun place =>
    let linked := Function.update memory.next place.1 new
    ⟨Function.update memory.node new irq, Function.update linked new place.2⟩

/-- The handlers that were called with what they returned, `ret`, and the rest of the kernel. -/
structure TrapRun (H C S : Type) where
  calls : List (H × Option C)
  ret : C
  kernel : S

variable (run : H → E → C → S → Option C × S) (eventOf : E → Int) (ev : E) (context : C)

/-- The loop of `os_trap`. -/
def trapLoop (guard : A) (memory : IrqMemory A H) : Nat → A → TrapRun H C S → Option (TrapRun H C S)
  | 0, _, _ => none
  | fuel + 1, handler, trap =>
      if handler = guard then some trap
      else
        let irq := memory.node handler
        if irq.event = eventNull ∨ irq.event = eventOf ev then
          let next := run irq.handler ev context trap.kernel
          trapLoop guard memory fuel (memory.next handler)
            ⟨trap.calls ++ [(irq.handler, next.1)], next.1.getD trap.ret, next.2⟩
        else trapLoop guard memory fuel (memory.next handler) trap

def osTrap (guard : A) (fuel : Nat) (memory : IrqMemory A H) (kernel : S) :
    Option (TrapRun H C S) :=
  trapLoop run eventOf ev context guard memory fuel (memory.next guard) ⟨[], context, kernel⟩

end Source

section Order

variable {H : Type}

/-- Two registrations, with their numbers, in the order in which their handlers run. -/
def Before (first second : Irq H × Nat) : Prop :=
  first.1.seq < second.1.seq ∨ first.1.seq = second.1.seq ∧ first.2 < second.2

/-- The handlers that an event is to run: those registered for it or for every event, each once for
each registration, by `seq` and then by registration. -/
structure Dispatched (regs : List (Irq H)) (event : Int) (ran : List (Irq H × Nat)) : Prop where
  each : ran.Perm (regs.zipIdx.filter fun reg => reg.1.event = eventNull ∨ reg.1.event = event)
  order : ran.Pairwise Before

/-- The test that the search for the place of a new handler goes on with. -/
def passes (seq : Int) (irq : Irq H) : Bool := irq.seq ≤ seq

variable {order : List (Irq H × Nat)} {irq : Irq H} {index : Nat}

theorem insert_before (sorted : order.Pairwise Before) (older : ∀ reg ∈ order, reg.2 < index) :
    (order.takeWhile (fun reg => passes irq.seq reg.1) ++
      (irq, index) :: order.dropWhile (fun reg => passes irq.seq reg.1)).Pairwise Before := by
  apply insert_pairwise sorted
  · intro reg member low
    have order : reg.1.seq ≤ irq.seq := of_decide_eq_true low
    rcases Int.lt_or_eq_of_le order with less | same
    · exact Or.inl less
    · exact Or.inr ⟨same, older reg member⟩
  · intro reg member high
    have order : ¬reg.1.seq ≤ irq.seq := of_decide_eq_false high
    exact Or.inl (Int.not_le.mp order)
  · intro first _ second _ before high
    have order : ¬first.1.seq ≤ irq.seq := of_decide_eq_false high
    refine decide_eq_false fun low => order ?_
    rcases before with less | ⟨same, -⟩
    · exact Int.le_trans (Int.le_of_lt less) low
    · exact same ▸ low

end Order

section Ring

variable {A H : Type} {guard prev : A} {memory : IrqMemory A H} {nodes : List A}
  {regs : List (Irq H)} {fuel : Nat}

/-- The list holds the handlers that were registered, in order. -/
structure Ringed (guard : A) (memory : IrqMemory A H) (regs : List (Irq H)) (nodes : List A) : Prop where
  path : Path memory.next guard nodes guard
  distinct : (guard :: nodes).Nodup
  order : ∃ order : List (Irq H × Nat), nodes.map memory.node = order.map Prod.fst ∧
    order.Perm regs.zipIdx ∧ order.Pairwise Before

theorem Ringed.length (ringed : Ringed guard memory regs nodes) : nodes.length = regs.length := by
  obtain ⟨order, same, each, -⟩ := ringed.order
  have first := congrArg List.length same
  have second := each.length_eq
  rw [List.length_map, List.length_map] at first
  rw [List.length_zipIdx] at second
  exact first.trans second

variable [DecidableEq A]

/-- The search goes on behind the nodes that pass the test. -/
theorem find_next_passes {seq : Int} (path : Path memory.next prev nodes guard) (apart : guard ∉ nodes)
    (enough : nodes.length < fuel) : findNext guard memory seq fuel prev (memory.next prev) =
      some ((nodes.takeWhile fun a => passes seq (memory.node a)).getLastD prev,
        (nodes.dropWhile fun a => passes seq (memory.node a)).headD guard) := by
  induction nodes generalizing prev fuel with
  | nil =>
      obtain ⟨fuel, rfl⟩ := Nat.exists_eq_add_one.mpr enough
      have ends : memory.next prev = guard := path
      rw [findNext, if_pos (Or.inr ends), ends]
      rfl
  | cons c rest hypothesis =>
      obtain ⟨fuel, rfl⟩ := Nat.exists_eq_add_one.mpr (Nat.zero_lt_of_lt enough)
      have first : memory.next prev = c := path.1
      have other : c ≠ guard := fun same => apart (same ▸ List.mem_cons_self)
      rw [findNext, first]
      by_cases low : (memory.node c).seq ≤ seq
      · have test : passes seq (memory.node c) = true := decide_eq_true low
        rw [if_neg (not_or.mpr ⟨Int.not_lt.mpr low, other⟩),
          hypothesis path.2 (fun member => apart (List.mem_cons_of_mem c member))
            (Nat.lt_of_succ_lt_succ enough),
          List.takeWhile_cons, List.dropWhile_cons, if_pos test, if_pos test, List.getLastD_cons]
      · have test : passes seq (memory.node c) = false := decide_eq_false low
        rw [if_pos (Or.inl (Int.not_le.mp low)), List.takeWhile_cons, List.dropWhile_cons, test]
        rfl

theorem irq_guard_ringed (guard : A) (handler : H) (memory : IrqMemory A H) :
    Ringed guard (irqGuard guard handler memory) [] [] where
  path := Function.update_self ..
  distinct := List.nodup_singleton guard
  order := ⟨[], rfl, .nil, .nil⟩

/-- One more registration. -/
theorem on_irq_ringed (ringed : Ringed guard memory regs nodes) {new : A} (fresh : new ∉ guard :: nodes)
    (irq : Irq H) (enough : regs.length < fuel) : ∃ next left right,
      osOnIrq guard fuel irq new memory = some next ∧ nodes = left ++ right ∧
        Ringed guard next (regs ++ [irq]) (left ++ new :: right) := by
  obtain ⟨order, same, each, sorted⟩ := ringed.order
  have apart : guard ∉ nodes := (List.nodup_cons.mp ringed.distinct).1
  have place := @find_next_passes A H guard guard memory nodes fuel _ irq.seq ringed.path apart
    (ringed.length ▸ enough)
  obtain ⟨left, leftIs⟩ : ∃ left, left = nodes.takeWhile fun a => passes irq.seq (memory.node a) :=
    ⟨_, rfl⟩
  obtain ⟨right, rightIs⟩ : ∃ right, right = nodes.dropWhile fun a => passes irq.seq (memory.node a) :=
    ⟨_, rfl⟩
  have parts : nodes = left ++ right := by rw [leftIs, rightIs, List.takeWhile_append_dropWhile]
  rw [← leftIs, ← rightIs] at place
  have path := ringed.path
  have distinct := ringed.distinct
  rw [parts] at path distinct fresh
  have last : memory.next (left.getLastD guard) = right.headD guard := by
    cases right with
    | nil =>
        rw [List.append_nil] at path
        exact path.last
    | cons c rest => exact (path_append.mp path).1.last
  have unlike : left.getLastD guard ≠ new := by
    intro equal
    have member := @List.getLastD_mem_cons _ left guard
    rw [equal] at member
    exact fresh (List.mem_append_left right member)
  have inserted := path.insert distinct fresh
  rw [last, Function.update_comm unlike.symm] at inserted
  refine ⟨_, left, right, by rw [osOnIrq, place, Option.map_some], parts, inserted, ?_, ?_⟩
  · have moved : (guard :: (left ++ new :: right)).Perm (new :: guard :: (left ++ right)) :=
      (List.perm_middle.cons guard).trans (List.Perm.swap new guard _)
    exact moved.nodup_iff.mpr (List.nodup_cons.mpr ⟨fresh, distinct⟩)
  · refine ⟨order.takeWhile (fun reg => passes irq.seq reg.1) ++
      (irq, regs.length) :: order.dropWhile (fun reg => passes irq.seq reg.1), ?_, ?_, ?_⟩
    · have kept {part : List A} (inside : ∀ a ∈ part, a ∈ left ++ right) :
          part.map (Function.update memory.node new irq) = part.map memory.node := by
        refine List.map_congr_left fun a member => Function.update_of_ne ?_ _ _
        rintro rfl
        exact fresh (List.mem_cons_of_mem guard (inside a member))
      have front : left.map memory.node =
          (order.takeWhile fun reg => passes irq.seq reg.1).map Prod.fst := by
        have mapped := congrArg (List.takeWhile (passes irq.seq)) same
        rw [List.takeWhile_map, List.takeWhile_map] at mapped
        rw [leftIs]
        exact mapped
      have back : right.map memory.node =
          (order.dropWhile fun reg => passes irq.seq reg.1).map Prod.fst := by
        have mapped := congrArg (List.dropWhile (passes irq.seq)) same
        rw [List.dropWhile_map, List.dropWhile_map] at mapped
        rw [rightIs]
        exact mapped
      dsimp only
      rw [List.map_append, List.map_cons, Function.update_self, List.map_append, List.map_cons, ← front,
        ← back, kept fun a member => List.mem_append_left right member,
        kept fun a member => List.mem_append_right left member]
    · rw [List.zipIdx_append, Nat.zero_add]
      refine (insert_perm _ order _).trans ?_
      exact (each.cons _).trans (List.perm_append_singleton _ _).symm
    · refine insert_before sorted fun reg member => ?_
      have listed := each.subset member
      exact (List.snd_lt_of_mem_zipIdx listed)

/-- Any number of registrations, each at a new address. -/
theorem register_ringed (more : List (Irq H × A)) (ringed : Ringed guard memory regs nodes)
    (distinct : (guard :: (nodes ++ more.map Prod.snd)).Nodup)
    (enough : regs.length + more.length ≤ fuel) : ∃ table all,
      runSteps (fun reg => osOnIrq guard fuel reg.1 reg.2) more memory = some table ∧
        Ringed guard table (regs ++ more.map Prod.fst) all := by
  induction more generalizing memory regs nodes with
  | nil => exact ⟨memory, nodes, rfl, by rwa [List.map_nil, List.append_nil]⟩
  | cons reg more hypothesis =>
      obtain ⟨irq, new⟩ := reg
      rw [List.map_cons] at distinct
      have moved : (guard :: (nodes ++ new :: more.map Prod.snd)).Perm
          (new :: guard :: (nodes ++ more.map Prod.snd)) :=
        (List.perm_middle.cons guard).trans (List.Perm.swap new guard _)
      have fresh := (List.nodup_cons.mp (moved.nodup_iff.mp distinct)).1
      obtain ⟨next, left, right, registered, rfl, further⟩ := @on_irq_ringed _ _ _ _ _ _ fuel _ ringed new
        (fun member => fresh (List.mem_append_left (more.map Prod.snd) member)) irq
        (by rw [List.length_cons] at enough; omega)
      have placed : (guard :: (left ++ new :: right ++ more.map Prod.snd)).Nodup := by
        refine List.Perm.nodup_iff ?_ |>.mpr distinct
        refine List.Perm.cons guard ?_
        rw [List.append_assoc, List.append_assoc, List.cons_append]
        refine List.Perm.append_left left ?_
        exact List.perm_middle.symm
      obtain ⟨table, all, ran, final⟩ := hypothesis further placed (by
        rw [List.length_append, List.length_singleton]
        rw [List.length_cons] at enough
        omega)
      refine ⟨table, all, ?_, ?_⟩
      · rw [runSteps]
        dsimp only
        rw [registered, Option.bind_some, ran]
      · rwa [List.append_assoc] at final

end Ring

section Traps

variable {A H E C S : Type} [DecidableEq A] (run : H → E → C → S → Option C × S) (eventOf : E → Int)
  (ev : E) (context : C)

/-- Handlers that are called one after the other, with what they return. -/
def callAll : List H → S → List (H × Option C) × S
  | [], kernel => ([], kernel)
  | handler :: rest, kernel =>
      let next := run handler ev context kernel
      let more := callAll rest next.2
      ((handler, next.1) :: more.1, more.2)

/-- The last result that is not `NULL`, or the context that is there already. -/
def lastResult (calls : List (H × Option C)) (ret : C) : C := (calls.filterMap Prod.snd).getLastD ret

theorem last_result_cons (handler : H) (result : Option C) (calls : List (H × Option C)) (ret : C) :
    lastResult ((handler, result) :: calls) ret = lastResult calls (result.getD ret) := by
  cases result with
  | none => rfl
  | some next => exact List.getLastD_cons

/-- The loop calls the handlers that match, in the order of the list. -/
theorem trap_loop_calls {guard prev : A} {memory : IrqMemory A H} {nodes : List A} {fuel : Nat}
    (path : Path memory.next prev nodes guard) (apart : guard ∉ nodes) (enough : nodes.length < fuel)
    (trap : TrapRun H C S) :
    trapLoop run eventOf ev context guard memory fuel (memory.next prev) trap =
      some (
        let called := callAll run ev context (((nodes.map memory.node).filter fun irq =>
          irq.event = eventNull ∨ irq.event = eventOf ev).map Irq.handler) trap.kernel
        ⟨trap.calls ++ called.1, lastResult called.1 trap.ret, called.2⟩) := by
  induction nodes generalizing prev fuel trap with
  | nil =>
      obtain ⟨fuel, rfl⟩ := Nat.exists_eq_add_one.mpr enough
      have ends : memory.next prev = guard := path
      have calls : trap.calls ++ [] = trap.calls := List.append_nil _
      rw [trapLoop, if_pos ends]
      change some trap = some ⟨trap.calls ++ [], trap.ret, trap.kernel⟩
      rw [calls]
  | cons c rest hypothesis =>
      obtain ⟨fuel, rfl⟩ := Nat.exists_eq_add_one.mpr (Nat.zero_lt_of_lt enough)
      have first : memory.next prev = c := path.1
      have other : c ≠ guard := fun same => apart (same ▸ List.mem_cons_self)
      have later := fun member => apart (List.mem_cons_of_mem c member)
      have less := Nat.lt_of_succ_lt_succ enough
      rw [trapLoop, first, if_neg other]
      dsimp only
      split
      next matched =>
        rw [hypothesis path.2 later less, List.map_cons, List.filter_cons,
          if_pos (decide_eq_true matched), List.map_cons, callAll]
        dsimp only
        rw [last_result_cons, List.append_assoc, List.singleton_append]
      next ignored =>
        rw [hypothesis path.2 later less, List.map_cons, List.filter_cons,
          if_neg fun matched => ignored (of_decide_eq_true matched)]

end Traps

/-- After any registrations a trap calls the handlers registered for its event or for every event, each
once for each registration, in increasing `seq` and then in the order of registration, and returns the
last result that is not `NULL`. -/
theorem trap_dispatch {A H E C S : Type} [DecidableEq A] (guard : A) (handler : H)
    (memory : IrqMemory A H) (regs : List (Irq H × A)) (fuel : Nat)
    (distinct : (guard :: regs.map Prod.snd).Nodup) (enough : regs.length < fuel) : ∃ table,
      runSteps (fun reg => osOnIrq guard fuel reg.1 reg.2) regs (irqGuard guard handler memory) =
        some table ∧
      ∀ (run : H → E → C → S → Option C × S) (eventOf : E → Int) (ev : E) (context : C) (kernel : S),
        ∃ ran, Dispatched (regs.map Prod.fst) (eventOf ev) ran ∧
          osTrap run eventOf ev context guard fuel table kernel = some (
            let called := callAll run ev context (ran.map fun reg => reg.1.handler) kernel
            ⟨called.1, lastResult called.1 context, called.2⟩) := by
  obtain ⟨table, nodes, registered, ringed⟩ := @register_ringed A H guard
    (irqGuard guard handler memory) [] [] fuel _ regs (irq_guard_ringed guard handler memory) distinct
    (by rw [List.length_nil]; omega)
  refine ⟨table, registered, fun run eventOf ev context kernel => ?_⟩
  obtain ⟨order, same, each, sorted⟩ := ringed.order
  rw [List.nil_append] at each
  refine ⟨order.filter fun reg => reg.1.event = eventNull ∨ reg.1.event = eventOf ev,
    ⟨each.filter _, sorted.filter _⟩, ?_⟩
  have apart := (List.nodup_cons.mp ringed.distinct).1
  have length : nodes.length < fuel := by
    rw [ringed.length, List.nil_append, List.length_map]
    exact enough
  have handlers : ((nodes.map table.node).filter fun irq =>
      irq.event = eventNull ∨ irq.event = eventOf ev).map Irq.handler =
        (order.filter fun reg => reg.1.event = eventNull ∨ reg.1.event = eventOf ev).map
          fun reg => reg.1.handler := by
    rw [same, List.filter_map, List.map_map]
    rfl
  have calls := trap_loop_calls run eventOf ev context ringed.path apart length ⟨[], context, kernel⟩
  rw [handlers] at calls
  exact calls

/-- The three registrations of `kmt_init`, and one of an input device. -/
def kernelIrqs : List (Irq String × Nat) :=
  [(⟨-2 ^ 31, 0, "save"⟩, 1), (⟨2 ^ 31 - 1, 0, "switch"⟩, 2), (⟨2 ^ 31 - 1, 0, "clean"⟩, 3),
    (⟨0, 4, "input"⟩, 4)]

theorem trap_dispatch_kernel : ∃ table,
    runSteps (fun reg => osOnIrq 0 5 reg.1 reg.2) kernelIrqs
      (irqGuard 0 "guard" ⟨fun _ => ⟨0, 0, ""⟩, fun _ => 0⟩) = some table ∧
    ∀ (run : String → Int → Nat → Unit → Option Nat × Unit) (eventOf : Int → Int) (ev : Int)
      (context : Nat) (kernel : Unit), ∃ ran, Dispatched (kernelIrqs.map Prod.fst) (eventOf ev) ran ∧
        osTrap run eventOf ev context 0 5 table kernel = some (
          let called := callAll run ev context (ran.map fun reg => reg.1.handler) kernel
          ⟨called.1, lastResult called.1 context, called.2⟩) :=
  trap_dispatch 0 "guard" ⟨fun _ => ⟨0, 0, ""⟩, fun _ => 0⟩ kernelIrqs 5 (by decide) (by decide)

end OsWorkbench.Kernel
