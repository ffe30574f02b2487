import OsWorkbench.Library.LinkedList
import OsWorkbench.Library.Regions
import OsWorkbench.Library.Runs

/-!
# `alloc.c`

The memory manager on a machine with 32-bit addresses. The headers are kept by their addresses; the
payload that lies between them is not modelled. The lock in `global_alloc` and the closed interrupts
make each call one step, and a step names the CPU it runs on.
-/

namespace OsWorkbench.Kernel

open Library Regions

/-- `struct header`. -/
structure Header where
  next : Nat
  size : Nat
  fence : Nat
  deriving DecidableEq

abbrev Memory := Nat → Header

def sizeofHeader : Nat := 0x10

/-- `PG_SIZE`. -/
def pgSize : Nat := 8 * 2 ^ 10

def u32 (value : Nat) : Nat := value % 2 ^ 32

def sub32 (value less : Nat) : Nat := u32 (value + 2 ^ 32 - less)

/-- `align`. -/
def align (value unit : Nat) : Nat := u32 (value + unit - 1) / unit * unit

/-- What the machine provides: `_ncpu()`, the address of `free_list` and the area `_heap`. The
image of the kernel is below the heap, and the heap has room for one header. -/
structure Boot where
  ncpu : Nat
  freeList : Nat
  heapStart : Nat
  heapEnd : Nat
  image : freeList + ncpu * sizeofHeader ≤ heapStart
  reach : heapStart + pgSize ≤ 2 ^ 32
  room : align heapStart pgSize + sizeofHeader ≤ heapEnd
  word : heapEnd < 2 ^ 32

namespace Boot

def pmStart (boot : Boot) : Nat := align boot.heapStart pgSize

def pmEnd (boot : Boot) : Nat := boot.heapEnd

/-- The block that the pages are cut from. -/
def global (boot : Boot) : Nat := boot.pmStart

/-- `&free_list[cpu]`. -/
def sentinel (boot : Boot) (cpu : Nat) : Nat := boot.freeList + cpu * sizeofHeader

end Boot

section Fields

def setNext (memory : Memory) (p next : Nat) : Memory :=
  Function.update memory p { memory p with next := next }

def setSize (memory : Memory) (p size : Nat) : Memory :=
  Function.update memory p { memory p with size := size }

def setFence (memory : Memory) (p fence : Nat) : Memory :=
  Function.update memory p { memory p with fence := fence }

end Fields

structure Pmm where
  memory : Memory
  allocCnt : Nat
  freeCnt : Nat

def pmmInit (boot : Boot) (memory : Memory) : Pmm :=
  let lists := (List.range boot.ncpu).foldl (fun memory i =>
    setSize (setNext memory (boot.sentinel i) (boot.sentinel i)) (boot.sentinel i) 0) memory
  ⟨setSize (setNext lists boot.global boot.global) boot.global
    (sub32 (sub32 boot.pmEnd boot.pmStart) sizeofHeader), 0, 0⟩

/-- Why a call does not return: `Assert(prevp->next!=NULL)` fails, or a loop ran out of fuel. -/
inductive PmmStop where
  | noSpace
  | fuel
  deriving DecidableEq

/-- The header that is returned is 0 for `NULL`. -/
def globalAllocReal (boot : Boot) (memory : Memory) (size : Nat) : Memory × Nat :=
  let left := (memory boot.global).size
  if left > u32 (size + sizeofHeader) then
    (setSize memory boot.global (sub32 left (u32 (size + sizeofHeader))),
      sub32 (u32 (boot.global + left)) size)
  else (memory, 0)

/-- How the `for` loop of `kalloc_real` ends: at a block to cut, at one to hand out as it is, or at
the end of the list. -/
inductive Scan where
  | cut (p : Nat)
  | whole (prevp p : Nat)
  | missed (prevp : Nat)
  deriving DecidableEq

def scan (memory : Memory) (sentinel size : Nat) : Nat → Nat → Nat → Option Scan
  | 0, _, _ => none
  | fuel + 1, prevp, p =>
      if p = sentinel then some (.missed prevp)
      else if (memory p).size ≥ u32 (size + sizeofHeader) then some (.cut p)
      else if (memory p).size ≥ size then some (.whole prevp p)
      else scan memory sentinel size fuel p (memory p).next

/-- The tail of `p` becomes a block of its own. -/
def cutTail (memory : Memory) (p size : Nat) : Memory × Nat :=
  let ret := sub32 (u32 (p + (memory p).size)) size
  let shrunk := setSize memory p (sub32 (memory p).size (u32 (size + sizeofHeader)))
  (setSize shrunk ret size, ret)

def neededFor (size : Nat) : Nat := if size > pgSize then size else pgSize

/-- A new page behind `prevp`, where the walk has reached the sentinel. -/
def refill (boot : Boot) (memory : Memory) (sentinel prevp size : Nat) : Except PmmStop Memory :=
  let (cut, page) := globalAllocReal boot memory (neededFor size)
  if page = 0 then .error .noSpace
  else .ok (setSize (setNext (setNext cut prevp page) page sentinel) page (neededFor size))

/-- `prevp` is carried over from one walk to the next. No list has more nodes than the heap has
bytes. -/
def kallocLoop (boot : Boot) (cpu size : Nat) :
    Nat → Memory → Nat → Except PmmStop (Memory × Nat)
  | 0, _, _ => .error .fuel
  | rounds + 1, memory, prevp =>
      let sentinel := boot.sentinel cpu
      match scan memory sentinel size (boot.pmEnd + 1) prevp (memory sentinel).next with
      | none => .error .fuel
      | some (.cut p) => .ok (cutTail memory p size)
      | some (.whole prevp p) => .ok (setNext memory prevp (memory p).next, p)
      | some (.missed prevp) => do
          let refilled ← refill boot memory sentinel prevp size
          kallocLoop boot cpu size rounds refilled prevp

def kallocReal (boot : Boot) (memory : Memory) (cpu size : Nat) :
    Except PmmStop (Memory × Nat) :=
  kallocLoop boot cpu (align size 0x10) (boot.pmEnd + 1) memory (boot.sentinel cpu)

def kalloc (boot : Boot) (pmm : Pmm) (cpu size : Nat) : Except PmmStop (Pmm × Nat) := do
  let (memory, p) ← kallocReal boot pmm.memory cpu size
  let fenced := setFence memory p 0x13579ace
  .ok (⟨fenced, u32 (pmm.allocCnt + (fenced p).size), pmm.freeCnt⟩, u32 (p + sizeofHeader))

/-- The walk of `kfree_real`: `prevp` and `p` around the place of the block. -/
def findPlace (memory : Memory) (sentinel ptr : Nat) : Nat → Nat → Nat → Option (Nat × Nat)
  | 0, _, _ => none
  | fuel + 1, prevp, p =>
      if p = sentinel then some (prevp, p)
      else if ptr < u32 (p + sizeofHeader) then some (prevp, p)
      else findPlace memory sentinel ptr fuel p (memory p).next

def endOf (memory : Memory) (p : Nat) : Nat := u32 (u32 (p + sizeofHeader) + (memory p).size)

/-- The freed block is merged with `prevp` or put in behind it. -/
def joinPrev (memory : Memory) (prevp toFree : Nat) : Memory × Nat :=
  if toFree = endOf memory prevp then
    (setSize memory prevp
      (u32 ((memory prevp).size + u32 (sizeofHeader + (memory toFree).size))), prevp)
  else (setNext (setNext memory toFree (memory prevp).next) prevp toFree, toFree)

/-- The block after it is merged with it. -/
def joinNext (memory : Memory) (toFree p : Nat) : Memory :=
  if p = endOf memory toFree then
    let unlinked := setNext memory toFree (memory p).next
    setSize unlinked toFree
      (u32 ((unlinked toFree).size + u32 (sizeofHeader + (unlinked p).size)))
  else memory

def kfreeReal (boot : Boot) (memory : Memory) (cpu ptr : Nat) : Except PmmStop Memory :=
  let sentinel := boot.sentinel cpu
  let toFree := sub32 ptr sizeofHeader
  let alerted := setFence memory toFree 0xeca97531
  match findPlace alerted sentinel ptr (boot.pmEnd + 1) sentinel (alerted sentinel).next with
  | none => .error .fuel
  | some (prevp, p) =>
      let (joined, block) := joinPrev alerted prevp toFree
      .ok (joinNext joined block p)

def kfree (boot : Boot) (pmm : Pmm) (cpu ptr : Nat) : Except PmmStop Pmm :=
  if ptr = 0 then .ok pmm
  else do
    let freed := u32 (pmm.freeCnt + (pmm.memory (sub32 ptr sizeofHeader)).size)
    let memory ← kfreeReal boot pmm.memory cpu ptr
    .ok ⟨memory, pmm.allocCnt, freed⟩

section Use

/-- A pointer that was returned for a request and has not been freed. -/
structure Held where
  ptr : Nat
  request : Nat
  deriving DecidableEq

structure Heap where
  pmm : Pmm
  live : List Held

def heapInit (boot : Boot) (memory : Memory) : Heap := ⟨pmmInit boot memory, []⟩

inductive HeapAct where
  | kalloc (cpu size : Nat)
  | kfree (cpu ptr : Nat)
  deriving DecidableEq

/-- Requests are 32-bit numbers, and only live pointers are freed. -/
def heapStep (boot : Boot) (act : HeapAct) (heap : Heap) : Option Heap :=
  match act with
  | .kalloc cpu size =>
      if cpu < boot.ncpu ∧ size < 2 ^ 32 then
        match kalloc boot heap.pmm cpu size with
        | .ok (pmm, ptr) => some ⟨pmm, ⟨ptr, size⟩ :: heap.live⟩
        | .error _ => none
      else none
  | .kfree cpu ptr =>
      if cpu < boot.ncpu then
        match heap.live.find? fun held => held.ptr = ptr with
        | none => none
        | some held =>
            match kfree boot heap.pmm cpu ptr with
            | .ok pmm => some ⟨pmm, heap.live.erase held⟩
            | .error _ => none
      else none

end Use

end OsWorkbench.Kernel
