import OsWorkbench.Library.Stacks

/-!
# `cte.c` and `cte_trap.S`

What happens to the registers of a CPU between an interrupt and the return from it. The handlers
themselves stand in the kernel; `irq_handle` calls them between the two halves here. The event that it
makes of the interrupt's number is left out.
-/

namespace OsWorkbench.Am

open Library

section Source

/-- What the running code sees of a CPU. -/
structure Regs where
  eax : BitVec 32
  ebx : BitVec 32
  ecx : BitVec 32
  edx : BitVec 32
  esi : BitVec 32
  edi : BitVec 32
  ebp : BitVec 32
  esp : BitVec 32
  eip : BitVec 32
  eflags : BitVec 32
  cs : BitVec 16
  ds : BitVec 16
  es : BitVec 16
  deriving DecidableEq

/-- A CPU: besides the registers its stack segment, `CPU->prot`, the page directory, and the stack
that its task state segment gives for interrupts of user code. -/
structure Cpu where
  regs : Regs
  ss : BitVec 16
  prot : BitVec 32
  cr3 : BitVec 32
  ss0 : BitVec 32
  esp0 : BitVec 32

/-- `_Context`. -/
structure Context where
  prot : BitVec 32
  eax : BitVec 32
  ebx : BitVec 32
  ecx : BitVec 32
  edx : BitVec 32
  esi : BitVec 32
  edi : BitVec 32
  ebp : BitVec 32
  esp3 : BitVec 32
  eip : BitVec 32
  eflags : BitVec 32
  cs : BitVec 32
  ds : BitVec 32
  es : BitVec 32
  ss : BitVec 32
  ss0 : BitVec 32
  esp0 : BitVec 32

def dplUser : BitVec 32 := 3
def kselKcode : BitVec 32 := 8
def kselKdata : BitVec 32 := 16
def flIf : BitVec 32 := 0x200

/-- `tf->cs & DPL_USER`, the test for code that does not run in the kernel. -/
def isUser (cs : BitVec 32) : Bool := decide (cs &&& dplUser ≠ 0)

/-- What the CPU pushes at an interrupt. -/
def interruptWords (regs : Regs) (ss : BitVec 16) : List (BitVec 32) :=
  (if isUser (regs.cs.setWidth 32) then [ss.setWidth 32, regs.esp] else []) ++
    [regs.eflags, regs.cs.setWidth 32, regs.eip]

/-- What the entry of the interrupt and `trap` push: `pushal` pushes the stack pointer it finds. -/
def trapWords (err irq esp : BitVec 32) (regs : Regs) : List (BitVec 32) :=
  [err, irq, regs.ds.setWidth 32, regs.es.setWidth 32, regs.eax, regs.ecx, regs.edx, regs.ebx, esp,
    regs.ebp, regs.esi, regs.edi]

/-- The interrupt up to the call of `irq_handle`: the memory, and the argument `tf`. -/
def interrupt (err irq : BitVec 32) (cpu : Cpu) (ram : Ram) : Ram × BitVec 32 :=
  let start := if isUser (cpu.regs.cs.setWidth 32) then cpu.esp0 else cpu.regs.esp
  let pushed := pushAll (interruptWords cpu.regs cpu.ss) ram start
  pushAll (trapWords err irq (pushed.2 - 16) cpu.regs) pushed.1 pushed.2

/-- A word of the trap frame. -/
def field (ram : Ram) (tf : BitVec 32) (place : Nat) : BitVec 32 :=
  ram (tf + BitVec.ofNat 32 (4 * place))

/-- The context that `irq_handle` makes of the trap frame. -/
def irqContext (cpu : Cpu) (ram : Ram) (tf : BitVec 32) : Context where
  prot := cpu.prot
  edi := field ram tf 0
  esi := field ram tf 1
  ebp := field ram tf 2
  ebx := field ram tf 4
  edx := field ram tf 5
  ecx := field ram tf 6
  eax := field ram tf 7
  es := field ram tf 8
  ds := field ram tf 9
  eip := field ram tf 12
  cs := field ram tf 13
  eflags := field ram tf 14
  esp3 := if isUser (field ram tf 13) then field ram tf 15 else 0
  ss := if isUser (field ram tf 13) then field ram tf 16 else 0
  ss0 := kselKdata
  esp0 := if isUser (field ram tf 13) then tf + 68 else tf + 68 - 8

/-- `REGS_USER` and `REGS_KERNEL`. -/
def returnWords (ctx : Context) : List (BitVec 32) :=
  (if isUser ctx.cs then [ctx.ss, ctx.esp3] else []) ++
    [ctx.eflags, ctx.cs, ctx.eip, ctx.ds, ctx.es, ctx.eax, ctx.ecx, ctx.edx, ctx.ebx, ctx.esp0,
      ctx.ebp, ctx.esi, ctx.edi]

/-- `popal`, the two segments, and `iret`, which takes the stack of user code from the stack. -/
def popRegs (cpu : Cpu) (ram : Ram) (esp : BitVec 32) : Cpu :=
  let user := isUser (field ram esp 11)
  { cpu with
    regs.edi := field ram esp 0
    regs.esi := field ram esp 1
    regs.ebp := field ram esp 2
    regs.ebx := field ram esp 4
    regs.edx := field ram esp 5
    regs.ecx := field ram esp 6
    regs.eax := field ram esp 7
    regs.es := (field ram esp 8).setWidth 16
    regs.ds := (field ram esp 9).setWidth 16
    regs.eip := field ram esp 10
    regs.cs := (field ram esp 11).setWidth 16
    regs.eflags := field ram esp 12
    regs.esp := if user then field ram esp 13 else esp + 52
    ss := if user then (field ram esp 14).setWidth 16 else cpu.ss }

/-- The second half of `irq_handle`, with the page directory that an address space stands for. -/
def irqReturn (ptr : BitVec 32 → BitVec 32) (ctx : Context) (cpu : Cpu) (ram : Ram) : Cpu × Ram :=
  let pushed := pushAll (returnWords ctx) ram ctx.esp0
  let cpu := { cpu with prot := ctx.prot }
  let cpu :=
    if isUser ctx.cs then
      { cpu with
        cr3 := if ctx.prot = 0 then cpu.cr3 else ptr ctx.prot
        ss0 := ctx.ss0
        esp0 := ctx.esp0 }
    else cpu
  (popRegs cpu pushed.1 pushed.2, pushed.1)

/-- The context of `kcontext`, for a stack that ends at `high`. -/
def kcontext (high entry : BitVec 32) : Context where
  prot := 0
  eax := 0
  ebx := 0
  ecx := 0
  edx := 0
  esi := 0
  edi := 0
  ebp := 0
  esp3 := 0
  eip := entry
  eflags := flIf
  cs := kselKcode
  ds := kselKdata
  es := kselKdata
  ss := kselKdata
  ss0 := 0
  esp0 := high - 8

/-- What `kcontext` writes: the context itself at the other end of the stack, and the arguments. -/
def kcontextWrites (low high entry panicOnReturn arg : BitVec 32) : List (BitVec 32 × BitVec 32) :=
  let ctx := kcontext high entry
  let words := [ctx.prot, ctx.eax, ctx.ebx, ctx.ecx, ctx.edx, ctx.esi, ctx.edi, ctx.ebp, ctx.esp3,
    ctx.eip, ctx.eflags, ctx.cs, ctx.ds, ctx.es, ctx.ss, ctx.ss0, ctx.esp0]
  (words.zipIdx.map fun word => (low + BitVec.ofNat 32 (4 * word.2), word.1)) ++
    [(high - 8, panicOnReturn), (high - 4, arg)]

end Source

section RoundTrip

variable {words : List (BitVec 32)} {ram : Ram} {esp err irq : BitVec 32} {cpu : Cpu} {ctx : Context}

/-- The word that was pushed last is the first of the frame. -/
theorem pushed_field {place : Nat} (inside : place < words.length) (few : words.length < 2 ^ 30) :
    field (pushAll words ram esp).1 (pushAll words ram esp).2 place = words.reverse.getD place 0 := by
  have at_place : (pushAll words ram esp).2 + BitVec.ofNat 32 (4 * place) =
      pushPlace esp (words.length - 1 - place) := by
    rw [push_all_pointer, pushPlace]
    bv_omega
  have reversed : place < words.reverse.length := by
    rwa [List.length_reverse]
  rw [field, at_place, push_all_get (by omega) few, List.getD_eq_getElem?_getD,
    List.getElem?_eq_getElem reversed, Option.getD_some, List.getElem_reverse]

/-- The registers that a context stands for. -/
def Context.regs (ctx : Context) : Regs where
  eax := ctx.eax
  ebx := ctx.ebx
  ecx := ctx.ecx
  edx := ctx.edx
  esi := ctx.esi
  edi := ctx.edi
  ebp := ctx.ebp
  esp := if isUser ctx.cs then ctx.esp3 else ctx.esp0
  eip := ctx.eip
  eflags := ctx.eflags
  cs := ctx.cs.setWidth 16
  ds := ctx.ds.setWidth 16
  es := ctx.es.setWidth 16

def frameStart (cpu : Cpu) : BitVec 32 :=
  if isUser (cpu.regs.cs.setWidth 32) then cpu.esp0 else cpu.regs.esp

/-- The stack pointer that `pushal` finds. -/
def pushalPointer (cpu : Cpu) : BitVec 32 :=
  frameStart cpu - BitVec.ofNat 32 (4 * (interruptWords cpu.regs cpu.ss).length) - 16

def frameWords (err irq : BitVec 32) (cpu : Cpu) : List (BitVec 32) :=
  interruptWords cpu.regs cpu.ss ++ trapWords err irq (pushalPointer cpu) cpu.regs

theorem interrupt_pushes : interrupt err irq cpu ram =
    pushAll (frameWords err irq cpu) ram (frameStart cpu) := by
  simp only [interrupt, frameWords, frameStart, pushalPointer, push_all_append, push_all_pointer]

/-- The trap frame, from its start. -/
theorem frame_reverse : (frameWords err irq cpu).reverse =
    [cpu.regs.edi, cpu.regs.esi, cpu.regs.ebp, pushalPointer cpu, cpu.regs.ebx, cpu.regs.edx,
      cpu.regs.ecx, cpu.regs.eax, cpu.regs.es.setWidth 32, cpu.regs.ds.setWidth 32, irq, err,
      cpu.regs.eip, cpu.regs.cs.setWidth 32, cpu.regs.eflags] ++
      if isUser (cpu.regs.cs.setWidth 32) then [cpu.regs.esp, cpu.ss.setWidth 32] else [] := by
  rw [frameWords, List.reverse_append, interruptWords, List.reverse_append, trapWords]
  split <;> rfl

theorem segment_kept (segment : BitVec 16) : (segment.setWidth 32).setWidth 16 = segment := by
  rw [BitVec.setWidth_setWidth_of_le segment (by decide), BitVec.setWidth_eq]

theorem frame_length : (frameWords err irq cpu).length =
    if isUser (cpu.regs.cs.setWidth 32) then 17 else 15 := by
  rw [← List.length_reverse, frame_reverse]
  split <;> rfl

/-- The fields of the trap frame. -/
theorem frame_field {place : Nat} (inside : place < (frameWords err irq cpu).length) :
    field (interrupt err irq cpu ram).1 (interrupt err irq cpu ram).2 place =
      (frameWords err irq cpu).reverse.getD place 0 := by
  have few : (frameWords err irq cpu).length < 2 ^ 30 := by
    rw [frame_length]
    split <;> decide
  rw [interrupt_pushes, pushed_field inside few]

/-- The context of an interrupt has the registers that were interrupted. -/
theorem interrupt_saves (err irq : BitVec 32) (cpu : Cpu) (ram : Ram) :
    (irqContext cpu (interrupt err irq cpu ram).1 (interrupt err irq cpu ram).2).regs = cpu.regs := by
  have get {place : Nat} (inside : place < 15) :
      field (interrupt err irq cpu ram).1 (interrupt err irq cpu ram).2 place =
        (frameWords err irq cpu).reverse.getD place 0 := by
    apply frame_field
    rw [frame_length]
    split <;> omega
  have code : field (interrupt err irq cpu ram).1 (interrupt err irq cpu ram).2 13 =
      cpu.regs.cs.setWidth 32 := by
    rw [get (by decide), frame_reverse]
    rfl
  have pointer : (if isUser (cpu.regs.cs.setWidth 32) then
      (if isUser (cpu.regs.cs.setWidth 32) then
        field (interrupt err irq cpu ram).1 (interrupt err irq cpu ram).2 15 else 0)
      else (if isUser (cpu.regs.cs.setWidth 32) then (interrupt err irq cpu ram).2 + 68
        else (interrupt err irq cpu ram).2 + 68 - 8)) = cpu.regs.esp := by
    by_cases user : isUser (cpu.regs.cs.setWidth 32) = true
    · rw [if_pos user, if_pos user, frame_field (by rw [frame_length, if_pos user]; decide),
        frame_reverse, if_pos user]
      rfl
    · rw [if_neg user, if_neg user, interrupt_pushes, push_all_pointer, frame_length, if_neg user,
        frameStart, if_neg user]
      bv_omega
  unfold Context.regs irqContext
  dsimp only
  rw [code, pointer, @get 0 (by decide), @get 1 (by decide), @get 2 (by decide), @get 4 (by decide),
    @get 5 (by decide), @get 6 (by decide), @get 7 (by decide), @get 8 (by decide),
    @get 9 (by decide), @get 12 (by decide), @get 14 (by decide), frame_reverse]
  dsimp only [List.getD, List.cons_append, List.getElem?_cons_zero, List.getElem?_cons_succ,
    Option.getD_some]
  rw [segment_kept, segment_kept, segment_kept]

theorem return_reverse : (returnWords ctx).reverse =
    [ctx.edi, ctx.esi, ctx.ebp, ctx.esp0, ctx.ebx, ctx.edx, ctx.ecx, ctx.eax, ctx.es, ctx.ds, ctx.eip,
      ctx.cs, ctx.eflags] ++ if isUser ctx.cs then [ctx.esp3, ctx.ss] else [] := by
  rw [returnWords, List.reverse_append]
  split <;> rfl

theorem return_length : (returnWords ctx).length = if isUser ctx.cs then 15 else 13 := by
  rw [← List.length_reverse, return_reverse]
  split <;> rfl

/-- The return puts the registers of the context in place. -/
theorem return_loads (ptr : BitVec 32 → BitVec 32) (ctx : Context) (cpu : Cpu) (ram : Ram) :
    (irqReturn ptr ctx cpu ram).1.regs = ctx.regs := by
  have few : (returnWords ctx).length < 2 ^ 30 := by
    rw [return_length]
    split <;> decide
  have get {place : Nat} (inside : place < 13) :
      field (pushAll (returnWords ctx) ram ctx.esp0).1
        (pushAll (returnWords ctx) ram ctx.esp0).2 place = (returnWords ctx).reverse.getD place 0 := by
    apply pushed_field ?_ few
    rw [return_length]
    split <;> omega
  have code : field (pushAll (returnWords ctx) ram ctx.esp0).1
      (pushAll (returnWords ctx) ram ctx.esp0).2 11 = ctx.cs := by
    rw [get (by decide), return_reverse]
    rfl
  have pointer : (if isUser ctx.cs then
      field (pushAll (returnWords ctx) ram ctx.esp0).1 (pushAll (returnWords ctx) ram ctx.esp0).2 13
      else (pushAll (returnWords ctx) ram ctx.esp0).2 + 52) =
        if isUser ctx.cs then ctx.esp3 else ctx.esp0 := by
    by_cases user : isUser ctx.cs = true
    · rw [if_pos user, if_pos user, pushed_field (by rw [return_length, if_pos user]; decide) few,
        return_reverse, if_pos user]
      rfl
    · rw [if_neg user, if_neg user, push_all_pointer, return_length, if_neg user]
      bv_omega
  unfold irqReturn popRegs Context.regs
  dsimp only
  rw [code, pointer, @get 0 (by decide), @get 1 (by decide), @get 2 (by decide), @get 4 (by decide),
    @get 5 (by decide), @get 6 (by decide), @get 7 (by decide), @get 8 (by decide),
    @get 9 (by decide), @get 10 (by decide), @get 12 (by decide), return_reverse]
  rfl

/-- An interrupt of kernel code writes below its stack pointer only. -/
theorem interrupt_frame {x : BitVec 32} (kernel : isUser (cpu.regs.cs.setWidth 32) = false)
    (outside : ∀ count < 15, x ≠ pushPlace cpu.regs.esp count) :
    (interrupt err irq cpu ram).1 x = ram x := by
  have start : frameStart cpu = cpu.regs.esp := if_neg (Bool.eq_false_iff.mp kernel)
  rw [interrupt_pushes, push_all_frame]
  rw [frame_length, if_neg (Bool.eq_false_iff.mp kernel), start]
  exact outside

theorem interrupt_pointer (kernel : isUser (cpu.regs.cs.setWidth 32) = false) :
    (interrupt err irq cpu ram).2 = cpu.regs.esp - 60 := by
  rw [interrupt_pushes, push_all_pointer, frame_length, if_neg (Bool.eq_false_iff.mp kernel),
    frameStart, if_neg (Bool.eq_false_iff.mp kernel)]
  rfl

/-- So does the return to kernel code. -/
theorem return_frame {x : BitVec 32} {ptr : BitVec 32 → BitVec 32} (kernel : isUser ctx.cs = false)
    (outside : ∀ count < 13, x ≠ pushPlace ctx.esp0 count) :
    (irqReturn ptr ctx cpu ram).2 x = ram x := by
  unfold irqReturn
  dsimp only
  rw [push_all_frame]
  rw [return_length, if_neg (Bool.eq_false_iff.mp kernel)]
  exact outside

end RoundTrip

end OsWorkbench.Am
