import OsWorkbench.Kernel.Pipe
import OsWorkbench.Library.Ring

/-!
# A pipe is a queue

Whatever the order of the accesses, what the writer gave is what the reader got, what stands in
the ring and what the writer has still to store, in this order.
-/

namespace OsWorkbench.Kernel

open ByteStore Library

section Bytes

theorem overlay_cons (mem : Bytes) (base : Nat) (byte : UInt8) (rest : List UInt8) :
    overlay mem base (byte :: rest) = overlay (Function.update mem base byte) (base + 1) rest := by
  funext address
  rcases Nat.lt_trichotomy address base with before | same | after
  · rw [overlay_before before, overlay_before (Nat.lt_succ_of_lt before),
      Function.update_of_ne (Nat.ne_of_lt before)]
  · subst same
    rw [overlay_before (Nat.lt_succ_self address), Function.update_self]
    simp [overlay]
  · obtain ⟨index, rfl⟩ : ∃ index, address = base + 1 + index := ⟨address - (base + 1), by omega⟩
    have later : base ≤ base + 1 + index := by omega
    have place : base + 1 + index - base = index + 1 := by omega
    have other : base + 1 + index ≠ base := by omega
    simp [overlay, later, place, Function.update_of_ne other]

/-- Storing bytes behind the last entry adds them. -/
theorem window_overlay (mem : Bytes) {cap head count tail : Nat} (bytes : List UInt8)
    (fits : tail + bytes.length ≤ cap) (place : (head + count) % cap = tail % cap)
    (room : count + bytes.length ≤ cap) :
    window (overlay mem tail bytes) cap head (count + bytes.length) =
      window mem cap head count ++ bytes := by
  induction bytes generalizing mem count tail with
  | nil => rw [overlay_nil, List.append_nil, List.length_nil, Nat.add_zero]
  | cons byte rest hypothesis =>
      rw [List.length_cons] at fits room ⊢
      have inside : tail < cap := by omega
      have index : (head + count) % cap = tail := place.trans (Nat.mod_eq_of_lt inside)
      have next : (head + (count + 1)) % cap = (tail + 1) % cap := by
        rw [← Nat.add_assoc, Nat.add_mod, place, ← Nat.add_mod]
      have stored := @hypothesis (Function.update mem tail byte) (count + 1) (tail + 1) (by omega)
        next (by omega)
      have pushed : window (Function.update mem tail byte) cap head (count + 1) =
          window mem cap head count ++ [byte] := by
        rw [← index]
        exact window_push mem (by omega) byte
      rw [overlay_cons, ← Nat.add_assoc, Nat.add_right_comm, stored, pushed, List.append_assoc]
      rfl

/-- Storing bytes behind the last entry keeps the entries. -/
theorem window_overlay_kept (mem : Bytes) {cap head count tail : Nat} (bytes : List UInt8)
    (fits : tail + bytes.length ≤ cap) (place : (head + count) % cap = tail % cap)
    (room : count + bytes.length ≤ cap) :
    window (overlay mem tail bytes) cap head count = window mem cap head count := by
  have whole := window_overlay mem bytes fits place room
  have front : (window (overlay mem tail bytes) cap head (count + bytes.length)).take count =
      window (overlay mem tail bytes) cap head count :=
    window_take _ (Nat.le_add_right _ _)
  rw [whole, List.take_left' (window_length mem cap head count)] at front
  exact front.symm

/-- Entries that do not wrap around are a slice of the memory. -/
theorem window_eq_slice (mem : Bytes) {cap head count : Nat} (fits : head + count ≤ cap) :
    window mem cap head count = slice mem head count := by
  induction count with
  | zero => rfl
  | succ count hypothesis =>
      rw [window_concat, hypothesis (by omega), Nat.mod_eq_of_lt (by omega), slice_append]
      rfl

theorem get_size_place (p : Pipe) : (p.head + getSize p) % 0x100 = p.tail % 0x100 := by
  unfold getSize
  omega

end Bytes

section Sizes

variable {p : Pipe} {count : Nat}

theorem size_after_read (fits : count ≤ getSize p) :
    getSize { p with head := p.head + count } = getSize p - count := by
  unfold getSize at fits ⊢
  simp only
  omega

theorem size_after_write (fits : count + getSize p ≤ 0xff) :
    getSize { p with tail := p.tail + count } = getSize p + count := by
  unfold getSize at fits ⊢
  simp only
  omega

theorem size_head_reset (full : p.head = 0x100) : getSize { p with head := 0 } = getSize p := by
  unfold getSize
  simp only
  omega

theorem size_tail_reset (full : p.tail = 0x100) : getSize { p with tail := 0 } = getSize p := by
  unfold getSize
  simp only
  omega

end Sizes

section Invariant

/-- What is left of a read that goes around the end of the buffer. -/
def Resumes (head nread : Nat) (after : List ReadOp) : Prop :=
  after = [] ∨ ∃ count, 0 < count ∧ head = 0x100 ∧ after = [.reset, .size nread count]

/-- The accesses that a reader can still have to make. -/
inductive Reading (head size nread : Nat) : List ReadOp → Prop where
  | idle : Reading head size nread []
  | size (count : Nat) (positive : 0 < count) : Reading head size nread [.size nread count]
  | poll (count : Nat) (positive : 0 < count) : Reading head size nread [.poll nread count]
  | around (remain count : Nat) (positive : 0 < count) (ends : head + remain = 0x100)
      (fits : remain + count ≤ size) :
      Reading head size nread [.size nread remain, .reset, .size (nread + remain) count]
  | copy (count : Nat) (after : List ReadOp) (fits : count ≤ size)
      (inside : head + count ≤ 0x100) (resumes : Resumes (head + count) (nread + count) after) :
      Reading head size nread (.copy nread count :: .advance count :: after)
  | advance (count : Nat) (after : List ReadOp) (fits : count ≤ size)
      (inside : head + count ≤ 0x100) (resumes : Resumes (head + count) (nread + count) after) :
      Reading head size nread (.advance count :: after)
  | reset (count : Nat) (positive : 0 < count) (ends : head = 0x100) :
      Reading head size nread [.reset, .size nread count]

/-- What a writer does at the end of the buffer. -/
def Turns (tail : Nat) (after : List WriteOp) : Prop :=
  after = [] ∨ (tail = 0x100 ∧ after = [.reset])

/-- The accesses that a writer can still have to make before its next calls. -/
inductive Writing (tail size : Nat) : List WriteOp → Prop where
  | idle : Writing tail size []
  | around (buf : List UInt8) (ends : tail + buf.length = 0x100)
      (fits : buf.length + size < 0xff) : Writing tail size [.size buf, .reset]
  | copy (buf : List UInt8) (after : List WriteOp) (fits : buf.length + size ≤ 0xff)
      (inside : tail + buf.length ≤ 0x100) (turns : Turns (tail + buf.length) after) :
      Writing tail size (.copy buf :: .advance buf :: after)
  | advance (buf : List UInt8) (after : List WriteOp) (fits : buf.length + size ≤ 0xff)
      (inside : tail + buf.length ≤ 0x100) (turns : Turns (tail + buf.length) after) :
      Writing tail size (.advance buf :: after)
  | reset (ends : tail = 0x100) : Writing tail size [.reset]

/-- A `memcpy` hands nothing over: the assignment to `tail` after it does. -/
def WriteOp.bytes : WriteOp → List UInt8
  | .size buf => buf
  | .copy _ => []
  | .advance buf => buf
  | .reset => []

/-- What a writer has not yet handed over. -/
def unsent (agenda : List WriteOp) : List UInt8 := agenda.flatMap WriteOp.bytes

/-- The bytes in the ring. -/
def held (p : Pipe) : List UInt8 := window p.mem 0x100 p.head (getSize p)

/-- The invariant of a pipe between one writer and one reader. -/
structure Flows (channel : Channel) : Prop where
  headIn : channel.pipe.head ≤ 0x100
  tailIn : channel.pipe.tail ≤ 0x100
  reading : Reading channel.pipe.head (getSize channel.pipe) channel.reader.nread
    channel.reader.agenda
  copied : ∀ count rest, channel.reader.agenda = .advance count :: rest →
    slice channel.reader.buf channel.reader.nread count =
      window channel.pipe.mem 0x100 channel.pipe.head count
  writing : ∃ top, ∃ calls : List (List UInt8),
    channel.writer.agenda = top ++ calls.map WriteOp.size ∧
    Writing channel.pipe.tail (getSize channel.pipe) top
  stored : ∀ bytes rest, channel.writer.agenda = .advance bytes :: rest →
    window channel.pipe.mem 0x100 channel.pipe.head (getSize channel.pipe + bytes.length) =
      held channel.pipe ++ bytes
  conserved : channel.written = channel.received ++
    slice channel.reader.buf 0 channel.reader.nread ++ held channel.pipe ++
      unsent channel.writer.agenda
  counted : channel.writer.nwrite + (unsent channel.writer.agenda).length = channel.asked
  returned : ∀ pair ∈ channel.returns, pair.2 = pair.1

theorem Reading.mono {head size more nread : Nat} {agenda : List ReadOp}
    (reading : Reading head size nread agenda) (grown : size ≤ more) :
    Reading head more nread agenda := by
  cases reading with
  | idle => exact Reading.idle
  | size count positive => exact Reading.size count positive
  | poll count positive => exact Reading.poll count positive
  | around remain count positive ends fits =>
      exact Reading.around remain count positive ends (fits.trans grown)
  | copy count after fits inside resumes =>
      exact Reading.copy count after (fits.trans grown) inside resumes
  | advance count after fits inside resumes =>
      exact Reading.advance count after (fits.trans grown) inside resumes
  | reset count positive ends => exact Reading.reset count positive ends

theorem Writing.mono {tail size less : Nat} {top : List WriteOp} (writing : Writing tail size top)
    (shrunk : less ≤ size) : Writing tail less top := by
  cases writing with
  | idle => exact Writing.idle
  | around buf ends fits => exact Writing.around buf ends (by omega)
  | copy buf after fits inside turns => exact Writing.copy buf after (by omega) inside turns
  | advance buf after fits inside turns => exact Writing.advance buf after (by omega) inside turns
  | reset ends => exact Writing.reset ends

/-- The accesses after an evaluation of `get_size` by the reader. -/
theorem read_call_reading {p : Pipe} {nread count : Nat} (positive : 0 < count)
    (headIn : p.head ≤ 0x100) :
    Reading p.head (getSize p) nread (readCall p nread count) := by
  unfold readCall
  simp only
  split
  next => exact Reading.poll count positive
  next some =>
    split
    next => exact Reading.size _ (Nat.pos_of_ne_zero some)
    next enough =>
      split
      next beyond =>
        apply Reading.around
        · omega
        · omega
        · omega
      next inside =>
        apply Reading.copy
        · omega
        · omega
        · left
          rfl

theorem write_call_writing {p : Pipe} (buf : List UInt8) (tailIn : p.tail ≤ 0x100) :
    ∃ top, ∃ calls : List (List UInt8), writeCall p buf = top ++ calls.map WriteOp.size ∧
      Writing p.tail (getSize p) top := by
  unfold writeCall
  simp only
  split
  next => exact ⟨[], [buf], rfl, Writing.idle⟩
  next room =>
    split
    next => exact ⟨[], [_, _], rfl, Writing.idle⟩
    next fits =>
      split
      next beyond =>
        refine ⟨[.size (buf.take (0x100 - p.tail)), .reset], [buf.drop (0x100 - p.tail)], rfl, ?_⟩
        apply Writing.around
        · rw [List.length_take]
          omega
        · rw [List.length_take]
          omega
      next inside =>
        refine ⟨[.copy buf, .advance buf], [], rfl, ?_⟩
        apply Writing.copy
        · omega
        · omega
        · left
          rfl

/-- A call hands over its own bytes. -/
theorem write_call_unsent (p : Pipe) (buf : List UInt8) (rest : List WriteOp) :
    unsent (writeCall p buf ++ rest) = buf ++ unsent rest := by
  have joined (count : Nat) (bytes : List UInt8) :
      buf.take count ++ (buf.drop count ++ bytes) = buf ++ bytes := by
    rw [← List.append_assoc, List.take_append_drop]
  unfold writeCall
  simp only
  split_ifs <;> simp [unsent, WriteOp.bytes, joined]

end Invariant

section ReaderSteps

variable {channel : Channel}

theorem held_congr {p q : Pipe} (mem : q.mem = p.mem) (head : q.head % 0x100 = p.head % 0x100)
    (size : getSize q = getSize p) : held q = held p := by
  unfold held
  rw [mem, size]
  exact window_congr p.mem head _

/-- A step of the reader that touches nothing but its list of accesses. -/
theorem Flows.replan (flows : Flows channel) {agenda : List ReadOp}
    (reading : Reading channel.pipe.head (getSize channel.pipe) channel.reader.nread agenda)
    (fresh : ∀ count rest, agenda ≠ .advance count :: rest) :
    Flows { channel with reader := { channel.reader with agenda := agenda } } where
  headIn := flows.headIn
  tailIn := flows.tailIn
  reading := reading
  copied := fun count rest same => absurd same (fresh count rest)
  writing := flows.writing
  stored := flows.stored
  conserved := flows.conserved
  counted := flows.counted
  returned := flows.returned

theorem read_call_fresh (p : Pipe) (dst count other : Nat) (rest : List ReadOp) :
    readCall p dst count ≠ .advance other :: rest := by
  unfold readCall
  simp only
  split_ifs <;> simp

/-- Bytes are copied into the caller's buffer. -/
theorem Flows.fetch (flows : Flows channel) {count : Nat} {after : List ReadOp}
    (fits : count ≤ getSize channel.pipe) (inside : channel.pipe.head + count ≤ 0x100)
    (resumes : Resumes (channel.pipe.head + count) (channel.reader.nread + count) after) :
    Flows { channel with reader :=
      { channel.reader with
        agenda := .advance count :: after
        buf := overlay channel.reader.buf channel.reader.nread
          (slice channel.pipe.mem channel.pipe.head count) } } where
  headIn := flows.headIn
  tailIn := flows.tailIn
  reading := Reading.advance count after fits inside resumes
  copied := by
    intro other rest same
    simp only [List.cons.injEq, ReadOp.advance.injEq] at same
    rcases same with ⟨rfl, -⟩
    have whole := slice_overlay_self channel.reader.buf channel.reader.nread
      (slice channel.pipe.mem channel.pipe.head count)
    rw [slice_length] at whole
    rw [window_eq_slice channel.pipe.mem inside]
    exact whole
  writing := flows.writing
  stored := flows.stored
  conserved := by
    have kept : slice (overlay channel.reader.buf channel.reader.nread
        (slice channel.pipe.mem channel.pipe.head count)) 0 channel.reader.nread =
        slice channel.reader.buf 0 channel.reader.nread :=
      slice_overlay_outside (Or.inl (by omega))
    rw [kept]
    exact flows.conserved
  counted := flows.counted
  returned := flows.returned

/-- The bytes that were copied leave the ring. -/
theorem Flows.consume (flows : Flows channel) {count : Nat} {after : List ReadOp}
    (shape : channel.reader.agenda = .advance count :: after)
    (fits : count ≤ getSize channel.pipe) (inside : channel.pipe.head + count ≤ 0x100)
    (resumes : Resumes (channel.pipe.head + count) (channel.reader.nread + count) after) :
    Flows { channel with
      pipe := { channel.pipe with head := channel.pipe.head + count }
      reader := { channel.reader with
        agenda := after
        nread := channel.reader.nread + count } } := by
  have size := size_after_read fits
  have split : held channel.pipe = window channel.pipe.mem 0x100 channel.pipe.head count ++
      held { channel.pipe with head := channel.pipe.head + count } := by
    unfold held
    rw [size, ← window_append, Nat.add_sub_of_le fits]
  constructor
  · exact inside
  · exact flows.tailIn
  · rcases resumes with rfl | ⟨next, positive, ends, rfl⟩
    · exact Reading.idle
    · exact Reading.reset next positive ends
  · intro other rest same
    rcases resumes with rfl | ⟨next, -, -, rfl⟩ <;> cases same
  · rcases flows.writing with ⟨top, calls, agenda, writing⟩
    refine ⟨top, calls, agenda, writing.mono ?_⟩
    rw [size]
    exact Nat.sub_le _ _
  · intro bytes rest same
    have stored := flows.stored bytes rest same
    have dropped := congrArg (List.drop count) stored
    rw [window_drop _ (by omega), split, List.append_assoc,
      List.drop_left' (window_length _ _ _ _)] at dropped
    change window channel.pipe.mem 0x100 (channel.pipe.head + count)
      (getSize { channel.pipe with head := channel.pipe.head + count } + bytes.length) = _
    rw [size, ← Nat.sub_add_comm fits]
    exact dropped
  · have conserved := flows.conserved
    rw [split, ← flows.copied count after shape] at conserved
    change channel.written = channel.received ++
      slice channel.reader.buf 0 (channel.reader.nread + count) ++ _ ++ _
    rw [slice_append, Nat.zero_add, conserved]
    simp only [List.append_assoc]
  · exact flows.counted
  · exact flows.returned

/-- `head` goes back to the start of the buffer. -/
theorem Flows.rewind (flows : Flows channel) {count : Nat} (positive : 0 < count)
    (ends : channel.pipe.head = 0x100) :
    Flows { channel with
      pipe := { channel.pipe with head := 0 }
      reader := { channel.reader with agenda := [.size channel.reader.nread count] } } := by
  have size := size_head_reset ends
  have same : held { channel.pipe with head := 0 } = held channel.pipe := by
    apply held_congr _ _ size
    · rfl
    · change 0 % 0x100 = channel.pipe.head % 0x100
      rw [ends]
  constructor
  · exact Nat.zero_le _
  · exact flows.tailIn
  · exact Reading.size count positive
  · intro other rest agenda
    cases agenda
  · rcases flows.writing with ⟨top, calls, agenda, writing⟩
    exact ⟨top, calls, agenda, writing.mono (le_of_eq size)⟩
  · intro bytes rest agenda
    have stored := flows.stored bytes rest agenda
    rw [same, ← stored]
    change window channel.pipe.mem 0x100 0
      (getSize { channel.pipe with head := 0 } + bytes.length) = _
    have start : 0 % 0x100 = 0x100 % 0x100 := rfl
    rw [size, ends]
    exact window_congr _ start _
  · rw [same]
    exact flows.conserved
  · exact flows.counted
  · exact flows.returned

theorem Flows.read_op (flows : Flows channel) {op : ReadOp} {rest : List ReadOp}
    (shape : channel.reader.agenda = op :: rest) :
    Flows { channel with
      pipe := (readOp op rest channel.pipe channel.reader).1
      reader := (readOp op rest channel.pipe channel.reader).2 } := by
  have reading := flows.reading
  rw [shape] at reading
  cases reading with
  | size count positive =>
      simp only [readOp, List.append_nil]
      exact flows.replan (read_call_reading positive flows.headIn) (read_call_fresh _ _ _)
  | poll count positive =>
      simp only [readOp]
      split
      · exact flows.replan (Reading.size count positive) (by simp)
      · exact flows.replan Reading.idle (by simp)
  | around remain count positive ends fits =>
      have call : readCall channel.pipe channel.reader.nread remain =
          [.copy channel.reader.nread remain, .advance remain] := by
        unfold readCall
        simp only
        rw [if_neg (by omega), if_neg (by omega), if_neg (by omega)]
      simp only [readOp, call]
      apply flows.replan _ (by simp)
      apply Reading.copy
      · omega
      · omega
      · right
        exact ⟨count, positive, ends, rfl⟩
  | copy count after fits inside resumes => exact flows.fetch fits inside resumes
  | advance count after fits inside resumes => exact flows.consume shape fits inside resumes
  | reset count positive ends => exact flows.rewind positive ends

end ReaderSteps

section WriterSteps

variable {channel : Channel}

theorem unsent_cons (op : WriteOp) (rest : List WriteOp) :
    unsent (op :: rest) = op.bytes ++ unsent rest := List.flatMap_cons

/-- A step of the writer that touches nothing but its list of accesses. -/
theorem Flows.rewrite (flows : Flows channel) {agenda : List WriteOp}
    (writing : ∃ top, ∃ calls : List (List UInt8), agenda = top ++ calls.map WriteOp.size ∧
      Writing channel.pipe.tail (getSize channel.pipe) top)
    (fresh : ∀ bytes rest, agenda ≠ .advance bytes :: rest)
    (same : unsent agenda = unsent channel.writer.agenda) :
    Flows { channel with writer := { channel.writer with agenda := agenda } } where
  headIn := flows.headIn
  tailIn := flows.tailIn
  reading := flows.reading
  copied := flows.copied
  writing := writing
  stored := fun bytes rest shape => absurd shape (fresh bytes rest)
  conserved := by
    rw [same]
    exact flows.conserved
  counted := by
    rw [same]
    exact flows.counted
  returned := flows.returned

theorem write_call_fresh (p : Pipe) (buf other : List UInt8) (later rest : List WriteOp) :
    writeCall p buf ++ later ≠ .advance other :: rest := by
  unfold writeCall
  simp only
  split_ifs <;> simp

/-- Bytes are stored behind the tail. -/
theorem Flows.store (flows : Flows channel) {buf : List UInt8} {after : List WriteOp}
    {calls : List (List UInt8)}
    (shape : channel.writer.agenda = (.copy buf :: .advance buf :: after) ++ calls.map WriteOp.size)
    (fits : buf.length + getSize channel.pipe ≤ 0xff)
    (inside : channel.pipe.tail + buf.length ≤ 0x100)
    (turns : Turns (channel.pipe.tail + buf.length) after) :
    Flows { channel with
      pipe := { channel.pipe with mem := overlay channel.pipe.mem channel.pipe.tail buf }
      writer := { channel.writer with
        agenda := (.advance buf :: after) ++ calls.map WriteOp.size } } := by
  have place := get_size_place channel.pipe
  have kept : held { channel.pipe with mem := overlay channel.pipe.mem channel.pipe.tail buf } =
      held channel.pipe := by
    change window _ 0x100 channel.pipe.head (getSize channel.pipe) = _
    exact window_overlay_kept _ buf inside place (by omega)
  have same : unsent ((.advance buf :: after) ++ calls.map WriteOp.size) =
      unsent channel.writer.agenda := by
    rw [shape]
    rfl
  constructor
  · exact flows.headIn
  · exact flows.tailIn
  · exact flows.reading
  · intro count rest agenda
    have reading := flows.reading
    have copied := flows.copied count rest agenda
    rw [agenda] at reading
    have bound : count ≤ getSize channel.pipe := by
      cases reading with
      | advance _ _ less _ _ => exact less
    have whole := window_overlay_kept channel.pipe.mem buf inside place (by omega)
    have front : window (overlay channel.pipe.mem channel.pipe.tail buf) 0x100 channel.pipe.head
        count = window channel.pipe.mem 0x100 channel.pipe.head count := by
      rw [← window_take _ bound, ← window_take channel.pipe.mem bound, whole]
    exact copied.trans front.symm
  · exact ⟨.advance buf :: after, calls, rfl, Writing.advance buf after fits inside turns⟩
  · intro bytes rest agenda
    simp only [List.cons_append, List.cons.injEq, WriteOp.advance.injEq] at agenda
    rcases agenda with ⟨rfl, -⟩
    rw [kept]
    change window _ 0x100 channel.pipe.head (getSize channel.pipe + buf.length) = _
    exact window_overlay _ _ inside place (by omega)
  · rw [same, kept]
    exact flows.conserved
  · rw [same]
    exact flows.counted
  · exact flows.returned

/-- The bytes that were stored enter the ring. -/
theorem Flows.produce (flows : Flows channel) {buf : List UInt8} {after : List WriteOp}
    {calls : List (List UInt8)}
    (shape : channel.writer.agenda = (.advance buf :: after) ++ calls.map WriteOp.size)
    (fits : buf.length + getSize channel.pipe ≤ 0xff)
    (inside : channel.pipe.tail + buf.length ≤ 0x100)
    (turns : Turns (channel.pipe.tail + buf.length) after) :
    Flows { channel with
      pipe := { channel.pipe with tail := channel.pipe.tail + buf.length }
      writer := ⟨after ++ calls.map WriteOp.size, channel.writer.nwrite + buf.length⟩ } := by
  have size := size_after_write fits
  have entered : held { channel.pipe with tail := channel.pipe.tail + buf.length } =
      held channel.pipe ++ buf := by
    have stored := flows.stored buf _ shape
    change window channel.pipe.mem 0x100 channel.pipe.head
      (getSize { channel.pipe with tail := channel.pipe.tail + buf.length }) = _
    rw [size]
    exact stored
  have split : unsent channel.writer.agenda = buf ++ unsent (after ++ calls.map WriteOp.size) := by
    rw [shape, List.cons_append, unsent_cons]
    rfl
  constructor
  · exact flows.headIn
  · exact inside
  · apply flows.reading.mono
    change _ ≤ getSize { channel.pipe with tail := channel.pipe.tail + buf.length }
    rw [size]
    exact Nat.le_add_right _ _
  · exact flows.copied
  · refine ⟨after, calls, rfl, ?_⟩
    rcases turns with rfl | ⟨ends, rfl⟩
    · exact Writing.idle
    · exact Writing.reset ends
  · intro bytes rest agenda
    rcases turns with rfl | ⟨-, rfl⟩
    · cases calls <;> cases agenda
    · cases agenda
  · have conserved := flows.conserved
    rw [split] at conserved
    rw [entered]
    simp only [List.append_assoc] at conserved ⊢
    exact conserved
  · have counted := flows.counted
    rw [split, List.length_append] at counted
    change channel.writer.nwrite + buf.length +
      (unsent (after ++ calls.map WriteOp.size)).length = channel.asked
    omega
  · exact flows.returned

/-- `tail` goes back to the start of the buffer. -/
theorem Flows.rewound (flows : Flows channel) {calls : List (List UInt8)}
    (shape : channel.writer.agenda = [.reset] ++ calls.map WriteOp.size)
    (ends : channel.pipe.tail = 0x100) :
    Flows { channel with
      pipe := { channel.pipe with tail := 0 }
      writer := { channel.writer with agenda := calls.map WriteOp.size } } := by
  have size := size_tail_reset ends
  have kept : held { channel.pipe with tail := 0 } = held channel.pipe := held_congr rfl rfl size
  have same : unsent (calls.map WriteOp.size) = unsent channel.writer.agenda := by
    rw [shape]
    rfl
  constructor
  · exact flows.headIn
  · exact Nat.zero_le _
  · exact flows.reading.mono (le_of_eq size.symm)
  · exact flows.copied
  · exact ⟨[], calls, rfl, Writing.idle⟩
  · intro bytes rest agenda
    cases calls <;> cases agenda
  · rw [kept, same]
    exact flows.conserved
  · rw [same]
    exact flows.counted
  · exact flows.returned

theorem Flows.write_op (flows : Flows channel) {op : WriteOp} {rest : List WriteOp}
    (shape : channel.writer.agenda = op :: rest) :
    Flows { channel with
      pipe := (writeOp op rest channel.pipe channel.writer).1
      writer := (writeOp op rest channel.pipe channel.writer).2 } := by
  rcases flows.writing with ⟨top, calls, agenda, writing⟩
  rw [shape] at agenda
  cases writing with
  | idle =>
      cases calls with
      | nil => cases agenda
      | cons buf later =>
          cases agenda
          rcases write_call_writing buf flows.tailIn with ⟨top, calls, call, writing⟩
          apply flows.rewrite
          · refine ⟨top, calls ++ later, ?_, writing⟩
            rw [call, List.map_append, List.append_assoc]
          · exact fun bytes rest => write_call_fresh _ _ _ _ _
          · rw [write_call_unsent, shape, unsent_cons]
            rfl
  | around buf ends fits =>
      cases agenda
      have call : writeCall channel.pipe buf = [.copy buf, .advance buf] := by
        unfold writeCall
        simp only
        rw [if_neg (by omega), if_neg (by omega), if_neg (by omega)]
      simp only [writeOp]
      apply flows.rewrite
      · refine ⟨[.copy buf, .advance buf, .reset], calls, ?_, ?_⟩
        · rw [call]
          rfl
        · apply Writing.copy
          · omega
          · omega
          · right
            exact ⟨ends, rfl⟩
      · exact fun bytes rest => write_call_fresh _ _ _ _ _
      · rw [write_call_unsent, shape, unsent_cons]
        rfl
  | copy buf after fits inside turns =>
      cases agenda
      exact flows.store shape fits inside turns
  | advance buf after fits inside turns =>
      cases agenda
      exact flows.produce shape fits inside turns
  | reset ends =>
      cases agenda
      exact flows.rewound shape ends

end WriterSteps

section Runs

/-- A reader that is not in a call has counted nothing. -/
structure Fifo (channel : Channel) : Prop where
  flows : Flows channel
  counted : channel.reader.agenda = [] → channel.reader.nread = 0

theorem piped_fifo (mem buf : Bytes) : Fifo (piped mem buf) where
  flows :=
    { headIn := Nat.zero_le _
      tailIn := Nat.zero_le _
      reading := Reading.idle
      copied := fun _ _ shape => by cases shape
      writing := ⟨[], [], rfl, Writing.idle⟩
      stored := fun _ _ shape => by cases shape
      conserved := rfl
      counted := rfl
      returned := fun _ listed => by cases listed }
  counted := fun _ => rfl

theorem Fifo.after_read {channel : Channel} {p : Pipe} {reader : Reader}
    (flows : Flows { channel with pipe := p, reader := reader }) :
    Fifo (channel.afterRead p reader) := by
  unfold Channel.afterRead
  split
  next finished =>
    constructor
    · constructor
      · exact flows.headIn
      · exact flows.tailIn
      · change Reading _ _ 0 reader.agenda
        rw [finished]
        exact Reading.idle
      · intro count rest shape
        change reader.agenda = _ at shape
        rw [finished] at shape
        cases shape
      · exact flows.writing
      · exact flows.stored
      · have conserved := flows.conserved
        change channel.written = (channel.received ++ slice reader.buf 0 reader.nread) ++ [] ++ _ ++ _
        rw [List.append_nil]
        exact conserved
      · exact flows.counted
      · exact flows.returned
    · exact fun _ => rfl
  next busy =>
    constructor
    · exact flows
    · exact fun finished => absurd finished busy

theorem Fifo.after_write {channel : Channel} {p : Pipe} {writer : Writer}
    (flows : Flows { channel with pipe := p, writer := writer })
    (counted : channel.reader.agenda = [] → channel.reader.nread = 0) :
    Fifo (channel.afterWrite p writer) := by
  unfold Channel.afterWrite
  split
  next finished =>
    constructor
    · constructor
      · exact flows.headIn
      · exact flows.tailIn
      · exact flows.reading
      · exact flows.copied
      · exact flows.writing
      · exact flows.stored
      · exact flows.conserved
      · exact flows.counted
      · intro pair listed
        rcases List.mem_append.mp listed with old | new
        · exact flows.returned pair old
        · rw [List.mem_singleton.mp new]
          have whole := flows.counted
          change writer.nwrite + (unsent writer.agenda).length = channel.asked at whole
          rw [finished] at whole
          exact whole
    · exact counted
  next => exact ⟨flows, counted⟩

theorem step_fifo (act : PipeAct) (channel next : Channel) (fifo : Fifo channel)
    (stepped : pipeStep act channel = some next) : Fifo next := by
  have flows := fifo.flows
  cases act with
  | read count =>
      simp only [pipeStep] at stepped
      split at stepped
      next ready =>
        cases stepped
        constructor
        · have none := fifo.counted ready.1
          constructor
          · exact flows.headIn
          · exact flows.tailIn
          · exact Reading.size count ready.2
          · intro other rest shape
            cases shape
          · exact flows.writing
          · exact flows.stored
          · have conserved := flows.conserved
            rw [none] at conserved
            exact conserved
          · exact flows.counted
          · exact flows.returned
        · intro finished
          cases finished
      next => cases stepped
  | reader =>
      simp only [pipeStep] at stepped
      split at stepped
      next => cases stepped
      next op rest shape =>
        cases stepped
        exact Fifo.after_read (flows.read_op shape)
  | write buf =>
      simp only [pipeStep] at stepped
      split at stepped
      next ready =>
        cases stepped
        constructor
        · constructor
          · exact flows.headIn
          · exact flows.tailIn
          · exact flows.reading
          · exact flows.copied
          · exact ⟨[], [buf], rfl, Writing.idle⟩
          · intro bytes rest shape
            cases shape
          · have conserved := flows.conserved
            have none : unsent channel.writer.agenda = [] := by
              rw [ready.1]
              rfl
            rw [none, List.append_nil] at conserved
            change channel.written ++ buf = _ ++ unsent [.size buf]
            rw [conserved]
            simp [unsent, WriteOp.bytes, held]
          · change 0 + (unsent [.size buf]).length = buf.length
            simp [unsent, WriteOp.bytes]
          · exact flows.returned
        · exact fifo.counted
      next => cases stepped
  | writer =>
      simp only [pipeStep] at stepped
      split at stepped
      next => cases stepped
      next op rest shape =>
        cases stepped
        exact Fifo.after_write (flows.write_op shape) fifo.counted
  | close =>
      cases stepped
      constructor
      · constructor
        · exact flows.headIn
        · exact flows.tailIn
        · exact flows.reading
        · exact flows.copied
        · exact flows.writing
        · exact flows.stored
        · exact flows.conserved
        · exact flows.counted
        · exact flows.returned
      · exact fifo.counted

/-- How many bytes of the current call stand in the reader's buffer. -/
def Reader.filled (reader : Reader) : Nat :=
  match reader.agenda with
  | .advance count :: _ => reader.nread + count
  | _ => reader.nread

/-- What has reached the reader, the current call included. -/
def Channel.delivered (channel : Channel) : List UInt8 :=
  channel.received ++ slice channel.reader.buf 0 channel.reader.filled

/-- The bytes of a pipe: nothing is lost, duplicated or overwritten, and they come in order. -/
structure InOrder (channel : Channel) : Prop where
  conserved : channel.written = channel.received ++
    slice channel.reader.buf 0 channel.reader.nread ++ held channel.pipe ++
      unsent channel.writer.agenda
  delivered : channel.delivered <+: channel.written
  returned : ∀ pair ∈ channel.returns, pair.2 = pair.1

theorem Flows.in_order {channel : Channel} (flows : Flows channel) : InOrder channel where
  conserved := flows.conserved
  returned := flows.returned
  delivered := by
    have conserved := flows.conserved
    unfold Channel.delivered Reader.filled
    split
    next count rest shape =>
      have reading := flows.reading
      rw [shape] at reading
      have bound : count ≤ getSize channel.pipe := by
        cases reading with
        | advance _ _ less _ _ => exact less
      have front := @window_append _ channel.pipe.mem 0x100 channel.pipe.head count
        (getSize channel.pipe - count)
      rw [Nat.add_sub_of_le bound] at front
      rw [slice_append, Nat.zero_add, flows.copied count rest shape, conserved]
      unfold held
      rw [front]
      simp only [List.append_assoc]
      simp
    next =>
      rw [conserved, List.append_assoc]
      exact List.prefix_append _ _

/-- A pipe between one writer and one reader is a queue, in every state of every run. -/
theorem pipe_in_order (mem buf : Bytes) (acts : List PipeAct) (final : Channel)
    (ran : runSteps pipeStep acts (piped mem buf) = some final) : InOrder final := by
  have fifo : Fifo final :=
    run_preserves pipeStep step_fifo acts (piped mem buf) final (piped_fifo mem buf) ran
  exact fifo.flows.in_order

def blankBytes : Bytes := fun _ => 0

/-- Three bytes are written while a read of two is under way. -/
def exchange : List PipeAct :=
  [.read 2, .reader, .write [1, 2, 3], .writer, .reader, .writer, .writer, .reader, .reader, .reader]

theorem pipe_in_order_once : ∃ final, InOrder final ∧
    runSteps pipeStep exchange (piped blankBytes blankBytes) = some final ∧
    final.received = [1, 2] ∧ held final.pipe = [3] := by
  have results : (runSteps pipeStep exchange (piped blankBytes blankBytes)).map
      (fun channel => (channel.received, held channel.pipe)) = some ([1, 2], [3]) := by
    decide +kernel
  rcases Option.map_eq_some_iff.mp results with ⟨final, ran, known⟩
  simp only [Prod.mk.injEq] at known
  exact ⟨final, pipe_in_order blankBytes blankBytes exchange final ran, ran, known.1, known.2⟩

end Runs

end OsWorkbench.Kernel
