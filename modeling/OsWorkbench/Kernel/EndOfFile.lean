import OsWorkbench.Kernel.PipeEnds

/-!
# End of file

A pipeline whose calls of `pipe_write` do not overlap follows the pipe between one writer and one
reader. When its `open` is cleared by the last close alone, and not while the reader is between its
two tests with bytes in the pipe, `pipe_read` returns 0 only at the end of the data.
-/

namespace OsWorkbench.Kernel

open ByteStore Library

section Follow

/-- The pipeline, seen as a pipe between one writer and one reader. -/
structure Carries (s : Pipeline) (channel : Channel) : Prop where
  pipe : channel.pipe = s.pipe
  reader : channel.reader = s.reader
  written : channel.written = s.written
  received : channel.received = s.received
  writer : s.writers = [] ∧ channel.writer.agenda = [] ∨
    ∃ t, s.writers = [(t, channel.writer)] ∧ channel.writer.agenda ≠ []

/-- A read that ends without `poll` has counted a byte. -/
structure Fruitful (reader : Reader) : Prop where
  copy : ∀ dst size count, reader.agenda = [.copy dst size, .advance count] →
    0 < reader.nread + count
  advance : ∀ count, reader.agenda = [.advance count] → 0 < reader.nread + count

/-- The invariant of what flows through a pipeline. -/
structure Feeds (s : Pipeline) : Prop where
  reads : s.reading ≠ none → s.agenda = []
  calls : s.reading = none ↔ s.reader.agenda = []
  fruitful : Fruitful s.reader
  drained : s.reader.polls = true → s.pipe.isOpen = false → getSize s.pipe = 0
  channel : ∃ channel, Fifo channel ∧ Carries s channel

theorem read_call_ne_nil (p : Pipe) (dst count : Nat) : readCall p dst count ≠ [] := by
  unfold readCall
  simp only
  split_ifs <;> exact List.cons_ne_nil _ _

theorem read_op_open (op : ReadOp) (rest : List ReadOp) (p : Pipe) (reader : Reader) :
    (readOp op rest p reader).1.isOpen = p.isOpen := by
  cases op with
  | poll dst count =>
      unfold readOp
      simp only
      split <;> rfl
  | _ => rfl

theorem write_op_open (op : WriteOp) (rest : List WriteOp) (p : Pipe) (writer : Writer) :
    (writeOp op rest p writer).1.isOpen = p.isOpen := by
  cases op <;> rfl

/-- What the accesses of a reader leave to be done. -/
theorem read_op_fruitful {head size : Nat} {op : ReadOp} {rest : List ReadOp} {p : Pipe}
    {reader : Reader} (reading : Reading head size reader.nread reader.agenda)
    (fruitful : Fruitful reader) (shape : reader.agenda = op :: rest) :
    Fruitful (readOp op rest p reader).2 := by
  rw [shape] at reading
  cases reading with
  | size count positive =>
      have fresh := read_call_fresh p reader.nread count
      constructor
      · intro dst amount again known
        change readCall p reader.nread count ++ [] = _ at known
        rw [List.append_nil] at known
        unfold readCall at known
        simp only at known
        split_ifs at known
        · cases known
        · cases known
        · cases known
        · cases known
          change 0 < reader.nread + count
          omega
      · intro again known
        change readCall p reader.nread count ++ [] = _ at known
        rw [List.append_nil] at known
        exact absurd known (fresh again [])
  | poll count positive =>
      unfold readOp
      simp only
      split
      · exact ⟨nofun, nofun⟩
      · exact ⟨nofun, nofun⟩
  | around remain count positive ends fits =>
      constructor
      · intro dst amount again known
        have lengths := congrArg List.length known
        change (readCall p reader.nread remain ++ [ReadOp.reset, _]).length = 2 at lengths
        have some := List.length_pos_of_ne_nil (read_call_ne_nil p reader.nread remain)
        rw [List.length_append] at lengths
        simp only [List.length_cons, List.length_nil] at lengths
        omega
      · intro again known
        have lengths := congrArg List.length known
        change (readCall p reader.nread remain ++ [ReadOp.reset, _]).length = 1 at lengths
        rw [List.length_append] at lengths
        simp only [List.length_cons, List.length_nil] at lengths
        omega
  | copy count after fits inside resumes =>
      constructor
      · intro dst amount again known
        cases known
      · intro again known
        change .advance count :: after = _ at known
        rcases List.cons.inj known with ⟨same, rfl⟩
        cases same
        exact fruitful.copy reader.nread count count shape
  | advance count after fits inside resumes =>
      rcases resumes with done | ⟨next, positive, -, again⟩
      · rw [done]
        exact ⟨nofun, nofun⟩
      · rw [again]
        exact ⟨nofun, nofun⟩
  | reset count positive ends =>
      exact ⟨nofun, nofun⟩

/-- The reader polls after it has found the pipe empty. -/
theorem read_op_polls {head size : Nat} {op : ReadOp} {rest : List ReadOp} {p : Pipe}
    {reader : Reader} (reading : Reading head size reader.nread reader.agenda)
    (shape : reader.agenda = op :: rest) (polls : (readOp op rest p reader).2.polls = true) :
    (readOp op rest p reader).1 = p ∧ getSize p = 0 := by
  rw [shape] at reading
  have called (count : Nat) (more : List ReadOp)
      (known : Reader.polls { reader with agenda := readCall p reader.nread count ++ more } = true) :
      getSize p = 0 := by
    unfold readCall at known
    simp only at known
    split_ifs at known with empty
    · exact empty
    all_goals cases known
  cases reading with
  | size count positive => exact ⟨rfl, called count [] polls⟩
  | poll count positive =>
      unfold readOp at polls
      simp only at polls
      split at polls <;> cases polls
  | around remain count positive ends fits => exact ⟨rfl, called remain _ polls⟩
  | copy count after fits inside resumes => cases polls
  | advance count after fits inside resumes =>
      rcases resumes with done | ⟨next, positive, -, again⟩
      · rw [done] at polls
        cases polls
      · rw [again] at polls
        cases polls
  | reset count positive ends => cases polls

end Follow

section Steps

variable {s s' : Pipeline}

/-- What the invariants say of a pipeline. -/
structure Sound (s : Pipeline) : Prop where
  ends : Ends s
  feeds : Feeds s

theorem start_sound {before : Descriptors} {parent : Nat} {mem buf : Bytes}
    (started : Pipeline.start before parent mem buf = some s) : Sound s := by
  rcases Option.map_eq_some_iff.mp started with ⟨fds, stepped, rfl⟩
  rcases Option.bind_eq_some_iff.mp stepped with ⟨task, running, made⟩
  have listed := running_listed running
  have inside := (List.getElem?_eq_some_iff.mp listed).1
  obtain ⟨i, j, found, second, rfl⟩ := pipe_cases made
  have place := new_fd_num_empty second
  constructor
  · constructor
    · change before.files.length + 1 < (before.files ++ [_, _]).length
      simp
    · change before.opens.length < (before.opens ++ [_]).length
      simp
    · change parent < (before.tasks.set parent _).length
      rw [List.length_set]
      exact inside
    · change true = (before.opens ++ [true]).getD before.opens.length false
      simp
    · refine Staged.piped _ i j rfl (List.getElem?_set_self inside) rfl ?_ rfl
      exact put_slot_self place.1 _
    · exact nofun
    · exact nofun
  · constructor
    · exact fun reading => absurd rfl reading
    · exact ⟨fun _ => rfl, fun _ => rfl⟩
    · exact ⟨nofun, nofun⟩
    · exact nofun
    · exact ⟨piped mem buf, piped_fifo mem buf, rfl, rfl, rfl, rfl, Or.inl ⟨rfl, rfl⟩⟩

/-- Clearing `open` or leaving it as it is. -/
theorem feeds_fds (feeds : Feeds s) {fds : Descriptors}
    (flag : fds.opens.getD s.id false = s.pipe.isOpen ∨
      fds.opens.getD s.id false = false ∧ (s.reader.polls = true → getSize s.pipe = 0)) :
    Feeds (s.setFds fds) := by
  constructor
  · exact feeds.reads
  · exact feeds.calls
  · exact feeds.fruitful
  · intro polls closed
    rcases flag with same | ⟨_, empty⟩
    · exact feeds.drained polls (same.symm.trans closed)
    · exact empty polls
  · rcases feeds.channel with ⟨channel, fifo, carries⟩
    rcases flag with same | ⟨cleared, _⟩
    · refine ⟨channel, fifo, ?_, carries.reader, carries.written, carries.received, carries.writer⟩
      change channel.pipe = { s.pipe with isOpen := fds.opens.getD s.id false }
      rw [same]
      exact carries.pipe
    · refine ⟨_, step_fifo .close channel _ fifo rfl, ?_, carries.reader, carries.written,
        carries.received, carries.writer⟩
      change { channel.pipe with isOpen := false } =
        ({ s.pipe with isOpen := fds.opens.getD s.id false } : Pipe)
      rw [cleared, carries.pipe]

theorem parent_sound (sound : Sound s) (stepped : pipelineStep .parent s = some s') : Sound s' := by
  simp only [pipelineStep] at stepped
  split at stepped
  next => cases stepped
  next act rest agenda =>
    rcases Option.map_eq_some_iff.mp stepped with ⟨fds, ran, rfl⟩
    have ends := ends_parent sound.ends agenda ran
    have feeds := sound.feeds
    have idle : s.reading = none := by
      by_contra reading
      have done := feeds.reads reading
      rw [agenda] at done
      cases done
    have resumed : Feeds ({ s with agenda := rest } : Pipeline) := by
      rcases feeds.channel with ⟨channel, fifo, carries⟩
      exact ⟨fun reading => absurd idle reading, feeds.calls, feeds.fruitful, feeds.drained,
        channel, fifo, carries.pipe, carries.reader, carries.written, carries.received,
        carries.writer⟩
    exact ⟨ends, feeds_fds resumed (Or.inl (parent_flag sound.ends agenda ran).2)⟩

theorem fd_sound (sound : Sound s) {act : FdAct} (met : disciplined (.fd act) s = true)
    (stepped : pipelineStep (.fd act) s = some s') : Sound s' := by
  simp only [pipelineStep] at stepped
  split at stepped
  next free =>
    rcases Option.map_eq_some_iff.mp stepped with ⟨fds, ran, rfl⟩
    refine ⟨ends_fd sound.ends free ran met, feeds_fds sound.feeds ?_⟩
    rcases (fd_step_flag act sound.ends.flagIn ran).2 with
      same | ⟨t, i, task, held, closing, endAt, -, -, -, -, cleared⟩
    · exact Or.inl (same.trans sound.ends.flag.symm)
    · refine Or.inr ⟨cleared, ?_⟩
      have filtered : (s.fds.closing act).filter (s.fds.endAt s.id) = some (t, i) := by
        rw [closing, Option.filter_some, if_pos endAt]
      unfold disciplined at met
      simp only [filtered, Bool.and_eq_true] at met
      intro polls
      have empty := met.2
      simpa [polls] using empty
  next => cases stepped

theorem read_sound (sound : Sound s) {t count : Nat}
    (stepped : pipelineStep (.read t count) s = some s') : Sound s' := by
  simp only [pipelineStep] at stepped
  split at stepped
  next ready =>
    cases stepped
    rcases ready with ⟨agenda, free, -, idle, positive⟩
    rcases sound.feeds.channel with ⟨channel, fifo, carries⟩
    have idle' : channel.reader.agenda = [] := by
      rw [carries.reader]
      exact idle
    have called : pipeStep (.read count) channel =
        some { channel with reader := ⟨[.size 0 count], channel.reader.buf, 0⟩ } := by
      simp only [pipeStep]
      exact if_pos ⟨idle', positive⟩
    constructor
    · exact sound.ends.congr rfl rfl rfl rfl rfl rfl sound.ends.writes
    · constructor
      · exact fun _ => agenda
      · constructor
        · intro none
          cases none
        · intro empty
          cases empty
      · constructor
        · intro dst size advanced shape
          cases shape
        · intro advanced shape
          cases shape
      · intro polls
        cases polls
      · refine ⟨_, step_fifo _ channel _ fifo called, carries.pipe, ?_, carries.written,
          carries.received, carries.writer⟩
        rw [carries.reader]
  next => cases stepped

theorem reader_sound (sound : Sound s) (stepped : pipelineStep .reader s = some s') : Sound s' := by
  simp only [pipelineStep] at stepped
  split at stepped
  next => cases stepped
  next op rest shape =>
    cases stepped
    have feeds := sound.feeds
    rcases feeds.channel with ⟨channel, fifo, carries⟩
    have reading := fifo.flows.reading
    rw [carries.pipe, carries.reader] at reading
    have busy : s.reading ≠ none := by
      rw [Ne, feeds.calls, shape]
      exact List.cons_ne_nil op rest
    have shape' : channel.reader.agenda = op :: rest := by
      rw [carries.reader]
      exact shape
    have moved : pipeStep .reader channel =
        some (channel.afterRead (readOp op rest channel.pipe channel.reader).1
          (readOp op rest channel.pipe channel.reader).2) := by
      simp only [pipeStep, shape']
    have fifo' := step_fifo .reader channel _ fifo moved
    rw [carries.pipe, carries.reader] at fifo'
    have isOpen := read_op_open op rest s.pipe s.reader
    have fruitful := @read_op_fruitful _ _ op rest s.pipe s.reader reading feeds.fruitful shape
    have polled := @read_op_polls _ _ op rest s.pipe s.reader reading shape
    generalize readOp op rest s.pipe s.reader = done at fifo' isOpen fruitful polled ⊢
    unfold Channel.afterRead at fifo'
    unfold Pipeline.afterRead
    split
    next finished =>
      rw [if_pos finished] at fifo'
      constructor
      · exact sound.ends.congr rfl rfl rfl rfl rfl isOpen sound.ends.writes
      · constructor
        · exact fun reading => absurd rfl reading
        · exact ⟨fun _ => finished, fun _ => rfl⟩
        · constructor
          · intro dst size count known
            change done.2.agenda = _ at known
            rw [finished] at known
            cases known
          · intro count known
            change done.2.agenda = _ at known
            rw [finished] at known
            cases known
        · intro polls
          change Reader.polls { done.2 with nread := 0 } = true at polls
          unfold Reader.polls at polls
          rw [finished] at polls
          cases polls
        · refine ⟨_, fifo', rfl, rfl, carries.written, ?_, carries.writer⟩
          rw [carries.received]
    next more =>
      rw [if_neg more] at fifo'
      constructor
      · exact sound.ends.congr rfl rfl rfl rfl rfl isOpen sound.ends.writes
      · constructor
        · exact fun _ => feeds.reads busy
        · constructor
          · exact fun none => absurd none busy
          · exact fun none => absurd none more
        · exact fruitful
        · intro polls _
          have known := polled polls
          change getSize done.1 = 0
          rw [known.1]
          exact known.2
        · exact ⟨_, fifo', rfl, rfl, carries.written, carries.received, carries.writer⟩

/-- While a task is in `pipe_write`, the pipe is open. -/
theorem writing_open (sound : Sound s) {call : Nat × Writer} (member : call ∈ s.writers) :
    s.pipe.isOpen = true := by
  rcases sound.ends.writes call member with ⟨plain, task, listed, keeps⟩
  by_contra closed
  have shut : s.pipe.isOpen = false := by simpa using closed
  have absent := sound.ends.shut shut call.1 task listed
  rw [keeps_plain plain, keeps] at absent
  cases absent

theorem has_keeps {fds : Descriptors} {t f : Nat} (has : fds.has t f = true) :
    ∃ task, fds.tasks[t]? = some task ∧ task.keeps f = true := by
  unfold Descriptors.has at has
  split at has
  next => cases has
  next task running =>
    refine ⟨task, running_listed running, keeps_iff.mpr (Or.inl ?_)⟩
    simpa using has

theorem write_sound (sound : Sound s) {t : Nat} {buf : List UInt8}
    (met : disciplined (.write t buf) s = true)
    (stepped : pipelineStep (.write t buf) s = some s') : Sound s' := by
  simp only [pipelineStep] at stepped
  split at stepped
  next ready =>
    cases stepped
    rcases ready with ⟨free, has, some⟩
    have none : s.writers = [] := List.isEmpty_iff.mp met
    have feeds := sound.feeds
    rcases feeds.channel with ⟨channel, fifo, carries⟩
    have idle : channel.writer.agenda = [] := by
      rcases carries.writer with known | ⟨u, known, -⟩
      · exact known.2
      · rw [none] at known
        cases known
    have called : pipeStep (.write buf) channel = Option.some
        { channel with
          writer := ⟨[.size buf], 0⟩
          asked := buf.length
          written := channel.written ++ buf } := by
      simp only [pipeStep]
      exact if_pos ⟨idle, some⟩
    constructor
    · refine sound.ends.congr rfl rfl rfl rfl rfl rfl ?_
      intro call member
      rcases List.mem_append.mp member with old | new
      · exact sound.ends.writes call old
      · rw [List.mem_singleton.mp new]
        exact ⟨(free_plain free).1, has_keeps has⟩
    · constructor
      · exact feeds.reads
      · exact feeds.calls
      · exact feeds.fruitful
      · exact feeds.drained
      · refine ⟨_, step_fifo _ channel _ fifo called, carries.pipe, carries.reader, ?_,
          carries.received, Or.inr ⟨t, ?_, List.cons_ne_nil _ _⟩⟩
        · rw [carries.written]
        · rw [none]
          rfl
  next => cases stepped

theorem writer_sound (sound : Sound s) {t : Nat}
    (stepped : pipelineStep (.writer t) s = some s') : Sound s' := by
  simp only [pipelineStep] at stepped
  have feeds := sound.feeds
  rcases feeds.channel with ⟨channel, fifo, carries⟩
  rcases carries.writer with ⟨none, -⟩ | ⟨u, only, busy⟩
  · rw [none] at stepped
    cases stepped
  · rw [only] at stepped
    have own : t = u := by
      by_contra other
      have absent : [(u, channel.writer)].lookup t = none := by
        rw [List.lookup_cons, beq_false_of_ne other]
        rfl
      rw [absent] at stepped
      cases stepped
    subst own
    have found : [(t, channel.writer)].lookup t = some channel.writer :=
      List.lookup_cons_self
    rw [found] at stepped
    simp only at stepped
    split at stepped
    next => cases stepped
    next op rest shape =>
      cases stepped
      have isOpen := @writing_open s sound (t, channel.writer) (by rw [only]; simp)
      have moved : pipeStep .writer channel =
          some (channel.afterWrite (writeOp op rest channel.pipe channel.writer).1
            (writeOp op rest channel.pipe channel.writer).2) := by
        simp only [pipeStep, shape]
      have fifo' := step_fifo .writer channel _ fifo moved
      rw [carries.pipe] at fifo'
      have still := write_op_open op rest s.pipe channel.writer
      generalize writeOp op rest s.pipe channel.writer = done at fifo' still ⊢
      unfold Channel.afterWrite at fifo'
      unfold Pipeline.afterWrite
      split
      next finished =>
        rw [if_pos finished] at fifo'
        have empty : s.writers.filter (fun call => decide (call.1 ≠ t)) = [] := by
          rw [only]
          simp
        constructor
        · refine sound.ends.congr rfl rfl rfl rfl rfl still ?_
          intro call member
          exact sound.ends.writes call (List.mem_of_mem_filter member)
        · constructor
          · exact feeds.reads
          · exact feeds.calls
          · exact feeds.fruitful
          · intro _ closed
            change done.1.isOpen = false at closed
            rw [still, isOpen] at closed
            cases closed
          · exact ⟨_, fifo', rfl, carries.reader, carries.written, carries.received,
              Or.inl ⟨empty, finished⟩⟩
      next more =>
        rw [if_neg more] at fifo'
        have renewed : s.writers.map (fun call => if call.1 = t then (t, done.2) else call) =
            [(t, done.2)] := by
          rw [only]
          simp
        constructor
        · refine sound.ends.congr rfl rfl rfl rfl rfl still ?_
          intro call member
          change call ∈ s.writers.map _ at member
          rw [renewed, List.mem_singleton] at member
          rw [member]
          exact sound.ends.writes (t, channel.writer) (by rw [only]; exact List.mem_singleton_self _)
        · constructor
          · exact feeds.reads
          · exact feeds.calls
          · exact feeds.fruitful
          · intro _ closed
            change done.1.isOpen = false at closed
            rw [still, isOpen] at closed
            cases closed
          · exact ⟨_, fifo', rfl, carries.reader, carries.written, carries.received,
              Or.inr ⟨t, renewed, more⟩⟩

theorem pipeline_step_sound (act : PipelineAct) (s s' : Pipeline) (sound : Sound s)
    (met : disciplined act s = true) (stepped : pipelineStep act s = some s') : Sound s' := by
  cases act with
  | parent => exact parent_sound sound stepped
  | fd act => exact fd_sound sound met stepped
  | read t count => exact read_sound sound stepped
  | reader => exact reader_sound sound stepped
  | write t buf => exact write_sound sound met stepped
  | writer t => exact writer_sound sound stepped

/-- A read that returns 0 has found the pipe closed, and nothing has been counted. -/
theorem returns_zero_polls (sound : Sound s) (stepped : pipelineStep .reader s = some s')
    (zero : ReturnsZero s s') :
    s'.fds = s.fds ∧ s'.written = s.written ∧ s'.writeEnd = s.writeEnd ∧ s.reader.polls = true ∧
      s.pipe.isOpen = false ∧ s.reader.nread = 0 := by
  simp only [pipelineStep] at stepped
  split at stepped
  next => cases stepped
  next op rest shape =>
    cases stepped
    have feeds := sound.feeds
    rcases feeds.channel with ⟨channel, fifo, carries⟩
    have reading := fifo.flows.reading
    rw [carries.pipe, carries.reader, shape] at reading
    have returned := zero.2.1
    have same := zero.2.2
    unfold Pipeline.afterRead at returned same ⊢
    by_cases finished : (readOp op rest s.pipe s.reader).2.agenda = []
    · rw [if_pos finished] at same ⊢
      have none : (readOp op rest s.pipe s.reader).2.nread = 0 := by
        have lengths := congrArg List.length same
        change (s.received ++ slice _ 0 _).length = s.received.length at lengths
        rw [List.length_append, slice_length] at lengths
        omega
      cases reading with
      | size count positive =>
          change readCall s.pipe s.reader.nread count ++ [] = [] at finished
          rw [List.append_nil] at finished
          exact absurd finished (read_call_ne_nil _ _ _)
      | poll count positive =>
          refine ⟨rfl, rfl, rfl, ?_, ?_, ?_⟩
          · unfold Reader.polls
            rw [shape]
          · by_contra open'
            unfold readOp at finished
            simp only at finished
            rw [if_pos (by simpa using open')] at finished
            cases finished
          · unfold readOp at none
            simp only at none
            split at none <;> exact none
      | around remain count positive ends fits =>
          have lengths := congrArg List.length finished
          change (readCall s.pipe s.reader.nread remain ++ [ReadOp.reset, _]).length = 0 at lengths
          rw [List.length_append] at lengths
          simp only [List.length_cons] at lengths
          omega
      | copy count after fits inside resumes => cases finished
      | advance count after fits inside resumes =>
          change rest = [] at finished
          rw [finished] at shape
          have counted := feeds.fruitful.advance count shape
          change s.reader.nread + count = 0 at none
          omega
      | reset count positive ends => cases finished
    · rw [if_neg finished] at returned
      exact absurd returned zero.1

end Steps

section Runs

/-- In every disciplined run, `pipe_read` returns 0 for a positive count only when no task has a
descriptor for the write end and every byte that was written has been read. -/
theorem pipe_end_of_file (before : Descriptors) (parent : Nat) (mem buf : Bytes)
    (start final next : Pipeline) (acts : List PipelineAct)
    (started : Pipeline.start before parent mem buf = some start)
    (guarded : GuardedRun pipelineStep (fun act s => disciplined act s = true) acts start)
    (ran : runSteps pipelineStep acts start = some final)
    (read : pipelineStep .reader final = some next) (zero : ReturnsZero final next) :
    AtEnd next := by
  have sound : Sound final := run_invariant pipelineStep
    (fun act s s' known met stepped => pipeline_step_sound act s s' known met stepped)
    acts start final (start_sound started) guarded ran
  rcases returns_zero_polls sound read zero with
    ⟨fds, written, writeEnd, polls, closed, uncounted⟩
  have none := sound.ends.shut closed
  have agenda := sound.feeds.reads zero.1
  have size := sound.feeds.drained polls closed
  have idle : final.writers = [] := by
    by_contra some
    rcases List.exists_mem_of_ne_nil _ some with ⟨call, member⟩
    have isOpen := writing_open sound member
    rw [closed] at isOpen
    cases isOpen
  constructor
  · intro task member
    rw [fds] at member
    rcases List.mem_iff_getElem?.mp member with ⟨t, listed⟩
    have absent := none t task listed
    rw [keeps_plain (Or.inr agenda)] at absent
    rw [writeEnd]
    exact absent
  · rcases sound.feeds.channel with ⟨channel, fifo, carries⟩
    have conserved := fifo.flows.conserved
    have sent : unsent channel.writer.agenda = [] := by
      rcases carries.writer with known | ⟨t, known, -⟩
      · rw [known.2]
        rfl
      · rw [idle] at known
        cases known
    have empty : held final.pipe = [] := by
      unfold held
      rw [size]
      rfl
    rw [sent, carries.pipe, empty, carries.reader, uncounted, carries.written,
      carries.received] at conserved
    rw [zero.2.2, written, conserved]
    simp [slice]

/-- A shell task with the console at 0, 1 and 2. -/
def shell : List FdAct :=
  [.create none, .openFile 0 (some .devfs), .openFile 0 (some .devfs), .openFile 0 (some .devfs)]

/-- The shell after `pipe`. -/
def shellPipe : Option Pipeline :=
  (runSteps fdStep shell noTasks).bind fun before =>
    Pipeline.start before 0 blankBytes blankBytes

def exits (task : Nat) : List PipelineAct :=
  .fd (.exit task) :: List.replicate (fdNum + 1) (.fd (.leave task))

/-- `a | c`: `a` is task 1, writes a byte that `c` reads, and exits; then `c`, task 2, reads again. -/
def single : List PipelineAct :=
  List.flatten [List.replicate 5 .parent, [.write 1 [7], .writer 1, .writer 1, .writer 1],
    [.read 2 1, .reader, .reader, .reader], exits 1, [.read 2 1, .reader]]

theorem pipe_end_of_file_once : ∃ start final next,
    shellPipe = some start ∧ runSteps pipelineStep single start = some final ∧
      pipelineStep .reader final = some next ∧ next.received = [7] ∧ AtEnd next := by
  have results : ((shellPipe.bind fun start => runSteps pipelineStep single start).bind
      fun final => (pipelineStep .reader final).map fun next =>
        (final.reading, next.reading, final.received, next.received)) =
          some (some 2, none, [7], [7]) := by
    decide +kernel
  have guarded : ∀ start ∈ shellPipe,
      GuardedRun pipelineStep (fun act s => disciplined act s = true) single start := by
    decide +kernel
  rcases Option.bind_eq_some_iff.mp results with ⟨final, reached, shown⟩
  rcases Option.bind_eq_some_iff.mp reached with ⟨start, made, ran⟩
  rcases Option.bind_eq_some_iff.mp made with ⟨before, -, started⟩
  rcases Option.map_eq_some_iff.mp shown with ⟨next, read, known⟩
  simp only [Prod.mk.injEq] at known
  rcases known with ⟨busy, returned, had, has⟩
  have zero : ReturnsZero final next := by
    refine ⟨?_, returned, has.trans had.symm⟩
    rw [busy]
    exact nofun
  exact ⟨start, final, next, made, ran, read, has, pipe_end_of_file before 0 blankBytes blankBytes
    start final next single started (guarded start made) ran read zero⟩

/-- `(a ; b) | c`: the left side, task 1, runs `a` as task 3, which exits; then `c` reads. -/
def listOnTheLeft : List PipelineAct :=
  List.flatten [List.replicate 5 .parent, [.fd (.create (some 1))], exits 3, [.read 2 1, .reader]]

/-- The read returns 0 while the left side has the write end and `b` has not even started. -/
theorem list_ends_early : ∃ start final next,
    shellPipe = some start ∧ runSteps pipelineStep listOnTheLeft start = some final ∧
      pipelineStep .reader final = some next ∧ ReturnsZero final next ∧ ¬ AtEnd next := by
  have results : ((shellPipe.bind fun start => runSteps pipelineStep listOnTheLeft start).bind
      fun final => (pipelineStep .reader final).map fun next =>
        (final.reading, next.reading, decide (next.received = final.received),
          next.fds.tasks.any fun task => task.keeps next.writeEnd)) =
          some (some 2, none, true, true) := by
    decide +kernel
  rcases Option.bind_eq_some_iff.mp results with ⟨final, reached, shown⟩
  rcases Option.bind_eq_some_iff.mp reached with ⟨start, made, ran⟩
  rcases Option.map_eq_some_iff.mp shown with ⟨next, read, known⟩
  simp only [Prod.mk.injEq, decide_eq_true_eq, List.any_eq_true] at known
  rcases known with ⟨busy, returned, same, task, member, keeps⟩
  refine ⟨start, final, next, made, ran, read, ⟨?_, returned, same⟩, ?_⟩
  · rw [busy]
    exact nofun
  · intro ended
    have closed := ended.closed task member
    rw [keeps] at closed
    cases closed

end Runs

end OsWorkbench.Kernel
