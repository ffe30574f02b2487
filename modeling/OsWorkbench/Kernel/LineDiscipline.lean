import OsWorkbench.Kernel.Tty

/-!
# What is read is what was edited

The ring holds the finished lines that nobody has read, each with its terminator, and the line that
is being typed. Backspace looks at the byte before `rear`; it is the last character of that line,
the terminator of the line before, or the byte before `front`, which is always zero.
-/

namespace OsWorkbench.Kernel

open Library

section Queue

/-- The bytes between `front` and `rear`. -/
structure TtyQueue.Stores (q : TtyQueue) (bytes : List UInt8) : Prop where
  inside : q.front < ttyCookBufSz
  room : bytes.length < ttyCookBufSz
  rear : q.rear = (q.front + bytes.length) % ttyCookBufSz
  bytes : window q.buf ttyCookBufSz q.front bytes.length = bytes

/-- They start behind a zero, at the start of a line. -/
structure TtyQueue.Holds (q : TtyQueue) (bytes : List UInt8) : Prop extends q.Stores bytes where
  before : q.buf ((q.front + (ttyCookBufSz - 1)) % ttyCookBufSz) = 0

variable {q q' : TtyQueue} {bytes : List UInt8} {ch : UInt8}

theorem after_place {place : Nat} (inside : place < ttyCookBufSz) :
    afterPlace place = (place + 1) % ttyCookBufSz := by
  unfold afterPlace ttyCookBufSz at *
  split <;> omega

theorem place_after (index : Nat) :
    afterPlace (index % ttyCookBufSz) = (index + 1) % ttyCookBufSz := by
  rw [after_place (Nat.mod_lt _ (by decide)), Nat.mod_add_mod]

theorem fresh_holds : TtyQueue.Holds ⟨fun _ => 0, 0, 0⟩ [] where
  inside := by decide
  room := by decide
  rear := rfl
  bytes := rfl
  before := rfl

theorem enqueue_rear (stores : q.Stores bytes) :
    afterPlace q.rear = (q.front + (bytes.length + 1)) % ttyCookBufSz := by
  rw [stores.rear, place_after, Nat.add_assoc]

theorem enqueue_holds (holds : q.Holds bytes) (taken : ttyEnqueue q ch = some q') :
    q'.Holds (bytes ++ [ch]) := by
  have next := enqueue_rear holds.toStores
  have inside := holds.inside
  have room := holds.room
  simp only [ttyEnqueue] at taken
  split at taken
  · cases taken
  · rename_i apart
    cases taken
    have space : bytes.length + 1 < ttyCookBufSz := by
      by_contra full
      apply apart
      have last : bytes.length + 1 = ttyCookBufSz := by omega
      rw [next, last, Nat.add_mod_right, Nat.mod_eq_of_lt inside]
    have stored : window (Function.update (Function.update q.buf q.rear ch) (afterPlace q.rear) 0)
        ttyCookBufSz q.front (bytes.length + 1) = bytes ++ [ch] := by
      rw [next, window_update_end _ space, holds.rear, window_push _ room, holds.bytes]
    have zero : Function.update (Function.update q.buf q.rear ch) (afterPlace q.rear) 0
        ((q.front + (ttyCookBufSz - 1)) % ttyCookBufSz) = 0 := by
      by_cases reached :
          (q.front + (ttyCookBufSz - 1)) % ttyCookBufSz = afterPlace q.rear
      · rw [reached, Function.update_self]
      · have other : (q.front + (ttyCookBufSz - 1)) % ttyCookBufSz ≠ q.rear := by
          rw [holds.rear]
          exact (ring_index_ne (by omega) (by omega)).symm
        rw [Function.update_of_ne reached, Function.update_of_ne other]
        exact holds.before
    have longer : (bytes ++ [ch]).length = bytes.length + 1 := List.length_append
    refine ⟨⟨inside, ?_, ?_, ?_⟩, ?_⟩
    · rw [longer]
      exact space
    · rw [longer]
      exact next
    · rw [longer]
      exact stored
    · dsimp only
      exact zero

/-- A character is taken as long as the ring keeps a free place. -/
theorem enqueue_takes (holds : q.Holds bytes) (space : bytes.length + 1 < ttyCookBufSz)
    (ch : UInt8) : ∃ q', ttyEnqueue q ch = some q' := by
  have apart : afterPlace q.rear ≠ q.front := by
    have inside := holds.inside
    have front : q.front = (q.front + 0) % ttyCookBufSz := by
      rw [Nat.add_zero, Nat.mod_eq_of_lt inside]
    have different := @ring_index_ne ttyCookBufSz q.front 0 (bytes.length + 1)
      (Nat.zero_lt_succ _) space
    rw [← front, ← enqueue_rear holds.toStores] at different
    exact different.symm
  exact ⟨_, if_neg apart⟩

theorem pop_back_place (holds : q.Holds bytes) :
    (if q.rear = 0 then ttyCookBufSz else q.rear) - 1 =
      (q.front + bytes.length + (ttyCookBufSz - 1)) % ttyCookBufSz := by
  have rear := holds.rear
  unfold ttyCookBufSz at *
  split <;> omega

/-- The byte that backspace looks at. -/
theorem last_byte (holds : q.Holds bytes) :
    q.buf ((q.front + bytes.length + (ttyCookBufSz - 1)) % ttyCookBufSz) =
      (0 :: bytes).getLast (List.cons_ne_nil _ _) := by
  rcases List.eq_nil_or_concat' bytes with rfl | ⟨early, last, rfl⟩
  · exact holds.before
  · have stored := holds.bytes
    rw [List.length_append, List.length_singleton, window_concat] at stored
    have ending := List.append_inj_right' stored rfl
    have place : (q.front + (early ++ [last]).length + (ttyCookBufSz - 1)) % ttyCookBufSz =
        (q.front + early.length) % ttyCookBufSz := by
      rw [List.length_append, List.length_singleton]
      unfold ttyCookBufSz
      omega
    rw [place, List.singleton_inj.mp ending]
    simp

/-- Nothing is deleted behind a terminator. -/
theorem pop_back_stops (holds : q.Holds bytes)
    (ended : (0 :: bytes).getLast (List.cons_ne_nil _ _) = 0) : ttyPopBack q = (q, 1) := by
  have last := last_byte holds
  rw [ended, ← pop_back_place holds] at last
  simp only [ttyPopBack, last]
  simp

theorem pop_back_deletes (holds : q.Holds (bytes ++ [ch])) (visible : ch ≠ 0) :
    (ttyPopBack q).1.Holds bytes ∧ (ttyPopBack q).2 = 0 := by
  have inside := holds.inside
  have room := holds.room
  have last := last_byte holds
  have place := pop_back_place holds
  rw [List.length_append, List.length_singleton] at room last place
  have index : (q.front + (bytes.length + 1) + (ttyCookBufSz - 1)) % ttyCookBufSz =
      (q.front + bytes.length) % ttyCookBufSz := by
    unfold ttyCookBufSz
    omega
  rw [index] at last place
  have kept : q.buf ((q.front + bytes.length) % ttyCookBufSz) ≠ 0 := by
    rw [last]
    simpa using visible
  have popped : ttyPopBack q =
      ({ q with
          buf := Function.update q.buf ((q.front + bytes.length) % ttyCookBufSz) 0
          rear := (q.front + bytes.length) % ttyCookBufSz }, 0) := by
    simp only [ttyPopBack, place, if_pos kept, if_pos (Nat.ne_of_lt inside)]
  rw [popped]
  have remaining : window (Function.update q.buf ((q.front + bytes.length) % ttyCookBufSz) 0)
      ttyCookBufSz q.front bytes.length = bytes := by
    rw [window_update_end _ (by omega)]
    have stored := holds.bytes
    rw [List.length_append, List.length_singleton, window_concat] at stored
    exact List.append_inj_left' stored rfl
  have zero : Function.update q.buf ((q.front + bytes.length) % ttyCookBufSz) 0
      ((q.front + (ttyCookBufSz - 1)) % ttyCookBufSz) = 0 := by
    have other : (q.front + (ttyCookBufSz - 1)) % ttyCookBufSz ≠
        (q.front + bytes.length) % ttyCookBufSz := (ring_index_ne (by omega) (by omega)).symm
    rw [Function.update_of_ne other]
    exact holds.before
  refine ⟨⟨⟨inside, by omega, rfl, remaining⟩, ?_⟩, rfl⟩
  dsimp only
  exact zero

theorem front_byte (stores : q.Stores (ch :: bytes)) : q.buf q.front = ch := by
  have stored := stores.bytes
  rw [List.length_cons, window, Nat.mod_eq_of_lt stores.inside] at stored
  exact (List.cons.inj stored).1

theorem front_stores (stores : q.Stores (ch :: bytes)) :
    TtyQueue.Stores { q with front := afterPlace q.front } bytes := by
  have stored := stores.bytes
  have room := stores.room
  have rear := stores.rear
  rw [List.length_cons] at stored room rear
  have next := after_place stores.inside
  have shifted : (afterPlace q.front) % ttyCookBufSz = (q.front + 1) % ttyCookBufSz := by
    rw [next, Nat.mod_mod]
  constructor
  · rw [next]
    exact Nat.mod_lt _ (by decide)
  · omega
  · show q.rear = (afterPlace q.front + bytes.length) % ttyCookBufSz
    rw [rear, next, Nat.mod_add_mod]
    congr 1
    omega
  · rw [window] at stored
    exact (window_congr q.buf shifted bytes.length).trans (List.cons.inj stored).2

/-- A read takes what stands before the first terminator. -/
theorem drain_line {line : List UInt8} (visible : 0 ∉ line) (call : TtyRead)
    (kept : call.buf.length = min call.nread call.count) {fuel : Nat} (fuelled : line.length < fuel)
    (stores : q.Stores (line ++ 0 :: bytes)) :
    ∃ q', ttyDrain fuel q call =
        some (q', { call with
          buf := call.buf ++ line.take (call.count - call.nread)
          nread := call.nread + line.length }) ∧
      q'.Holds bytes := by
  induction line generalizing q call fuel with
  | nil =>
      obtain ⟨fuel, rfl⟩ := Nat.exists_eq_succ_of_ne_zero (Nat.ne_of_gt fuelled)
      have zero : q.buf q.front = 0 := front_byte stores
      refine ⟨{ q with front := afterPlace q.front }, ?_, front_stores stores, ?_⟩
      · simp [ttyDrain, zero]
      · have inside := stores.inside
        have place : (afterPlace q.front + (ttyCookBufSz - 1)) % ttyCookBufSz = q.front := by
          rw [after_place inside, Nat.mod_add_mod]
          unfold ttyCookBufSz at *
          omega
        rw [place]
        exact zero
  | cons first rest hypothesis =>
      obtain ⟨fuel, rfl⟩ := Nat.exists_eq_succ_of_ne_zero (Nat.ne_of_gt (Nat.zero_lt_of_lt fuelled))
      have byte : q.buf q.front = first := front_byte stores
      have shown : first ≠ 0 := fun zero => visible (zero ▸ List.mem_cons_self)
      have later : 0 ∉ rest := fun inside => visible (List.mem_cons_of_mem _ inside)
      have onward := @front_stores q (rest ++ 0 :: bytes) first stores
      have fuelRest : rest.length < fuel := by
        rw [List.length_cons] at fuelled
        omega
      by_cases space : call.nread < call.count
      · have step : ttyDrain (fuel + 1) q call =
            ttyDrain fuel { q with front := afterPlace q.front }
              ⟨call.count, call.buf ++ [first], call.nread + 1⟩ := by
          simp [ttyDrain, byte, shown, space]
        have filled : (call.buf ++ [first]).length = min (call.nread + 1) call.count := by
          rw [List.length_append, List.length_singleton]
          omega
        obtain ⟨q', drained, holds⟩ := hypothesis later
          ⟨call.count, call.buf ++ [first], call.nread + 1⟩ filled fuelRest onward
        refine ⟨q', ?_, holds⟩
        have taken : call.count - call.nread = (call.count - (call.nread + 1)) + 1 := by omega
        rw [step, drained, taken, List.take_succ_cons, List.append_assoc, List.length_cons,
          Nat.add_assoc, Nat.add_comm 1 rest.length]
        rfl
      · have step : ttyDrain (fuel + 1) q call =
            ttyDrain fuel { q with front := afterPlace q.front }
              ⟨call.count, call.buf, call.nread + 1⟩ := by
          simp [ttyDrain, byte, shown, space]
        have filled : call.buf.length = min (call.nread + 1) call.count := by omega
        obtain ⟨q', drained, holds⟩ := hypothesis later
          ⟨call.count, call.buf, call.nread + 1⟩ filled fuelRest onward
        refine ⟨q', ?_, holds⟩
        have none : call.count - call.nread = 0 := by omega
        have fewer : call.count - (call.nread + 1) = 0 := by omega
        rw [step, drained, none, fewer, List.take_zero, List.take_zero, List.length_cons,
          Nat.add_assoc, Nat.add_comm 1 rest.length]

end Queue

section Lines

/-- The finished lines with their terminators, then the line that is being typed. -/
def queuedBytes (lines : List (List UInt8)) (current : List UInt8) : List UInt8 :=
  lines.flatMap (· ++ [0]) ++ current

variable (lines : List (List UInt8)) (line current : List UInt8)

theorem queued_finish {done : Nat} (fewer : done ≤ lines.length) :
    queuedBytes ((lines ++ [line]).drop done) [] = queuedBytes (lines.drop done) line ++ [0] := by
  rw [List.drop_append_of_le_length fewer]
  simp [queuedBytes]

theorem queued_type (ch : UInt8) :
    queuedBytes lines (current ++ [ch]) = queuedBytes lines current ++ [ch] :=
  (List.append_assoc _ _ _).symm

theorem queued_first : queuedBytes (line :: lines) current = line ++ 0 :: queuedBytes lines current := by
  simp [queuedBytes]

theorem queued_ended :
    (0 :: queuedBytes lines []).getLast (List.cons_ne_nil _ _) = 0 := by
  rcases List.eq_nil_or_concat' lines with rfl | ⟨early, last, rfl⟩
  · rfl
  · simp [queuedBytes]

end Lines

section Discipline

/-- The terminal does what the editor does. -/
structure Cooks (editor : LineEditor) (tty : Tty) : Prop where
  queue : tty.queue.Holds (queuedBytes (editor.lines.drop tty.reads.length) editor.current)
  counted : tty.reads.length + tty.passed + tty.cooked = editor.lines.length
  lines : ∀ line ∈ editor.lines, 0 ∉ line
  current : 0 ∉ editor.current
  answers : ∀ (k : Nat) (call : TtyRead), tty.reads[k]? = some call →
    ∃ line, editor.lines[k]? = some line ∧
      call.buf = line.take call.count ∧ call.nread = line.length

variable {editor : LineEditor} {tty next : Tty}

theorem init_cooks : Cooks LineEditor.blank ttyInit where
  queue := fresh_holds
  counted := rfl
  lines := by simp [LineEditor.blank]
  current := by simp [LineEditor.blank]
  answers := by simp [ttyInit]

/-- The end of a line: `line` has just been completed in the ring. -/
theorem Cooks.finish (cooks : Cooks editor tty) {line : List UInt8} {q : TtyQueue}
    (visible : 0 ∉ line)
    (queue : q.Holds (queuedBytes (editor.lines.drop tty.reads.length) line ++ [0])) :
    Cooks ⟨editor.lines ++ [line], []⟩ { tty with queue := q, cooked := tty.cooked + 1 } := by
  have counted := cooks.counted
  constructor
  · show q.Holds (queuedBytes ((editor.lines ++ [line]).drop tty.reads.length) [])
    rw [queued_finish _ _ (by omega)]
    exact queue
  · rw [List.length_append, List.length_singleton]
    show tty.reads.length + tty.passed + (tty.cooked + 1) = _
    omega
  · intro other inside
    rcases List.mem_append.mp inside with before | last
    · exact cooks.lines other before
    · rw [List.mem_singleton.mp last]
      exact visible
  · exact List.not_mem_nil
  · intro k call returned
    obtain ⟨answer, found, right⟩ := cooks.answers k call returned
    exact ⟨answer, by rw [List.getElem?_append_left (List.getElem?_eq_some_iff.mp found).1, found],
      right⟩

theorem cook_cooks {ch : UInt8} {ret : Nat} (cooks : Cooks editor tty)
    (cooked : ttyCook tty ch = some (next, ret)) : Cooks (editor.type ch) next := by
  by_cases ends : ch = newline
  · simp only [ttyCook, if_pos ends, Option.bind_eq_some_iff, Option.map_eq_some_iff,
      Prod.mk.injEq] at cooked
    obtain ⟨q, first, q', second, rfl, -⟩ := cooked
    subst ends
    have line := enqueue_holds (enqueue_holds cooks.queue first) second
    rw [← queued_type] at line
    have visible : 0 ∉ editor.current ++ [newline] := by
      rw [List.mem_append, List.mem_singleton]
      rintro (inside | zero)
      · exact cooks.current inside
      · exact absurd zero (by decide)
    rw [LineEditor.type, if_pos rfl]
    exact cooks.finish visible line
  by_cases closes : ch = 0
  · simp only [ttyCook, if_neg ends, if_pos closes, Option.map_eq_some_iff, Prod.mk.injEq] at cooked
    obtain ⟨q, taken, rfl, -⟩ := cooked
    rw [LineEditor.type, if_neg ends, if_pos closes]
    exact cooks.finish cooks.current (enqueue_holds cooks.queue taken)
  by_cases deletes : ch = backspace
  · simp only [ttyCook, if_neg ends, if_neg closes, if_pos deletes, Option.some.injEq,
      Prod.mk.injEq] at cooked
    obtain ⟨rfl, -⟩ := cooked
    rw [LineEditor.type, if_neg ends, if_neg closes, if_pos deletes]
    refine ⟨?_, cooks.counted, cooks.lines, ?_, cooks.answers⟩
    · have queue := cooks.queue
      rcases List.eq_nil_or_concat' editor.current with blank | ⟨early, last, split⟩
      · rw [blank] at queue ⊢
        rw [pop_back_stops queue (queued_ended _)]
        exact queue
      · have visible : last ≠ 0 := by
          intro zero
          apply cooks.current
          rw [split, zero]
          exact List.mem_append_right _ List.mem_cons_self
        rw [split, queued_type] at queue
        rw [split, List.dropLast_concat]
        exact (pop_back_deletes queue visible).1
    · exact fun inside => cooks.current (List.dropLast_subset _ inside)
  · simp only [ttyCook, if_neg ends, if_neg closes, if_neg deletes, Option.map_eq_some_iff,
      Prod.mk.injEq] at cooked
    obtain ⟨q, taken, rfl, -⟩ := cooked
    rw [LineEditor.type, if_neg ends, if_neg closes, if_neg deletes]
    refine ⟨?_, cooks.counted, cooks.lines, ?_, cooks.answers⟩
    · rw [queued_type]
      exact enqueue_holds cooks.queue taken
    · rw [List.mem_append, List.mem_singleton]
      rintro (inside | zero)
      · exact cooks.current inside
      · exact closes zero.symm

/-- A reader that has passed `cooked` finds a line. -/
theorem read_takes {passed : Nat} (count : Nat) (cooks : Cooks editor tty)
    (waiting : tty.passed = passed + 1) :
    ∃ line q, editor.lines[tty.reads.length]? = some line ∧
      ttyRead { tty with passed := passed } count =
        some { tty with
          queue := q
          passed := passed
          reads := tty.reads ++ [⟨count, line.take count, line.length⟩] } ∧
      q.Holds (queuedBytes (editor.lines.drop (tty.reads.length + 1)) editor.current) := by
  have counted := cooks.counted
  have below : tty.reads.length < editor.lines.length := by omega
  have line := List.getElem?_eq_getElem below
  have queue := cooks.queue
  rw [List.drop_eq_getElem_cons below, queued_first] at queue
  have short := queue.room
  rw [List.length_append] at short
  have fuelled : editor.lines[tty.reads.length].length < ttyCookBufSz := by omega
  obtain ⟨q, drained, holds⟩ := drain_line
    (cooks.lines _ (List.getElem_mem below)) ⟨count, [], 0⟩ (by simp) fuelled queue.toStores
  refine ⟨_, q, line, ?_, holds⟩
  simp [ttyRead, drained]

theorem read_cooks {count passed : Nat} (cooks : Cooks editor tty)
    (waiting : tty.passed = passed + 1)
    (returned : ttyRead { tty with passed := passed } count = some next) : Cooks editor next := by
  obtain ⟨line, q, found, read, queue⟩ := read_takes count cooks waiting
  have counted := cooks.counted
  rw [read] at returned
  cases returned
  refine ⟨?_, ?_, cooks.lines, cooks.current, ?_⟩
  · rw [List.length_append, List.length_singleton]
    exact queue
  · rw [List.length_append, List.length_singleton]
    show tty.reads.length + 1 + passed + tty.cooked = _
    omega
  · intro k call answered
    rcases Nat.lt_trichotomy k tty.reads.length with earlier | here | later
    · rw [List.getElem?_append_left earlier] at answered
      exact cooks.answers k call answered
    · subst here
      rw [List.getElem?_concat_length] at answered
      cases answered
      exact ⟨line, found, rfl, rfl⟩
    · have outside : (tty.reads ++ [⟨count, line.take count, line.length⟩])[k]? = none := by
        rw [List.getElem?_eq_none_iff, List.length_append, List.length_singleton]
        omega
      rw [outside] at answered
      cases answered

/-- One step of the terminal is one step of the editor. -/
theorem step_cooks (act : TtyAct) (cooks : Cooks editor tty) (stepped : ttyStep act tty = some next) :
    Cooks (editor.act act) next := by
  cases act with
  | cook ch =>
      obtain ⟨⟨next, ret⟩, cooked, rfl⟩ := Option.map_eq_some_iff.mp stepped
      exact cook_cooks cooks cooked
  | pass =>
      have counted := cooks.counted
      simp only [ttyStep] at stepped
      split at stepped
      · cases stepped
      · rename_i cooked more
        cases stepped
        refine ⟨cooks.queue, ?_, cooks.lines, cooks.current, cooks.answers⟩
        show tty.reads.length + (tty.passed + 1) + cooked = editor.lines.length
        omega
  | read count =>
      simp only [ttyStep] at stepped
      split at stepped
      · cases stepped
      · rename_i passed waiting
        exact read_cooks cooks waiting stepped

theorem run_cooks {acts : List TtyAct} (ran : runSteps ttyStep acts ttyInit = some tty) :
    Cooks (edited acts) tty :=
  run_refines ttyStep (fun act _ _ _ related _ stepped => step_cooks act related stepped)
    acts LineEditor.blank ttyInit tty init_cooks (guarded_run_trivial ttyStep acts ttyInit) ran

/-- No reader that has passed `cooked` runs out of characters, whatever its count. -/
theorem read_returns {acts : List TtyAct} (ran : runSteps ttyStep acts ttyInit = some tty)
    (waiting : 0 < tty.passed) (count : Nat) : ∃ next, ttyStep (.read count) tty = some next := by
  obtain ⟨passed, more⟩ := Nat.exists_eq_succ_of_ne_zero (Nat.ne_of_gt waiting)
  obtain ⟨line, q, -, read, -⟩ := read_takes count (run_cooks ran) more
  simp only [ttyStep, more]
  exact ⟨_, read⟩

/-- `tty_cook` does not panic while the ring has room for a character and a terminator. -/
theorem cook_returns {acts : List TtyAct} (ran : runSteps ttyStep acts ttyInit = some tty)
    (space : (queuedBytes ((edited acts).lines.drop tty.reads.length)
      (edited acts).current).length + 2 < ttyCookBufSz) (ch : UInt8) :
    ∃ next, ttyStep (.cook ch) tty = some next := by
  have queue := (run_cooks ran).queue
  have place : ∀ ch, ∃ q, ttyEnqueue tty.queue ch = some q := enqueue_takes queue (by omega)
  by_cases ends : ch = newline
  · obtain ⟨q, first⟩ := place ch
    obtain ⟨q', second⟩ := enqueue_takes (enqueue_holds queue first)
      (by rw [List.length_append, List.length_singleton]; omega) 0
    simp only [ttyStep, ttyCook, if_pos ends, first, Option.bind_some, second, Option.map_some]
    exact ⟨_, rfl⟩
  by_cases closes : ch = 0
  · obtain ⟨q, first⟩ := place 0
    simp only [ttyStep, ttyCook, if_neg ends, if_pos closes, first, Option.map_some]
    exact ⟨_, rfl⟩
  by_cases deletes : ch = backspace
  · simp only [ttyStep, ttyCook, if_neg ends, if_neg closes, if_pos deletes, Option.map_some]
    exact ⟨_, rfl⟩
  · obtain ⟨q, first⟩ := place ch
    simp only [ttyStep, ttyCook, if_neg ends, if_neg closes, if_neg deletes, first,
      Option.map_some]
    exact ⟨_, rfl⟩

/-- Each completed read returns the line of the editor whose turn it was. -/
theorem lines_read {acts : List TtyAct} (ran : runSteps ttyStep acts ttyInit = some tty) (k : Nat)
    (call : TtyRead) (completed : tty.reads[k]? = some call)
    (long : ∀ line ∈ (edited acts).lines, line.length < call.count) :
    (edited acts).lines[k]? = some call.buf ∧ call.nread = call.buf.length := by
  obtain ⟨line, found, stored, length⟩ := (run_cooks ran).answers k call completed
  have whole : line.take call.count = line :=
    List.take_of_length_le (Nat.le_of_lt (long line (List.mem_of_getElem? found)))
  rw [whole] at stored
  rw [stored]
  exact ⟨found, length⟩

/-- `a`, `b`, backspace and the end of the line. -/
theorem lines_read_typed :
    ∃ (tty : Tty) (call : TtyRead), tty.reads[0]? = some call ∧
      (edited [.cook 0x61, .cook 0x62, .cook backspace, .cook newline, .pass, .read 8]).lines[0]? =
        some call.buf ∧ call.nread = call.buf.length := by
  have ran : ∃ tty : Tty, runSteps ttyStep
      [.cook 0x61, .cook 0x62, .cook backspace, .cook newline, .pass, .read 8] ttyInit = some tty ∧
        tty.reads[0]? = some ⟨8, [0x61, newline], 2⟩ := ⟨_, rfl, rfl⟩
  obtain ⟨tty, ran, completed⟩ := ran
  exact ⟨tty, _, completed, lines_read ran 0 _ completed (by decide)⟩

end Discipline

end OsWorkbench.Kernel
