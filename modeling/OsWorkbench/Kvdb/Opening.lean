import OsWorkbench.Kvdb.Fuel
import OsWorkbench.Kvdb.Open
import OsWorkbench.Kvdb.Repair

/-!
# Late openers

A process that has seen a short file runs `init_db` when it gets the lock, whatever has happened
in between; and a file that holds the first four writes of `init_db` passes for a database. In
every run that avoids both, opening erases nothing and every key can be read.
-/

namespace OsWorkbench.Kvdb

open ByteStore WriteTrace Library

section Founding

/-- The file after some of the writes of `init_db`. -/
def founded (done : Nat) : File := applyAll (initWrites.take done) File.empty

def writeOut (changes : List Pwrite) : Db Unit := changes.foldr Prog.edit (.ret ())

/-- Writing what is there already. -/
theorem rewrite_kept {file : File} {change : Pwrite}
    (stored : slice file.bytes change.offset change.payload.length = change.payload)
    (inside : change.offset + change.payload.length ≤ file.size) : file.pwrite change = file := by
  apply File.ext
  · change (if change.payload = [] then file.size
      else max file.size (change.offset + change.payload.length)) = file.size
    split
    · rfl
    · exact Nat.max_eq_left inside
  · have written := slice_overlay_self file.bytes change.offset change.payload
    have same : Set.EqOn (overlay file.bytes change.offset change.payload) file.bytes
        (span change.offset change.payload.length) := eqOn_of_slice (written.trans stored.symm)
    funext address
    by_cases here : address ∈ span change.offset change.payload.length
    · exact same here
    · rw [mem_span] at here
      rcases Nat.lt_or_ge address change.offset with before | after
      · exact overlay_before before
      · exact overlay_after (by omega)

theorem founded_stored : ∀ done < 7, ∀ again < done,
    slice (founded done).bytes (initWrites.getD again ⟨0, []⟩).offset
        (initWrites.getD again ⟨0, []⟩).payload.length =
      (initWrites.getD again ⟨0, []⟩).payload ∧
    (initWrites.getD again ⟨0, []⟩).offset + (initWrites.getD again ⟨0, []⟩).payload.length ≤
      (founded done).size := by
  decide +kernel

theorem founded_again {done again : Nat} (few : done ≤ 6) (before : again < done) :
    (founded done).pwrite (initWrites.getD again ⟨0, []⟩) = founded done := by
  have stored := founded_stored done (by omega) again before
  exact rewrite_kept stored.1 stored.2

theorem init_take {done : Nat} (few : done < 6) : initWrites.take (done + 1) =
    initWrites.take done ++ [initWrites.getD done ⟨0, []⟩] := by
  have inside : done < initWrites.length := few
  rw [List.take_add_one, List.getElem?_eq_getElem inside, List.getD_eq_getElem _ _ inside]
  rfl

theorem init_drop {done : Nat} (few : done < 6) : initWrites.drop done =
    initWrites.getD done ⟨0, []⟩ :: initWrites.drop (done + 1) := by
  have inside : done < initWrites.length := few
  rw [List.drop_eq_getElem_cons inside, List.getD_eq_getElem _ _ inside]

theorem founded_next {done : Nat} (few : done < 6) :
    (founded done).pwrite (initWrites.getD done ⟨0, []⟩) = founded (done + 1) := by
  rw [founded, founded, init_take few, applyAll_append]
  rfl

/-- `init_db` started over on a file that holds some of its writes. -/
theorem founded_over {done : Nat} (few : done ≤ 6) (again : Nat) (most : again ≤ 6) :
    applyAll (initWrites.take again) (founded done) = founded (max done again) := by
  induction again with
  | zero => rw [List.take_zero, applyAll_nil, Nat.max_zero]
  | succ again ih =>
      rw [init_take most, applyAll_append, ih (by omega)]
      change (founded (max done again)).pwrite (initWrites.getD again ⟨0, []⟩) = _
      rcases Nat.lt_or_ge again done with behind | level
      · rw [Nat.max_eq_left (by omega), Nat.max_eq_left (by omega)]
        exact founded_again few behind
      · rw [Nat.max_eq_right level, Nat.max_eq_right (by omega)]
        exact founded_next most

theorem founded_short : ∀ done < 7, tooShort (founded done) = decide (done < 4) := by
  decide +kernel

theorem founded_represents : ∀ done, 5 ≤ done → done ≤ 6 →
    Represents Layout.init (founded done) ∧ Idle (founded done) := by
  intro done enough few
  rcases (by omega : done = 5 ∨ done = 6) with rfl | rfl
  · constructor
    · apply represents_init <;> decide +kernel
    · change (founded 5).bytes backupFlag = 0
      decide +kernel
  · exact ⟨fresh_represents, fresh_idle⟩

end Founding

section Steps

variable {P : Type} [DecidableEq P] {site next : Site P} {p : P} {act : Act}

/-- What a move can do. -/
inductive Taken (site : Site P) (p : P) : Act → Site P → Prop where
  | check (here : site.phase p = .outside) :
      Taken site p .go (site.become p (if tooShort site.file then .waiting else .opened))
  | lock (here : site.phase p = .waiting) (free : site.holder = none) :
      Taken site p .go { site.become p (.filling initDb) with holder := some p }
  | fill (rest : Db Unit) (here : site.phase p = .filling rest) :
      Taken site p .go (site.fill p rest)
  | store (put : Assignment) (base : File) (written : Nat) (rest : Db Int)
      (here : site.phase p = .putting put base written rest) :
      Taken site p .go (site.store p put base written rest)
  | start (put : Assignment) (fuel : Nat) (here : site.phase p = .opened)
      (free : site.holder = none) (enough : lasts fuel put site.file) :
      Taken site p (.put put fuel)
        { site.become p (.putting put site.file 0 (kvdbPut fuel put.1 put.2)) with
          holder := some p }
  | die : Taken site p .die (site.bury p)

theorem open_step_cases (stepped : openStep ⟨p, act⟩ site = some next) :
    Taken site p act next := by
  cases act with
  | go =>
      cases here : site.phase p <;> simp only [openStep, here] at stepped
      case outside =>
        have taken := Taken.check here
        split at stepped <;> cases stepped
        next short => rwa [if_pos short] at taken
        next long => rwa [if_neg long] at taken
      case waiting =>
        split at stepped
        next free =>
          cases stepped
          exact Taken.lock here free
        next => cases stepped
      case filling rest =>
        cases stepped
        exact Taken.fill rest here
      case putting put base written rest =>
        cases stepped
        exact Taken.store put base written rest here
      all_goals cases stepped
  | put put fuel =>
      cases here : site.phase p <;> simp only [openStep, here] at stepped
      case opened =>
        split at stepped
        next ready =>
          cases stepped
          exact Taken.start put fuel here ready.1 ready.2
        next => cases stepped
      all_goals cases stepped
  | die =>
      cases here : site.phase p <;> simp only [openStep, here] at stepped <;> cases stepped <;>
        exact Taken.die

theorem bury_file : (site.bury p).file = site.file := by
  unfold Site.bury
  split <;> rfl

theorem become_self (site : Site P) (p : P) (phase : Phase) :
    (site.become p phase).phase p = phase := Function.update_self _ _ _

theorem become_other {q : P} (site : Site P) (phase : Phase) (apart : q ≠ p) :
    (site.become p phase).phase q = site.phase q := Function.update_of_ne apart _ _

end Steps

section Midway

/-- The layout that the puts so far lead to. -/
def Layout.settle (layout : Layout) (ended : Ended) : Layout :=
  match ended.died with
  | none => layout.put ended.put.1 ended.put.2
  | some count => layout.recovered ended.put count

def Site.layout {P : Type} (site : Site P) : Layout := site.history.foldl Layout.settle Layout.init

variable {layout : Layout} {put : Assignment} {base file : File} {written : Nat}

/-- All writes of a put, those of `recov_backup` included. -/
def wholeWrites (layout : Layout) (put : Assignment) (base : File) : List Pwrite :=
  repairWrites base ++ putWrites (applyAll (repairWrites base) base) layout put.1 put.2

/-- A put of which some writes are done. -/
structure Midway (layout : Layout) (put : Assignment) (base : File) (written : Nat)
    (rest : Db Int) (file : File) : Prop where
  resting : Resting layout base
  putable : Putable layout (applyAll (repairWrites base) base) put.1 put.2
  reached : file = applyAll ((wholeWrites layout put base).take written) base
  ahead : Does rest file ((wholeWrites layout put base).drop written) 0

theorem Resting.repairs (resting : Resting layout base) :
    repairs base = (repairWrites base).length := by
  have traced : recovBackup.trace base = (repairWrites base, .ok ()) := resting.recovers.1
  unfold Kvdb.repairs
  rw [traced]

theorem Resting.final (resting : Resting layout base) :
    recovBackup.final base = applyAll (repairWrites base) base :=
  resting.recovers.1.final

theorem Midway.started {fuel : Nat} (resting : Resting layout base)
    (putable : Putable layout (recovBackup.final base) put.1 put.2)
    (enough : lasts fuel put base) : Midway layout put base 0 (kvdbPut fuel put.1 put.2) base := by
  rw [resting.final] at putable
  have recovers := resting.recovers
  have returns := (recovering_put_returns recovers.1 recovers.2.1 recovers.2.2 putable).1
  constructor
  · exact resting
  · exact putable
  · rfl
  · apply returns.trace_of_ended (kvdb_put_longer put.1 put.2)
    intro stopped
    unfold lasts at enough
    rw [stopped] at enough
    cases enough

theorem Midway.looked {view : File → Db Int}
    (midway : Midway layout put base written (.look view) file) :
    Midway layout put base written (view file) file where
  resting := midway.resting
  putable := midway.putable
  reached := midway.reached
  ahead := midway.ahead

theorem Midway.edited {change : Pwrite} {rest : Db Int}
    (midway : Midway layout put base written (.edit change rest) file) :
    Midway layout put base (written + 1) rest (file.pwrite change) := by
  have ahead := midway.ahead
  simp only [Does, Prog.trace, Prod.mk.injEq] at ahead
  rcases ahead with ⟨writes, ending⟩
  have inside : written < (wholeWrites layout put base).length := by
    by_contra beyond
    rw [List.drop_eq_nil_of_le (Nat.le_of_not_lt beyond)] at writes
    cases writes
  rw [List.drop_eq_getElem_cons inside, List.cons.injEq] at writes
  constructor
  · exact midway.resting
  · exact midway.putable
  · rw [List.take_add_one, List.getElem?_eq_getElem inside, applyAll_append, ← midway.reached,
      ← writes.1]
    rfl
  · exact Prod.ext writes.2 ending

theorem Midway.stopped {reason : Halt}
    (midway : Midway layout put base written (.stop reason) file) : False := by
  have ahead := midway.ahead
  simp [Does, Prog.trace] at ahead

theorem Midway.finished {value : Int}
    (midway : Midway layout put base written (.ret value) file) :
    Resting (layout.put put.1 put.2) file := by
  have ahead := midway.ahead
  simp only [Does, Prog.trace, Prod.mk.injEq] at ahead
  have whole := List.drop_eq_nil_iff.mp ahead.1.symm
  have recovers := midway.resting.recovers
  have after := (recovering_put_returns recovers.1 recovers.2.1 recovers.2.2 midway.putable).2
  have reached := midway.reached
  rw [List.take_of_length_le whole] at reached
  rw [reached]
  exact ⟨⟨_, after.1.shown⟩, Or.inl after⟩

/-- When a put may die: at the start, in a recovery that can be repeated, or at a recoverable
point of its own. -/
def MayDie (layout : Layout) (put : Assignment) (base : File) (written : Nat) : Prop :=
  if written < repairs base then written = 0 ∨ word base.bytes backupPrev = 0
  else Recoverable layout put (written - repairs base)

theorem recovered_zero {putFile : File} (putable : Putable layout putFile put.1 put.2) :
    layout.recovered put 0 = layout := by
  have early : ¬ putLength layout put ≤ 0 := by
    unfold putLength
    split <;> omega
  have intact : ¬ Leaks layout put (0 - 1) := by
    intro leaks
    have late := leaks_late putable.keyServed leaks
    omega
  rw [Layout.recovered, if_neg early, if_neg intact]
  exact with_own_free layout

-- the linter would evaluate the condition
set_option linter.constructorNameAsVariable false in
theorem Midway.died {rest : Db Int} (midway : Midway layout put base written rest file)
    (may : MayDie layout put base written) :
    Resting (layout.recovered put (written - repairs base)) file := by
  have resting := midway.resting
  have recovers := resting.recovers
  unfold MayDie at may
  rw [resting.repairs] at may ⊢
  rw [midway.reached, wholeWrites]
  split at may
  next early =>
    rw [List.take_append_of_le_length (Nat.le_of_lt early), Nat.sub_eq_zero_of_le (Nat.le_of_lt early),
      recovered_zero midway.putable]
    rcases may with rfl | unnoted
    · exact resting
    · exact resting.interrupted unnoted early
  next late =>
    have repaired := Nat.le_of_not_lt late
    rw [List.take_append, List.take_of_length_le repaired, applyAll_append]
    exact crashed_put_rests recovers.2.1 recovers.2.2 midway.putable may

end Midway

section Invariant

variable {P : Type} {site next : Site P} {p : P} {done : Nat}

/-- What a process is at before the first put. -/
def Founds (site : Site P) (done : Nat) (p : P) : Phase → Prop
  | .filling rest => site.holder = some p ∧
      ∃ again ≤ done, rest = writeOut (initWrites.drop again)
  | .putting _ _ _ _ => False
  | .opened => 4 ≤ done
  | _ => True

/-- No put has begun: the file holds some writes of `init_db`. -/
structure Founding (site : Site P) (done : Nat) : Prop where
  history : site.history = []
  file : site.file = founded done
  few : done ≤ 6
  free : site.holder = none → done ≠ 4
  phases : ∀ p, Founds site done p (site.phase p)

/-- What a process is at from the first put on. -/
def Serves (site : Site P) (p : P) : Phase → Prop
  | .filling _ => False
  | .putting put base written rest => site.holder = some p ∧
      Midway site.layout put base written rest site.file
  | _ => True

/-- A put has begun: the file rests between two puts. -/
structure Serving (site : Site P) : Prop where
  phases : ∀ p, Serves site p (site.phase p)
  resting : site.holder = none → site.history ≠ [] ∧ Resting site.layout site.file

/-- The condition of a move. A process that has seen a short file does not go on to `init_db` once
a put is over; a process does not die with just the header written; and the puts and their deaths
are such that the next put can go on. -/
def Careful (move : Move P) (site : Site P) : Prop :=
  match move.act, site.phase move.proc with
  | .go, .waiting => site.history = []
  | .put put _, .opened => Putable site.layout (recovBackup.final site.file) put.1 put.2
  | .die, .filling _ => site.file.size ≠ headerLen
  | .die, .putting put base written _ => MayDie site.layout put base written
  | _, _ => True

theorem Founding.resting (founding : Founding site done) (free : site.holder = none)
    (opened : 4 ≤ done) : Resting site.layout site.file := by
  have past := founding.free free
  have represents := founded_represents done (by omega) founding.few
  have layout : site.layout = Layout.init := by
    unfold Site.layout
    rw [founding.history]
    rfl
  rw [layout, founding.file]
  exact ⟨⟨_, represents.1.shown⟩, Or.inl represents⟩

section Others

variable [DecidableEq P]

/-- A move of the holder of the lock, or one that takes a free lock, disturbs nobody. -/
theorem Founding.of_own {after : Nat} (founding : Founding site done)
    (alone : site.holder = none ∨ site.holder = some p) (grown : done ≤ after) (few : after ≤ 6)
    (history : next.history = []) (file : next.file = founded after)
    (free : next.holder = none → after ≠ 4)
    (others : ∀ q, q ≠ p → next.phase q = site.phase q)
    (own : Founds next after p (next.phase p)) : Founding next after where
  history := history
  file := file
  few := few
  free := free
  phases := by
    intro q
    by_cases same : q = p
    · subst q
      exact own
    · rw [others q same]
      have before := founding.phases q
      cases here : site.phase q with
      | filling rest =>
          rw [here] at before
          rcases alone with idle | mine
          · rw [before.1] at idle
            cases idle
          · rw [before.1] at mine
            exact absurd (Option.some.inj mine) same
      | putting put base written rest =>
          rw [here] at before
          exact before
      | opened =>
          rw [here] at before
          exact Nat.le_trans before grown
      | outside | waiting | dead => trivial

theorem Serving.of_own (serving : Serving site)
    (alone : site.holder = none ∨ site.holder = some p)
    (others : ∀ q, q ≠ p → next.phase q = site.phase q) (own : Serves next p (next.phase p))
    (resting : next.holder = none → next.history ≠ [] ∧ Resting next.layout next.file) :
    Serving next where
  resting := resting
  phases := by
    intro q
    by_cases same : q = p
    · subst q
      exact own
    · rw [others q same]
      have before := serving.phases q
      cases here : site.phase q with
      | filling rest =>
          rw [here] at before
          exact before
      | putting put base written rest =>
          rw [here] at before
          rcases alone with idle | mine
          · rw [before.1] at idle
            cases idle
          · rw [before.1] at mine
            exact absurd (Option.some.inj mine) same
      | outside | waiting | opened | dead => trivial

/-- A move that only changes where a process is. -/
theorem Founding.become {phase : Phase} (founding : Founding site done)
    (own : Founds site done p phase) : Founding (site.become p phase) done where
  history := founding.history
  file := founding.file
  few := founding.few
  free := founding.free
  phases := by
    intro q
    by_cases same : q = p
    · subst q
      rw [become_self]
      cases phase <;> exact own
    · rw [become_other site phase same]
      have before := founding.phases q
      cases here : site.phase q <;> rw [here] at before <;> exact before

theorem Serving.become {phase : Phase} (serving : Serving site) (own : Serves site p phase) :
    Serving (site.become p phase) where
  resting := serving.resting
  phases := by
    intro q
    by_cases same : q = p
    · subst q
      rw [become_self]
      cases phase <;> exact own
    · rw [become_other site phase same]
      have before := serving.phases q
      cases here : site.phase q <;> rw [here] at before <;> exact before

theorem finish_layout (phase : Phase) (ended : Ended) :
    (site.finish p phase ended).layout = site.layout.settle ended := by
  change List.foldl Layout.settle Layout.init (site.history ++ [ended]) = _
  rw [List.foldl_append]
  rfl

theorem Founding.filled {rest : Db Unit} (founding : Founding site done)
    (here : site.phase p = .filling rest) :
    ∃ after, Founding (site.fill p rest) after := by
  have own := founding.phases p
  rw [here] at own
  rcases own with ⟨mine, again, behind, rfl⟩
  have few := founding.few
  rcases Nat.lt_or_ge again 6 with more | beyond
  · have shape : writeOut (initWrites.drop again) =
        .edit (initWrites.getD again ⟨0, []⟩) (writeOut (initWrites.drop (again + 1))) := by
      rw [init_drop more]
      rfl
    have written : (site.fill p (writeOut (initWrites.drop again))).file = founded
        (max done (again + 1)) := by
      rw [shape]
      change site.file.pwrite (initWrites.getD again ⟨0, []⟩) = _
      rw [founding.file]
      rcases Nat.lt_or_ge again done with before | level
      · rw [Nat.max_eq_left before]
        exact founded_again few before
      · have same : again = done := Nat.le_antisymm behind level
        rw [same, Nat.max_eq_right (Nat.le_succ done)]
        exact founded_next (same ▸ more)
    refine ⟨max done (again + 1), ?_⟩
    apply founding.of_own (Or.inr mine) (Nat.le_max_left _ _) (Nat.max_le.mpr ⟨few, more⟩)
    · rw [shape]
      exact founding.history
    · exact written
    · intro free
      rw [shape] at free
      change site.holder = none at free
      rw [mine] at free
      cases free
    · intro q apart
      rw [shape]
      exact become_other site _ apart
    · rw [shape]
      change Founds _ _ p ((site.become p _).phase p)
      rw [become_self]
      exact ⟨mine, again + 1, Nat.le_max_right _ _, rfl⟩
  · have shape : writeOut (initWrites.drop again) = .ret () := by
      have none : initWrites.drop again = [] := List.drop_eq_nil_of_le beyond
      rw [none]
      rfl
    rw [shape]
    refine ⟨done, ?_⟩
    apply founding.of_own (Or.inr mine) le_rfl few
    · exact founding.history
    · exact founding.file
    · intro _
      omega
    · intro q apart
      exact become_other site _ apart
    · change Founds _ _ p ((site.become p _).phase p)
      rw [become_self]
      change 4 ≤ done
      omega

theorem Founding.started {put : Assignment} {fuel : Nat} (founding : Founding site done)
    (here : site.phase p = .opened) (free : site.holder = none)
    (enough : lasts fuel put site.file)
    (putable : Putable site.layout (recovBackup.final site.file) put.1 put.2) :
    Serving { site.become p (.putting put site.file 0 (kvdbPut fuel put.1 put.2)) with
      holder := some p } where
  resting := by
    intro held
    cases held
  phases := by
    have ready := founding.phases p
    rw [here] at ready
    have resting := founding.resting free ready
    intro q
    by_cases same : q = p
    · subst q
      change Serves _ p ((site.become p _).phase p)
      rw [become_self]
      exact ⟨rfl, Midway.started resting putable enough⟩
    · change Serves _ q ((site.become p _).phase q)
      rw [become_other site _ same]
      have before := founding.phases q
      cases there : site.phase q with
      | filling rest =>
          rw [there] at before
          have held := before.1
          rw [free] at held
          cases held
      | putting put base written rest =>
          rw [there] at before
          exact before.elim
      | outside | waiting | opened | dead => trivial

theorem Founding.buried (founding : Founding site done)
    (careful : Careful ⟨p, .die⟩ site) : Founding (site.bury p) done := by
  cases here : site.phase p with
  | filling rest =>
      have own := founding.phases p
      rw [here] at own
      simp only [Careful, here] at careful
      simp only [Site.bury, here]
      apply founding.of_own (Or.inr own.1) le_rfl founding.few
      · exact founding.history
      · exact founding.file
      · rintro _ rfl
        apply careful
        rw [founding.file]
        decide +kernel
      · intro q apart
        exact become_other site _ apart
      · change Founds _ _ p ((site.become p _).phase p)
        rw [become_self]
        trivial
  | putting put base written rest =>
      have own := founding.phases p
      rw [here] at own
      exact own.elim
  | outside | waiting | opened | dead =>
      simp only [Site.bury, here]
      exact founding.become trivial

theorem Serving.stored {put : Assignment} {base : File} {written : Nat} {rest : Db Int}
    (serving : Serving site) (here : site.phase p = .putting put base written rest) :
    Serving (site.store p put base written rest) := by
  have own := serving.phases p
  rw [here] at own
  rcases own with ⟨mine, midway⟩
  have held : site.holder ≠ none := by
    rw [mine]
    exact Option.some_ne_none p
  cases rest with
  | ret value =>
      apply serving.of_own (Or.inr mine)
      · intro q apart
        exact become_other site _ apart
      · change Serves _ p ((site.become p _).phase p)
        rw [become_self]
        trivial
      · intro _
        rw [Site.store, finish_layout]
        exact ⟨List.append_ne_nil_of_right_ne_nil _ (List.cons_ne_nil _ _), midway.finished⟩
  | stop reason => exact midway.stopped.elim
  | look view =>
      apply serving.of_own (Or.inr mine)
      · intro q apart
        exact become_other site _ apart
      · change Serves _ p ((site.become p _).phase p)
        rw [become_self]
        exact ⟨mine, midway.looked⟩
      · intro free
        exact absurd free held
  | edit change rest =>
      apply serving.of_own (Or.inr mine)
      · intro q apart
        exact become_other site _ apart
      · change Serves _ p ((site.become p _).phase p)
        rw [become_self]
        exact ⟨mine, midway.edited⟩
      · intro free
        exact absurd free held

theorem Serving.started {put : Assignment} {fuel : Nat} (serving : Serving site)
    (free : site.holder = none) (enough : lasts fuel put site.file)
    (putable : Putable site.layout (recovBackup.final site.file) put.1 put.2) :
    Serving { site.become p (.putting put site.file 0 (kvdbPut fuel put.1 put.2)) with
      holder := some p } := by
  have resting := (serving.resting free).2
  apply serving.of_own (Or.inl free)
  · intro q apart
    exact become_other site _ apart
  · change Serves _ p ((site.become p _).phase p)
    rw [become_self]
    exact ⟨rfl, Midway.started resting putable enough⟩
  · intro held
    cases held

theorem Serving.buried (serving : Serving site) (careful : Careful ⟨p, .die⟩ site) :
    Serving (site.bury p) := by
  have own := serving.phases p
  cases here : site.phase p with
  | filling rest =>
      rw [here] at own
      exact own.elim
  | putting put base written rest =>
      rw [here] at own
      simp only [Careful, here] at careful
      simp only [Site.bury, here]
      apply serving.of_own (Or.inr own.1)
      · intro q apart
        exact become_other site _ apart
      · change Serves _ p ((site.become p _).phase p)
        rw [become_self]
        trivial
      · intro _
        rw [finish_layout]
        refine ⟨List.append_ne_nil_of_right_ne_nil _ (List.cons_ne_nil _ _), own.2.died ?_⟩
        -- given by its name the condition would be evaluated
        revert careful
        exact id
  | outside | waiting | opened | dead =>
      simp only [Site.bury, here]
      exact serving.become trivial

/-- The invariant of careful runs. -/
inductive Orderly (site : Site P) : Prop where
  | founding (done : Nat) (founding : Founding site done)
  | serving (serving : Serving site)

omit [DecidableEq P] in
theorem created_orderly : Orderly (created : Site P) := by
  apply Orderly.founding 0
  constructor
  · rfl
  · rfl
  · exact Nat.zero_le 6
  · intro _ four
    cases four
  · intro p
    trivial

theorem step_orderly (move : Move P) (site next : Site P) (orderly : Orderly site)
    (careful : Careful move site) (stepped : openStep move site = some next) :
    Orderly next := by
  rcases move with ⟨p, act⟩
  have taken := open_step_cases stepped
  cases orderly with
  | founding done founding =>
      cases taken with
      | check here =>
          apply Orderly.founding done
          apply founding.become
          split
          next => trivial
          next long =>
            have few := founding.few
            rw [founding.file, founded_short done (by omega)] at long
            exact Nat.le_of_not_lt fun short => long (decide_eq_true short)
      | lock here free =>
          apply Orderly.founding done
          apply founding.of_own (Or.inl free) le_rfl founding.few
          · exact founding.history
          · exact founding.file
          · intro held
            cases held
          · intro q apart
            exact become_other site _ apart
          · change Founds _ _ p ((site.become p _).phase p)
            rw [become_self]
            exact ⟨rfl, 0, Nat.zero_le _, rfl⟩
      | fill rest here =>
          rcases founding.filled here with ⟨after, filled⟩
          exact Orderly.founding after filled
      | store put base written rest here =>
          have own := founding.phases p
          rw [here] at own
          exact own.elim
      | start put fuel here free enough =>
          simp only [Careful, here] at careful
          exact Orderly.serving (founding.started here free enough careful)
      | die => exact Orderly.founding done (founding.buried careful)
  | serving serving =>
      apply Orderly.serving
      cases taken with
      | check here =>
          apply serving.become
          split <;> trivial
      | lock here free =>
          simp only [Careful, here] at careful
          exact absurd careful (serving.resting free).1
      | fill rest here =>
          have own := serving.phases p
          rw [here] at own
          exact own.elim
      | store put base written rest here => exact serving.stored here
      | start put fuel here free enough =>
          simp only [Careful, here] at careful
          exact serving.started free enough careful
      | die => exact serving.buried careful

end Others

end Invariant

section Safety

variable {P : Type} [DecidableEq P]

/-- Once a put has completed, nobody but a put changes the file; and while no process holds the
lock, a process that opens the file next can look up every key. -/
structure OpensSafely (site : Site P) : Prop where
  keeps : (∃ ended ∈ site.history, ended.died = none) →
    ∀ move next, openStep move site = some next →
      (∀ put base written rest, site.phase move.proc ≠ .putting put base written rest) →
        next.file = site.file
  readable : site.holder = none → ∀ key, 0 ∉ key → ∃ writes answer,
    Returns (fun fuel => kvdbOpen >>= fun _ => kvdbGet fuel key) site.file writes answer

theorem open_returns {file : File} {writes : List Pwrite} (opened : Does kvdbOpen file writes ())
    {layout : Layout} (shown : Shown layout (applyAll writes file)) {key : List UInt8}
    (plain : 0 ∉ key) : ∃ changes answer,
      Returns (fun fuel => kvdbOpen >>= fun _ => kvdbGet fuel key) file changes answer :=
  ⟨_, _, returns_bind opened.returns (shown.get_returns plain)⟩

theorem open_long {file : File} (long : tooShort file = false) : Does kvdbOpen file [] () := by
  apply does_bind_read (does_read _ _)
  simp only [onlyIf, long, Bool.false_eq_true, if_false]
  exact does_ret _ _

theorem open_short {file : File} (short : tooShort file = true) :
    Does kvdbOpen file initWrites () := by
  apply does_bind_read (does_read _ _)
  simp only [onlyIf, short, if_true]
  exact init_db_does file

theorem header_long {file : File} (header : headerLen ≤ file.size) : tooShort file = false := by
  apply decide_eq_false
  simp only [File.pread, slice_length]
  omega

theorem Orderly.opens_safely {site : Site P} (orderly : Orderly site) : OpensSafely site where
  keeps := by
    rintro ⟨ended, listed, -⟩ ⟨p, act⟩ next stepped unlike
    cases orderly with
    | founding done founding =>
        rw [founding.history] at listed
        cases listed
    | serving serving =>
        cases open_step_cases stepped with
        | check here => rfl
        | lock here free => rfl
        | fill rest here =>
            have own := serving.phases p
            rw [here] at own
            exact own.elim
        | store put base written rest here => exact absurd here (unlike put base written rest)
        | start put fuel here free enough => rfl
        | die => exact bury_file
  readable := by
    intro free key plain
    cases orderly with
    | founding done founding =>
        have few := founding.few
        have past := founding.free free
        have short := founded_short done (by omega)
        rw [← founding.file] at short
        by_cases early : done < 4
        · rw [decide_eq_true early] at short
          have again := founded_over few 6 le_rfl
          rw [Nat.max_eq_right few, ← founding.file] at again
          have shown : Shown Layout.init (applyAll (initWrites.take 6) site.file) := by
            rw [again]
            exact fresh_represents.shown
          exact open_returns (open_short short) shown plain
        · rw [decide_eq_false early] at short
          have represents := founded_represents done (by omega) few
          rw [← founding.file] at represents
          exact open_returns (open_long short) represents.1.shown plain
    | serving serving =>
        have resting := (serving.resting free).2
        rcases resting.shown with ⟨view, shown⟩
        exact open_returns (open_long (header_long resting.header)) shown plain

/-- Opening is safe in every state of every careful run. -/
theorem opening_safe (moves : List (Move P)) (final : Site P)
    (careful : GuardedRun openStep Careful moves created)
    (ran : runSteps openStep moves created = some final) : OpensSafely final := by
  have orderly := run_invariant openStep step_orderly moves created final created_orderly careful
    ran
  exact orderly.opens_safely

def goes (count : Nat) (p : Bool) : List (Move Bool) := List.replicate count ⟨p, .go⟩

/-- A guard for runs without deaths whose only put is the first one. -/
def firstPut (move : Move Bool) (site : Site Bool) : Bool :=
  match move.act, site.phase move.proc with
  | .go, .waiting => decide (site.history = [])
  | .put put _, _ => decide (site.history = [] ∧ put = ([107], [118]))
  | .die, _ => false
  | _, _ => true

theorem first_put_careful (move : Move Bool) (site : Site Bool)
    (guarded : firstPut move site = true) : Careful move site := by
  rcases move with ⟨p, act⟩
  unfold firstPut at guarded
  unfold Careful
  cases act with
  | go =>
      cases here : site.phase p <;> simp only [here] at guarded ⊢
      case waiting => exact of_decide_eq_true guarded
  | put put fuel =>
      rcases of_decide_eq_true guarded with ⟨first, rfl⟩
      cases here : site.phase p <;> simp only
      case opened =>
        have proper : Proper (([107], [118]) : Assignment) := ⟨by decide, by decide⟩
        apply proper.putable
        have layout : site.layout = Layout.init := by
          unfold Site.layout
          rw [first]
          rfl
        have size := one_put_size
        rw [Layout.putAll, Layout.putAll] at size
        rw [layout, size]
        decide
  | die => cases guarded

/-- One process creates the database and puts, and another one opens it. -/
def openedTwice : List (Move Bool) :=
  goes 9 false ++ [⟨false, .put ([107], [118]) 8⟩] ++ goes 29 false ++ goes 1 true

theorem opening_safe_twice : ∃ final, OpensSafely final ∧
    runSteps openStep openedTwice created = some final ∧
    final.history = [⟨([107], [118]), none⟩] ∧ final.holder = none := by
  have history : (runSteps openStep openedTwice created).map (fun s => (s.history, s.holder)) =
      some ([⟨([107], [118]), none⟩], none) := by
    decide +kernel
  have plain : GuardedRun openStep (fun move site => firstPut move site = true) openedTwice
      created := by
    decide +kernel
  rcases Option.map_eq_some_iff.mp history with ⟨final, ran, both⟩
  refine ⟨final, ?_, ran, congrArg Prod.fst both, congrArg Prod.snd both⟩
  exact opening_safe openedTwice final (GuardedRun.mono openStep first_put_careful plain) ran

def Phase.isPutting : Phase → Bool
  | .putting _ _ _ _ => true
  | _ => false

/-- One process sees an empty file; another one creates the database and puts; then the first one
gets the lock and starts `init_db`. -/
def lateInit : List (Move Bool) :=
  goes 1 true ++ goes 9 false ++ [⟨false, .put ([107], [118]) 8⟩] ++ goes 29 false ++ goes 5 true

/-- What a lookup of the key that is put returns. -/
def found (site : Site Bool) : Option (Option (List UInt8)) :=
  ((kvdbGet 8 [107]).outcome site.file).toOption

theorem late_init_erases : ¬ ∀ (moves : List (Move Bool)) (final : Site Bool),
    runSteps openStep moves created = some final → OpensSafely final := by
  intro safe
  have facts : (runSteps openStep lateInit created).map (fun s => (s.history,
      (s.phase true).isPutting, found s)) =
        some ([⟨([107], [118]), none⟩], false, some (some [118])) := by
    decide +kernel
  have erased : (runSteps openStep (lateInit ++ goes 1 true) created).map found =
      some (some none) := by
    decide +kernel
  rcases Option.map_eq_some_iff.mp facts with ⟨final, ran, known⟩
  simp only [Prod.mk.injEq] at known
  rcases known with ⟨history, idle, before⟩
  rcases Option.map_eq_some_iff.mp erased with ⟨next, further, after⟩
  rw [run_steps_append, ran] at further
  rcases run_steps_cons openStep further with ⟨stepped, step, last⟩
  cases Option.some.inj last
  have kept := (safe lateInit final ran).keeps (by simp [history]) ⟨true, .go⟩ next step (by
    intro put base written rest here
    rw [here] at idle
    cases idle)
  rw [found, kept] at after
  rw [found, after] at before
  cases before

/-- A process dies after the fourth write of `init_db`: the file passes for a database. -/
theorem header_only_exits :
    (runSteps openStep (goes 6 false ++ [⟨false, .die⟩]) created).map (fun s => (s.holder,
      tooShort s.file, ((kvdbOpen >>= fun _ => kvdbGet 8 [107]).outcome s.file).toOption)) =
        some (none, false, none) := by
  decide +kernel

end Safety

end OsWorkbench.Kvdb
