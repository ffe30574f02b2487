import OsWorkbench.Libco.Coroutines
import Mathlib.Data.List.Nodup

/-!
# `co_wait` waits

As long as bodies yield and return as themselves, the buffer of a slot leads to the body the slot
was given to. One buffer `ret_buf` serves all coroutines, so that `co_wait` returns when any body
returns; it has waited for the right one if that body is the one it was called for.
-/

namespace OsWorkbench.Libco

open Library

section Invariant

/-- The entries of a list with one more at its end. -/
theorem appended {α : Type} {list : List α} {last entry : α} {n : Nat}
    (got : (list ++ [last])[n]? = some entry) :
    list[n]? = some entry ∨ n = list.length ∧ last = entry := by
  rcases Nat.lt_trichotomy n list.length with earlier | rfl | later
  · rw [List.getElem?_append_left earlier] at got
    exact .inl got
  · rw [List.getElem?_concat_length] at got
    cases got
    exact .inr ⟨rfl, rfl⟩
  · rw [List.getElem?_append_right (Nat.le_of_lt later), List.getElem?_eq_none (by simp; omega)]
      at got
    cases got

/-- What holds between the steps of a guarded run. -/
structure Kept (s : Coroutines) : Prop where
  pool : s.pool.Nodup
  inside : ∀ slot ∈ s.pool, slot < maxRoutines
  handles : ∀ n slot, s.started[n]? = some slot →
    slot < maxRoutines ∧ (s.owner slot = some n ∨ n ∈ s.returned)
  owners : ∀ slot n, s.owner slot = some n → s.started[n]? = some slot
  pooled : ∀ slot ∈ s.pool, (s.routines slot).alive = false ∧
    ∀ n, s.owner slot = some n → n ∈ s.returned
  live : ∀ slot < maxRoutines, slot ∉ s.pool →
    ∃ n, s.owner slot = some n ∧ n ∉ s.returned ∧ s.routines slot = ⟨some (.body n), true⟩
  running : ∀ n, s.running = .body n → n ∉ s.returned ∧ ∃ slot, s.started[n]? = some slot
  past : ∀ n ∈ s.returned, n < s.started.length
  waited : ∀ n ∈ s.waited, n ∈ s.returned

variable {s next : Coroutines}

theorem init_kept : Kept coInit where
  pool := by
    rw [coInit, List.nodup_reverse]
    exact List.nodup_range
  inside := by
    intro slot listed
    exact List.mem_range.mp (List.mem_reverse.mp listed)
  handles := by
    intro n slot started
    cases started
  owners := by
    intro slot n owned
    cases owned
  pooled := by
    intro slot _
    refine ⟨rfl, ?_⟩
    intro n owned
    cases owned
  live := by
    intro slot inside outside
    exact absurd (List.mem_reverse.mpr (List.mem_range.mpr inside)) outside
  running := by
    intro n runs
    cases runs
  past := by simp [coInit]
  waited := by simp [coInit]

/-- A coroutine whose body has not returned has its slot. -/
theorem Kept.holds_slot (kept : Kept s) {n slot : Nat} (started : s.started[n]? = some slot)
    (unfinished : n ∉ s.returned) :
    slot < maxRoutines ∧ s.owner slot = some n ∧ slot ∉ s.pool ∧
      s.routines slot = ⟨some (.body n), true⟩ := by
  obtain ⟨inside, owned | returned⟩ := kept.handles n slot started
  · have outside : slot ∉ s.pool := fun pooled => unfinished ((kept.pooled slot pooled).2 n owned)
    obtain ⟨m, also, -, routine⟩ := kept.live slot inside outside
    rw [owned] at also
    cases also
    exact ⟨inside, owned, outside, routine⟩
  · exact absurd returned unfinished

/-- Jumping into a slot that is alive runs the body that the slot was given to. -/
theorem jump_kept (kept : Kept s) {co : Nat} (inside : co < maxRoutines)
    (alive : (s.routines co).alive = true) (jumped : coJmp co s = some next) : Kept next := by
  have outside : co ∉ s.pool := by
    intro pooled
    rw [(kept.pooled co pooled).1] at alive
    cases alive
  obtain ⟨n, owned, unfinished, routine⟩ := kept.live co inside outside
  simp only [coJmp, routine, Option.map_some, Option.some.injEq] at jumped
  subst jumped
  refine { kept with running := ?_ }
  intro m runs
  cases runs
  exact ⟨unfinished, co, kept.owners co n owned⟩

theorem start_kept (kept : Kept s) (started : coStart s = some next) : Kept next := by
  simp only [coStart] at started
  split at started
  · cases started
  · rename_i slot pool listed
    cases started
    have distinct := kept.pool
    have inside := kept.inside
    have pooled := kept.pooled
    have live := kept.live
    rw [listed] at distinct inside pooled live
    obtain ⟨fresh, distinct⟩ := List.nodup_cons.mp distinct
    have mine := pooled slot List.mem_cons_self
    have young : ∀ n ∈ s.returned, n ≠ s.started.length :=
      fun n returned => Nat.ne_of_lt (kept.past n returned)
    have apart : ∀ other ∈ pool, other ≠ slot := by
      rintro other member rfl
      exact fresh member
    have before : ∀ n other : Nat, s.started[n]? = some other →
        (s.started ++ [slot])[n]? = some other := by
      intro n other got
      rw [List.getElem?_append_left (List.getElem?_eq_some_iff.mp got).1, got]
    constructor
    · exact distinct
    · exact fun other member => inside other (List.mem_cons_of_mem _ member)
    · intro n other got
      show other < maxRoutines ∧
        (Function.update s.owner slot (some s.started.length) other = some n ∨ n ∈ s.returned)
      rcases appended got with earlier | ⟨rfl, rfl⟩
      · obtain ⟨below, owned | returned⟩ := kept.handles n other earlier
        · rcases eq_or_ne other slot with rfl | elsewhere
          · exact ⟨below, .inr (mine.2 n owned)⟩
          · rw [Function.update_of_ne elsewhere]
            exact ⟨below, .inl owned⟩
        · exact ⟨below, .inr returned⟩
      · rw [Function.update_self]
        exact ⟨inside slot List.mem_cons_self, .inl rfl⟩
    · intro other n owned
      show (s.started ++ [slot])[n]? = some other
      rcases eq_or_ne other slot with rfl | elsewhere
      · simp only [Function.update_self, Option.some.injEq] at owned
        rw [← owned, List.getElem?_concat_length]
      · simp only [Function.update_of_ne elsewhere] at owned
        exact before n other (kept.owners other n owned)
    · intro other member
      show (Function.update s.routines slot _ other).alive = false ∧
        ∀ n, Function.update s.owner slot _ other = some n → n ∈ s.returned
      rw [Function.update_of_ne (apart other member), Function.update_of_ne (apart other member)]
      exact pooled other (List.mem_cons_of_mem _ member)
    · intro other below outside
      show ∃ n, Function.update s.owner slot (some s.started.length) other = some n ∧
        n ∉ s.returned ∧ Function.update s.routines slot _ other = _
      rcases eq_or_ne other slot with rfl | elsewhere
      · refine ⟨s.started.length, Function.update_self .., ?_, Function.update_self ..⟩
        exact fun returned => young _ returned rfl
      · rw [Function.update_of_ne elsewhere, Function.update_of_ne elsewhere]
        apply live other below
        intro member
        rcases List.mem_cons.mp member with here | later
        · exact elsewhere here
        · exact outside later
    · intro n runs
      obtain ⟨unfinished, own, got⟩ := kept.running n runs
      exact ⟨unfinished, own, before n own got⟩
    · intro n returned
      show n < (s.started ++ [slot]).length
      rw [List.length_append]
      exact Nat.lt_add_right _ (kept.past n returned)
    · exact kept.waited

/-- Saving the control point of a body that runs as itself changes nothing. -/
theorem save_own (kept : Kept s) {n slot : Nat} (runs : s.running = .body n)
    (started : s.started[n]? = some slot) :
    s.setCo slot { s.routines slot with tarBuf := some s.running } = s := by
  obtain ⟨-, -, -, routine⟩ := kept.holds_slot started (kept.running n runs).1
  rw [runs, routine, Coroutines.setCo, ← routine, Function.update_eq_self]

theorem yield_kept (kept : Kept s) {co : Nat} (own : s.RunsOwn)
    (yielded : coYield co s = some next) : Kept next := by
  obtain ⟨n, slot, runs, started, current⟩ := own.elim
  simp only [coYield, current, save_own kept runs started] at yielded
  split at yielded
  · rename_i chosen
    exact jump_kept kept chosen.1 chosen.2 yielded
  · cases yielded

theorem wait_kept (kept : Kept s) {n : Nat} (waited : coWait n s = some next) : Kept next := by
  simp only [coWait] at waited
  split at waited
  · split at waited
    · cases waited
    · rename_i thd started
      have saved : Kept { s with retBuf := some n } := { kept with }
      split at waited
      · rename_i alive
        exact jump_kept saved (kept.handles n thd started).1 alive waited
      · -- The body has returned before; `stat` is zero already.
        rename_i dead
        cases waited
        have finished : n ∈ s.returned := by
          by_contra unfinished
          obtain ⟨-, -, -, routine⟩ := kept.holds_slot started unfinished
          rw [routine] at dead
          exact dead rfl
        have idle : ({ s with retBuf := some n }.waitEnds n thd) =
            { s with retBuf := some n, waited := n :: s.waited } := by
          have same : { s.routines thd with alive := false } = s.routines thd := by
            rw [← Bool.eq_false_iff.mpr dead]
          rw [Coroutines.waitEnds, Coroutines.setCo, same, Function.update_eq_self]
        rw [idle]
        refine { saved with waited := ?_ }
        intro m member
        rcases List.mem_cons.mp member with rfl | earlier
        · exact finished
        · exact kept.waited m earlier
  · cases waited

theorem return_kept (kept : Kept s) (own : s.RunsOwn) {m : Nat} (waits : s.retBuf = some m)
    (thd : s.started[m]? = s.current) (returned : coReturn s = some next) : Kept next := by
  obtain ⟨n, slot, runs, started, current⟩ := own.elim
  obtain ⟨unfinished, -⟩ := kept.running n runs
  obtain ⟨inside, owned, outside, routine⟩ := kept.holds_slot started unfinished
  rw [current] at thd
  simp only [coReturn, runs, current, Coroutines.setCo, waits, thd, Option.some.injEq,
    Coroutines.waitEnds, Function.update_self, Function.update_idem, routine] at returned
  subst returned
  have different : ∀ other k, s.owner other = some k → other ≠ slot → k ≠ n := by
    rintro other k also elsewhere rfl
    have twice := kept.owners other k also
    rw [started] at twice
    exact elsewhere (Option.some.inj twice).symm
  constructor
  · exact List.nodup_cons.mpr ⟨outside, kept.pool⟩
  · intro other member
    rcases List.mem_cons.mp member with rfl | earlier
    · exact inside
    · exact kept.inside other earlier
  · intro k other got
    obtain ⟨below, mine | past⟩ := kept.handles k other got
    · exact ⟨below, .inl mine⟩
    · exact ⟨below, .inr (List.mem_cons_of_mem _ past)⟩
  · exact kept.owners
  · intro other member
    show (Function.update s.routines slot _ other).alive = false ∧
      ∀ k, s.owner other = some k → k ∈ n :: s.returned
    rcases eq_or_ne other slot with rfl | elsewhere
    · refine ⟨by rw [Function.update_self], ?_⟩
      intro k also
      rw [owned] at also
      cases also
      exact List.mem_cons_self
    · rw [Function.update_of_ne elsewhere]
      have earlier := (List.mem_cons.mp member).resolve_left elsewhere
      exact ⟨(kept.pooled other earlier).1,
        fun k also => List.mem_cons_of_mem _ ((kept.pooled other earlier).2 k also)⟩
  · intro other below free
    show ∃ k, s.owner other = some k ∧ k ∉ n :: s.returned ∧
      Function.update s.routines slot _ other = _
    have elsewhere : other ≠ slot := fun same => free (same ▸ List.mem_cons_self)
    obtain ⟨k, also, going, point⟩ :=
      kept.live other below fun member => free (List.mem_cons_of_mem _ member)
    refine ⟨k, also, ?_, ?_⟩
    · intro member
      rcases List.mem_cons.mp member with same | past
      · exact different other k also elsewhere same
      · exact going past
    · rw [Function.update_of_ne elsewhere]
      exact point
  · intro k runs
    cases runs
  · intro k member
    rcases List.mem_cons.mp member with rfl | past
    · exact (List.getElem?_eq_some_iff.mp started).1
    · exact kept.past k past
  · intro k member
    show k ∈ n :: s.returned
    rcases List.mem_cons.mp member with rfl | earlier
    · -- The coroutine that is waited for is the one that returns, or had returned before.
      obtain ⟨-, mine | past⟩ := kept.handles k slot thd
      · rw [owned] at mine
        cases mine
        exact List.mem_cons_self
      · exact List.mem_cons_of_mem _ past
    · exact List.mem_cons_of_mem _ (kept.waited k earlier)

theorem step_kept (act : CoAct) (kept : Kept s) (guarded : coGuard act s)
    (stepped : coStep act s = some next) : Kept next := by
  cases act with
  | start => exact start_kept kept stepped
  | yield co => exact yield_kept kept guarded stepped
  | wait n => exact wait_kept kept stepped
  | finish =>
      obtain ⟨own, same⟩ := guarded
      obtain ⟨n, slot, -, -, current⟩ := own.elim
      rw [current, Option.bind_eq_some_iff] at same
      obtain ⟨m, waits, thd⟩ := same
      exact return_kept kept own waits (thd.trans current.symm) stepped

theorem Kept.waits (kept : Kept s) : s.Waits where
  waited := kept.waited
  slots := by
    intro slot inside outside
    obtain ⟨n, owned, unfinished, -⟩ := kept.live slot inside outside
    exact ⟨n, owned, unfinished⟩

end Invariant

section Runs

/-- In every run in which bodies yield and return as themselves, and return while the main flow
waits for them, `co_wait` waits for the body it is called for. -/
theorem co_wait_waits (acts : List CoAct) (s : Coroutines)
    (guarded : GuardedRun coStep coGuard acts coInit) (ran : runSteps coStep acts coInit = some s) :
    s.Waits :=
  (run_invariant coStep (fun act _ _ kept guard stepped => step_kept act kept guard stepped)
    acts coInit s init_kept guarded ran).waits

/-- Two coroutines that yield to each other, each waited for until it returns. -/
theorem co_wait_waits_in_turn :
    ∃ s, runSteps coStep
      [.start, .start, .wait 0, .yield 98, .yield 99, .finish, .wait 1, .finish] coInit = some s ∧
        s.waited = [1, 0] ∧ s.Waits := by
  have ran : ∃ s, runSteps coStep
      [.start, .start, .wait 0, .yield 98, .yield 99, .finish, .wait 1, .finish] coInit = some s ∧
        s.waited = [1, 0] := ⟨_, rfl, rfl⟩
  obtain ⟨s, ran, waited⟩ := ran
  exact ⟨s, ran, waited, co_wait_waits _ s (by decide) ran⟩

/-- The first coroutine yields to the second, whose body returns: `co_wait` on the first returns
although its body has not. -/
theorem co_wait_returns_early :
    ∃ s, runSteps coStep [.start, .start, .wait 0, .yield 98, .finish] coInit = some s ∧
      0 ∈ s.waited ∧ 0 ∉ s.returned ∧ ¬s.Waits := by
  refine ⟨_, rfl, by decide, by decide, ?_⟩
  intro waits
  exact absurd (waits.waited 0 (by decide)) (by decide)

end Runs

end OsWorkbench.Libco
