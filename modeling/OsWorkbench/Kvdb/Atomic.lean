import OsWorkbench.Kvdb.Contents

/-!
# Readers of a crashed file

A process that dies inside a put leaves a file in which `_kvdb_get` answers as
before the put or as after it, for all keys alike and without any recovery.
-/

namespace OsWorkbench.Kvdb

open ByteStore WriteTrace Regions

/-- Two files give the same answer to every lookup. -/
def SameAnswers (file other : File) : Prop :=
  ∀ key, 0 ∉ key → ∀ seen, Returns (fun fuel => kvdbGet fuel key) file [] seen ↔
    Returns (fun fuel => kvdbGet fuel key) other [] seen

section Answers

variable {layout : Layout} {file other : File}

/-- Files that show the same layout give the same answers. -/
theorem Shown.same_answers (shown : Shown layout file) (also : Shown layout other) :
    SameAnswers file other := by
  intro key plain seen
  have left := shown.get_returns plain
  have right := also.get_returns plain
  constructor
  · intro read
    rw [(read.unique left).2]
    exact right
  · intro read
    rw [(read.unique right).2]
    exact left

theorem putAll_append (layout : Layout) (puts : List Assignment) (put : Assignment) :
    layout.putAll (puts ++ [put]) = (layout.putAll puts).put put.1 put.2 := by
  induction puts generalizing layout with
  | nil => rfl
  | cons first rest ih => exact ih _

/-- A put that dies after any number of its writes is seen completely or not at all. -/
theorem crashed_put_atomic (puts : List Assignment) (put : Assignment)
    (proper : ∀ done ∈ puts, Proper done) (last : Proper put)
    (bounded : (Layout.init.putAll (puts ++ [put])).size < 2 ^ 32) :
    ∃ writes changes, Returns (fun fuel => session fuel puts) File.empty writes () ∧
      Returns (fun fuel => kvdbPut fuel put.1 put.2) (applyAll writes File.empty) changes 0 ∧
      ∀ count, SameAnswers (applyAll (changes.take count) (applyAll writes File.empty))
          (applyAll writes File.empty) ∨
        SameAnswers (applyAll (changes.take count) (applyAll writes File.empty))
          (applyAll changes (applyAll writes File.empty)) := by
  rw [putAll_append] at bounded
  obtain ⟨writes, ran, represents, idle⟩ := session_returns puts proper
    ((size_le_put _ put.1 put.2).trans_lt bounded)
  have putable : Putable (Layout.init.putAll puts) (applyAll writes File.empty) put.1 put.2 :=
    last.putable bounded
  obtain ⟨along, final⟩ := put_visible represents idle putable
  refine ⟨writes, _, ran, (kvdb_put_returns represents idle putable).1, fun count => ?_⟩
  rcases along count with old | new
  · exact Or.inl (old.same_answers represents.shown)
  · exact Or.inr (new.same_answers final)

/-- A put of a new key, into blocks that an update has freed. -/
theorem crashed_put_atomic_reuse :
    ∃ writes changes, Returns (fun fuel => session fuel updating) File.empty writes () ∧
      Returns (fun fuel => kvdbPut fuel [106] [99]) (applyAll writes File.empty) changes 0 ∧
      ∀ count, SameAnswers (applyAll (changes.take count) (applyAll writes File.empty))
          (applyAll writes File.empty) ∨
        SameAnswers (applyAll (changes.take count) (applyAll writes File.empty))
          (applyAll changes (applyAll writes File.empty)) :=
  crashed_put_atomic updating ([106], [99]) (by decide) (by decide) reusing_small

end Answers

end OsWorkbench.Kvdb
