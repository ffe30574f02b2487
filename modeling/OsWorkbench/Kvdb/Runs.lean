import OsWorkbench.Kvdb.Put

/-!
# Runs of puts on a fresh database

A fresh database represents the initial layout, so every run of puts within the
32-bit size ends in a file that represents the layout the puts lead to. What that
means for the file alone is spelled out in `Intact`.
-/

namespace OsWorkbench.Kvdb

open ByteStore WriteTrace Regions

abbrev Assignment := List UInt8 × List UInt8

/-- A run of completed puts. -/
def putAll (fuel : Nat) : List Assignment → Db Unit
  | [] => pure ()
  | put :: rest => do
      let _ ← kvdbPut fuel put.1 put.2
      putAll fuel rest

/-- `init_db` on an empty file, then a run of puts. -/
def session (fuel : Nat) (puts : List Assignment) : Db Unit := do
  initDb
  putAll fuel puts

/-- The layout a run of puts leads to. -/
def Layout.putAll (layout : Layout) : List Assignment → Layout
  | [] => layout
  | put :: rest => (layout.put put.1 put.2).putAll rest

def initWrites : List Pwrite :=
  [⟨0, wordBytes sizeofTab⟩, ⟨4, wordBytes sizeofTab⟩,
    ⟨8, wordBytes (headerLen + sizeofTab + sizeofString)⟩, ⟨12, zeros (headerLen - 12)⟩,
    ⟨headerLen, zeros sizeofTab⟩, ⟨headerLen + sizeofTab, zeros sizeofString⟩]

def fresh : File := applyAll initWrites File.empty

section Fresh

theorem init_db_does (file : File) : Does initDb file initWrites () := rfl

theorem fresh_size : fresh.size = headerLen + sizeofTab + sizeofString := by
  decide +kernel

theorem fresh_blank : Blank fresh (headerLen + sizeofTab + sizeofString) := by
  intro address beyond
  exact fresh.hole address (by rwa [fresh_size])

theorem fresh_idle : Idle fresh := by
  change fresh.bytes backupFlag = 0
  decide +kernel

/-- The free block of a new database need not be in the file yet. -/
theorem represents_init {file : File} (grown : headerLen + sizeofTab ≤ file.size)
    (head : word file.bytes freeHead = sizeofTab) (tail : word file.bytes freeTail = sizeofTab)
    (sized : word file.bytes freeSize = headerLen + sizeofTab + sizeofString)
    (ended : tabAt file.bytes 0 = ⟨0, 0, 0, 0, 0⟩) : Represents Layout.init file where
  shown :=
    { table := ended
      start := rfl
      packed := init_sound.live
      small := by simp [Layout.init]
      inFile := by
        intro region member
        have here : region = tabRegion 0 := by simpa [Layout.live, Layout.init] using member
        rw [here]
        exact grown
      plain := by simp [Layout.init] }
  sound := init_sound
  ready :=
    { supply :=
        { header := (Nat.le_add_right _ _).trans grown
          sized := sized
          linked := List.IsChain.singleton _
          inFile := by simp [Layout.init]
          below := by simp [Layout.init]
          apart := List.pairwise_singleton _ _ }
      room := by simp [Layout.init]
      some := by simp [Layout.init]
      head := head
      tail := tail }

theorem fresh_represents : Represents Layout.init fresh := by
  apply represents_init
  · rw [fresh_size]
    exact Nat.le_add_right _ _
  · decide +kernel
  · decide +kernel
  · decide +kernel
  · decide +kernel

end Fresh

section Running

variable {layout : Layout} {file : File}

theorem size_le_putAll (layout : Layout) (puts : List Assignment) :
    layout.size ≤ (layout.putAll puts).size := by
  induction puts generalizing layout with
  | nil => exact le_rfl
  | cons put rest ih => exact (size_le_put layout put.1 put.2).trans (ih _)

/-- A put of C strings that are not empty. -/
structure Proper (put : Assignment) : Prop where
  key : 0 ∉ put.1 ∧ put.1 ≠ []
  value : 0 ∉ put.2 ∧ put.2 ≠ []

theorem Proper.putable {put : Assignment} (proper : Proper put)
    (small : (layout.put put.1 put.2).size < 2 ^ 32) : Putable layout file put.1 put.2 where
  keyPlain := proper.key.1
  valuePlain := proper.value.1
  small := small
  updated _ := proper.value.2
  valueServed _ := Or.inl proper.value.2
  keyServed _ := Or.inl proper.key.2
  blank empty := absurd empty (by simp [proper.key.2, proper.value.2])

/-- A run of puts, by induction on the run. -/
theorem put_all_returns (represents : Represents layout file) (idle : Idle file)
    (puts : List Assignment) (proper : ∀ put ∈ puts, Proper put)
    (bounded : (layout.putAll puts).size < 2 ^ 32) :
    ∃ writes, Returns (fun fuel => putAll fuel puts) file writes () ∧
      Represents (layout.putAll puts) (applyAll writes file) ∧ Idle (applyAll writes file) := by
  induction puts generalizing layout file with
  | nil => exact ⟨[], (does_ret _ _).returns, represents, idle⟩
  | cons put rest ih =>
      have small := (size_le_putAll (layout.put put.1 put.2) rest).trans_lt bounded
      obtain ⟨first, after, cleared⟩ := kvdb_put_returns represents idle
        ((proper put (by simp)).putable small)
      obtain ⟨writes, later, final, ended⟩ := ih after cleared
        (fun other member => proper other (by simp [member])) bounded
      refine ⟨putWrites file layout put.1 put.2 ++ writes, returns_bind first later, ?_, ?_⟩
      · rwa [applyAll_append]
      · rwa [applyAll_append]

theorem session_returns (puts : List Assignment) (proper : ∀ put ∈ puts, Proper put)
    (bounded : (Layout.init.putAll puts).size < 2 ^ 32) :
    ∃ writes, Returns (fun fuel => session fuel puts) File.empty writes () ∧
      Represents (Layout.init.putAll puts) (applyAll writes File.empty) ∧
      Idle (applyAll writes File.empty) := by
  obtain ⟨writes, ran, represents, idle⟩ :=
    put_all_returns fresh_represents fresh_idle puts proper bounded
  refine ⟨initWrites ++ writes, returns_bind (init_db_does _).returns ran, ?_, ?_⟩
  · rwa [applyAll_append]
  · rwa [applyAll_append]

end Running

section Integrity

/-- The blocks reached from `first` by their links: they end with a zero link and
none of them comes twice. -/
structure Chain (bytes : Bytes) (first : Nat) (blocks : List Nat) : Prop where
  first : blocks.head? = some first
  linked : blocks.IsChain fun block next => link bytes block = next
  ended : ∀ block, blocks.getLast? = some block → link bytes block = 0
  distinct : blocks.Nodup

/-- The invariant of a database file, in terms of its bytes: the table list from
offset 0 on, the chains of the strings its entries name, the free list from its
head to its tail, and all of them in disjoint places below the recorded size. -/
structure Intact (layout : Layout) (file : File) : Prop where
  start : (layout.entries.map Entry.off ++ [layout.last]).head? = some 0
  listed : (layout.entries.map Entry.off ++ [layout.last]).IsChain fun off next =>
    (tabAt file.bytes off).next = next
  distinct : (layout.entries.map Entry.off ++ [layout.last]).Nodup
  ended : tabAt file.bytes layout.last = ⟨0, 0, 0, 0, 0⟩
  keys : ∀ entry ∈ layout.entries, Chain file.bytes (tabAt file.bytes entry.off).key entry.keyAt ∧
    Stored file.bytes entry.key entry.keyAt
  values : ∀ entry ∈ layout.entries,
    Chain file.bytes (tabAt file.bytes entry.off).value entry.valueAt ∧
      Stored file.bytes entry.value entry.valueAt
  freeHead : layout.free.head? = some (word file.bytes freeHead)
  freeTail : layout.free.getLast? = some (word file.bytes freeTail)
  freeLinked : layout.free.IsChain fun block next => link file.bytes block = next
  freeDistinct : layout.free.Nodup
  disjoint : Packed layout.regions headerLen (word file.bytes freeSize)

variable {layout : Layout} {file : File}

theorem stored_ended {bytes : Bytes} {chars : List UInt8} {blocks : List Nat}
    (stored : Stored bytes chars blocks) :
    ∀ block, blocks.getLast? = some block → link bytes block = 0 := by
  induction blocks generalizing chars with
  | nil => exact stored.elim
  | cons first rest ih =>
      cases rest with
      | nil =>
          intro block last
          simp only [List.getLast?_singleton, Option.some.injEq] at last
          rw [← last]
          exact stored.2.2
      | cons second rest =>
          intro block last
          rw [List.getLast?_cons_cons] at last
          exact ih stored.2.2.2 block last

theorem distinct_blocks {blocks : List Nat} (apart : (blocks.map blockRegion).Pairwise Clear) :
    blocks.Nodup := by
  refine (pairwise_blocks.mp apart).imp fun separate same => ?_
  subst same
  simp only [Apart, sizeofString] at separate
  omega

theorem chain_of_stored {bytes : Bytes} {chars : List UInt8} {blocks : List Nat} {first : Nat}
    (stored : Stored bytes chars blocks) (head : first = blocks.headD 0)
    (apart : (blocks.map blockRegion).Pairwise Clear) : Chain bytes first blocks where
  first := by
    obtain ⟨block, rest, rfl⟩ := List.exists_cons_of_ne_nil (stored_ne_nil stored)
    simp [head]
  linked := stored_chain stored
  ended := stored_ended stored
  distinct := distinct_blocks apart

theorem table_listed {bytes : Bytes} {last : Nat} {entries : List Entry}
    (table : Table bytes last entries) : (entries.map Entry.off ++ [last]).IsChain fun off next =>
      (tabAt bytes off).next = next := by
  induction entries with
  | nil => exact List.IsChain.singleton _
  | cons entry rest ih =>
      have later := ih table.2
      have next := table.1.next
      cases rest with
      | nil => exact List.isChain_cons_cons.mpr ⟨next, later⟩
      | cons second rest => exact List.isChain_cons_cons.mpr ⟨next, later⟩

theorem Represents.intact (represents : Represents layout file) (idle : Idle file) :
    Intact layout file := by
  have shown := represents.shown
  have ready := represents.ready
  have blocks {entry : Entry} (member : entry ∈ layout.entries) :
      ((entry.keyAt ++ entry.valueAt).map blockRegion).Pairwise Clear :=
    shown.packed.apart.sublist (((List.sublist_cons_self _ _).trans (entry_sublist member)).trans
      (List.sublist_append_left _ _))
  refine ⟨?_, table_listed shown.table, ?_, table_last shown.table, ?_, ?_, ?_, ?_,
    ready.supply.linked, distinct_blocks represents.sound.supplies.apart, ?_⟩
  · obtain ⟨later, whole⟩ := next_off_head layout.entries layout.last
    rw [whole, shown.start]
    rfl
  · refine (List.pairwise_map.mp (shown.packed.apart.sublist
      (offs_sublist layout.entries layout.last))).imp fun clear same => ?_
    subst same
    simp only [Clear, tabRegion, sizeofTab] at clear
    omega
  · intro entry member
    obtain ⟨_, found⟩ := table_entry shown.table member
    have apart := blocks member
    rw [List.map_append] at apart
    exact ⟨chain_of_stored found.keyStored found.key (List.pairwise_append.mp apart).1,
      found.keyStored⟩
  · intro entry member
    obtain ⟨_, found⟩ := table_entry shown.table member
    have apart := blocks member
    have value := found.value
    rw [List.map_append] at apart
    rw [current_idle idle] at value
    exact ⟨chain_of_stored found.valueStored value (List.pairwise_append.mp apart).2.1,
      found.valueStored⟩
  · obtain ⟨head, rest, whole⟩ := List.exists_cons_of_ne_nil ready.some
    rw [ready.head, whole]
    rfl
  · rw [ready.tail, List.getLastD_eq_getLast?, List.getLast?_eq_some_getLast ready.some]
    rfl
  · rw [ready.supply.sized]
    exact represents.sound.packed

/-- Every run of puts with non-empty keys and values on a fresh file completes and
leaves the invariant, as long as the recorded size does not wrap. -/
theorem session_intact (puts : List Assignment) (proper : ∀ put ∈ puts, Proper put)
    (bounded : (Layout.init.putAll puts).size < 2 ^ 32) :
    ∃ writes, Returns (fun fuel => session fuel puts) File.empty writes () ∧
      Intact (Layout.init.putAll puts) (applyAll writes File.empty) := by
  obtain ⟨writes, ran, represents, idle⟩ := session_returns puts proper bounded
  exact ⟨writes, ran, represents.intact idle⟩

theorem one_put_size : (Layout.init.putAll [([107], [118])]).size = 456 := by
  simp [Layout.putAll, Layout.put, Layout.find, Layout.init, Layout.append, plan, planFree, planEnd]

/-- A value over two blocks, and its update, which puts them on the free list. -/
def updating : List Assignment := [([107], List.replicate 30 97), ([107], [98])]

def updated : Layout := ⟨[⟨0, [107], [148], [98], [232]⟩], 212, [20, 52, 84], 552⟩

theorem updating_layout : Layout.init.putAll updating = updated := by
  simp [updating, updated, Layout.putAll, Layout.put, Layout.find, Layout.init, Layout.append,
    Layout.update, plan, planFree, planEnd, Matches, replaceFirst, Entry.assign]

instance (put : Assignment) : Decidable (Proper put) :=
  decidable_of_iff ((0 ∉ put.1 ∧ put.1 ≠ []) ∧ (0 ∉ put.2 ∧ put.2 ≠ []))
    ⟨fun both => ⟨both.1, both.2⟩, fun proper => ⟨proper.key, proper.value⟩⟩

/-- Another key and its value go to the two blocks. -/
def reusing : List Assignment := updating ++ [([106], [99])]

def reused : Layout :=
  ⟨[⟨0, [107], [148], [98], [232]⟩, ⟨212, [106], [52], [99], [20]⟩], 328, [84], 604⟩

theorem reusing_layout : Layout.init.putAll reusing = reused := by
  change (Layout.init.putAll updating).put [106] [99] = reused
  rw [updating_layout]
  rfl

theorem reusing_small : (Layout.init.putAll reusing).size < 2 ^ 32 := by
  rw [reusing_layout]
  decide

theorem session_intact_reuse :
    ∃ writes, Returns (fun fuel => session fuel reusing) File.empty writes () ∧
      Intact reused (applyAll writes File.empty) := by
  have facts := session_intact reusing (by decide) reusing_small
  rw [reusing_layout] at facts
  exact facts

end Integrity

end OsWorkbench.Kvdb
