import OsWorkbench.Kvdb.Runs
import Mathlib.Logic.Function.Basic

/-!
# The database as a map

The abstract store maps keys to the last value put. `_kvdb_get` agrees with it
for every key that is stored or not shadowed: `string_cmp` takes a stored key
whose length is a positive multiple of the block payload for any longer key that
begins with it. Puts of such keys, and empty strings taken from a free list with
blocks left, are what a run has to avoid.
-/

namespace OsWorkbench.Kvdb

open ByteStore WriteTrace Regions

abbrev Contents := List UInt8 → Option (List UInt8)

def Contents.assign (contents : Contents) (put : Assignment) : Contents :=
  Function.update contents put.1 (some put.2)

/-- What every key maps to after a run of puts. -/
def lastValues (puts : List Assignment) : Contents :=
  puts.foldl Contents.assign fun _ => none

def Layout.keys (layout : Layout) : List (List UInt8) := layout.entries.map Entry.key

/-- A stored key that `string_cmp` takes for a longer one. -/
def Shadows (stored key : List UInt8) : Prop :=
  stored ≠ [] ∧ stored.length % blockLen = 0 ∧ stored <+: key ∧ stored ≠ key

instance (stored key : List UInt8) : Decidable (Shadows stored key) :=
  inferInstanceAs (Decidable (_ ∧ _ ∧ _ ∧ _))

/-- The comparison finds out whether `key` is among the stored keys. -/
def Told (keys : List (List UInt8)) (key : List UInt8) : Prop :=
  key ∈ keys ∨ ∀ stored ∈ keys, ¬ Shadows stored key

instance (keys : List (List UInt8)) (key : List UInt8) : Decidable (Told keys key) :=
  inferInstanceAs (Decidable (_ ∨ _))

/-- A put that does what it should: no stored key shadows its key, and an empty
string is stored only where no block of the free list is left for it. -/
structure Faithful (layout : Layout) (put : Assignment) : Prop where
  keyPlain : 0 ∉ put.1
  valuePlain : 0 ∉ put.2
  told : Told layout.keys put.1
  emptyValue : put.2 = [] → put.1 ∉ layout.keys ∧ layout.free.length = 1
  emptyKey : put.1 = [] → put.1 ∉ layout.keys →
    layout.free.length ≤ (put.2.length + blockLen - 1) / blockLen + 1

/-- Every put of a run is faithful where it is made. -/
def FaithfulRun : Layout → List Assignment → Prop
  | _, [] => True
  | layout, put :: rest => Faithful layout put ∧ FaithfulRun (layout.put put.1 put.2) rest

section Comparing

theorem matches_iff {stored key : List UInt8} :
    Matches stored key ↔ key = stored ∨ Shadows stored key := by
  unfold Matches Shadows
  constructor
  · rintro (same | ⟨present, divides, pre⟩)
    · exact Or.inl same
    · by_cases same : stored = key
      · exact Or.inl same.symm
      · exact Or.inr ⟨present, divides, pre, same⟩
  · rintro (same | ⟨present, divides, pre, -⟩)
    · exact Or.inl same
    · exact Or.inr ⟨present, divides, pre⟩

theorem matches_self (key : List UInt8) : Matches key key := Or.inl rfl

end Comparing

/-- Each stored key leads to its own entry, which holds the value of the map. -/
structure Agrees (layout : Layout) (contents : Contents) : Prop where
  stored : ∀ key ∈ layout.keys, ∃ entry, layout.find key = some entry ∧ entry.key = key ∧
    contents key = some entry.value
  absent : ∀ key, key ∉ layout.keys → contents key = none

section Agreement

variable {layout : Layout} {contents : Contents} {key value : List UInt8}

theorem init_agrees : Agrees Layout.init fun _ => none where
  stored := by simp [Layout.keys, Layout.init]
  absent _ _ := rfl

/-- A key that is not shadowed is not found in place of another one. -/
theorem find_untold (told : Told layout.keys key) (new : key ∉ layout.keys) :
    layout.find key = none := by
  rw [Layout.find, List.find?_eq_none]
  intro entry member agrees
  have listed : entry.key ∈ layout.keys := List.mem_map_of_mem member
  rcases matches_iff.mp (of_decide_eq_true agrees) with same | shadows
  · exact new (same ▸ listed)
  · rcases told with stored | unshadowed
    · exact new stored
    · exact unshadowed _ listed shadows

theorem Agrees.update (agrees : Agrees layout contents) (stored : key ∈ layout.keys) :
    Agrees (layout.put key value) (contents.assign (key, value)) := by
  obtain ⟨entry, found, named, -⟩ := agrees.stored key stored
  obtain ⟨hit, before, after, whole, passed⟩ := find_some found
  have entries : (layout.put key value).entries =
      before ++ entry.assign value (layout.valueTaken value).blocks :: after := by
    simp only [Layout.put, found, Layout.update, whole]
    exact replace_first_append passed hit
  have keys : (layout.put key value).keys = layout.keys := by
    simp [Layout.keys, entries, whole, Entry.assign]
  refine ⟨fun other listed => ?_, fun other unlisted => ?_⟩
  · rw [keys] at listed
    obtain ⟨others, otherFound, otherNamed, otherValue⟩ := agrees.stored other listed
    by_cases same : other = key
    · subst same
      refine ⟨entry.assign value (layout.valueTaken value).blocks, ?_, named, ?_⟩
      · rw [Layout.find, entries, List.find?_append,
          List.find?_eq_none.mpr (by simpa using passed), Option.none_or, List.find?_cons]
        simp [Entry.assign, hit]
      · simp [Contents.assign, Entry.assign]
    · refine ⟨others, ?_, otherNamed, ?_⟩
      · rw [Layout.find, whole, List.find?_append, List.find?_cons] at otherFound
        rw [Layout.find, entries, List.find?_append, List.find?_cons]
        cases front : before.find? fun listed => decide (Matches listed.key other) with
        | some first => simpa [front] using otherFound
        | none =>
            simp only [front, Option.none_or] at otherFound ⊢
            have miss : ¬ Matches entry.key other := by
              intro hits
              simp only [hits, decide_true] at otherFound
              have here : entry = others := by simpa using otherFound
              exact same (otherNamed.symm.trans (here ▸ named))
            have missed : ¬ Matches (entry.assign value (layout.valueTaken value).blocks).key
                other := miss
            simpa [miss, missed] using otherFound
      · simpa [Contents.assign, same] using otherValue
  · rw [keys] at unlisted
    have unlike : other ≠ key := fun same => unlisted (same ▸ stored)
    simpa [Contents.assign, unlike] using agrees.absent other unlisted

theorem Agrees.append (agrees : Agrees layout contents) (told : Told layout.keys key)
    (new : key ∉ layout.keys) : Agrees (layout.put key value) (contents.assign (key, value)) := by
  have absent := find_untold told new
  have entries : (layout.put key value).entries = layout.entries ++
      [⟨layout.last, key, (layout.keyTaken key value).blocks, value,
        (layout.valueTaken value).blocks⟩] := by
    simp only [Layout.put, absent, Layout.append]
  have keys : (layout.put key value).keys = layout.keys ++ [key] := by
    simp [Layout.keys, entries]
  refine ⟨fun other listed => ?_, fun other unlisted => ?_⟩
  · rw [keys] at listed
    rcases List.mem_append.mp listed with old | added
    · obtain ⟨entry, found, named, assigned⟩ := agrees.stored other old
      have unlike : other ≠ key := fun same => new (same ▸ old)
      refine ⟨entry, ?_, named, by simpa [Contents.assign, unlike] using assigned⟩
      rw [Layout.find] at found
      rw [Layout.find, entries, List.find?_append, found]
      rfl
    · rw [List.mem_singleton.mp added]
      rw [Layout.find] at absent
      refine ⟨⟨layout.last, key, (layout.keyTaken key value).blocks, value,
        (layout.valueTaken value).blocks⟩, ?_, rfl, by simp [Contents.assign]⟩
      rw [Layout.find, entries, List.find?_append, absent, Option.none_or, List.find?_cons]
      simp [matches_self]
  · rw [keys] at unlisted
    have parts : other ∉ layout.keys ∧ other ≠ key := by simpa using unlisted
    simpa [Contents.assign, parts.2] using agrees.absent other parts.1

theorem Agrees.put (agrees : Agrees layout contents) (told : Told layout.keys key) :
    Agrees (layout.put key value) (contents.assign (key, value)) := by
  by_cases stored : key ∈ layout.keys
  · exact agrees.update stored
  · exact agrees.append told stored

/-- Looking a key up gives its value exactly if the key can be told from the
stored ones. -/
theorem Agrees.found_iff (agrees : Agrees layout contents) (key : List UInt8) :
    (layout.find key).map Entry.value = contents key ↔ Told layout.keys key := by
  constructor
  · intro same
    by_cases stored : key ∈ layout.keys
    · exact Or.inl stored
    · refine Or.inr fun other listed shadows => ?_
      rw [agrees.absent key stored, Option.map_eq_none_iff, Layout.find, List.find?_eq_none] at same
      obtain ⟨entry, member, rfl⟩ := List.mem_map.mp listed
      exact same entry member (by simpa using matches_iff.mpr (Or.inr shadows))
  · intro told
    by_cases stored : key ∈ layout.keys
    · obtain ⟨entry, found, -, assigned⟩ := agrees.stored key stored
      rw [found, assigned]
      rfl
    · rw [find_untold told stored, agrees.absent key stored]
      rfl

end Agreement

section Ends

variable {layout : Layout} {file : File} {key value : List UInt8}

theorem Below.append {changes more : List Pwrite} {limit : Nat} (below : Below changes limit)
    (also : Below more limit) : Below (changes ++ more) limit := by
  intro change member
  rcases List.mem_append.mp member with left | right
  · exact below change left
  · exact also change right

theorem Below.mono {changes : List Pwrite} {limit more : Nat} (below : Below changes limit)
    (higher : limit ≤ more) : Below changes more :=
  fun change member address touched => (below change member address touched).trans_le higher

theorem below_single {change : Pwrite} {limit : Nat}
    (bound : change.offset + change.payload.length ≤ limit) : Below [change] limit := by
  intro other member address touched
  rw [List.mem_singleton.mp member] at touched
  simp only [touches, mem_span] at touched
  omega

/-- A put writes nothing beyond the size it records. -/
theorem put_writes_below (file : File) (sound : layout.Sound) (key value : List UInt8) :
    Below (putWrites file layout key value) (layout.put key value).size := by
  have below : ∀ block ∈ layout.free, headerLen + block + sizeofString ≤ layout.size :=
    fun block member => (sound.supplies.inside _ (List.mem_map_of_mem member)).2
  have room := sound.room
  have grown : layout.size ≤ (layout.valueTaken value).size := plan_size _ _ _
  have taken := plan_writes_below value sound.room sound.supply below
  have word {limit spot number : Nat} (header : headerLen ≤ limit) (inside : spot + 4 ≤ headerLen) :
      Below [⟨spot, wordBytes number⟩] limit :=
    below_single (by simp only [word_bytes_length]; omega)
  have cleared {limit : Nat} (header : headerLen ≤ limit) : Below [clearFlag] limit :=
    below_single (by simp only [clearFlag, zeros_length, backupFlag, headerLen] at header ⊢; omega)
  cases found : layout.find key with
  | some entry =>
      have member : entry ∈ layout.entries := List.mem_of_find?_eq_some found
      have place := sound.live.inside (tabRegion entry.off)
        (layout.entry_live member (by simp [Entry.regions]))
      have tail := below _ (getLastD_mem sound.supply)
      have roomNow := room.trans grown
      simp only [tabRegion] at place
      simp only [putWrites, Layout.put, found, updateWrites, Layout.update]
      refine Below.append ((save_below roomNow _).append (taken.append (Below.append
        (below_single ?_) (Below.append (below_single ?_) (word roomNow ?_))))) (cleared roomNow)
      · change headerLen + entry.off + sizeofTab ≤ (layout.valueTaken value).size
        omega
      · change headerLen + layout.free.getLastD 0 + blockLen + 4 ≤ (layout.valueTaken value).size
        simp only [headerLen, blockLen, sizeofString] at tail ⊢
        omega
      · simp [freeTail]
  | none =>
      have place := sound.live.inside _ layout.last_live
      have valueBelow : ∀ block ∈ (layout.valueTaken value).free,
          headerLen + block + sizeofString ≤ (layout.valueTaken value).size := by
        intro block member
        have packed := (sound.taking value).inside (blockRegion block)
          (List.mem_append_right _ (List.mem_map_of_mem member))
        exact packed.2
      have more : (layout.valueTaken value).size ≤ (layout.keyTaken key value).size :=
        plan_size _ _ _
      have keyed := plan_writes_below key (room.trans grown) (plan_suffix sound.supply).2 valueBelow
      have roomNow : headerLen ≤ (layout.keyTaken key value).size + sizeofTab := by omega
      simp only [tabRegion] at place
      simp only [putWrites, Layout.put, found, stageWrites, Layout.append]
      refine Below.append ((save_below roomNow _).append (Below.append (taken.mono ?_)
        (Below.append (keyed.mono (Nat.le_add_right _ _)) (Below.append (word roomNow ?_)
          (below_single ?_))))) (Below.append (below_single ?_) (cleared roomNow))
      · exact more.trans (Nat.le_add_right _ _)
      · simp [freeSize]
      · simp only [zeros_length]
        omega
      · simp only [commitWrite, setTab, tab_length]
        omega

/-- The blocks a value takes before the free list is down to its tail. -/
theorem plan_free_length (free : List Nat) (size : Nat) (src : List UInt8) (some : free ≠ [])
    (short : free.length ≤ (src.length + blockLen - 1) / blockLen + 1) :
    (planFree free size src).free.length = 1 := by
  fun_induction planFree free size src with
  | case1 size src => exact absurd rfl some
  | case2 tail size src later => simp [later, plan_end_free]
  | case3 cur next size src more later => simp [later, plan_end_free]
  | case4 cur next rest size src more further later ih =>
      refine ih (by simp) ?_
      simp only [List.length_cons, List.length_drop, blockLen] at short more ⊢
      omega
  | case5 cur next size src last saved => rfl
  | case6 cur next rest size src last saved further =>
      have positive := List.length_pos_iff.mpr further
      simp only [List.length_cons, blockLen] at short last
      omega

theorem Faithful.putable {put : Assignment} (faithful : Faithful layout put)
    (some : layout.free ≠ []) (blank : Blank file layout.size)
    (small : (layout.put put.1 put.2).size < 2 ^ 32) : Putable layout file put.1 put.2 where
  keyPlain := faithful.keyPlain
  valuePlain := faithful.valuePlain
  small := small
  updated found empty := found (find_untold faithful.told (faithful.emptyValue empty).1)
  valueServed _ := by
    by_cases empty : put.2 = []
    · exact Or.inr (List.length_eq_one_iff.mp (faithful.emptyValue empty).2)
    · exact Or.inl empty
  keyServed absent := by
    by_cases empty : put.1 = []
    · refine Or.inr (List.length_eq_one_iff.mp ?_)
      have unlisted : put.1 ∉ layout.keys := by
        intro listed
        obtain ⟨entry, member, named⟩ := List.mem_map.mp listed
        exact find_none absent entry member (named ▸ matches_self _)
      have short := faithful.emptyKey empty unlisted
      unfold Layout.valueTaken plan
      split_ifs with nothing
      · have positive := List.length_pos_iff.mpr some
        rw [nothing] at short
        simp only [List.length_nil, blockLen] at short
        exact Nat.le_antisymm short positive
      · exact plan_free_length _ _ _ some short
    · exact Or.inl empty
  blank _ := blank

end Ends

section Running

variable {layout : Layout} {file : File} {contents : Contents}

/-- A run of faithful puts keeps the file and the map in step. -/
theorem faithful_run_returns (represents : Represents layout file) (idle : Idle file)
    (blank : Blank file layout.size) (agrees : Agrees layout contents) (puts : List Assignment)
    (faithful : FaithfulRun layout puts) (bounded : (layout.putAll puts).size < 2 ^ 32) :
    ∃ writes, Returns (fun fuel => putAll fuel puts) file writes () ∧
      Represents (layout.putAll puts) (applyAll writes file) ∧
      Agrees (layout.putAll puts) (puts.foldl Contents.assign contents) := by
  induction puts generalizing layout file contents with
  | nil => exact ⟨[], (does_ret _ _).returns, represents, agrees⟩
  | cons put rest ih =>
      have small := (size_le_putAll (layout.put put.1 put.2) rest).trans_lt bounded
      obtain ⟨first, after, cleared⟩ := kvdb_put_returns represents idle
        (faithful.1.putable represents.sound.supply blank small)
      have beyond := blank.after (size_le_put layout put.1 put.2)
        (put_writes_below file represents.sound put.1 put.2)
      obtain ⟨writes, later, final, agreed⟩ := ih after cleared beyond
        (agrees.put faithful.1.told) faithful.2 bounded
      refine ⟨putWrites file layout put.1 put.2 ++ writes, returns_bind first later, ?_, agreed⟩
      rwa [applyAll_append]

/-- After a run of faithful puts, a key is looked up correctly exactly if it can be
told from the stored ones. -/
theorem session_contents (puts : List Assignment) (faithful : FaithfulRun Layout.init puts)
    (bounded : (Layout.init.putAll puts).size < 2 ^ 32) :
    ∃ writes, Returns (fun fuel => session fuel puts) File.empty writes () ∧
      ∀ key, 0 ∉ key → (Returns (fun fuel => kvdbGet fuel key) (applyAll writes File.empty) []
        (lastValues puts key) ↔ Told (Layout.init.putAll puts).keys key) := by
  obtain ⟨writes, ran, represents, agrees⟩ := faithful_run_returns fresh_represents fresh_idle
    fresh_blank init_agrees puts faithful bounded
  refine ⟨initWrites ++ writes, returns_bind (init_db_does _).returns ran, fun key plain => ?_⟩
  have read := represents.shown.get_returns plain
  change Returns _ (applyAll writes fresh) _ _ at read
  rw [applyAll_append, ← agrees.found_iff key]
  change Returns _ (applyAll writes fresh) _ _ ↔ _
  constructor
  · intro claimed
    exact (read.unique claimed).2
  · intro same
    rw [same] at read
    exact read

theorem updating_faithful : FaithfulRun Layout.init updating := by
  refine ⟨⟨by decide, by decide, Or.inr (by simp [Layout.keys, Layout.init]), by simp, by simp⟩, ?_⟩
  refine ⟨⟨by decide, by decide, Or.inl ?_, by simp, by simp⟩, trivial⟩
  simp [Layout.put, Layout.find, Layout.init, Layout.append, Layout.keys]

theorem reusing_faithful : FaithfulRun Layout.init reusing := by
  obtain ⟨first, second, -⟩ := updating_faithful
  refine ⟨first, second, ?_, trivial⟩
  change Faithful (Layout.init.putAll updating) ([106], [99])
  rw [updating_layout]
  exact ⟨by decide, by decide, by decide, by decide, by decide⟩

theorem session_contents_reuse :
    ∃ writes, Returns (fun fuel => session fuel reusing) File.empty writes () ∧
      Returns (fun fuel => kvdbGet fuel [107]) (applyAll writes File.empty) [] (some [98]) ∧
      Returns (fun fuel => kvdbGet fuel [106]) (applyAll writes File.empty) [] (some [99]) ∧
      Returns (fun fuel => kvdbGet fuel [105]) (applyAll writes File.empty) [] none := by
  obtain ⟨writes, ran, told⟩ := session_contents reusing reusing_faithful reusing_small
  rw [reusing_layout] at told
  exact ⟨writes, ran, (told [107] (by decide)).mpr (by decide),
    (told [106] (by decide)).mpr (by decide), (told [105] (by decide)).mpr (by decide)⟩

/-- A stored key of 28 characters is found when a longer key is looked up. -/
theorem longer_key_found :
    (Layout.init.putAll [(List.replicate 28 65, [1])]).size < 2 ^ 32 ∧
      lastValues [(List.replicate 28 65, [1])] (List.replicate 28 65 ++ [66]) = none ∧
      ∃ writes, Returns (fun fuel => session fuel [(List.replicate 28 65, [1])]) File.empty
          writes () ∧
        Returns (fun fuel => kvdbGet fuel (List.replicate 28 65 ++ [66]))
          (applyAll writes File.empty) [] (some [1]) := by
  have size : (Layout.init.putAll [(List.replicate 28 65, [1])]).size = 456 := by
    simp [Layout.putAll, Layout.put, Layout.find, Layout.init, Layout.append, plan, planFree,
      planEnd]
  have found : ((Layout.init.putAll [(List.replicate 28 65, [1])]).find
      (List.replicate 28 65 ++ [66])).map Entry.value = some [1] := by
    simp [Layout.putAll, Layout.put, Layout.find, Layout.init, Layout.append, Matches]
  have small : (Layout.init.putAll [(List.replicate 28 65, [1])]).size < 2 ^ 32 := by
    rw [size]
    decide
  obtain ⟨writes, ran, represents, -⟩ := session_returns [(List.replicate 28 65, [1])]
    (by
      intro put member
      rw [List.mem_singleton.mp member]
      exact ⟨by decide, by decide⟩) small
  refine ⟨small, by decide, writes, ran, ?_⟩
  have read := @Shown.get_returns _ _ represents.shown (List.replicate 28 65 ++ [66]) (by decide)
  rwa [found] at read

end Running

end OsWorkbench.Kvdb
