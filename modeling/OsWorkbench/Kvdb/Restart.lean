import OsWorkbench.Kvdb.Crash
import OsWorkbench.Kvdb.Atomic

/-!
# Runs with a crash

A put that dies at a recoverable point is undone or complete after the next
`recov_backup`, and the run goes on from there.
-/

namespace OsWorkbench.Kvdb

open ByteStore WriteTrace Regions

section Frames

variable {layout : Layout} {file : File} {free part : List Nat} {changes : List Pwrite}

theorem Mends.after (mends : Mends free part file.bytes) (keeps : KeepsHead changes)
    (links : ∀ block ∈ part.dropLast, ∀ change ∈ changes,
      Disjoint (touches change) (span (headerLen + block + blockLen) 4)) :
    Mends free part (applyAll changes file).bytes := by
  apply mends.keep
  · exact word_applyAll fun change member => (keeps change member).1
  · exact word_applyAll fun change member => (keeps change member).2
  · intro block member
    exact word_applyAll (links block member)

theorem Aimed.after (aimed : Aimed layout part file.bytes) (keeps : KeepsHead changes) :
    Aimed layout part (applyAll changes file).bytes := by
  have prev : word (applyAll changes file).bytes backupPrev = word file.bytes backupPrev :=
    word_applyAll fun change member => (keeps change member).2
  unfold Aimed
  rw [prev]
  exact aimed

theorem KeepsHead.take (keeps : KeepsHead changes) (count : Nat) :
    KeepsHead (changes.take count) :=
  fun change member => keeps change (List.mem_of_mem_take member)

theorem KeepsSaved.take (keeps : KeepsSaved changes) (count : Nat) :
    KeepsSaved (changes.take count) :=
  fun change member => keeps change (List.mem_of_mem_take member)

theorem tab_avoids_link (sound : layout.Sound) {off block : Nat} {tab : Tab}
    (live : tabRegion off ∈ layout.live) (member : block ∈ layout.free) :
    Disjoint (touches (setTab off tab)) (span (headerLen + block + blockLen) 4) := by
  have clear := sound.packed.cross live (List.mem_map_of_mem member)
  apply link_of_block
  exact clear.disjoint

end Frames

section Branches

variable {layout : Layout} {file : File} {entry : Entry} {key value : List UInt8} {done : Nat}

/-- The writes of an update after the value is stored. -/
def giveWrites (file : File) (layout : Layout) (entry : Entry) (value : List UInt8) :
    List Pwrite :=
  [setTab entry.off (assignedTab file entry (layout.valueTaken value).blocks value),
    setLink (layout.free.getLastD 0) (entry.valueAt.headD 0),
    setTail (entry.valueAt.getLastD 0)]

theorem update_writes_shape (file : File) (layout : Layout) (entry : Entry)
    (value : List UInt8) : updateWrites file layout entry value =
      saveHeader file entry.off ::
        ((layout.valueTaken value).writes ++ giveWrites file layout entry value) := rfl

theorem give_keeps_head (file : File) (layout : Layout) (entry : Entry) (value : List UInt8) :
    KeepsHead (giveWrites file layout entry value) := by
  have tab := @keeps_head_above (setTab entry.off
    (assignedTab file entry (layout.valueTaken value).blocks value)) (by simp [setTab])
  have link := keeps_head_link (layout.free.getLastD 0) (entry.valueAt.headD 0)
  have tail : KeepsHead [setTail (entry.valueAt.getLastD 0)] := by
    intro change member
    rw [List.mem_singleton.mp member]
    constructor
    · exact span_disjoint (Or.inr (by simp [setTail, freeHead, freeTail]))
    · exact span_disjoint (Or.inl (by simp [setTail, freeTail, backupPrev]))
  exact tab.append (link.append tail)

theorem give_keeps_saved (file : File) (layout : Layout) (entry : Entry) (value : List UInt8) :
    KeepsSaved (giveWrites file layout entry value) := by
  have tab := @keeps_saved_above (setTab entry.off
    (assignedTab file entry (layout.valueTaken value).blocks value)) (by simp [setTab])
  have link := @keeps_saved_above (setLink (layout.free.getLastD 0) (entry.valueAt.headD 0))
    (by simp only [setLink]; omega)
  have tail := @keeps_saved_list (entry.valueAt.getLastD 0) freeTail
    (by simp [freeTail, backupList])
  exact tab.append (link.append tail)

/-- An update that dies can be undone. -/
theorem torn_update (represents : Represents layout file) (idle : Idle file)
    (member : entry ∈ layout.entries) (some : value ≠ [])
    (restorable : Restorable layout.free value done)
    (aim : Named layout.free value done ∨ StrayClear layout) :
    Torn layout entry.off layout.free file (applyAll (saveHeader file entry.off ::
      ((layout.valueTaken value).writes ++ giveWrites file layout entry value).take done)
        file) := by
  have sound := represents.sound
  have live := @Layout.entry_live layout entry member (tabRegion entry.off)
    (by simp [Entry.regions])
  rcases value_mends represents entry.off (Or.inl some) restorable aim with ⟨mends, aimed⟩
  have keepsHead := (give_keeps_head file layout entry value).take
    (done - (layout.valueTaken value).writes.length)
  have links : ∀ block ∈ layout.free.dropLast, ∀ change ∈
      (giveWrites file layout entry value).take (done - (layout.valueTaken value).writes.length),
      Disjoint (touches change) (span (headerLen + block + blockLen) 4) := by
    intro block inside change written
    have listed := List.mem_of_mem_take written
    simp only [giveWrites, List.mem_cons, List.not_mem_nil, or_false] at listed
    rcases listed with rfl | rfl | rfl
    · exact tab_avoids_link sound live (List.mem_of_mem_dropLast inside)
    · apply link_span_disjoint
      have apart := pairwise_blocks.mp sound.supplies.apart
      have last := List.dropLast_concat_getLast sound.supply
      rw [← last, List.pairwise_append] at apart
      have tail : layout.free.getLastD 0 = layout.free.getLast sound.supply := by
        rw [List.getLastD_eq_getLast?, List.getLast?_eq_some_getLast sound.supply]
        rfl
      rw [tail]
      exact (apart.2.2 block inside _ (List.mem_singleton_self _)).symm
    · exact header_avoids_link (by simp [freeTail])
  have after := mends.after keepsHead links
  have aimedAfter := aimed.after keepsHead
  rw [← applyAll_append, ← List.take_append] at after aimedAfter
  have keeps := ((keeps_saved_of_confined (plan_confined layout.free layout.size value)).append
    (give_keeps_saved file layout entry value)).take done
  have suspended := @suspended_of layout file entry.off _ sound represents.shown.small live keeps (by
    intro region inside unlike change written
    rcases List.mem_append.mp (List.mem_of_mem_take written) with stored | given
    · exact plan_avoids value sound.packed sound.room sound.supply region inside change stored
    · simp only [giveWrites, List.mem_cons, List.not_mem_nil, or_false] at given
      rcases given with rfl | rfl | rfl
      · exact set_tab_avoids (tab_clear sound.live member inside unlike)
      · exact set_link_avoids (sound.tail_clear inside)
      · exact word_avoids (by simp [freeTail]) (sound.live.inside region inside).1)
  exact ⟨represents, idle, live, suspended, after, aimedAfter⟩

/-- The writes of an append after the key is stored. -/
def endWrites (layout : Layout) (key value : List UInt8) : List Pwrite :=
  growWrites layout key value ++ [commitWrite layout key value]

theorem end_keeps_head (layout : Layout) (key value : List UInt8) :
    KeepsHead (endWrites layout key value) := by
  have size := keeps_head_size ((layout.keyTaken key value).size + sizeofTab)
  have blank := @keeps_head_above
    ⟨headerLen + ((layout.keyTaken key value).size - headerLen), zeros sizeofTab⟩ (by simp)
  have commit := @keeps_head_above (commitWrite layout key value) (by simp [commitWrite, setTab])
  exact (size.append blank).append commit

theorem end_keeps_saved (layout : Layout) (key value : List UInt8) :
    KeepsSaved (endWrites layout key value) := by
  have size := @keeps_saved_list ((layout.keyTaken key value).size + sizeofTab) freeSize
    (by simp [freeSize, backupList])
  have blank := @keeps_saved_above
    ⟨headerLen + ((layout.keyTaken key value).size - headerLen), zeros sizeofTab⟩ (by simp)
  have commit := @keeps_saved_above (commitWrite layout key value) (by simp [commitWrite, setTab])
  exact (size.append blank).append commit

/-- An append that dies can be undone; blocks may be lost. -/
theorem torn_append (represents : Represents layout file) (idle : Idle file)
    (new : layout.find key = none)
    (servedKey : Served (layout.valueTaken value).free key) (served : Served layout.free value)
    (small : (layout.keyTaken key value).size < 2 ^ 32)
    (restorable : Restorable layout.free value done)
    (aim : Named layout.free value done ∨ StrayClear layout)
    (unnamed : Unnamed (layout.valueTaken value).free key
      (done - (layout.valueTaken value).writes.length)) :
    Torn layout layout.last (tornFree layout (key, value) done) file
      (applyAll (saveHeader file layout.last :: ((layout.valueTaken value).writes ++
        ((layout.keyTaken key value).writes ++ endWrites layout key value)).take done) file) := by
  have sound := represents.sound
  have live := layout.last_live
  have stored : Mends layout.free (tornFree layout (key, value) done)
        (applyAll ((layout.keyTaken key value).writes.take
            (done - (layout.valueTaken value).writes.length))
          (applyAll ((layout.valueTaken value).writes.take done)
            (applyAll [saveHeader file layout.last] file))).bytes ∧
      Aimed layout (tornFree layout (key, value) done)
        (applyAll ((layout.keyTaken key value).writes.take
            (done - (layout.valueTaken value).writes.length))
          (applyAll ((layout.valueTaken value).writes.take done)
            (applyAll [saveHeader file layout.last] file))).bytes := by
    rcases Nat.lt_or_ge (layout.valueTaken value).writes.length done with late | early
    · rw [List.take_of_length_le (Nat.le_of_lt late)]
      exact key_mends represents layout.last servedKey served small new restorable aim unnamed late
    · have whole : tornFree layout (key, value) done = layout.free := by
        apply if_neg
        intro leaks
        have late := leaks_late (fun _ => servedKey) leaks
        omega
      rw [whole, Nat.sub_eq_zero_of_le early, List.take_zero, applyAll_nil]
      exact value_mends represents layout.last served restorable aim
  generalize counted : done - (layout.valueTaken value).writes.length = keyDone at stored
  have keepsHead := (end_keeps_head layout key value).take
    (keyDone - (layout.keyTaken key value).writes.length)
  have subset : (tornFree layout (key, value) done).Sublist layout.free := stored.1.sublist
  have grown : layout.size ≤ (layout.keyTaken key value).size :=
    (plan_size _ _ _).trans (plan_size _ _ _)
  have links : ∀ block ∈ (tornFree layout (key, value) done).dropLast, ∀ change ∈
      (endWrites layout key value).take (keyDone - (layout.keyTaken key value).writes.length),
      Disjoint (touches change) (span (headerLen + block + blockLen) 4) := by
    intro block inside change written
    have free := subset.subset (List.mem_of_mem_dropLast inside)
    have below := represents.ready.below free
    have listed := List.mem_of_mem_take written
    simp only [endWrites, growWrites, List.mem_append, List.mem_cons, List.not_mem_nil,
      or_false] at listed
    rcases listed with (rfl | rfl) | rfl
    · exact header_avoids_link (by simp [freeSize])
    · apply span_disjoint
      simp only [headerLen, blockLen, sizeofString] at below ⊢
      omega
    · exact tab_avoids_link sound live free
  have after := stored.1.after keepsHead links
  have aimedAfter := stored.2.after keepsHead
  rw [← applyAll_append, ← List.take_append, ← counted, ← applyAll_append,
    ← List.take_append] at after aimedAfter
  have keeps := ((keeps_saved_of_confined (plan_confined layout.free layout.size value)).append
    ((keeps_saved_of_confined (plan_confined (layout.valueTaken value).free
      (layout.valueTaken value).size key)).append (end_keeps_saved layout key value))).take done
  have suspended := @suspended_of layout file layout.last _ sound represents.shown.small live keeps
    (by
      intro region inside unlike change written
      have staged := stage_avoids sound key value region inside
      have listed := List.mem_of_mem_take written
      rw [endWrites, ← List.append_assoc, ← List.append_assoc, List.append_assoc _ _ (growWrites ..)]
        at listed
      rcases List.mem_append.mp listed with before | commit
      · exact staged change before
      · rw [List.mem_singleton.mp commit]
        exact set_tab_avoids (sound.live.clear_of_ne live inside (Ne.symm unlike)))
  exact ⟨represents, idle, live, suspended, after, aimedAfter⟩

end Branches

section Crashes

variable {layout : Layout} {file : File} {key value : List UInt8} {count : Nat}

theorem put_writes_length (file : File) (layout : Layout) (key value : List UInt8) :
    (putWrites file layout key value).length = putLength layout (key, value) := by
  unfold putWrites putLength
  cases found : layout.find key with
  | some entry => simp [updateWrites]
  | none => simp [stageWrites, Nat.add_assoc]

theorem with_own_free (layout : Layout) : layout.withFree layout.free = layout := rfl

/-- Nobody writes: the file represents the layout, or recovery makes it do so. -/
structure Resting (layout : Layout) (file : File) : Prop where
  shown : ∃ view, Shown view file
  settled : (Represents layout file ∧ Idle file) ∨ ∃ old pos part base,
    layout = old.withFree part ∧ Torn old pos part base file

theorem Resting.header (resting : Resting layout file) : headerLen ≤ file.size := by
  rcases resting.settled with ⟨represents, -⟩ | ⟨old, pos, part, base, -, torn⟩
  · exact represents.ready.supply.header
  · exact torn.represents.ready.supply.header.trans torn.suspended.grown

/-- What `recov_backup` writes. -/
def repairWrites (file : File) : List Pwrite :=
  if file.bytes backupFlag = 0 then [] else recoverWrites file

theorem Resting.recovers (resting : Resting layout file) :
    Does recovBackup file (repairWrites file) () ∧
      Represents layout (applyAll (repairWrites file) file) ∧
      Idle (applyAll (repairWrites file) file) := by
  rcases resting.settled with ⟨represents, idle⟩ | ⟨old, pos, part, base, rfl, torn⟩
  · have none : repairWrites file = [] := if_pos idle
    rw [none]
    exact ⟨recov_idle idle resting.header, represents, idle⟩
  · have all : repairWrites file = recoverWrites file := if_neg torn.suspended.flag
    rw [all]
    exact torn.recovers

/-- A put that dies where it can be recovered leads to the layout before it, up to lost blocks, or
to the one after it. -/
theorem crashed_put_rests (represents : Represents layout file) (idle : Idle file)
    (putable : Putable layout file key value)
    (recoverable : Recoverable layout (key, value) count) :
    Resting (layout.recovered (key, value) count)
      (applyAll ((putWrites file layout key value).take count) file) where
  shown := by
    rcases (put_visible represents idle putable).1 count with old | new
    · exact ⟨_, old⟩
    · exact ⟨_, new⟩
  settled := by
    rcases Nat.lt_or_ge count (putLength layout (key, value)) with torn | complete
    · have after : layout.recovered (key, value) count =
          layout.withFree (tornFree layout (key, value) (count - 1)) := by
        unfold Layout.recovered tornFree
        rw [if_neg (Nat.not_le.mpr torn)]
      rw [after]
      rcases Nat.eq_zero_or_pos count with rfl | positive
      · have kept : tornFree layout (key, value) (0 - 1) = layout.free := by
          apply if_neg
          intro leaks
          have late := leaks_late putable.keyServed leaks
          omega
        rw [kept, with_own_free, List.take_zero, applyAll_nil]
        left
        exact ⟨represents, idle⟩
      · obtain ⟨done, rfl⟩ : ∃ done, count = done + 1 := ⟨count - 1, by omega⟩
        rcases recoverable with zero | beyond | ⟨restorable, aim, unnamed⟩
        · omega
        · omega
        rw [Nat.add_sub_cancel] at restorable aim unnamed ⊢
        right
        cases found : layout.find key with
        | some entry =>
            have member : entry ∈ layout.entries := List.mem_of_find?_eq_some found
            have kept : tornFree layout (key, value) done = layout.free := by
              apply if_neg
              intro leaks
              have absent := leaks.1
              rw [found] at absent
              cases absent
            have shape : (putWrites file layout key value).take (done + 1) =
                saveHeader file entry.off :: ((layout.valueTaken value).writes ++
                  giveWrites file layout entry value).take done := by
              simp only [putWrites, found, update_writes_shape, List.cons_append,
                List.take_succ_cons]
              rw [List.take_append_of_le_length]
              simp only [putLength, found] at torn
              simp only [List.length_append, giveWrites, List.length_cons, List.length_nil]
              omega
            rw [kept, shape]
            exact ⟨layout, entry.off, layout.free, file, rfl, torn_update represents idle member
              (putable.updated (by simp [found])) restorable aim⟩
        | none =>
            have shape : (putWrites file layout key value).take (done + 1) =
                saveHeader file layout.last :: ((layout.valueTaken value).writes ++
                  ((layout.keyTaken key value).writes ++ endWrites layout key value)).take done := by
              have whole : putWrites file layout key value = saveHeader file layout.last ::
                  (((layout.valueTaken value).writes ++
                    ((layout.keyTaken key value).writes ++ endWrites layout key value)) ++
                      [clearFlag]) := by
                simp [putWrites, found, stageWrites, endWrites, growWrites]
              rw [whole, List.take_succ_cons, List.take_append_of_le_length]
              simp only [putLength, found] at torn
              simp only [List.length_append, endWrites, growWrites, List.length_cons,
                List.length_nil]
              omega
            have keySmall : (layout.keyTaken key value).size < 2 ^ 32 := by
              have small := putable.small
              simp only [Layout.put, found, Layout.append] at small
              omega
            rw [shape]
            exact ⟨layout, layout.last, tornFree layout (key, value) done, file, rfl,
              torn_append represents idle found (putable.keyServed found)
                (putable.valueServed found) keySmall restorable aim (unnamed found)⟩
    · have after : layout.recovered (key, value) count = layout.put key value := if_pos complete
      rw [after, List.take_of_length_le (by rw [put_writes_length]; exact complete)]
      left
      exact (kvdb_put_returns represents idle putable).2

end Crashes

section Runs

variable {layout : Layout} {contents : Contents}

theorem agrees_putAll (agrees : Agrees layout contents) (puts : List Assignment)
    (faithful : FaithfulRun layout puts) :
    Agrees (layout.putAll puts) (puts.foldl Contents.assign contents) := by
  induction puts generalizing layout contents with
  | nil => exact agrees
  | cons put rest ih => exact ih (agrees.put faithful.1.told) faithful.2

theorem Agrees.keys (agrees : Agrees layout contents) (key : List UInt8) :
    key ∈ layout.keys ↔ contents key ≠ none := by
  constructor
  · intro listed
    obtain ⟨entry, -, -, assigned⟩ := agrees.stored key listed
    rw [assigned]
    exact Option.some_ne_none _
  · intro assigned
    by_contra unlisted
    exact assigned (agrees.absent key unlisted)

theorem assigned_iff (puts : List Assignment) (key : List UInt8) :
    puts.foldl Contents.assign contents key ≠ none ↔
      contents key ≠ none ∨ key ∈ puts.map Prod.fst := by
  induction puts generalizing contents with
  | nil => simp
  | cons put rest ih =>
      rw [List.foldl_cons, ih, List.map_cons, List.mem_cons]
      by_cases same : key = put.1
      · simp [Contents.assign, same]
      · simp [Contents.assign, same]

theorem told_congr {keys others : List (List UInt8)} {key : List UInt8}
    (same : ∀ stored, stored ∈ keys ↔ stored ∈ others) : Told keys key ↔ Told others key := by
  unfold Told
  simp only [same]

/-- Lookups in a file that represents what a run of puts leads to. -/
theorem lookups_of_run {file : File} {puts : List Assignment} (shown : Shown layout file)
    (agrees : Agrees layout (lastValues puts)) :
    ∀ key, 0 ∉ key → (Returns (fun fuel => kvdbGet fuel key) file [] (lastValues puts key) ↔
      Told (puts.map Prod.fst) key) := by
  intro key plain
  have read := shown.get_returns plain
  have keys : ∀ stored, stored ∈ layout.keys ↔ stored ∈ puts.map Prod.fst := by
    intro stored
    rw [agrees.keys, lastValues, assigned_iff]
    simp
  rw [← told_congr keys, ← agrees.found_iff key]
  constructor
  · intro claimed
    exact (read.unique claimed).2
  · intro same
    rw [same] at read
    exact read

/-- A run of puts, one put that dies at a recoverable point, and a further run of puts. What was
put before and afterwards is found; the put that died has happened or not. -/
theorem crashed_session_recovers (puts : List Assignment) (put : Assignment)
    (more : List Assignment) (count : Nat) (proper : ∀ done ∈ puts ++ put :: more, Proper done)
    (before : FaithfulRun Layout.init puts) (faithful : Faithful (Layout.init.putAll puts) put)
    (bounded : (Layout.init.putAll (puts ++ [put])).size < 2 ^ 32)
    (recoverable : Recoverable (Layout.init.putAll puts) put count)
    (after : FaithfulRun ((Layout.init.putAll puts).recovered put count) more)
    (boundedAfter :
      (((Layout.init.putAll puts).recovered put count).putAll more).size < 2 ^ 32) :
    ∃ writes changes later, Returns (fun fuel => session fuel puts) File.empty writes () ∧
      Returns (fun fuel => kvdbPut fuel put.1 put.2) (applyAll writes File.empty) changes 0 ∧
      Returns (fun fuel => putAll fuel more)
        (applyAll (changes.take count) (applyAll writes File.empty)) later () ∧
      ∃ kept, (kept = puts ∨ kept = puts ++ [put]) ∧ ∀ key, 0 ∉ key →
        (Returns (fun fuel => kvdbGet fuel key)
            (applyAll later (applyAll (changes.take count) (applyAll writes File.empty))) []
            (lastValues (kept ++ more) key) ↔ Told ((kept ++ more).map Prod.fst) key) := by
  rw [putAll_append] at bounded
  have properPut : Proper (put.1, put.2) := proper put (by simp)
  obtain ⟨writes, ran, represents, idle⟩ := session_returns puts
    (fun done member => proper done (List.mem_append_left _ member))
    ((size_le_put _ put.1 put.2).trans_lt bounded)
  have putable : Putable (Layout.init.putAll puts) (applyAll writes File.empty) put.1 put.2 :=
    properPut.putable bounded
  have agrees : Agrees (Layout.init.putAll puts) (lastValues puts) :=
    agrees_putAll init_agrees puts before
  have agreesPut : Agrees ((Layout.init.putAll puts).put put.1 put.2)
      (lastValues (puts ++ [put])) := by
    have assigned := @Agrees.put _ _ put.1 put.2 agrees faithful.told
    rwa [lastValues, List.foldl_append]
  have putRan := (kvdb_put_returns represents idle putable).1
  cases more with
  | nil =>
      refine ⟨writes, _, [], ran, putRan, (does_ret _ _).returns, ?_⟩
      rcases (put_visible represents idle putable).1 count with old | new
      · refine ⟨puts, Or.inl rfl, ?_⟩
        rw [List.append_nil]
        exact lookups_of_run old agrees
      · refine ⟨puts ++ [put], Or.inr rfl, ?_⟩
        rw [List.append_nil]
        exact lookups_of_run new agreesPut
  | cons next rest =>
      obtain ⟨recovered, repaired, quiet⟩ :=
        (crashed_put_rests represents idle putable recoverable).recovers
      have properNext := proper next (by simp)
      have smallNext := (size_le_putAll _ rest).trans_lt boundedAfter
      obtain ⟨firstRan, nextRepresents, nextIdle⟩ := recovering_put_returns recovered repaired
        quiet (properNext.putable smallNext)
      obtain ⟨others, ranRest, final, -⟩ := put_all_returns nextRepresents nextIdle rest
        (fun done member => proper done (by simp [member])) boundedAfter
      refine ⟨writes, _, _, ran, putRan, returns_bind firstRan ranRest, ?_⟩
      rw [applyAll_append _ others]
      by_cases complete : putLength (Layout.init.putAll puts) put ≤ count
      · refine ⟨puts ++ [put], Or.inr rfl, lookups_of_run final.shown ?_⟩
        have whole : (Layout.init.putAll puts).recovered put count =
            (Layout.init.putAll puts).put put.1 put.2 := if_pos complete
        have agreed := agrees_putAll agreesPut (next :: rest) (by rwa [whole] at after)
        rw [lastValues, List.foldl_append]
        rw [← whole] at agreed
        exact agreed
      · refine ⟨puts, Or.inl rfl, lookups_of_run final.shown ?_⟩
        have undone : (Layout.init.putAll puts).recovered put count =
            (Layout.init.putAll puts).withFree (tornFree (Layout.init.putAll puts) put
              (count - 1)) := if_neg complete
        have kept : Agrees ((Layout.init.putAll puts).recovered put count) (lastValues puts) := by
          rw [undone]
          exact ⟨agrees.stored, agrees.absent⟩
        have agreed := agrees_putAll kept (next :: rest) after
        rw [lastValues, List.foldl_append]
        exact agreed

/-- The put dies while it stores its key; recovery gives the blocks of both strings back, and later
puts update one key and use these blocks for another. -/
theorem crashed_session_recovers_reuse :
    ∃ writes changes later kept, Returns (fun fuel => session fuel updating) File.empty writes () ∧
      Returns (fun fuel => kvdbPut fuel [106] [99]) (applyAll writes File.empty) changes 0 ∧
      Returns (fun fuel => putAll fuel [([107], [100]), ([105], [101])])
        (applyAll (changes.take 9) (applyAll writes File.empty)) later () ∧
      (kept = updating ∨ kept = reusing) ∧ ∀ key, 0 ∉ key →
        (Returns (fun fuel => kvdbGet fuel key)
            (applyAll later (applyAll (changes.take 9) (applyAll writes File.empty))) []
            (lastValues (kept ++ [([107], [100]), ([105], [101])]) key) ↔
          Told ((kept ++ [([107], [100]), ([105], [101])]).map Prod.fst) key) := by
  have faithful : Faithful (Layout.init.putAll updating) ([106], [99]) := reusing_faithful.2.2.1
  have recoverable : Recoverable (Layout.init.putAll updating) ([106], [99]) 9 := by
    rw [updating_layout]
    refine Or.inr (Or.inr ⟨Or.inr (by decide), Or.inl ⟨by decide, by decide⟩, fun _ => ?_⟩)
    exact Or.inr (Or.inr (by decide))
  have torn : (Layout.init.putAll updating).recovered ([106], [99]) 9 = updated := by
    rw [updating_layout]
    rfl
  have after : FaithfulRun updated [([107], [100]), ([105], [101])] :=
    ⟨⟨by decide, by decide, by decide, by decide, by decide⟩,
      ⟨by decide, by decide, by decide, by decide, by decide⟩, trivial⟩
  obtain ⟨writes, changes, later, ran, put, recovered, kept, which, reads⟩ :=
    crashed_session_recovers updating ([106], [99]) [([107], [100]), ([105], [101])] 9
      (by decide) updating_faithful faithful reusing_small recoverable (by rwa [torn])
      (by rw [torn]; decide)
  exact ⟨writes, changes, later, kept, ran, put, recovered, which, reads⟩

end Runs

section Stray

/-- Three puts of one key: its value ends up in the first block of the file. -/
def firstBlockUsed : File :=
  (session 8 [([107], [97]), ([107], [98]), ([107], List.replicate 12 120)]).final File.empty

/-- A put of another key dies after saving the header; a third key is put after that. -/
def strayed : File := (kvdbPut 8 [105] [100]).final ((kvdbPut 8 [106] [99]).crashed firstBlockUsed 1)

/-- Recovery has written the head of the free list into the middle of the value. -/
theorem stray_link_corrupts :
    ((kvdbGet 8 [107]).outcome firstBlockUsed).toOption = some (some (List.replicate 12 120)) ∧
      ((kvdbPut 8 [105] [100]).outcome
        ((kvdbPut 8 [106] [99]).crashed firstBlockUsed 1)).toOption = some 0 ∧
      ((kvdbGet 8 [107]).outcome strayed).toOption = some (some (List.replicate 8 120 ++ [52])) := by
  decide +kernel

end Stray

end OsWorkbench.Kvdb
