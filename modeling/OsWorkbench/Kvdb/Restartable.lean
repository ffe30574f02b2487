import OsWorkbench.Kvdb.Repair

/-!
# Recovering twice

A recovery that dies is started again by the next put. The second one links the noted block to the
head that the first one has put back, where the first one links it to the head it found.
-/

namespace OsWorkbench.Kvdb

open ByteStore WriteTrace Regions

/-- What recovery is for: the free list's header, the table entry at `pos`, the links and the
flag. No block starts inside the table entry at offset 0. -/
structure SameRepair (pos : Nat) (once twice : File) : Prop where
  lists : slice twice.bytes 0 12 = slice once.bytes 0 12
  tab : tabAt twice.bytes pos = tabAt once.bytes pos
  links : ∀ block, sizeofTab ≤ block → link twice.bytes block = link once.bytes block
  cleared : Idle once ∧ Idle twice

/-- Recovery dies after `count` writes and is run again. -/
structure Restartable (crashed : File) (count : Nat) : Prop where
  ended : recovBackup.outcome crashed = .ok () ∧
    recovBackup.outcome (recovBackup.crashed crashed count) = .ok ()
  same : SameRepair (word crashed.bytes backupPos) (recovBackup.final crashed)
    (recovBackup.final (recovBackup.crashed crashed count))

/-- What `recov_backup` needs of the undo record. -/
structure Recorded (crashed : File) : Prop where
  flag : crashed.bytes backupFlag ≠ 0
  header : headerLen ≤ crashed.size
  place : headerLen + word crashed.bytes backupPos < 2 ^ 32
  apart : word crashed.bytes backupPos = 0 ∨ sizeofString ≤ word crashed.bytes backupPos
  noted : word crashed.bytes backupPrev = 0 ∨ sizeofTab ≤ word crashed.bytes backupPrev
  prev : headerLen + word crashed.bytes backupPrev + blockLen < 2 ^ 32

section Agreement

variable {file other : File} {address : Nat}

/-- A write hides a difference that it covers. -/
theorem apply_agree {change : Pwrite}
    (same : other.bytes address = file.bytes address ∨ address ∈ touches change) :
    (Store.apply other change).bytes address = (Store.apply file change).bytes address := by
  by_cases inside : address ∈ touches change
  · obtain ⟨index, rfl⟩ := Nat.exists_eq_add_of_le inside.1
    have bound : index < change.payload.length := by
      have above := inside.2
      omega
    exact (overlay_inside bound).trans (overlay_inside bound).symm
  · exact (overlay_frame _ _ _ inside).trans
      ((same.resolve_right inside).trans (overlay_frame _ _ _ inside).symm)

theorem apply_apart {change : Pwrite} (outside : address ∉ touches change) :
    (Store.apply file change).bytes address = file.bytes address :=
  overlay_frame _ _ _ outside

/-- A run of writes hides the differences that it covers. -/
theorem applyAll_agree {changes : List Pwrite} (same : other.bytes address = file.bytes address ∨
      ∃ change ∈ changes, address ∈ touches change) :
    (applyAll changes other).bytes address = (applyAll changes file).bytes address := by
  induction changes generalizing file other with
  | nil => simpa using same
  | cons change rest ih =>
      apply ih
      rcases same with same | ⟨written, member, inside⟩
      · exact Or.inl (apply_agree (Or.inl same))
      · rcases List.mem_cons.mp member with rfl | later
        · exact Or.inl (apply_agree (Or.inr inside))
        · exact Or.inr ⟨written, later, inside⟩

theorem applyAll_kept {changes : List Pwrite}
    (outside : ∀ change ∈ changes, address ∉ touches change) :
    (applyAll changes file).bytes address = file.bytes address := by
  have kept := @applyAll_eqOn file changes {address} (by
    intro change member
    rw [Set.disjoint_singleton_right]
    exact outside change member)
  exact kept (Set.mem_singleton address)

end Agreement

section Twice

variable {crashed : File} {count : Nat}

theorem Recorded.does (recorded : Recorded crashed) :
    Does recovBackup crashed (recoverWrites crashed) () :=
  recov_backup_does recorded.flag recorded.header recorded.place recorded.prev

/-- The file on which a recovery died. -/
abbrev cutShort (crashed : File) (count : Nat) : File :=
  applyAll ((recoverWrites crashed).take count) crashed

theorem cut_short_keeps_saved (early : count < 4) :
    KeepsSaved ((recoverWrites crashed).take count) := by
  rw [recover_take crashed early]
  exact (recover_keeps_saved crashed).take count

theorem cut_short_prev (early : count < 4) :
    word (cutShort crashed count).bytes backupPrev = word crashed.bytes backupPrev := by
  apply word_applyAll
  intro change member
  rw [recover_take crashed early] at member
  exact recover_keeps_prev (List.mem_of_mem_take member)

theorem cut_short_pos (early : count < 4) :
    word (cutShort crashed count).bytes backupPos = word crashed.bytes backupPos :=
  word_congr ((cut_short_keeps_saved early).part (by simp [backupPos, backupList])
    (by simp [backupPos, backupList]))

theorem Recorded.cut_short (recorded : Recorded crashed) (early : count < 4) :
    Recorded (cutShort crashed count) where
  flag := by
    have flag : (cutShort crashed count).bytes backupFlag = crashed.bytes backupFlag :=
      applyAll_eqOn (fun change member => (cut_short_keeps_saved early change member).2) (by simp)
    rw [flag]
    exact recorded.flag
  header := recorded.header.trans (size_le_applyAll _ _)
  place := by
    rw [cut_short_pos early]
    exact recorded.place
  apart := by
    rw [cut_short_pos early]
    exact recorded.apart
  noted := by
    rw [cut_short_prev early]
    exact recorded.noted
  prev := by
    rw [cut_short_prev early]
    exact recorded.prev

/-- The second recovery puts the same header and the same entry back. -/
theorem cut_short_restores (early : count < 4) :
    restoreLists (cutShort crashed count) = restoreLists crashed ∧
      restoreTab (cutShort crashed count) = restoreTab crashed := by
  have keeps := @cut_short_keeps_saved crashed count early
  constructor
  · simp only [restoreLists]
    rw [slice_congr (keeps.part le_rfl (by simp))]
  · simp only [restoreTab]
    rw [cut_short_pos early, slice_congr (keeps.part (by simp [backupList, backupTab])
      (by simp [backupList, backupTab]))]

/-- Once the first write is done, the head is the saved one. -/
theorem cut_short_head (some : 0 < count) (early : count < 4) :
    slice (cutShort crashed count).bytes 0 4 = slice crashed.bytes backupList 4 := by
  obtain ⟨rest, rfl⟩ : ∃ rest, count = rest + 1 := ⟨count - 1, by omega⟩
  have shape : (recoverWrites crashed).take (rest + 1) =
      restoreLists crashed :: [restoreTab crashed, relink crashed].take rest := by
    rw [recover_take crashed early, List.take_succ_cons]
  have later : Set.EqOn (cutShort crashed (rest + 1)).bytes
      (Store.apply crashed (restoreLists crashed)).bytes (span 0 4) := by
    rw [cutShort, shape, applyAll_cons]
    apply applyAll_eqOn
    intro change member
    have listed := List.mem_of_mem_take member
    simp only [List.mem_cons, List.not_mem_nil, or_false] at listed
    rcases listed with rfl | rfl
    · apply span_disjoint
      simp only [restoreTab, headerLen]
      omega
    · apply span_disjoint
      simp only [relink, headerLen]
      omega
  have written := slice_overlay_inside crashed.bytes 0 0 4 (slice crashed.bytes backupList 12)
    (by simp)
  have part := slice_part crashed.bytes backupList 0 4 12 (by decide)
  exact (slice_congr later).trans (written.trans part)

theorem word_of_head (bytes : Bytes) (spot : Nat) :
    word bytes spot = wordOf (slice bytes spot 4) 0 :=
  (word_of_slice bytes spot 4 0 (by decide)).symm

/-- Two words are the same if their bytes are. -/
theorem slice_of_word {bytes other : Bytes} {spot place : Nat}
    (same : word bytes spot = word other place) : slice bytes spot 4 = slice other place 4 := by
  have first := (bytes spot).toNat_lt
  have second := (bytes (spot + 1)).toNat_lt
  have third := (bytes (spot + 2)).toNat_lt
  have fourth := (bytes (spot + 3)).toNat_lt
  have firstOther := (other place).toNat_lt
  have secondOther := (other (place + 1)).toNat_lt
  have thirdOther := (other (place + 2)).toNat_lt
  have fourthOther := (other (place + 3)).toNat_lt
  simp only [word] at same
  have bytewise : (bytes spot).toNat = (other place).toNat ∧
      (bytes (spot + 1)).toNat = (other (place + 1)).toNat ∧
      (bytes (spot + 2)).toNat = (other (place + 2)).toNat ∧
      (bytes (spot + 3)).toNat = (other (place + 3)).toNat := by omega
  simp only [UInt8.toNat_inj] at bytewise
  simp [slice, List.range_succ, bytewise]

/-- Wherever the two redirect the link alike, or do not redirect it, they agree. -/
theorem recovered_twice (early : count < 4) {address : Nat}
    (away : relink (cutShort crashed count) = relink crashed ∨
      address ∉ touches (relink crashed)) :
    (applyAll (recoverWrites (cutShort crashed count)) (cutShort crashed count)).bytes address =
      (applyAll (recoverWrites crashed) crashed).bytes address := by
  obtain ⟨lists, tab⟩ := @cut_short_restores crashed count early
  have start : (cutShort crashed count).bytes address = crashed.bytes address ∨
      ∃ change ∈ [restoreLists crashed, restoreTab crashed, relink crashed],
        address ∈ touches change := by
    by_cases written : ∃ change ∈ [restoreLists crashed, restoreTab crashed, relink crashed],
        address ∈ touches change
    · exact Or.inr written
    · left
      apply applyAll_kept
      intro change member inside
      rw [recover_take crashed early] at member
      exact written ⟨change, List.mem_of_mem_take member, inside⟩
  rcases away with alike | outside
  · have writes : recoverWrites (cutShort crashed count) = recoverWrites crashed := by
      simp only [recoverWrites, lists, tab, alike]
    rw [writes]
    apply applyAll_agree
    rcases start with same | ⟨change, member, inside⟩
    · exact Or.inl same
    · exact Or.inr ⟨change, List.mem_append_left [clearFlag] member, inside⟩
  · have other : address ∉ touches (relink (cutShort crashed count)) := by
      simpa only [touches, relink, cut_short_prev early, slice_length] using outside
    simp only [recoverWrites, applyAll_cons, applyAll_nil]
    apply apply_agree
    left
    rw [apply_apart other, apply_apart outside, lists, tab]
    have before := @applyAll_agree crashed (cutShort crashed count) address
      [restoreLists crashed, restoreTab crashed] (by
        rcases start with same | ⟨change, member, inside⟩
        · exact Or.inl same
        · right
          simp only [List.mem_cons, List.not_mem_nil, or_false] at member
          rcases member with rfl | rfl | rfl
          · exact ⟨_, by simp, inside⟩
          · exact ⟨_, by simp, inside⟩
          · exact absurd inside outside)
    exact before

/-- The link that the second recovery makes. -/
theorem recovered_link_twice (some : 0 < count) (early : count < 4) :
    link (applyAll (recoverWrites (cutShort crashed count)) (cutShort crashed count)).bytes
      (word crashed.bytes backupPrev) = word crashed.bytes backupList := by
  have redirected := @recovered_link (cutShort crashed count)
  rw [cut_short_prev early] at redirected
  rw [redirected, word_of_head, freeHead, cut_short_head some early, ← word_of_head]

/-- What the two recoveries leave, if the second one is not misled. -/
theorem Recorded.repaired (recorded : Recorded crashed) (early : count < 4)
    (alike : relink (cutShort crashed count) = relink crashed ∨
      word crashed.bytes backupPrev = 0) :
    SameRepair (word crashed.bytes backupPos) (applyAll (recoverWrites crashed) crashed)
      (applyAll (recoverWrites (cutShort crashed count)) (cutShort crashed count)) := by
  have agree (address : Nat) (outside : address < headerLen + blockLen ∨
      headerLen + sizeofString ≤ address) :
      (applyAll (recoverWrites (cutShort crashed count)) (cutShort crashed count)).bytes address =
        (applyAll (recoverWrites crashed) crashed).bytes address := by
    apply recovered_twice early
    rcases alike with same | unnoted
    · exact Or.inl same
    · right
      simp only [touches, relink, unnoted, slice_length, mem_span]
      simp only [headerLen, blockLen, sizeofString] at outside ⊢
      omega
  have apart := recorded.apart
  constructor
  · apply slice_congr
    intro address member
    apply agree
    simp only [mem_span, headerLen] at member ⊢
    omega
  · apply congrArg Tab.ofBytes
    apply slice_congr
    intro address member
    apply agree
    simp only [mem_span, headerLen, blockLen, sizeofTab, sizeofString] at member apart ⊢
    omega
  · intro block above
    apply word_congr
    intro address member
    apply agree
    simp only [mem_span, headerLen, blockLen, sizeofTab, sizeofString] at member above ⊢
    omega
  · exact ⟨recovered_idle crashed, recovered_idle _⟩

/-- When a recovery that died can be repeated. -/
theorem Recorded.restartable_iff (recorded : Recorded crashed) (count : Nat) :
    Restartable crashed count ↔ count = 0 ∨ 4 ≤ count ∨
      word crashed.bytes freeHead = word crashed.bytes backupList ∨
      word crashed.bytes backupPrev = 0 := by
  have once := recorded.does
  rcases Nat.lt_or_ge count 4 with early | late
  · have again := (recorded.cut_short early).does
    have stopped : recovBackup.crashed crashed count = cutShort crashed count := once.crashed count
    have halves : SameRepair (word crashed.bytes backupPos)
        (applyAll (recoverWrites crashed) crashed)
        (applyAll (recoverWrites (cutShort crashed count)) (cutShort crashed count)) ↔
        Restartable crashed count := by
      constructor
      · intro same
        constructor
        · rw [stopped]
          exact ⟨once.outcome, again.outcome⟩
        · rw [stopped, once.final, again.final]
          exact same
      · intro restartable
        have same := restartable.same
        rwa [stopped, once.final, again.final] at same
    rw [← halves]
    constructor
    · intro same
      rcases Nat.eq_zero_or_pos count with none | some
      · exact Or.inl none
      · right; right
        rcases recorded.noted with unnoted | above
        · exact Or.inr unnoted
        · left
          have linked := same.links _ above
          rw [recovered_link_twice some early, recovered_link] at linked
          exact linked.symm
    · intro fits
      apply recorded.repaired early
      rcases fits with rfl | late | kept | unnoted
      · exact Or.inl rfl
      · exact absurd late (Nat.not_le.mpr early)
      · rcases Nat.eq_zero_or_pos count with rfl | some
        · exact Or.inl rfl
        · left
          simp only [relink]
          rw [cut_short_prev early, cut_short_head some early, slice_of_word kept.symm]
          rfl
      · exact Or.inr unnoted
  · have whole : recovBackup.crashed crashed count = applyAll (recoverWrites crashed) crashed := by
      rw [once.crashed, List.take_of_length_le late]
    have idle := recovered_idle crashed
    have again := recov_idle idle (recorded.header.trans (size_le_applyAll _ _))
    constructor
    · exact fun _ => Or.inr (Or.inl late)
    · intro _
      constructor
      · rw [whole]
        exact ⟨once.outcome, again.outcome⟩
      · rw [whole, once.final, again.final]
        exact ⟨rfl, rfl, fun _ _ => rfl, idle, idle⟩

end Twice

section Noting

variable {free more : List Nat} {changes : List Pwrite}

/-- Writes that set `backup_prev` to blocks of the free list only. -/
def Notes (free : List Nat) (changes : List Pwrite) : Prop :=
  ∀ change ∈ changes, Disjoint (touches change) (span backupPrev 4) ∨
    ∃ block ∈ free, change = setPrev block

theorem notes_of_keeps (keeps : KeepsHead changes) (free : List Nat) : Notes free changes :=
  fun change member => Or.inl (keeps change member).2

theorem notes_nil (free : List Nat) : Notes free [] :=
  fun _ member => absurd member List.not_mem_nil

theorem Notes.append {later : List Pwrite} (notes : Notes free changes)
    (also : Notes free later) : Notes free (changes ++ later) := by
  intro change member
  rcases List.mem_append.mp member with first | second
  · exact notes change first
  · exact also change second

theorem Notes.mono (notes : Notes free changes) (subset : free ⊆ more) : Notes more changes := by
  intro change member
  rcases notes change member with apart | ⟨block, inside, same⟩
  · exact Or.inl apart
  · exact Or.inr ⟨block, subset inside, same⟩

theorem notes_head (free : List Nat) (value : Nat) : Notes free [setHead value] := by
  intro change member
  rw [List.mem_singleton.mp member]
  exact Or.inl (span_disjoint (Or.inl (by simp [setHead, freeHead, backupPrev])))

theorem notes_prev {block : Nat} (member : block ∈ free) : Notes free [setPrev block] := by
  intro change written
  rw [List.mem_singleton.mp written]
  exact Or.inr ⟨block, member, rfl⟩

theorem plan_free_notes (free : List Nat) (size : Nat) (src : List UInt8) :
    Notes free (planFree free size src).writes := by
  fun_induction planFree free size src with
  | case1 size src => exact notes_nil _
  | case2 tail size src later =>
      exact notes_of_keeps ((keeps_head_size _).append (plan_end_keeps_head _ _ _ _)) _
  | case3 cur next size src more later =>
      apply Notes.append
      · apply (notes_of_keeps (keeps_head_chunk cur src) _).append
        exact (notes_head _ next).append
          (notes_of_keeps ((keeps_head_size _).append (keeps_head_link _ _)) _)
      · exact notes_of_keeps (plan_end_keeps_head _ _ _ _) _
  | case4 cur next rest size src more further later ih =>
      apply Notes.append
      · exact notes_of_keeps ((keeps_head_chunk cur src).append (keeps_head_link _ _)) _
      · exact ih.mono (List.subset_cons_self _ _)
  | case5 cur next size src last saved =>
      apply Notes.append
      · apply (notes_of_keeps (keeps_head_chunk cur src) _).append
        simp only [saved]
        split_ifs
        · exact notes_prev (by simp)
        · exact notes_nil _
      · exact (notes_head _ next).append
          (notes_of_keeps ((keeps_head_size _).append (keeps_head_link _ _)) _)
  | case6 cur next rest size src last saved further =>
      apply Notes.append
      · apply (notes_of_keeps (keeps_head_chunk cur src) _).append
        simp only [saved]
        split_ifs
        · exact notes_prev (by simp)
        · exact notes_nil _
      · exact (notes_head _ next).append (notes_of_keeps (keeps_head_link _ _) _)

theorem plan_notes (free : List Nat) (size : Nat) (src : List UInt8) :
    Notes free (plan free size src).writes := by
  unfold plan
  split_ifs
  · exact (notes_of_keeps (keeps_head_size _) _).append (notes_head _ _)
  · exact (plan_free_notes free size src).append (notes_head _ _)

/-- What `backup_prev` holds after any number of such writes. -/
theorem Notes.prev (notes : Notes free changes) {file : File}
    (small : ∀ block ∈ free, block < 2 ^ 32)
    (start : word file.bytes backupPrev = 0 ∨ word file.bytes backupPrev ∈ free) :
    word (applyAll changes file).bytes backupPrev = 0 ∨
      word (applyAll changes file).bytes backupPrev ∈ free := by
  induction changes generalizing file with
  | nil => exact start
  | cons change rest ih =>
      apply ih fun later member => notes later (List.mem_cons_of_mem _ member)
      rcases notes change (by simp) with apart | ⟨block, inside, rfl⟩
      · have kept := word_congr (@apply_eqOn file change _ apart)
        rwa [kept]
      · right
        have written := word_overlay_self file.bytes backupPrev block
        rw [Nat.mod_eq_of_lt (small block inside)] at written
        have set : word (Store.apply file (setPrev block)).bytes backupPrev = block := written
        rwa [set]

end Noting

section Puts

variable {layout : Layout} {file : File} {key value : List UInt8}

/-- The table entries keep away from the first block of the file. -/
structure Layout.Spaced (layout : Layout) : Prop where
  entries : ∀ entry ∈ layout.entries, entry.off = 0 ∨ sizeofString ≤ entry.off
  last : layout.last = 0 ∨ sizeofString ≤ layout.last
  room : headerLen + sizeofString ≤ layout.size

theorem init_spaced : Layout.init.Spaced where
  entries := nofun
  last := Or.inl rfl
  room := by decide

theorem replace_first_offs (value : List UInt8) (blocks : List Nat) (entries : List Entry) :
    (replaceFirst key (·.assign value blocks) entries).map Entry.off = entries.map Entry.off := by
  induction entries with
  | nil => rfl
  | cons entry rest ih =>
      unfold replaceFirst
      split
      · rfl
      · rw [List.map_cons, List.map_cons, ih]

theorem Layout.Spaced.put (spaced : layout.Spaced) (key value : List UInt8) :
    (layout.put key value).Spaced := by
  have room := spaced.room
  unfold Layout.put
  split
  · refine ⟨?_, spaced.last, room.trans (plan_size _ _ _)⟩
    intro entry member
    have place : entry.off ∈ layout.entries.map Entry.off := by
      rw [← replace_first_offs value (layout.valueTaken value).blocks]
      exact List.mem_map_of_mem member
    obtain ⟨listed, inside, same⟩ := List.mem_map.mp place
    rw [← same]
    exact spaced.entries listed inside
  · have grown : layout.size ≤ (layout.keyTaken key value).size :=
      (plan_size _ _ _).trans (plan_size _ _ _)
    constructor
    · intro entry member
      rcases List.mem_append.mp member with before | added
      · exact spaced.entries entry before
      · rw [List.mem_singleton.mp added]
        exact spaced.last
    · right
      simp only [Layout.append]
      omega
    · simp only [Layout.append]
      omega

theorem put_all_spaced (spaced : layout.Spaced) (puts : List Assignment) :
    (layout.putAll puts).Spaced := by
  induction puts generalizing layout with
  | nil => exact spaced
  | cons put rest ih => exact ih (spaced.put put.1 put.2)

/-- The writes of a put: the undo record first, the flag last. -/
theorem put_writes_framed (represents : Represents layout file) (spaced : layout.Spaced) :
    ∃ pos body, putWrites file layout key value =
        saveHeader file pos :: (body ++ [clearFlag]) ∧
      (pos = 0 ∨ sizeofString ≤ pos) ∧ tabRegion pos ∈ layout.live ∧
      KeepsSaved body ∧ Notes layout.free body := by
  have supply := represents.sound.supply
  have valued := keeps_saved_of_confined (plan_confined layout.free layout.size value)
  have valueNotes := plan_notes layout.free layout.size value
  unfold putWrites
  split
  next entry found =>
    obtain ⟨agrees, before, after, whole, passed⟩ := find_some found
    have member : entry ∈ layout.entries := by simp [whole]
    refine ⟨entry.off, (layout.valueTaken value).writes ++ giveWrites file layout entry value, ?_,
      spaced.entries entry member, layout.entry_live member (by simp [Entry.regions]),
      valued.append (give_keeps_saved file layout entry value), ?_⟩
    · rw [update_writes_shape]
      rfl
    · exact valueNotes.append (notes_of_keeps (give_keeps_head file layout entry value) _)
  next none =>
    have keyed := keeps_saved_of_confined (plan_confined (layout.valueTaken value).free
      (layout.valueTaken value).size key)
    have keyNotes := (plan_notes (layout.valueTaken value).free (layout.valueTaken value).size
      key).mono (@plan_suffix layout.free layout.size value supply).1.subset
    refine ⟨layout.last, (layout.valueTaken value).writes ++
      ((layout.keyTaken key value).writes ++ endWrites layout key value), ?_, spaced.last,
      layout.last_live, valued.append (keyed.append (end_keeps_saved layout key value)), ?_⟩
    · simp only [stageWrites, endWrites, growWrites, List.cons_append, List.append_assoc,
        List.nil_append]
    · exact valueNotes.append
        (keyNotes.append (notes_of_keeps (end_keeps_head layout key value) _))

/-- A put that died with the flag set has left a proper undo record. -/
theorem crashed_put_recorded (represents : Represents layout file) (idle : Idle file)
    (spaced : layout.Spaced) {died : Nat}
    (flagged : (applyAll ((putWrites file layout key value).take died) file).bytes
      backupFlag ≠ 0) :
    Recorded (applyAll ((putWrites file layout key value).take died) file) := by
  obtain ⟨pos, body, shape, apart, live, keeps, notes⟩ :=
    @put_writes_framed layout file key value represents spaced
  have sound := represents.sound
  have small := represents.shown.small
  rw [shape] at flagged ⊢
  cases died with
  | zero => exact absurd idle flagged
  | succ done =>
      rw [List.take_succ_cons] at flagged ⊢
      have unfinished : done ≤ body.length := by
        by_contra finished
        apply flagged
        rw [List.take_of_length_le (by
          rw [List.length_append, List.length_singleton]
          omega), applyAll_cons, applyAll_append]
        exact clear_idle _
      rw [List.take_append_of_le_length unfinished] at flagged ⊢
      have kept := keeps.take done
      have noted : Notes layout.free (body.take done) :=
        fun change member => notes change (List.mem_of_mem_take member)
      have bounds := sound.live.inside _ live
      have posSmall : pos < 2 ^ 32 := by
        simp only [tabRegion] at bounds
        omega
      have place : word (applyAll (saveHeader file pos :: body.take done) file).bytes backupPos =
          pos :=
        (word_congr (kept.part (by simp [backupList, backupPos])
          (by simp [backupList, backupPos]))).trans (saved_pos posSmall)
      have below : ∀ block ∈ layout.free, headerLen + block + sizeofString ≤ layout.size :=
        fun block member => represents.ready.below member
      have prev := noted.prev (fun block member => by
        have under := below block member
        omega) (Or.inl (@saved_prev file pos))
      constructor
      · exact flagged
      · exact represents.ready.supply.header.trans (size_le_applyAll _ _)
      · rw [place]
        simp only [tabRegion] at bounds
        omega
      · rw [place]
        exact apart
      · rcases prev with unnoted | member
        · exact Or.inl unnoted
        · exact Or.inr (represents.shown.block_above sound member)
      · rcases prev with unnoted | member
        · rw [applyAll_cons, unnoted]
          decide
        · have under := below _ member
          simp only [headerLen, blockLen, sizeofString] at under ⊢
          rw [applyAll_cons]
          omega

/-- After any run of puts and one that died with the flag set, recovery can be repeated unless it
died between its first and its last write, the put had moved the head, and a block was noted. -/
theorem recovery_restartable (puts : List Assignment) (put : Assignment)
    (proper : ∀ done ∈ puts, Proper done) (last : Proper put)
    (bounded : (Layout.init.putAll (puts ++ [put])).size < 2 ^ 32) :
    ∃ writes changes, Returns (fun fuel => session fuel puts) File.empty writes () ∧
      Returns (fun fuel => kvdbPut fuel put.1 put.2) (applyAll writes File.empty) changes 0 ∧
      ∀ died crashed, crashed = applyAll (changes.take died) (applyAll writes File.empty) →
        crashed.bytes backupFlag ≠ 0 → ∀ count, Restartable crashed count ↔
          count = 0 ∨ 4 ≤ count ∨
            word crashed.bytes freeHead = word crashed.bytes backupList ∨
            word crashed.bytes backupPrev = 0 := by
  rw [putAll_append] at bounded
  obtain ⟨writes, ran, represents, idle⟩ := session_returns puts proper
    ((size_le_put _ put.1 put.2).trans_lt bounded)
  have putable : Putable (Layout.init.putAll puts) (applyAll writes File.empty) put.1 put.2 :=
    last.putable bounded
  refine ⟨writes, _, ran, (kvdb_put_returns represents idle putable).1, ?_⟩
  rintro died crashed rfl flagged count
  exact (crashed_put_recorded represents idle (put_all_spaced init_spaced puts)
    flagged).restartable_iff count

theorem recovery_restartable_reuse :
    ∃ writes changes, Returns (fun fuel => session fuel updating) File.empty writes () ∧
      Returns (fun fuel => kvdbPut fuel [106] [99]) (applyAll writes File.empty) changes 0 ∧
      ∀ died crashed, crashed = applyAll (changes.take died) (applyAll writes File.empty) →
        crashed.bytes backupFlag ≠ 0 → ∀ count, Restartable crashed count ↔
          count = 0 ∨ 4 ≤ count ∨
            word crashed.bytes freeHead = word crashed.bytes backupList ∨
            word crashed.bytes backupPrev = 0 :=
  recovery_restartable updating ([106], [99]) (by decide) (by decide) reusing_small

end Puts

section Misled

/-- Two puts of one key, and a third one that dies once it has moved the head. -/
def headMoved : File :=
  (kvdbPut 8 [107] [99]).crashed
    ((session 8 [([107], [97]), ([107], [98])]).final File.empty) 5

/-- Run once, recovery links the first block to the second one. Run again after its first write,
it links the first block to itself. -/
theorem recovery_links_itself : headMoved.bytes backupFlag = 1 ∧
    link (recovBackup.final headMoved).bytes 20 ≠ 20 ∧
      link (recovBackup.final (recovBackup.crashed headMoved 1)).bytes 20 = 20 ∧
      ¬ Restartable headMoved 1 := by
  have once : link (recovBackup.final headMoved).bytes 20 ≠ 20 := by decide +kernel
  have twice : link (recovBackup.final (recovBackup.crashed headMoved 1)).bytes 20 = 20 := by
    decide +kernel
  refine ⟨by decide +kernel, once, twice, ?_⟩
  intro restartable
  have same := restartable.same.links 20 (by decide)
  exact once (same.symm.trans twice)

end Misled

end OsWorkbench.Kvdb
