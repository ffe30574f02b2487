import OsWorkbench.Kvdb.Visible

/-!
# `kvdb_put` performs its writes

The walk along the table ends in one of the two branches, which perform exactly
the writes of `putWrites`; the file left behind represents `Layout.put`.
-/

namespace OsWorkbench.Kvdb

open ByteStore WriteTrace Regions

section Walks

variable {file : File} {last : Nat} {key value : List UInt8} {writes : List Pwrite} {ret : Int}

theorem Walkable.put_step {entry : Entry} {rest : List Entry}
    (walk : Walkable file last (entry :: rest)) (plain : 0 ∉ key)
    (hit : Matches entry.key key → Returns (fun fuel => updateEntry fuel entry.off
      (tabAt file.bytes entry.off) value) file writes ret)
    (miss : ¬ Matches entry.key key → Returns (fun fuel => putFrom fuel
      (nextOff rest last) key value) file writes ret) :
    Returns (fun fuel => putFrom fuel entry.off key value) file writes ret := by
  obtain ⟨found, order, compared, meaning⟩ := walk.compared plain
  apply returns_of_succ
  simp only [putFrom]
  refine returns_bind_read walk.read_tab.returns ?_
  simp only [nextOff, walk.next_ne_zero, ne_eq, not_false_eq_true, if_true]
  refine returns_bind_read found.returns (returns_bind_read compared ?_)
  by_cases agrees : Matches entry.key key
  · simp only [meaning.mpr agrees, if_true]
    exact hit agrees
  · have unequal : ¬ order = 0 := fun zero => agrees (meaning.mp zero)
    simp only [unequal, if_false]
    rw [walk.table.1.next]
    exact miss agrees

/-- The walk stops at the first matching entry. -/
theorem Walkable.put_update {before after : List Entry} {entry : Entry}
    (walk : Walkable file last (before ++ entry :: after)) (plain : 0 ∉ key)
    (passed : ∀ other ∈ before, ¬ Matches other.key key) (agrees : Matches entry.key key)
    (target : Returns (fun fuel => updateEntry fuel entry.off (tabAt file.bytes entry.off) value)
      file writes ret) :
    Returns (fun fuel => putFrom fuel (nextOff (before ++ entry :: after) last) key value)
      file writes ret := by
  induction before with
  | nil => exact walk.put_step plain (fun _ => target) fun miss => absurd agrees miss
  | cons first rest ih =>
      exact walk.put_step plain (fun hit => absurd hit (passed first (by simp))) fun _ =>
        ih walk.later fun other member => passed other (by simp [member])

/-- Without a match the walk ends at the all-zero entry. -/
theorem Walkable.put_append {entries : List Entry} (walk : Walkable file last entries)
    (plain : 0 ∉ key) (passed : ∀ other ∈ entries, ¬ Matches other.key key)
    (target : Returns (fun fuel => appendEntry fuel last key value) file writes ret) :
    Returns (fun fuel => putFrom fuel (nextOff entries last) key value) file writes ret := by
  induction entries with
  | nil =>
      apply returns_of_succ
      simp only [putFrom]
      refine returns_bind_read walk.read_tab.returns ?_
      simp only [nextOff, walk.last_next, ne_eq, not_true_eq_false, if_false]
      exact target
  | cons first rest ih =>
      exact walk.put_step plain (fun hit => absurd hit (passed first (by simp))) fun _ =>
        ih walk.later fun other member => passed other (by simp [member])

end Walks

section FreeLists

variable {file : File} {free blocks : List Nat} {size : Nat} {chars : List UInt8}

theorem stored_chain {bytes : Bytes} (stored : Stored bytes chars blocks) :
    blocks.IsChain fun block next => link bytes block = next := by
  induction blocks generalizing chars with
  | nil => exact List.IsChain.nil
  | cons block rest ih =>
      cases rest with
      | nil => exact List.IsChain.singleton _
      | cons next rest =>
          obtain ⟨-, -, linked, later⟩ := stored
          exact List.isChain_cons_cons.mpr ⟨linked, ih later⟩

theorem apart_last (apart : free.Pairwise Apart) {block : Nat} (member : block ∈ free.dropLast) :
    Apart block (free.getLastD 0) := by
  have some : free ≠ [] := by
    rintro rfl
    simp at member
  have last : free.getLastD 0 = free.getLast some := by
    rw [List.getLastD_eq_getLast?, List.getLast?_eq_some_getLast some, Option.getD_some]
  rw [← List.dropLast_append_getLast some] at apart
  rw [last]
  exact (List.pairwise_append.mp apart).2.2 block member _ (by simp)

/-- Putting the blocks of a string behind the tail extends the free list by them. -/
theorem Ready.give (ready : Ready file free size) (stored : Stored file.bytes chars blocks)
    (inFile : ∀ block ∈ blocks, headerLen + block + sizeofString ≤ file.size)
    (below : ∀ block ∈ blocks, headerLen + block + sizeofString ≤ size)
    (apart : (free ++ blocks).Pairwise Apart) (small : size < 2 ^ 32) :
    Ready (applyAll [setLink (free.getLastD 0) (blocks.headD 0), setTail (blocks.getLastD 0)] file)
      (free ++ blocks) size := by
  have some := stored_ne_nil stored
  have parts := List.pairwise_append.mp apart
  have tailMember := getLastD_mem ready.some
  have headBelow := below _ (headD_mem some)
  have lastBelow := below _ (getLastD_mem some)
  -- both writes stay clear of every block but the tail
  have kept (block : Nat) (clear : Apart (free.getLastD 0) block) :
      link (applyAll [setLink (free.getLastD 0) (blocks.headD 0),
        setTail (blocks.getLastD 0)] file).bytes block = link file.bytes block := by
    refine link_congr (applyAll_eqOn ?_)
    intro change member
    simp only [List.mem_cons, List.not_mem_nil, or_false] at member
    rcases member with rfl | rfl
    · exact (clear_blocks.mpr clear).disjoint.mono_left (set_link_touches _ _)
    · exact @word_avoids _ _ (blockRegion block) (by simp [freeTail]) (by simp [blockRegion])
  have tailed : link (applyAll [setLink (free.getLastD 0) (blocks.headD 0),
      setTail (blocks.getLastD 0)] file).bytes (free.getLastD 0) = blocks.headD 0 := by
    refine @word_written file [] [setTail (blocks.getLastD 0)] _ _ (by omega) ?_
    intro change member
    rw [List.mem_singleton.mp member]
    apply span_disjoint
    simp only [setTail, word_bytes_length, freeTail, headerLen]
    omega
  have words (spot : Nat) (inside : spot + 4 ≤ freeTail ∨ freeTail + 4 ≤ spot)
      (header : spot + 4 ≤ headerLen) :
      word (applyAll [setLink (free.getLastD 0) (blocks.headD 0),
        setTail (blocks.getLastD 0)] file).bytes spot = word file.bytes spot := by
    refine word_applyAll ?_
    intro change member
    simp only [List.mem_cons, List.not_mem_nil, or_false] at member
    rcases member with rfl | rfl
    · exact link_avoids_header header
    · apply span_disjoint
      simp only [setTail, word_bytes_length]
      omega
  refine ⟨⟨header_after _ ready.supply.header, ?_, ?_, ?_, ?_, apart⟩, ready.room, ?_, ?_, ?_⟩
  · exact (words _ (by simp [freeSize, freeTail]) (by simp [freeSize])).trans ready.supply.sized
  · refine List.isChain_append.mpr ⟨?_, ?_, ?_⟩
    · refine chain_congr (fun block member => kept block ?_) ready.supply.linked
      exact (apart_last parts.1 member).symm
    · exact chain_congr (fun block member => kept block (parts.2.2 _ tailMember block
        (List.mem_of_mem_dropLast member))) (stored_chain stored)
    · intro tail isTail head isHead
      have tailIs : free.getLastD 0 = tail := by
        rw [List.getLastD_eq_getLast?, isTail]
        rfl
      have headIs : blocks.headD 0 = head := by
        rw [List.headD_eq_head?_getD, isHead]
        rfl
      subst tailIs headIs
      exact tailed
  · intro block member
    rw [List.dropLast_append_of_ne_nil some] at member
    rcases List.mem_append.mp member with old | given
    · rcases mem_drop_last_or ready.some old with before | rfl
      · exact (ready.supply.inFile block before).trans (size_le_applyAll _ _)
      · have linked := @written_inside file [setLink (free.getLastD 0) (blocks.headD 0),
          setTail (blocks.getLastD 0)] (setLink (free.getLastD 0) (blocks.headD 0)) (by simp)
          (List.cons_ne_nil _ _)
        simpa [setLink] using linked
    · exact (inFile block (List.mem_of_mem_dropLast given)).trans (size_le_applyAll _ _)
  · intro block member
    rcases List.mem_append.mp member with old | given
    · exact ready.supply.below block old
    · exact below block given
  · simp [ready.some]
  · rw [words _ (by simp [freeHead, freeTail]) (by simp [freeHead]), ready.head]
    obtain ⟨first, rest, rfl⟩ := List.exists_cons_of_ne_nil ready.some
    rfl
  · have last := @word_written file [setLink (free.getLastD 0) (blocks.headD 0)] [] freeTail
      (blocks.getLastD 0) (by omega) (by simp)
    have whole : (free ++ blocks).getLastD 0 = blocks.getLastD 0 := by
      simp only [List.getLastD_eq_getLast?, List.getLast?_append_of_ne_nil _ some]
    rw [whole]
    exact last

/-- The recorded size may be moved on. -/
theorem Ready.grow (ready : Ready file free size) {grown : Nat} (more : size ≤ grown)
    (small : grown < 2 ^ 32) : Ready (applyAll [setSize grown] file) free grown := by
  have kept : ∀ block ∈ free.dropLast,
      link (applyAll [setSize grown] file).bytes block = link file.bytes block := by
    intro block member
    refine link_congr (apply_eqOn ?_)
    exact @word_avoids _ _ (blockRegion block) (by simp [freeSize]) (by simp [blockRegion])
  have words (spot : Nat) (outside : spot + 4 ≤ freeSize) :
      word (applyAll [setSize grown] file).bytes spot = word file.bytes spot := by
    refine word_applyAll fun change member => ?_
    rw [List.mem_singleton.mp member]
    exact span_disjoint (Or.inr outside)
  refine ⟨⟨header_after _ ready.supply.header, sized_after_set file small,
    chain_congr kept ready.supply.linked, ?_, ?_, ready.supply.apart⟩, ready.room.trans more,
    ready.some, ?_, ?_⟩
  · exact fun block member => (ready.supply.inFile block member).trans (size_le_applyAll _ _)
  · exact fun block member => (ready.supply.below block member).trans more
  · exact (words _ (by simp [freeHead, freeSize])).trans ready.head
  · exact (words _ (by simp [freeTail, freeSize])).trans ready.tail

/-- Writes above the header and clear of the free blocks. -/
theorem Ready.keep (ready : Ready file free size) {changes : List Pwrite}
    (above : ∀ change ∈ changes, 12 ≤ change.offset)
    (avoids : Avoids changes (free.map blockRegion)) : Ready (applyAll changes file) free size := by
  refine ready.congr (applyAll_eqOn fun change member => ?_) fun block member =>
    applyAll_eqOn (avoids _ (List.mem_map_of_mem member))
  have bound := above change member
  exact span_disjoint (Or.inr (by omega))

end FreeLists

section Branches

variable {layout : Layout} {file : File} {entry : Entry} {key value : List UInt8}

theorem Shown.tab_readable (shown : Shown layout file) {off : Nat}
    (live : tabRegion off ∈ layout.live) :
    headerLen + off + sizeofTab ≤ file.size ∧ headerLen + off + sizeofTab < 2 ^ 32 :=
  shown.walkable.readable _ live

theorem Shown.block_readable (shown : Shown layout file) (member : entry ∈ layout.entries)
    {block : Nat} (inside : block ∈ entry.keyAt ++ entry.valueAt) :
    headerLen + block + sizeofString ≤ file.size ∧
      headerLen + block + sizeofString < 2 ^ 32 :=
  shown.walkable.readable _ (layout.entry_live member
    (List.mem_cons_of_mem _ (List.mem_map_of_mem inside)))

/-- The update branch performs its writes and leaves the old value's blocks free. -/
theorem update_entry_returns (represents : Represents layout file) (idle : Idle file)
    (putable : Putable layout file key value) (found : layout.find key = some entry) :
    Returns (fun fuel => updateEntry fuel entry.off (tabAt file.bytes entry.off) value) file
        (updateWrites file layout entry value) 0 ∧
      Ready (applyAll (updateWrites file layout entry value) file) (layout.put key value).free
        (layout.put key value).size := by
  have member : entry ∈ layout.entries := List.mem_of_find?_eq_some found
  have sound := represents.sound
  have present : value ≠ [] := putable.updated (by simp [found])
  have put : layout.put key value = layout.update entry key value := by simp [Layout.put, found]
  have small : (layout.valueTaken value).size < 2 ^ 32 := by
    simpa [Layout.put, found, Layout.update] using putable.small
  have tabLive := @Layout.entry_live layout entry member (tabRegion entry.off)
    (by simp [Entry.regions])
  have place := represents.shown.tab_readable tabLive
  have alloc := (represents.ready.saved entry.off).alloc (Or.inl present) small
  have along := (update_visible represents idle putable found).1
  have writes : updateWrites file layout entry value =
      (saveHeader file entry.off :: ((layout.valueTaken value).writes ++
        [setTab entry.off (assignedTab file entry (layout.valueTaken value).blocks value)])) ++
        [setLink (layout.free.getLastD 0) (entry.valueAt.headD 0),
          setTail (entry.valueAt.getLastD 0)] := by
    simp [updateWrites]
  rw [writes] at along ⊢
  have view := along.before
  -- the file in which the old value is given back
  have before : Ready (applyAll (saveHeader file entry.off :: ((layout.valueTaken value).writes ++
      [setTab entry.off (assignedTab file entry (layout.valueTaken value).blocks value)])) file)
      (layout.valueTaken value).free (layout.valueTaken value).size := by
    rw [applyAll_cons, applyAll_append]
    refine alloc.2.keep ?_ (avoids_single fun region inside => set_tab_avoids ?_)
    · intro change inside
      rw [List.mem_singleton.mp inside]
      simp only [setTab, headerLen]
      omega
    · have packed := sound.taking value
      rw [List.append_assoc] at packed
      exact packed.cross tabLive (List.mem_append_right _ inside)
  obtain ⟨_, at_entry⟩ := table_entry view.table member
  have tail := @plan_tail _ layout.size value sound.supply
  have updated : (layout.update entry key value).Sound := sound.update found
  have apart := pairwise_blocks.mp updated.supplies.apart
  have inFile : ∀ block ∈ entry.valueAt, _ := fun block inside =>
    view.block_readable member (List.mem_append_right _ inside)
  have below : ∀ block ∈ entry.valueAt,
      headerLen + block + sizeofString ≤ (layout.valueTaken value).size := fun block inside =>
    (updated.supplies.inside _ (List.mem_map_of_mem (List.mem_append_right _ inside))).2
  have given := before.give at_entry.valueStored (fun block inside => (inFile block inside).1)
    below apart small
  rw [tail] at given
  constructor
  · have saved := start_backup_does place.1 place.2
    have stored (store : File) := @write_db_does store entry.off
      (assignedTab file entry (layout.valueTaken value).blocks value).bytes
      (by simp only [sizeofTab] at place; omega)
    have tailMember := getLastD_mem before.some
    have tailBelow := before.below tailMember
    rw [tail] at tailBelow
    have back := add_free_list_returns (before.tail.trans tail) before.supply.header (by omega)
      at_entry.valueStored inFile (fun block inside => view.walkable.blocks entry member block
        (List.mem_append_right _ inside)) (fun block inside => by
          have separate := (List.pairwise_append.mp apart).2.2 _ (getLastD_mem before.some) block
            inside
          rwa [tail] at separate)
    have head : (tabAt file.bytes entry.off).value = entry.valueAt.headD 0 := by
      obtain ⟨_, original⟩ := table_entry represents.shown.table member
      rw [← current_idle idle]
      exact original.value
    rw [← head] at back
    have ended (store : File) : Returns (fun _ : Nat => (pure 0 : Db Int)) store [] 0 :=
      (does_ret _ _).returns
    have shape : (saveHeader file entry.off :: ((layout.valueTaken value).writes ++
        [setTab entry.off (assignedTab file entry (layout.valueTaken value).blocks value)])) ++
        [setLink (layout.free.getLastD 0) (tabAt file.bytes entry.off).value,
          setTail (entry.valueAt.getLastD 0)] =
        [saveHeader file entry.off] ++ ((layout.valueTaken value).writes ++
          ([setTab entry.off (assignedTab file entry (layout.valueTaken value).blocks value)] ++
          ([setLink (layout.free.getLastD 0) (tabAt file.bytes entry.off).value,
            setTail (entry.valueAt.getLastD 0)] ++ []))) := by simp
    rw [applyAll_cons, applyAll_append] at back
    rw [← head, shape]
    simp only [updateEntry]
    exact returns_bind saved.returns (returns_bind alloc.1 (returns_bind (stored _).returns
      (returns_bind back (ended _))))
  · rw [applyAll_append, put]
    exact given

/-- The append branch performs its writes. -/
theorem append_entry_returns (represents : Represents layout file)
    (putable : Putable layout file key value) (absent : layout.find key = none) :
    Returns (fun fuel => appendEntry fuel layout.last key value) file
        (stageWrites file layout key value ++ [commitWrite layout key value]) 0 ∧
      Ready (applyAll (stageWrites file layout key value ++ [commitWrite layout key value]) file)
        (layout.put key value).free (layout.put key value).size := by
  have sound := represents.sound
  have put : layout.put key value = layout.append key value := by simp [Layout.put, absent]
  have small : (layout.keyTaken key value).size + sizeofTab < 2 ^ 32 := by
    simpa [Layout.put, absent, Layout.append] using putable.small
  have grown : (layout.valueTaken value).size ≤ (layout.keyTaken key value).size :=
    plan_size _ _ _
  have room := sound.keyRoom key value
  have place := represents.shown.tab_readable layout.last_live
  have valueAlloc := (represents.ready.saved layout.last).alloc
    (putable.valueServed absent) (by omega : (layout.valueTaken value).size < 2 ^ 32)
  have keyAlloc := valueAlloc.2.alloc (putable.keyServed absent)
    (by omega : (layout.keyTaken key value).size < 2 ^ 32)
  have ready := keyAlloc.2.grow (Nat.le_add_right _ sizeofTab) small
  have staging := sound.staging key value
  have freeClear {region : Region} (inside : region ∈ (layout.keyTaken key value).free.map
      blockRegion) : Clear (tabRegion layout.last) region :=
    (by
      have packed := staging
      rw [List.append_assoc, List.append_assoc] at packed
      exact packed.cross layout.last_live (List.mem_append_right _
        (List.mem_append_right _ inside)))
  have grownReady := @Ready.keep _ _ _ ready [⟨headerLen +
      ((layout.keyTaken key value).size - headerLen), zeros sizeofTab⟩] (by simp; omega)
    (avoids_single fun region inside => grow_avoids sound key value region
      (List.mem_append_right _ inside) _ (by simp [growWrites]))
  have final := @Ready.keep _ _ _ grownReady [commitWrite layout key value]
    (by simp [commitWrite, setTab]; omega)
    (avoids_single fun region inside => set_tab_avoids (freeClear inside))
  have shape : stageWrites file layout key value ++ [commitWrite layout key value] =
      [saveHeader file layout.last] ++ ((layout.valueTaken value).writes ++
        ((layout.keyTaken key value).writes ++
          ([setSize ((layout.keyTaken key value).size + sizeofTab)] ++
            ([⟨headerLen + ((layout.keyTaken key value).size - headerLen), zeros sizeofTab⟩] ++
              ([commitWrite layout key value] ++ []))))) := by
    simp [stageWrites]
  rw [shape]
  constructor
  · have saved := start_backup_does place.1 place.2
    have next : u32 ((layout.keyTaken key value).size + 2 ^ 32 - headerLen) =
        (layout.keyTaken key value).size - headerLen := by
      simp only [u32, headerLen, sizeofTab] at room small ⊢
      omega
    have moved := get_end_does keyAlloc.2.supply.header keyAlloc.2.supply.sized small
    have zeroed (store : File) := @write_db_does store
      ((layout.keyTaken key value).size - headerLen) (zeros sizeofTab) (by omega)
    have filled (store : File) := @write_db_does store layout.last
      (newTab ((layout.keyTaken key value).size - headerLen) key value
        (layout.keyTaken key value).blocks (layout.valueTaken value).blocks).bytes
      (by simp only [sizeofTab] at place; omega)
    have done (store : File) : Returns (fun _ : Nat => (pure 0 : Db Int)) store [] 0 :=
      (does_ret _ _).returns
    simp only [appendEntry]
    refine returns_bind saved.returns (returns_bind valueAlloc.1 (returns_bind keyAlloc.1
      (returns_bind moved.returns ?_)))
    rw [next]
    exact returns_bind (zeroed _).returns (returns_bind (filled _).returns (done _))
  · rw [put]
    simp only [applyAll_append, applyAll_nil]
    exact final

/-- What `kvdb_put` does after `recov_backup`. -/
def putBody (fuel : Nat) (key value : List UInt8) : Db Int := do
  let ret ← putFrom fuel 0 key value
  negBackup
  pure ret

/-- A put performs exactly its writes, returns 0 and leaves a file that represents the
new layout, with the flag cleared. -/
theorem put_body_returns (represents : Represents layout file) (idle : Idle file)
    (putable : Putable layout file key value) :
    Returns (fun fuel => putBody fuel key value) file (putWrites file layout key value) 0 ∧
      Represents (layout.put key value) (applyAll (putWrites file layout key value) file) ∧
      Idle (applyAll (putWrites file layout key value) file) := by
  have visible := (put_visible represents idle putable).2
  have sound := represents.sound.put key value
  have walk := represents.shown.walkable
  have start := represents.shown.start
  have finish (store : File) : Returns (fun _ : Nat => negBackup >>= fun _ => (pure 0 : Db Int))
      store [clearFlag] 0 := by
    have cleared : Does (negBackup >>= fun _ => (pure 0 : Db Int)) store ([clearFlag] ++ []) 0 :=
      does_bind (neg_backup_does store) (does_ret _ _)
    exact cleared.returns
  have clearing {store : File} (ready : Ready store (layout.put key value).free
      (layout.put key value).size) : Ready (applyAll [clearFlag] store)
      (layout.put key value).free (layout.put key value).size := by
    refine ready.keep (by simp [clearFlag, backupFlag]) (clear_live fun region inside => ?_)
    obtain ⟨block, -, rfl⟩ := List.mem_map.mp inside
    simp [blockRegion]
  cases found : layout.find key with
  | some entry =>
      obtain ⟨agrees, before, after, whole, passed⟩ := find_some found
      obtain ⟨target, ready⟩ := update_entry_returns represents idle putable found
      have walked : Returns (fun fuel => putFrom fuel 0 key value) file
          (updateWrites file layout entry value) 0 := by
        rw [← start]
        rw [whole] at walk ⊢
        exact walk.put_update putable.keyPlain passed agrees target
      simp only [putWrites, found] at visible ⊢
      refine ⟨returns_bind walked (finish _),
        ⟨visible, sound, ?_⟩, ?_⟩
      · rw [applyAll_append]
        exact clearing ready
      · rw [applyAll_append]
        exact clear_idle _
  | none =>
      obtain ⟨target, ready⟩ := append_entry_returns represents putable found
      have walked : Returns (fun fuel => putFrom fuel 0 key value) file
          (stageWrites file layout key value ++ [commitWrite layout key value]) 0 := by
        rw [← start]
        exact walk.put_append putable.keyPlain (find_none found) target
      have shape : putWrites file layout key value =
          (stageWrites file layout key value ++ [commitWrite layout key value]) ++
            [clearFlag] := by
        simp [putWrites, found]
      rw [shape] at visible ⊢
      refine ⟨returns_bind walked (finish _),
        ⟨visible, sound, ?_⟩, ?_⟩
      · rw [applyAll_append]
        exact clearing ready
      · rw [applyAll_append]
        exact clear_idle _

/-- `kvdb_put` on a file without a flag has nothing to recover. -/
theorem kvdb_put_returns (represents : Represents layout file) (idle : Idle file)
    (putable : Putable layout file key value) :
    Returns (fun fuel => kvdbPut fuel key value) file (putWrites file layout key value) 0 ∧
      Represents (layout.put key value) (applyAll (putWrites file layout key value) file) ∧
      Idle (applyAll (putWrites file layout key value) file) := by
  have body := put_body_returns represents idle putable
  have recovered := recov_idle idle represents.ready.supply.header
  exact ⟨returns_bind_read recovered.returns body.1, body.2⟩

/-- `kvdb_put` on a file that `recov_backup` repairs. -/
theorem recovering_put_returns {crashed : File} {writes : List Pwrite}
    (recovered : Does recovBackup crashed writes ())
    (represents : Represents layout (applyAll writes crashed))
    (idle : Idle (applyAll writes crashed))
    (putable : Putable layout (applyAll writes crashed) key value) :
    Returns (fun fuel => kvdbPut fuel key value) crashed
        (writes ++ putWrites (applyAll writes crashed) layout key value) 0 ∧
      Represents (layout.put key value)
        (applyAll (writes ++ putWrites (applyAll writes crashed) layout key value) crashed) ∧
      Idle (applyAll (writes ++ putWrites (applyAll writes crashed) layout key value)
        crashed) := by
  have body := put_body_returns represents idle putable
  rw [applyAll_append]
  exact ⟨returns_bind recovered.returns body.1, body.2⟩

end Branches

end OsWorkbench.Kvdb
