import OsWorkbench.Kernel.DirNormal
import OsWorkbench.Kernel.InodeFind

/-!
# Paths, one component after the other

Every `find` of a directory treats a path as its components: what stands in front of a slash leads to
where it leads alone, and the rest of the path is found from there.
-/

namespace OsWorkbench.Kernel

open Blkfs (Has oRdonly oDirectory ylsDir inodeCount readWord slotSearch getFirstLayer)

section Fronts

variable {vol : Volumes} {stack : Nat → List UInt8} {nodes : Nodes} {cur flags fs id : Nat}
  {front r rest : List UInt8}

/-- A step after which no directory is found. -/
def Halts (step : FindStep) : Prop :=
  step = .missing ∨ ∃ i path, step = .next (inodePlace devfs (i + 1)) path

/-- What a step makes of a name that is followed by a slash or by nothing, with and without what
follows. -/
inductive Parallel (front r : List UInt8) : FindStep → FindStep → Prop
  | stops {whole alone : FindStep} (first : Halts whole) (second : Halts alone) :
      Parallel front r whole alone
  | next (inode : Nat) {rest : List UInt8} (shorter : rest.length < front.length)
      (flat : slash ∉ rest) : Parallel front r (.next inode (rest ++ r)) (.next inode rest)

theorem Parallel.missing : Parallel front r .missing .missing := .stops (Or.inl rfl) (Or.inl rfl)

theorem Parallel.up (shorter : rest.length < front.length) (flat : slash ∉ rest) :
    Parallel front r (upStep nodes fs (rest ++ r)) (upStep nodes fs rest) := by
  unfold upStep
  cases nodes.rootParent fs with
  | none => exact .missing
  | some up => exact .next up shorter flat

theorem Parallel.inside (shorter : rest.length < front.length) (flat : slash ∉ rest) :
    Parallel front r (blkfsNext fs id (rest ++ r)) (blkfsNext fs id rest) := by
  unfold blkfsNext
  split
  · exact .next _ shorter flat
  · exact .missing

theorem Parallel.slot (some : 0 < front.length) {slot : Option Blkfs.Slot} :
    Parallel front r (slotNext vol fs r slot) (slotNext vol fs [] slot) := by
  rcases slot with none | ⟨unused | found | ended⟩
  · exact .missing
  · exact .missing
  · exact @Parallel.inside _ _ front r [] some List.not_mem_nil
  · exact .missing

theorem front_skipped (some : front ≠ []) (flat : slash ∉ front) (r : List UInt8) :
    (front ++ r).dropWhile (fun c => c == slash) = front ++ r := by
  cases front with
  | nil => exact absurd rfl some
  | cons c front =>
      refine List.dropWhile_cons_of_neg ?_
      simpa using (List.ne_of_not_mem_cons flat).symm

theorem front_alone (flat : slash ∉ front) : front.dropWhile (fun c => c == slash) = front := by
  cases front with
  | nil => rfl
  | cons c front =>
      refine List.dropWhile_cons_of_neg ?_
      simpa using (List.ne_of_not_mem_cons flat).symm

theorem front_head (some : front ≠ []) (r : List UInt8) : (front ++ r).headD 0 = front.headD 0 := by
  cases front with
  | nil => exact absurd rfl some
  | cons c front => rfl

theorem front_not_slash (flat : slash ∉ front) : front.headD 0 ≠ slash := by
  cases front with
  | nil => decide
  | cons c front => exact (List.ne_of_not_mem_cons flat).symm

theorem front_layer (flat : slash ∉ front) (stop : r.headD slash = slash) :
    getFirstLayer (front ++ r) = front := by
  have whole : ∀ c ∈ front, (c != slash) = true := fun c member => by
    simpa using ne_of_mem_of_not_mem member flat
  have none : getFirstLayer r = [] := by
    cases r with
    | nil => rfl
    | cons c r =>
        obtain rfl : c = slash := stop
        rfl
  rw [getFirstLayer, List.takeWhile_append_of_pos whole, ← getFirstLayer, none, List.append_nil]

/-- A dot behind the first character of a name is in the name. -/
theorem front_second (some : front ≠ []) (stop : r.headD slash = slash) :
    (front ++ r).getD 1 0 = dot ↔ front.getD 1 0 = dot := by
  cases front with
  | nil => exact absurd rfl some
  | cons c front =>
      cases front with
      | nil =>
          cases r with
          | nil => exact Iff.rfl
          | cons c r =>
              obtain rfl : c = slash := stop
              exact iff_of_false (show slash ≠ dot by decide) (show (0 : UInt8) ≠ dot by decide)
      | cons second front => exact Iff.rfl

/-- What is left of a name after its first characters. -/
theorem front_dropped {count : Nat} (some : 0 < count) (inside : count ≤ front.length)
    (flat : slash ∉ front) (r : List UInt8) : (front ++ r).drop count = front.drop count ++ r ∧
      (front.drop count).length < front.length ∧ slash ∉ front.drop count := by
  refine ⟨List.drop_append_of_le_length inside, ?_, fun member => flat (List.mem_of_mem_drop member)⟩
  rw [List.length_drop]
  omega

theorem second_length {c : UInt8} (second : front.getD 1 0 = c) (live : c ≠ 0) :
    2 ≤ front.length := by
  by_contra short
  rw [List.getD_eq_default _ _ (by omega)] at second
  exact live second.symm

/-- What `blkfs_ifind` does with a name that is followed by a slash or by nothing. -/
theorem blkfs_named (some : front ≠ []) (flat : slash ∉ front) (stop : r.headD slash = slash) :
    blkfsFind vol stack nodes cur (front ++ r) flags =
      if front.headD 0 = dot then
        if front.getD 1 0 = dot then
          if cur = inodePlace (nodes.inodes cur).fs 0 then
            upStep nodes (nodes.inodes cur).fs (front.drop 2 ++ r)
          else
            blkfsNext (nodes.inodes cur).fs (readWord (vol.disks (nodes.inodes cur).fs).dev
              (ylsNode vol (nodes.inodes cur)).info 0xffffffff).1 (front.drop 2 ++ r)
        else .next cur (front.drop 1 ++ r)
      else if 0x100 ≤ front.length then .missing
      else
        slotNext vol (nodes.inodes cur).fs r
          (slotSearch stack vol.fuel (vol.disks (nodes.inodes cur).fs).dev
            (u32 ((ylsNode vol (nodes.inodes cur)).info + 4)) front) := by
  have length := List.length_pos_iff.mpr some
  have head := front_head some r
  have plain := front_not_slash flat
  unfold blkfsFind
  rw [front_skipped some flat, head, if_neg (fun both => plain both.1), front_layer flat stop,
    if_neg (List.append_ne_nil_of_left_ne_nil some r), head]
  by_cases first : front.headD 0 = dot
  · rw [if_pos first, if_pos first]
    by_cases second : front.getD 1 0 = dot
    · rw [if_pos ((front_second some stop).mpr second), if_pos second,
        (front_dropped (by decide) (second_length second (by decide)) flat r).1]
    · rw [if_neg (fun other => second ((front_second some stop).mp other)), if_neg second,
        (front_dropped Nat.one_pos length flat r).1]
  · rw [if_neg first, if_neg first, List.drop_left]

theorem blkfs_parallel (some : front ≠ []) (flat : slash ∉ front) (stop : r.headD slash = slash) :
    Parallel front r (blkfsFind vol stack nodes cur (front ++ r) flags)
      (blkfsFind vol stack nodes cur front flags) := by
  have length := List.length_pos_iff.mpr some
  have alone := @blkfs_named vol stack nodes cur flags front [] some flat rfl
  rw [List.append_nil, List.append_nil, List.append_nil] at alone
  rw [blkfs_named some flat stop, alone]
  split
  · split
    next second =>
      obtain ⟨-, shorter, less⟩ :=
        front_dropped (by decide) (second_length second (by decide)) flat r
      split
      · exact .up shorter less
      · exact .inside shorter less
    next =>
      obtain ⟨-, shorter, less⟩ := front_dropped Nat.one_pos length flat r
      exact .next cur shorter less
  · split
    · exact .missing
    · exact .slot length

end Fronts

section Processes

variable {vol : Volumes} {nodes : Nodes} {cur root index count : Nat} {front r rest word : List UInt8}
  {tasks : Nat → Bool}

theorem scan_parts (count : Nat) (path : List UInt8) :
    (scanNumber count path).1 ++ (scanNumber count path).2 = path := by
  induction count generalizing path with
  | zero => rfl
  | succ count hypothesis =>
      cases path with
      | nil => rfl
      | cons c path =>
          rw [scanNumber]
          split
          · exact congrArg (c :: ·) (hypothesis path)
          · rfl

theorem scan_front (stop : r.headD slash = slash) (count : Nat) (front : List UInt8) :
    scanNumber count (front ++ r) =
      ((scanNumber count front).1, (scanNumber count front).2 ++ r) := by
  induction count generalizing front with
  | zero => rfl
  | succ count hypothesis =>
      cases front with
      | nil =>
          cases r with
          | nil => rfl
          | cons c r =>
              obtain rfl : c = slash := stop
              rfl
      | cons c front =>
          rw [List.cons_append, scanNumber, scanNumber, hypothesis]
          split
          · rfl
          · rfl

/-- A word without a slash that a path begins with is in the first name of the path. -/
theorem prefix_front (whole : slash ∉ word) (stop : r.headD slash = slash) :
    word <+: front ++ r ↔ word <+: front := by
  refine ⟨fun start => ?_, fun start => start.trans (List.prefix_append front r)⟩
  rcases List.prefix_or_prefix_of_prefix start (List.prefix_append front r) with inside | ⟨more, rfl⟩
  · exact inside
  · cases more with
    | nil =>
        rw [List.append_nil]
    | cons c more =>
        obtain ⟨tail, rfl⟩ := (List.prefix_append_right_inj front).mp start
        obtain rfl : c = slash := stop
        exact absurd (List.mem_append_right front List.mem_cons_self) whole

theorem match_front (some : word ≠ []) (live : 0 ∉ word) (whole : slash ∉ word)
    (stop : r.headD slash = slash) :
    strncmp (front ++ r) word word.length = 0 ↔ strncmp front word word.length = 0 := by
  rw [strncmp_start some live, strncmp_start some live, prefix_front whole stop]

theorem first_match_front (stop : r.headD slash = slash) {texts : List (List UInt8)}
    (words : ∀ text ∈ texts, text ≠ [] ∧ 0 ∉ text ∧ slash ∉ text) :
    firstMatch (front ++ r) texts = firstMatch front texts := by
  unfold firstMatch
  induction texts with
  | nil => rfl
  | cons text texts hypothesis =>
      obtain ⟨some, live, whole⟩ := words text List.mem_cons_self
      rw [List.findIdx?_cons, List.findIdx?_cons,
        hypothesis fun other member => words other (List.mem_cons_of_mem text member),
        decide_eq_decide.mpr (match_front some live whole stop)]

theorem tail_head (path : List UInt8) : path.tail.headD 0 = path.getD 1 0 := by
  cases path with
  | nil => rfl
  | cons c path =>
      cases path with
      | nil => rfl
      | cons second path => rfl

theorem other_info_words : ∀ text ∈ otherInfo, text ≠ [] ∧ 0 ∉ text ∧ slash ∉ text := by
  intro text member
  simp only [otherInfo, List.mem_cons, List.not_mem_nil, or_false] at member
  rcases member with rfl | rfl | rfl <;> decide

/-- The word that a path begins with is not longer than the path. -/
theorem first_match_fits {i : Nat} (found : firstMatch front otherInfo = some i) :
    0 < (otherInfo.getD i []).length ∧ (otherInfo.getD i []).length ≤ front.length := by
  obtain ⟨bound, same, -⟩ := List.findIdx?_eq_some_iff_getElem.mp found
  obtain ⟨some, live, -⟩ := other_info_words _ (List.getElem_mem bound)
  rw [List.getD_eq_getElem _ _ bound]
  exact ⟨List.length_pos_iff.mpr some,
    ((strncmp_start some live front).mp (of_decide_eq_true same)).length_le⟩

/-- The dots behind a word are looked for in its name. -/
theorem dots_parallel {next : Option ProcInode} (flat : slash ∉ rest) (stop : r.headD slash = slash)
    (less : rest.length ≤ front.length) (shorter : next ≠ none → rest.length < front.length) :
    Parallel front r (procfsFind nodes cur root (rootDots next (rest ++ r)))
      (procfsFind nodes cur root (rootDots next rest)) := by
  by_cases first : rest.headD 0 = dot
  · have some : rest ≠ [] := by
      rintro rfl
      exact absurd first (by decide)
    have length := List.length_pos_iff.mpr some
    have head : (rest ++ r).headD 0 = dot := (front_head some r).trans first
    unfold rootDots
    rw [if_pos head, if_pos first, tail_head, tail_head]
    by_cases second : rest.getD 1 0 = dot
    · obtain ⟨dropped, fewer, whole⟩ :=
        front_dropped (by decide) (second_length second (by decide)) flat r
      rw [if_pos ((front_second some stop).mpr second), if_pos second, dropped]
      exact .up (Nat.lt_of_lt_of_le fewer less) whole
    · obtain ⟨dropped, fewer, whole⟩ := front_dropped Nat.one_pos length flat r
      rw [if_neg (fun other => second ((front_second some stop).mp other)), if_neg second, dropped]
      exact .next root (Nat.lt_of_lt_of_le fewer less) whole
  · have other : (rest ++ r).headD 0 ≠ dot := by
      cases rest with
      | nil =>
          cases r with
          | nil => exact first
          | cons c r =>
              obtain rfl : c = slash := stop
              exact (show slash ≠ dot by decide)
      | cons c rest => exact first
    unfold rootDots
    rw [if_neg other, if_neg first]
    cases next with
    | none => exact .missing
    | some inode =>
        have fewer := shorter (Option.some_ne_none inode)
        cases inode with
        | root => exact .next root fewer flat
        | node index => exact .next _ fewer flat
        | outside path => exact .missing

theorem root_parallel (some : front ≠ []) (flat : slash ∉ front) (stop : r.headD slash = slash) :
    Parallel front r (procfsFind nodes cur root (procfsRootifind tasks (front ++ r)))
      (procfsFind nodes cur root (procfsRootifind tasks front)) := by
  obtain ⟨scanned, parts⟩ : ∃ scanned, scanNumber 3 front = scanned := ⟨_, rfl⟩
  have split := scan_parts 3 front
  rw [parts] at split
  have lengths := congrArg List.length split
  rw [List.length_append] at lengths
  unfold procfsRootifind
  rw [show (front ++ r).dropWhile (fun c => decide (c = slash)) = front ++ r from
      front_skipped some flat r,
    show front.dropWhile (fun c => decide (c = slash)) = front from front_alone flat]
  dsimp only
  rw [if_neg (List.append_ne_nil_of_left_ne_nil some r), if_neg some, scan_front stop, parts,
    first_match_front stop other_info_words]
  dsimp only
  split
  · cases found : firstMatch front otherInfo with
    | none => exact dots_parallel flat stop le_rfl fun absent => absurd rfl absent
    | some i =>
        obtain ⟨positive, inside⟩ := first_match_fits found
        obtain ⟨dropped, fewer, whole⟩ := front_dropped positive inside flat r
        dsimp only
        rw [dropped]
        exact dots_parallel whole stop fewer.le fun _ => fewer
  next digits =>
    split
    · split
      · split
        · refine .next _ (by omega) fun member => flat ?_
          rw [← split]
          exact List.mem_append_right _ member
        · exact .missing
      · exact .missing
    · exact .missing

theorem task_parallel (some : front ≠ []) (flat : slash ∉ front) (stop : r.headD slash = slash) :
    Parallel front r (procfsFind nodes cur root (procfsTaskifind index (front ++ r)))
      (procfsFind nodes cur root (procfsTaskifind index front)) := by
  have length := List.length_pos_iff.mpr some
  have head := front_head some r
  have named (word : List UInt8) (text : word ≠ []) (live : 0 ∉ word) (whole : slash ∉ word)
      (start : strncmp front word word.length = 0) (node : Nat) :
      Parallel front r
        (procfsFind nodes cur root (.next (.node node) ((front ++ r).drop word.length)))
        (procfsFind nodes cur root (.next (.node node) (front.drop word.length))) := by
    have inside := ((strncmp_start text live front).mp start).length_le
    obtain ⟨dropped, fewer, less⟩ := front_dropped (List.length_pos_iff.mpr text) inside flat r
    rw [dropped]
    exact .next _ fewer less
  unfold procfsTaskifind
  rw [show (front ++ r).dropWhile (fun c => decide (c = slash)) = front ++ r from
      front_skipped some flat r,
    show front.dropWhile (fun c => decide (c = slash)) = front from front_alone flat]
  dsimp only
  rw [if_neg (List.append_ne_nil_of_left_ne_nil some r), if_neg some, head, tail_head, tail_head]
  by_cases first : front.headD 0 = dot
  · rw [if_pos first, if_pos first]
    by_cases second : front.getD 1 0 = dot
    · obtain ⟨dropped, fewer, whole⟩ :=
        front_dropped (by decide) (second_length second (by decide)) flat r
      rw [if_pos ((front_second some stop).mpr second), if_pos second, dropped]
      exact .next _ fewer whole
    · obtain ⟨dropped, fewer, whole⟩ := front_dropped Nat.one_pos length flat r
      rw [if_neg (fun other => second ((front_second some stop).mp other)), if_neg second, dropped]
      exact .next _ fewer whole
  · have name := @match_front front r nameInfo (by decide) (by decide) (by decide) stop
    have pwd := @match_front front r pwdInfo (by decide) (by decide) (by decide) stop
    rw [if_neg first, if_neg first]
    by_cases called : strncmp front nameInfo nameInfo.length = 0
    · rw [if_pos (name.mpr called), if_pos called]
      exact named nameInfo (by decide) (by decide) (by decide) called _
    · rw [if_neg (fun other => called (name.mp other)), if_neg called]
      by_cases works : strncmp front pwdInfo pwdInfo.length = 0
      · rw [if_pos (pwd.mpr works), if_pos works]
        exact named pwdInfo (by decide) (by decide) (by decide) works _
      · rw [if_neg (fun other => works (pwd.mp other)), if_neg works]
        exact .missing

end Processes

section Paths

variable {vol : Volumes} {stack : Nat → List UInt8} {nodes : Nodes} {cur flags inode : Nat}
  {path front r rest b : List UInt8}

theorem device_halts (found : Option Nat × List UInt8) : Halts (deviceNext found) := by
  obtain ⟨found, rest⟩ := found
  cases found with
  | none => exact Or.inl rfl
  | some i => exact Or.inr ⟨i, rest, rfl⟩

theorem devices_parallel (some : front ≠ []) (flat : slash ∉ front) (stop : r.headD slash = slash) :
    Parallel front r (devfsRootifind vol nodes cur (front ++ r))
      (devfsRootifind vol nodes cur front) := by
  have length := List.length_pos_iff.mpr some
  have head := front_head some r
  unfold devfsRootifind
  rw [front_skipped some flat, front_alone flat]
  dsimp only
  rw [if_neg (List.append_ne_nil_of_left_ne_nil some r), if_neg some, head]
  by_cases first : front.headD 0 = dot
  · rw [if_pos first, if_pos first]
    by_cases second : front.getD 1 0 = dot
    · obtain ⟨dropped, fewer, whole⟩ :=
        front_dropped (by decide) (second_length second (by decide)) flat r
      rw [if_pos ((front_second some stop).mpr second), if_pos second, dropped]
      exact .up fewer whole
    · obtain ⟨dropped, fewer, whole⟩ := front_dropped Nat.one_pos length flat r
      rw [if_neg (fun other => second ((front_second some stop).mp other)), if_neg second, dropped]
      exact .next _ fewer whole
  · rw [if_neg first, if_neg first]
    exact .stops (device_halts _) (device_halts _)

theorem step_parallel (some : front ≠ []) (flat : slash ∉ front) (stop : r.headD slash = slash) :
    Parallel front r (findStep vol stack nodes cur (front ++ r) flags)
      (findStep vol stack nodes cur front flags) := by
  unfold findStep
  dsimp only
  split
  · exact blkfs_parallel some flat stop
  split
  · exact devices_parallel some flat stop
  split
  · unfold devfsIfind
    rw [if_pos (Or.inl (List.append_ne_nil_of_left_ne_nil some r)), if_pos (Or.inl some)]
    exact .missing
  split
  · exact root_parallel some flat stop
  split
  · exact task_parallel some flat stop
  · have plain := front_not_slash flat
    unfold procfsIfind
    rw [if_neg (front_head some r ▸ plain), if_neg plain,
      if_neg (List.append_ne_nil_of_left_ne_nil some r), if_neg some]
    exact .missing


/-- An inode whose `find` takes an empty path when a directory is looked for. -/
def DirectoryAt (vol : Volumes) (inode : Inode) : Prop :=
  inode.ops = blkfsIops ∧ (ylsNode vol inode).type = ylsDir ∨ inode.ops = devfsRootiops ∨
    inode.ops = procfsRootiops ∨ inode.ops = procfsTaskiops

instance (vol : Volumes) (inode : Inode) : Decidable (DirectoryAt vol inode) :=
  inferInstanceAs (Decidable (_ ∨ _))

theorem blkfs_empty (directory : Has flags oDirectory) : blkfsFind vol stack nodes cur [] flags =
    if (ylsNode vol (nodes.inodes cur)).type = ylsDir then .found cur else .missing := by
  have same : blkfsFind vol stack nodes cur [] flags =
      if Has flags oDirectory ∧ (ylsNode vol (nodes.inodes cur)).type ≠ ylsDir then .missing
      else .found cur := rfl
  by_cases type : (ylsNode vol (nodes.inodes cur)).type = ylsDir
  · rw [same, if_pos type, if_neg fun both => both.2 type]
  · rw [same, if_neg type, if_pos ⟨directory, type⟩]

theorem blkfs_slash (path : List UInt8) : blkfsFind vol stack nodes cur (slash :: path) flags =
    if (ylsNode vol (nodes.inodes cur)).type = ylsDir then blkfsFind vol stack nodes cur path flags
    else .missing := by
  have skipped : (slash :: path).dropWhile (fun c => c == slash) =
      path.dropWhile fun c => c == slash :=
    List.dropWhile_cons_of_pos (beq_self_eq_true slash)
  by_cases type : (ylsNode vol (nodes.inodes cur)).type = ylsDir
  · rw [if_pos type]
    unfold blkfsFind
    rw [skipped]
    exact if_congr (iff_of_false (fun both => both.2 type) fun both => both.2 type) rfl rfl
  · rw [if_neg type]
    exact if_pos ⟨rfl, type⟩

/-- The operations of the inodes, one after the other. -/
theorem step_cases (vol : Volumes) (nodes : Nodes) (cur : Nat) :
    (nodes.inodes cur).ops = blkfsIops ∧ (∀ stack path flags,
      findStep vol stack nodes cur path flags = blkfsFind vol stack nodes cur path flags) ∨
    (nodes.inodes cur).ops = devfsRootiops ∧ (∀ stack path flags,
      findStep vol stack nodes cur path flags = devfsRootifind vol nodes cur path) ∨
    (nodes.inodes cur).ops = devfsIops ∧ (∀ stack path flags,
      findStep vol stack nodes cur path flags = devfsIfind cur path flags) ∨
    (nodes.inodes cur).ops = procfsRootiops ∧ (∀ stack path flags,
      findStep vol stack nodes cur path flags =
        procfsFind nodes cur cur (procfsRootifind vol.tasks path)) ∨
    (nodes.inodes cur).ops = procfsTaskiops ∧ (∀ stack path flags,
      findStep vol stack nodes cur path flags = procfsFind nodes cur (inodePlace procfs 0)
        (procfsTaskifind ((nodes.inodes cur).ptr / 4 - 1) path)) ∨
    ¬DirectoryAt vol (nodes.inodes cur) ∧ (∀ stack path flags,
      findStep vol stack nodes cur path flags =
        procfsFind nodes cur cur (procfsIfind (decide (Has flags oDirectory)) .root path)) := by
  unfold findStep DirectoryAt
  dsimp only
  generalize (nodes.inodes cur).ops = ops
  by_cases blk : ops = blkfsIops
  · exact Or.inl ⟨blk, fun _ _ _ => if_pos blk⟩
  right
  by_cases root : ops = devfsRootiops
  · exact Or.inl ⟨root, fun _ _ _ => by rw [if_neg blk, if_pos root]⟩
  right
  by_cases device : ops = devfsIops
  · exact Or.inl ⟨device, fun _ _ _ => by rw [if_neg blk, if_neg root, if_pos device]⟩
  right
  by_cases processes : ops = procfsRootiops
  · refine Or.inl ⟨processes, fun _ _ _ => ?_⟩
    rw [if_neg blk, if_neg root, if_neg device, if_pos processes]
  right
  by_cases task : ops = procfsTaskiops
  · refine Or.inl ⟨task, fun _ _ _ => ?_⟩
    rw [if_neg blk, if_neg root, if_neg device, if_neg processes, if_pos task]
  right
  refine ⟨?_, fun _ _ _ => ?_⟩
  · rintro (both | found | found | found)
    · exact blk both.1
    · exact root found
    · exact processes found
    · exact task found
  · rw [if_neg blk, if_neg root, if_neg device, if_neg processes, if_neg task]

theorem step_empty (directory : Has flags oDirectory) : findStep vol stack nodes cur [] flags =
    if DirectoryAt vol (nodes.inodes cur) then .found cur else .missing := by
  rcases step_cases vol nodes cur with
    ⟨kind, same⟩ | ⟨kind, same⟩ | ⟨kind, same⟩ | ⟨kind, same⟩ | ⟨kind, same⟩ | ⟨other, same⟩
  · rw [same, blkfs_empty directory]
    refine if_congr ?_ rfl rfl
    unfold DirectoryAt
    rw [kind]
    simp [blkfsIops, devfsRootiops, procfsRootiops, procfsTaskiops]
  · have inside : DirectoryAt vol (nodes.inodes cur) := Or.inr (Or.inl kind)
    rw [same, if_pos inside]
    rfl
  · have outside : ¬DirectoryAt vol (nodes.inodes cur) := by
      unfold DirectoryAt
      rw [kind]
      simp [blkfsIops, devfsIops, devfsRootiops, procfsRootiops, procfsTaskiops]
    rw [same, if_neg outside]
    exact if_pos (Or.inr directory)
  · have inside : DirectoryAt vol (nodes.inodes cur) := Or.inr (Or.inr (Or.inl kind))
    rw [same, if_pos inside]
    rfl
  · have inside : DirectoryAt vol (nodes.inodes cur) := Or.inr (Or.inr (Or.inr kind))
    rw [same, if_pos inside]
    rfl
  · rw [same, if_neg other, decide_eq_true directory]
    rfl

/-- Slashes are skipped in a directory, and end the search in other inodes. -/
theorem step_slash (directory : Has flags oDirectory) (path : List UInt8) :
    findStep vol stack nodes cur (slash :: path) flags =
      if DirectoryAt vol (nodes.inodes cur) then findStep vol stack nodes cur path flags
      else .missing := by
  rcases step_cases vol nodes cur with
    ⟨kind, same⟩ | ⟨kind, same⟩ | ⟨kind, same⟩ | ⟨kind, same⟩ | ⟨kind, same⟩ | ⟨other, same⟩
  · rw [same, same, blkfs_slash]
    refine if_congr ?_ rfl rfl
    unfold DirectoryAt
    rw [kind]
    simp [blkfsIops, devfsRootiops, procfsRootiops, procfsTaskiops]
  · have inside : DirectoryAt vol (nodes.inodes cur) := Or.inr (Or.inl kind)
    rw [same, same, if_pos inside]
    rfl
  · have outside : ¬DirectoryAt vol (nodes.inodes cur) := by
      unfold DirectoryAt
      rw [kind]
      simp [blkfsIops, devfsIops, devfsRootiops, procfsRootiops, procfsTaskiops]
    rw [same, if_neg outside]
    exact if_pos (Or.inr directory)
  · have inside : DirectoryAt vol (nodes.inodes cur) := Or.inr (Or.inr (Or.inl kind))
    rw [same, same, if_pos inside]
    rfl
  · have inside : DirectoryAt vol (nodes.inodes cur) := Or.inr (Or.inr (Or.inr kind))
    rw [same, same, if_pos inside]
    rfl
  · rw [same, if_neg other]
    rfl

/-- A path is empty, begins with a slash, or with a name. -/
theorem path_begins (path : List UInt8) : path = [] ∨ (∃ tail, path = slash :: tail) ∨
    ∃ front r, path = front ++ r ∧ front ≠ [] ∧ slash ∉ front ∧ r.headD slash = slash := by
  rcases path_cases path with whole | ⟨front, tail, whole, rfl⟩
  · by_cases empty : path = []
    · exact Or.inl empty
    · exact Or.inr (Or.inr ⟨path, [], (List.append_nil path).symm, empty, whole, rfl⟩)
  · by_cases empty : front = []
    · exact Or.inr (Or.inl ⟨tail, by rw [empty]; rfl⟩)
    · exact Or.inr (Or.inr ⟨front, slash :: tail, rfl, empty, whole, rfl⟩)

/-- A step takes something off the path, except one that has come to a device. -/
theorem step_shorter (directory : Has flags oDirectory)
    (stepped : findStep vol stack nodes cur path flags = .next inode rest) :
    rest.length < path.length ∨ ∃ i, inode = inodePlace devfs (i + 1) := by
  induction path with
  | nil =>
      rw [step_empty directory] at stepped
      split at stepped
      · cases stepped
      · cases stepped
  | cons c path hypothesis =>
      rcases path_begins (c :: path) with empty | ⟨tail, same⟩ | ⟨front, r, same, some, flat, stop⟩
      · cases empty
      · cases same
        rw [step_slash directory] at stepped
        split at stepped
        · exact (hypothesis stepped).imp_left Nat.lt_succ_of_lt
        · cases stepped
      · rw [same] at stepped ⊢
        have parallel := @step_parallel vol stack nodes cur flags front r some flat stop
        rw [stepped] at parallel
        generalize findStep vol stack nodes cur front flags = alone at parallel
        cases parallel with
        | stops first second =>
            rcases first with missing | ⟨i, path, next⟩
            · cases missing
            · cases next
              exact Or.inr ⟨i, rfl⟩
        | next inode shorter less =>
            rw [List.length_append, List.length_append]
            exact Or.inl (by omega)

end Paths

section Components

variable {vol : Volumes} {stack : Nat → List UInt8} {nodes : Nodes} {cur flags calls other i : Nat}
  {path front b : List UInt8}
  (devices : ∀ i, (nodes.inodes (inodePlace devfs (i + 1))).ops = devfsIops)
  (directory : Has flags oDirectory)
include devices directory

/-- No directory is found in a device. -/
theorem device_step : findStep vol stack nodes (inodePlace devfs (i + 1)) path flags = .missing := by
  unfold findStep
  dsimp only
  rw [devices i]
  exact if_pos (Or.inr directory)

theorem halts_none {step : FindStep} (stops : Halts step) :
    step.follow (findCalls vol stack nodes flags calls) = none := by
  rcases stops with rfl | ⟨i, path, rfl⟩
  · rfl
  · cases calls with
    | zero => rfl
    | succ calls =>
        rw [FindStep.follow, findCalls, device_step devices directory]
        rfl

/-- The bound on the number of calls does not matter. -/
theorem calls_enough (enough : path.length < calls) (more : path.length < other) :
    findCalls vol stack nodes flags calls cur path =
      findCalls vol stack nodes flags other cur path := by
  induction calls generalizing other cur path with
  | zero => omega
  | succ calls hypothesis =>
      obtain ⟨other, rfl⟩ := Nat.exists_eq_add_one.mpr (show 0 < other by omega)
      rw [findCalls, findCalls]
      cases step : findStep vol stack nodes cur path flags with
      | found inode => rfl
      | missing => rfl
      | next inode rest =>
          rcases step_shorter directory step with shorter | ⟨i, rfl⟩
          · exact hypothesis (by omega) (by omega)
          · have stops : Halts (.next (inodePlace devfs (i + 1)) rest) := Or.inr ⟨i, rest, rfl⟩
            rw [halts_none devices directory stops, halts_none devices directory stops]

theorem find_step : inodeFind vol stack nodes cur path flags =
    (findStep vol stack nodes cur path flags).follow fun inode rest =>
      inodeFind vol stack nodes inode rest flags := by
  rw [inodeFind, findCalls]
  cases step : findStep vol stack nodes cur path flags with
  | found inode => rfl
  | missing => rfl
  | next inode rest =>
      rcases step_shorter directory step with shorter | ⟨i, rfl⟩
      · exact calls_enough devices directory shorter (Nat.lt_succ_self _)
      · have stops : Halts (.next (inodePlace devfs (i + 1)) rest) := Or.inr ⟨i, rest, rfl⟩
        rw [halts_none devices directory stops]
        exact (halts_none devices directory stops).symm

theorem find_empty : inodeFind vol stack nodes cur [] flags =
    if DirectoryAt vol (nodes.inodes cur) then some cur else none := by
  rw [find_step devices directory, step_empty directory]
  split
  · rfl
  · rfl

theorem find_halts {step : FindStep} (stops : Halts step) :
    (step.follow fun inode rest => inodeFind vol stack nodes inode rest flags) = none := by
  rcases stops with rfl | ⟨i, path, rfl⟩
  · rfl
  · rw [FindStep.follow, find_step devices directory, device_step devices directory]
    rfl

/-- What stands in front of a slash is looked up alone. -/
theorem find_front (flat : slash ∉ front) :
    inodeFind vol stack nodes cur (front ++ slash :: b) flags =
      (inodeFind vol stack nodes cur front flags).bind fun inode =>
        inodeFind vol stack nodes inode b flags := by
  obtain ⟨size, bound⟩ : ∃ size, front.length < size := ⟨_, Nat.lt_succ_self _⟩
  induction size generalizing cur front with
  | zero => omega
  | succ size hypothesis =>
      by_cases empty : front = []
      · subst empty
        rw [find_empty devices directory, List.nil_append, find_step devices directory,
          step_slash directory]
        split
        · rw [Option.bind_some, find_step devices directory]
        · rfl
      · have parallel := @step_parallel vol stack nodes cur flags front (slash :: b) empty flat rfl
        rw [find_step devices directory, @find_step _ _ _ cur _ front devices directory]
        generalize findStep vol stack nodes cur (front ++ slash :: b) flags = whole at parallel
        generalize findStep vol stack nodes cur front flags = alone at parallel
        cases parallel with
        | stops first second =>
            rw [find_halts devices directory first, find_halts devices directory second]
            rfl
        | next inode shorter less => exact hypothesis less (by omega)

/-- A path leads to where its components lead one after the other. -/
theorem find_components : inodeFind vol stack nodes cur path flags =
    (path.splitOn slash).foldlM
      (fun inode name => inodeFind vol stack nodes inode name flags) cur := by
  obtain ⟨size, bound⟩ : ∃ size, path.length < size := ⟨_, Nat.lt_succ_self _⟩
  induction size generalizing cur path with
  | zero => omega
  | succ size hypothesis =>
      rcases path_cases path with whole | ⟨front, tail, whole, rfl⟩
      · rw [List.splitOn_eq_singleton whole, List.foldlM_cons]
        exact (bind_pure _).symm
      · rw [List.length_append, List.length_cons] at bound
        rw [List.splitOn_append_cons_self_of_not_mem whole, List.foldlM_cons,
          find_front devices directory whole]
        exact congrArg _ (funext fun inode => hypothesis (by omega))

end Components

end OsWorkbench.Kernel
