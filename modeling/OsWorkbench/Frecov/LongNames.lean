import OsWorkbench.Library.ByteStore
import Mathlib.Data.Nat.Bitwise

/-!
# `frecov.c`: long file names

`main` looks at one directory entry after the other. A run of entries for a long name is read back to
front, and each of its characters is put into `full_file_name`, where nothing checks how long the name
is. The entries are those from `e` to `end`.
-/

namespace OsWorkbench.Frecov

open ByteStore

section Source

/-- The bytes of an entry, of a long name or not. -/
abbrev Entry := Fin 32 → UInt8

/-- `attr` of `entry_t`, and `mark` of `long_entry_t`. -/
def Entry.attr (e : Entry) : UInt8 := e 0x0b

/-- The character of a name that is at an offset of an entry. -/
def Entry.unit (e : Entry) (offset : Fin 32) : UInt16 :=
  (e offset).toUInt16 ||| (e (offset + 1)).toUInt16 <<< 8

def name1 : List (Fin 32) := [0x01, 0x03, 0x05, 0x07, 0x09]
def name2 : List (Fin 32) := [0x0e, 0x10, 0x12, 0x14, 0x16, 0x18]
def name3 : List (Fin 32) := [0x1c, 0x1e]

/-- `sizeof(full_file_name)`. -/
def fullFileNameSize : Nat := 70

/-- `strlen(RECOV_DIREC)`: `file_name` begins behind it. -/
def recovDirecLength : Nat := 2

/-- `full_file_name` as it is initialised. -/
def recovDirec : Bytes := fun i => if i = 0 then 0x2e else if i = 1 then 0x2f else 0

/-- `file_name[idx]=c`, if that is in `full_file_name`. -/
def putName (full : Bytes) (idx : Nat) (c : UInt8) : Option Bytes :=
  if recovDirecLength + idx < fullFileNameSize then some (overlay full (recovDirecLength + idx) [c])
  else none

/-- What `print_file_name` leaves, and whether it has gone to `outer`. -/
structure Printed where
  full : Bytes
  idx : Nat
  outer : Bool

def printFileName (e : Entry) : List (Fin 32) → Bytes → Nat → Option Printed
  | [], full, idx => some ⟨full, idx, false⟩
  | offset :: field, full, idx =>
      (putName full idx (e.unit offset).toUInt8).bind fun full =>
        if e.unit offset &&& 0x80 ≠ 0 then
          (putName full idx 0).map fun full => ⟨full, idx + 1, true⟩
        else printFileName e field full (idx + 1)

/-- The next field, if not gone to `outer`. -/
def Printed.andThen (printed : Printed) (next : Bytes → Nat → Option Printed) : Option Printed :=
  if printed.outer then some printed else next printed.full printed.idx

def printEntry (e : Entry) (full : Bytes) (idx : Nat) : Option Printed :=
  (printFileName e name1 full idx).bind fun printed =>
    (printed.andThen (printFileName e name2)).bind fun printed =>
      printed.andThen (printFileName e name3)

/-- The loop that goes back over the entries of the name. -/
def printEntries : List Entry → Bytes → Nat → Option Printed
  | [], full, idx => some ⟨full, idx, false⟩
  | e :: rest, full, idx => (printEntry e full idx).bind fun printed =>
      printed.andThen (printEntries rest)

/-- The string `file_name`. -/
def fileName (full : Bytes) : List UInt8 :=
  (slice full recovDirecLength (fullFileNameSize - recovDirecLength)).takeWhile fun c => c != 0

/-- A name, and the entry that the run of the name ends at. -/
structure Found where
  name : List UInt8
  entry : Entry

/-- The entries from `e` on, the buffer, and what was found so far. -/
structure Scan where
  rest : List Entry
  full : Bytes
  found : List Found

/-- The loop of `main` before the first turn. -/
def start (entries : List Entry) : Scan := ⟨entries, recovDirec, []⟩

/-- One turn of the loop of `main`; a run that does not end before `end` reads behind it. -/
def turn (s : Scan) : Option Scan :=
  match s.rest with
  | [] => none
  | e :: rest =>
      if e.attr ≠ 0x0f then some { s with rest := rest }
      else
        match s.rest.dropWhile fun tmp => tmp.attr == 0x0f with
        | [] => none
        | short :: rest =>
            (printEntries (s.rest.takeWhile fun tmp => tmp.attr == 0x0f).reverse s.full 0).map
              fun printed =>
                { rest := rest
                  full := overlay printed.full recovDirecLength (List.replicate printed.idx 0)
                  found := s.found ++ [⟨fileName printed.full, short⟩] }

def turns : Nat → Scan → Option Scan
  | 0, s => some s
  | count + 1, s => (turn s).bind (turns count)

end Source

section Encoding

/-- The characters of an entry in their order. -/
def Entry.units (e : Entry) : List UInt16 := (name1 ++ name2 ++ name3).map e.unit

/-- A name with what fills its last entry. -/
def padded (name : List UInt8) : List UInt16 :=
  name.map UInt8.toUInt16 ++
    if name.length % 13 = 0 then [] else 0 :: List.replicate (12 - name.length % 13) 0xffff

/-- The entries of a long name, its last part first. -/
structure Encodes (run : List Entry) (name : List UInt8) : Prop where
  marked : ∀ e ∈ run, e.attr = 0x0f
  units : run.reverse.flatMap Entry.units = padded name

/-- An entry for 13 characters, with zeros in the other bytes. -/
def longEntry (units : List UInt16) : Entry := fun offset =>
  if offset = 0x0b then 0x0f
  else
    let fields := name1 ++ name2 ++ name3
    if offset ∈ fields then (units.getD (fields.idxOf offset) 0).toUInt8
    else (units.getD (fields.idxOf (offset - 1)) 0 >>> 8).toUInt8

theorem long_entry_marked (units : List UInt16) : (longEntry units).attr = 0x0f := rfl

example : (longEntry [0x61, 0x62, 0, 0xffff, 0xffff]).units =
    [0x61, 0x62, 0, 0xffff, 0xffff, 0, 0, 0, 0, 0, 0, 0, 0] := by
  decide

end Encoding

section Printing

variable {full : Bytes} {idx : Nat} {units more : List UInt16} {name : List UInt8} {e : Entry}

/-- What is done for characters one after the other, whatever entries they are in. -/
def printUnits : List UInt16 → Bytes → Nat → Option Printed
  | [], full, idx => some ⟨full, idx, false⟩
  | c :: units, full, idx =>
      (putName full idx c.toUInt8).bind fun full =>
        if c &&& 0x80 ≠ 0 then (putName full idx 0).map fun full => ⟨full, idx + 1, true⟩
        else printUnits units full (idx + 1)

theorem print_file_name_units (e : Entry) (field : List (Fin 32)) :
    printFileName e field = printUnits (field.map e.unit) := by
  induction field with
  | nil => rfl
  | cons offset field hypothesis =>
      funext full idx
      rw [printFileName, hypothesis, List.map_cons, printUnits]

theorem print_units_append (units more : List UInt16) (full : Bytes) (idx : Nat) :
    printUnits (units ++ more) full idx =
      (printUnits units full idx).bind fun printed => printed.andThen (printUnits more) := by
  induction units generalizing full idx with
  | nil => rfl
  | cons c units hypothesis =>
      rw [List.cons_append, printUnits, printUnits, Option.bind_assoc]
      congr 1
      funext full
      split
      · cases putName full idx 0 <;> rfl
      · exact hypothesis full (idx + 1)

theorem print_entry_units (e : Entry) : printEntry e = printUnits e.units := by
  funext full idx
  rw [printEntry, Entry.units, List.map_append, List.map_append, print_units_append, print_units_append,
    print_file_name_units, print_file_name_units, print_file_name_units, Option.bind_assoc]

theorem print_entries_units (entries : List Entry) :
    printEntries entries = printUnits (entries.flatMap Entry.units) := by
  induction entries with
  | nil => rfl
  | cons e entries hypothesis =>
      funext full idx
      rw [printEntries, List.flatMap_cons, print_units_append, print_entry_units, hypothesis]

theorem put_name_inside (inside : idx < 68) (c : UInt8) :
    putName full idx c = some (overlay full (2 + idx) [c]) :=
  if_pos (show 2 + idx < 70 by omega)

theorem put_name_outside (outside : 68 ≤ idx) (c : UInt8) : putName full idx c = none :=
  if_neg (show ¬2 + idx < 70 by omega)

/-- An ASCII character does not look like padding. -/
theorem ascii_unit {c : UInt8} (ascii : c < 0x80) : c.toUInt16 &&& 0x80 = 0 := by
  have low : c.toNat < 2 ^ 7 := ascii
  apply UInt16.toNat_inj.mp
  rw [UInt16.toNat_and, UInt8.toNat_toUInt16]
  change c.toNat &&& 2 ^ 7 = 0
  rw [Nat.and_two_pow, Nat.testBit_lt_two_pow low]
  rfl

/-- Characters are put into the buffer one behind the other, as far as they fit. -/
theorem print_chars (ascii : ∀ c ∈ name, c < 0x80) (inside : idx ≤ 68) :
    printUnits (name.map UInt8.toUInt16 ++ more) full idx =
      if idx + name.length ≤ 68 then printUnits more (overlay full (2 + idx) name) (idx + name.length)
      else none := by
  induction name generalizing full idx with
  | nil =>
      rw [List.length_nil, Nat.add_zero, if_pos inside, overlay_nil]
      rfl
  | cons c name hypothesis =>
      rw [List.map_cons, List.cons_append, printUnits, UInt8.toUInt8_toUInt16]
      rcases Nat.lt_or_ge idx 68 with before | beyond
      · rw [put_name_inside before, Option.bind_some,
          if_neg (not_not.mpr (ascii_unit (ascii c List.mem_cons_self))),
          hypothesis (fun c member => ascii c (List.mem_cons_of_mem _ member)) before]
        have along := overlay_append full (2 + idx) [c] name
        rw [List.length_singleton, List.singleton_append, Nat.add_assoc] at along
        rw [along, List.length_cons, Nat.succ_add_eq_add_succ]
      · rw [put_name_outside beyond, Option.bind_none, if_neg (by rw [List.length_cons]; omega)]

/-- `file_name` is all zeros. -/
def Clear (full : Bytes) : Prop := ∀ i < 68, full (2 + i) = 0

theorem print_nul (inside : idx < 68) (units : List UInt16) :
    printUnits (0 :: units) full idx = printUnits units (overlay full (2 + idx) [0]) (idx + 1) := by
  have plain : ¬(0 : UInt16) &&& 0x80 ≠ 0 := by decide
  rw [printUnits, put_name_inside inside, Option.bind_some, if_neg plain]
  rfl

/-- The first character of the padding goes to `outer`. -/
theorem print_padding (inside : idx < 68) (units : List UInt16) :
    printUnits (0xffff :: units) full idx =
      some ⟨overlay (overlay full (2 + idx) [0xff]) (2 + idx) [0], idx + 1, true⟩ := by
  have padding : (0xffff : UInt16) &&& 0x80 ≠ 0 := by decide
  rw [printUnits, put_name_inside inside, Option.bind_some, if_pos padding, put_name_inside inside]
  rfl

theorem print_outside (beyond : 68 ≤ idx) (c : UInt16) (units : List UInt16) :
    printUnits (c :: units) full idx = none := by
  rw [printUnits, put_name_outside beyond, Option.bind_none]

/-- A short name is in the buffer after its entries, with a NUL behind it. -/
theorem print_padded (ascii : ∀ c ∈ name, c < 0x80) (clear : Clear full) (short : name.length ≤ 66) :
    ∃ printed, printUnits (padded name) full 0 = some printed ∧
      slice printed.full 2 name.length = name ∧ printed.full (2 + name.length) = 0 := by
  have ended : overlay full 2 name (2 + name.length) = 0 :=
    (overlay_after (Nat.le_refl _)).trans (clear _ (by omega))
  have named := slice_overlay_self full 2 name
  rw [padded, print_chars ascii (Nat.zero_le _), if_pos (show 0 + name.length ≤ 68 by omega)]
  rw [Nat.add_zero, Nat.zero_add]
  split
  · exact ⟨_, rfl, named, ended⟩
  next part =>
    have nul : overlay (overlay full 2 name) (2 + name.length) [0] (2 + name.length) = 0 :=
      @overlay_inside (overlay full 2 name) (2 + name.length) 0 [0] Nat.zero_lt_one
    have kept {later : Bytes} (same : ∀ a < 2 + name.length, later a = overlay full 2 name a) :
        slice later 2 name.length = name :=
      (slice_congr fun a inside => same a inside.2).trans named
    rw [print_nul (by omega)]
    cases 12 - name.length % 13 with
    | zero => exact ⟨_, rfl, kept fun a before => overlay_before before, nul⟩
    | succ k =>
        rw [List.replicate_succ, print_padding (by omega)]
        refine ⟨_, rfl, kept fun a before => ?_, ?_⟩
        · exact (overlay_before (by omega)).trans ((overlay_before (by omega)).trans
            (overlay_before before))
        · exact (overlay_before (by omega)).trans ((overlay_before (by omega)).trans nul)

/-- A longer one does not fit. -/
theorem print_padded_long (ascii : ∀ c ∈ name, c < 0x80) (long : 66 < name.length) :
    printUnits (padded name) full 0 = none := by
  rw [padded, print_chars ascii (Nat.zero_le _)]
  split
  next fits =>
    rw [if_neg (show ¬name.length % 13 = 0 by omega)]
    obtain ⟨k, padding⟩ : ∃ k, 12 - name.length % 13 = k + 1 := ⟨11 - name.length % 13, by omega⟩
    rw [padding, List.replicate_succ]
    rcases Nat.eq_or_lt_of_le fits with full | before
    · rw [print_outside (by omega)]
    · rw [print_nul before, print_outside (by omega)]
  next => rfl

/-- The string is the name that stands before a NUL. -/
theorem file_name_of (named : slice full 2 name.length = name) (ended : full (2 + name.length) = 0)
    (short : name.length < 68) (live : 0 ∉ name) : fileName full = name := by
  obtain ⟨r, room⟩ : ∃ r, 68 = name.length + (1 + r) := ⟨67 - name.length, by omega⟩
  have single : slice full (2 + name.length) 1 = [0] := congrArg (fun c => [c]) ended
  have parts : slice full 2 68 = name ++ (0 :: slice full (2 + name.length + 1) r) := by
    rw [room, slice_append, slice_append, named, single, List.singleton_append]
  have plain : ∀ c ∈ name, (c != 0) = true := by
    intro c member
    rw [bne_iff_ne]
    exact fun zero => live (zero ▸ member)
  change (slice full 2 68).takeWhile (fun c => c != 0) = name
  rw [parts, List.takeWhile_append_of_pos plain, List.takeWhile_cons_of_neg (by decide), List.append_nil]

/-- What is printed only goes ahead, and leaves what is behind it. -/
theorem print_beyond {printed : Printed} (inside : idx ≤ 68)
    (ran : printUnits units full idx = some printed) :
    printed.idx ≤ 68 ∧ idx ≤ printed.idx ∧ ∀ a, 2 + printed.idx ≤ a → printed.full a = full a := by
  induction units generalizing full idx with
  | nil =>
      cases ran
      exact ⟨inside, Nat.le_refl idx, fun a _ => rfl⟩
  | cons c units hypothesis =>
      rcases Nat.lt_or_ge idx 68 with before | beyond
      · rw [printUnits, put_name_inside before, Option.bind_some] at ran
        split at ran
        · rw [put_name_inside before] at ran
          cases ran
          refine ⟨before, Nat.le_succ idx, fun a behind => ?_⟩
          dsimp only at behind ⊢
          exact (overlay_after (by rw [List.length_singleton]; omega)).trans
            (overlay_after (by rw [List.length_singleton]; omega))
        · obtain ⟨small, ahead, kept⟩ := hypothesis before ran
          refine ⟨small, Nat.le_of_succ_le ahead, fun a behind => (kept a behind).trans ?_⟩
          exact overlay_after (by rw [List.length_singleton]; omega)
      · rw [print_outside beyond] at ran
        exact nomatch ran

end Printing

section Scanning

variable {s next : Scan} {entries run rest : List Entry} {short : Entry} {name : List UInt8}
  {count : Nat}

/-- The next name finds the buffer as the first one has found it. -/
theorem turn_clear (clear : Clear s.full) (turned : turn s = some next) : Clear next.full := by
  rw [turn] at turned
  split at turned
  · exact nomatch turned
  split at turned
  · cases turned
    exact clear
  split at turned
  · exact nomatch turned
  obtain ⟨printed, ran, rfl⟩ := Option.map_eq_some_iff.mp turned
  rw [print_entries_units] at ran
  obtain ⟨small, -, kept⟩ := print_beyond (Nat.zero_le _) ran
  intro i inside
  rcases Nat.lt_or_ge i printed.idx with before | behind
  · have wiped : i < (List.replicate printed.idx (0 : UInt8)).length := by
      rwa [List.length_replicate]
    exact (overlay_inside wiped).trans (List.getElem_replicate _)
  · have outside : overlay printed.full 2 (List.replicate printed.idx 0) (2 + i) = printed.full (2 + i) :=
      overlay_after (by rw [List.length_replicate]; omega)
    exact outside.trans ((kept (2 + i) (by omega)).trans (clear i inside))

theorem turns_clear (clear : Clear s.full) (turned : turns count s = some next) : Clear next.full := by
  induction count generalizing s with
  | zero =>
      cases turned
      exact clear
  | succ count hypothesis =>
      obtain ⟨middle, first, turned⟩ := Option.bind_eq_some_iff.mp turned
      exact hypothesis (turn_clear clear first) turned

theorem start_clear (entries : List Entry) : Clear (start entries).full := by
  intro i _
  exact (if_neg (by omega)).trans (if_neg (by omega))

/-- The run of a name that is not empty begins with one of its entries. -/
theorem run_cons (encoded : Encodes run name) (nonempty : name ≠ []) : ∃ e more, run = e :: more := by
  cases run with
  | cons e more => exact ⟨e, more, rfl⟩
  | nil =>
      have empty : padded name = [] := encoded.units.symm
      have none := (List.append_eq_nil_iff.mp empty).1
      exact absurd (List.map_eq_nil_iff.mp none) nonempty

/-- A turn of the loop that begins with the run of a name. -/
theorem turn_run (here : s.rest = run ++ short :: rest) (encoded : Encodes run name)
    (nonempty : name ≠ []) (ended : short.attr ≠ 0x0f) :
    turn s = (printUnits (padded name) s.full 0).map fun printed =>
      { rest := rest
        full := overlay printed.full recovDirecLength (List.replicate printed.idx 0)
        found := s.found ++ [⟨fileName printed.full, short⟩] } := by
  have marked : ∀ e ∈ run, (e.attr == 0x0f) = true :=
    fun e member => beq_iff_eq.mpr (encoded.marked e member)
  have stops : ¬(short.attr == 0x0f) = true := fun same => ended (beq_iff_eq.mp same)
  have front : (s.rest.takeWhile fun tmp => tmp.attr == 0x0f) = run := by
    rw [here, List.takeWhile_append_of_pos marked, List.takeWhile_cons, if_neg stops, List.append_nil]
  have back : (s.rest.dropWhile fun tmp => tmp.attr == 0x0f) = short :: rest := by
    rw [here, List.dropWhile_append_of_pos marked, List.dropWhile_cons, if_neg stops]
  obtain ⟨e, more, split⟩ := run_cons encoded nonempty
  have first : e.attr = 0x0f := encoded.marked e (split ▸ List.mem_cons_self)
  have begins : s.rest = e :: (more ++ short :: rest) := by
    rw [here, split, List.cons_append]
  rw [turn]
  split
  next none => exact nomatch begins.symm.trans none
  next first' rest' here' =>
    cases begins.symm.trans here'
    rw [if_neg (not_not.mpr first), back, front, print_entries_units, encoded.units]

end Scanning

/-- In every state of the scan the next name is found with the entry at the end of its run, and the
buffer is not left, exactly if the name has at most 66 characters. -/
theorem long_name_rebuilt (entries : List Entry) (count : Nat) (s : Scan) (name : List UInt8)
    (run rest : List Entry) (short : Entry) (turned : turns count (start entries) = some s)
    (here : s.rest = run ++ short :: rest) (encoded : Encodes run name) (ended : short.attr ≠ 0x0f)
    (ascii : ∀ c ∈ name, 0 < c ∧ c < 0x80) (nonempty : name ≠ []) :
    (∃ next, turn s = some next ∧ next.rest = rest ∧ next.found = s.found ++ [⟨name, short⟩]) ↔
      name.length ≤ 66 := by
  have low : ∀ c ∈ name, c < 0x80 := fun c member => (ascii c member).2
  have live : 0 ∉ name := fun zero => absurd (ascii 0 zero).1 (by decide)
  rw [turn_run here encoded nonempty ended]
  constructor
  · rintro ⟨next, ran, -⟩
    by_contra long
    rw [print_padded_long low (Nat.lt_of_not_le long)] at ran
    exact nomatch ran
  · intro fits
    obtain ⟨printed, ran, named, nul⟩ := print_padded low (turns_clear (start_clear entries) turned) fits
    have whole := file_name_of named nul (Nat.lt_of_le_of_lt fits (by decide)) live
    exact ⟨_, congrArg (Option.map _) ran, rfl,
      congrArg (fun name => s.found ++ [⟨name, short⟩]) whole⟩

/-- The entry of the name `a`. -/
def shortName : Entry := longEntry (0x61 :: 0 :: List.replicate 11 0xffff)

/-- The entries of the name `bbbbbbbbbbbbbc`, the later part first. -/
def twoParts : List Entry :=
  [longEntry (0x63 :: 0 :: List.replicate 11 0xffff), longEntry (List.replicate 13 0x62)]

/-- A name over two entries, found after one of a single entry. -/
theorem long_name_rebuilt_second :
    ∃ once twice, turn (start (shortName :: (fun _ => 0) :: (twoParts ++ [fun _ => 0]))) = some once ∧
      turn once = some twice ∧ twice.rest = [] ∧
      twice.found = [⟨[0x61], fun _ => 0⟩, ⟨List.replicate 13 0x62 ++ [0x63], fun _ => 0⟩] := by
  have short : Encodes [shortName] [0x61] := by
    refine ⟨fun e member => ?_, by decide +kernel⟩
    rw [List.mem_singleton.mp member]
    exact long_entry_marked _
  have long : Encodes twoParts (List.replicate 13 0x62 ++ [0x63]) := by
    refine ⟨fun e member => ?_, by decide +kernel⟩
    rcases List.mem_cons.mp member with rfl | rest
    · exact long_entry_marked _
    · rw [List.mem_singleton.mp rest, long_entry_marked]
  have one : ∀ c ∈ [(0x61 : UInt8)], 0 < c ∧ c < 0x80 := by
    intro c member
    rw [List.mem_singleton.mp member]
    decide
  have two : ∀ c ∈ List.replicate 13 (0x62 : UInt8) ++ [0x63], 0 < c ∧ c < 0x80 := by
    intro c member
    rcases List.mem_append.mp member with front | last
    · rw [List.eq_of_mem_replicate front]
      decide
    · rw [List.mem_singleton.mp last]
      decide
  obtain ⟨once, ran, left, found⟩ := (long_name_rebuilt _ 0 (start _) [0x61] [shortName]
    (twoParts ++ [fun _ => 0]) (fun _ => 0) rfl rfl short (by decide) one
    (List.cons_ne_nil _ _)).mpr (by decide)
  have turned : turns 1 (start (shortName :: (fun _ => 0) :: (twoParts ++ [fun _ => 0]))) = some once :=
    Option.bind_eq_some_iff.mpr ⟨once, ran, rfl⟩
  obtain ⟨twice, again, rest, both⟩ := (long_name_rebuilt _ 1 once _ twoParts [] (fun _ => 0) turned left
    long (by decide) two (by decide)).mpr (by decide)
  exact ⟨once, twice, ran, again, rest, both.trans (congrArg (· ++ _) found)⟩

/-- The entries of a name of 67 times the same character. -/
def overflowing : List Entry :=
  longEntry (0x61 :: 0x61 :: 0 :: List.replicate 10 0xffff) ::
    List.replicate 5 (longEntry (List.replicate 13 0x61))

/-- The padding of a name of 67 characters is put behind the end of the buffer. -/
theorem long_name_overflows :
    Encodes overflowing (List.replicate 67 0x61) ∧
      ¬∃ next, turn (start (overflowing ++ [fun _ => 0])) = some next ∧ next.rest = [] ∧
        next.found = [⟨List.replicate 67 0x61, fun _ => 0⟩] := by
  have outside : (turn (start (overflowing ++ [fun _ => 0]))).isNone = true := by decide +kernel
  refine ⟨⟨fun e member => ?_, by decide +kernel⟩, ?_⟩
  · rcases List.mem_cons.mp member with rfl | rest
    · exact long_entry_marked _
    · rw [List.eq_of_mem_replicate rest, long_entry_marked]
  rintro ⟨next, ran, -⟩
  rw [ran] at outside
  exact nomatch outside

end OsWorkbench.Frecov
