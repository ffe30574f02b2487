import OsWorkbench.Klib.Truncation

/-!
# `procfs.c`: reading the files of a task

`procfs_iread` gives the string of a task to `snprintf` as its format, from the offset of the file on,
and moves the offset by what was produced. There are no arguments, so the words that conversions take
are whatever stands on the stack.
-/

namespace OsWorkbench.Kernel

open ByteStore Klib

/-- A string in its memory, with what stands behind its NUL. -/
structure Stored where
  chars : List UInt8
  live : 0 ∉ chars
  fits : chars.length < 2 ^ 32
  behind : List UInt8

def Stored.memory (string : Stored) : List UInt8 := string.chars ++ 0 :: string.behind

/-- What `procfs_iread` uses of a task. -/
structure ProcTask where
  pwd : Stored
  name : Stored

def procDir : Nat := 0
def procPwd : Nat := 1
def procName : Nat := 2

/-- The memory at `buf`, the result and the offset of the file. -/
structure ProcResult where
  buf : Bytes
  nread : Int
  offset : UInt32

def procPrint (args : Arguments) (string : Stored) (buf : Bytes) (size offset : UInt32) :
    Option ProcResult :=
  (snprintf args buf size (string.memory.drop offset.toNat)).map fun printed =>
    ⟨printed.1, printed.2, UInt32.ofInt (offset.toNat + printed.2)⟩

def procfsIread (args : Arguments) (task : Option ProcTask) (kind : Nat) (buf : Bytes)
    (size offset : UInt32) : Option ProcResult :=
  match task with
  | none => some ⟨buf, 0, offset⟩
  | some task =>
      if kind = procDir then none
      else if kind = procPwd then procPrint args task.pwd buf size offset
      else if kind = procName then procPrint args task.name buf size offset
      else some ⟨buf, 0, offset⟩

section Reading

/-- Calls from the one with number `k` on, with their buffers, until one returns zero: what they
return is `text`, and nothing behind the buffers is written. -/
inductive Reads (args : Nat → Arguments) (task : Option ProcTask) (kind : Nat) (bufs : Nat → Bytes)
    (sizes : Nat → UInt32) : Nat → UInt32 → List UInt8 → Prop
  | ends {k : Nat} {offset : UInt32} {result : ProcResult}
      (read : procfsIread (args k) task kind (bufs k) (sizes k) offset = some result)
      (inside : ∀ i, (sizes k).toNat ≤ i → result.buf i = bufs k i) (zero : result.nread = 0) :
      Reads args task kind bufs sizes k offset []
  | more {k : Nat} {offset : UInt32} {result : ProcResult} {rest : List UInt8}
      (read : procfsIread (args k) task kind (bufs k) (sizes k) offset = some result)
      (inside : ∀ i, (sizes k).toNat ≤ i → result.buf i = bufs k i) (some : 0 < result.nread)
      (later : Reads args task kind bufs sizes (k + 1) result.offset rest) :
      Reads args task kind bufs sizes k offset (slice result.buf 0 result.nread.toNat ++ rest)

/-- Reading the file in any pieces gives its string. -/
def Delivers (task : ProcTask) (kind : Nat) (string : List UInt8) : Prop :=
  ∀ args bufs (sizes : Nat → UInt32), (∀ k, 2 ≤ sizes k) →
    Reads args (some task) kind bufs sizes 0 0 string

/-- The string that a file of a task shows. -/
def FileShows (task : ProcTask) (kind : Nat) (string : Stored) : Prop :=
  ∀ args buf size offset,
    procfsIread args (some task) kind buf size offset = procPrint args string buf size offset

variable {args : Nat → Arguments} {task : ProcTask} {kind : Nat} {bufs : Nat → Bytes}
  {sizes : Nat → UInt32} {string : Stored}

theorem pwd_file_shows (task : ProcTask) : FileShows task procPwd task.pwd := fun _ _ _ _ => rfl

theorem name_file_shows (task : ProcTask) : FileShows task procName task.name := fun _ _ _ _ => rfl

/-- A format without directives gives itself. -/
theorem plain_text {args : Arguments} {chars behind : List UInt8} {ap : Nat} (live : 0 ∉ chars)
    (plain : percent ∉ chars) : formatText args none (chars ++ 0 :: behind) ap = some chars := by
  induction chars with
  | nil => rfl
  | cons c rest hypothesis =>
      have nul : c ≠ 0 := fun same => live (same ▸ List.mem_cons_self)
      have other : c ≠ percent := fun same => plain (same ▸ List.mem_cons_self)
      rw [List.cons_append, formatText, if_neg nul, if_neg other,
        hypothesis (fun member => live (List.mem_cons_of_mem c member))
          fun member => plain (List.mem_cons_of_mem c member)]
      rfl

/-- One call on a string without directives. -/
theorem plain_read {args : Arguments} {buf : Bytes} {size offset : UInt32} {text : List UInt8}
    (plain : percent ∉ string.chars) (inside : offset.toNat ≤ string.chars.length)
    (left : string.chars.drop offset.toNat = text) : procPrint args string buf size offset =
      some ⟨overlay buf 0 (text.take (size - 1).toNat ++ [0]),
        toInt32 (min (size - 1).toNat text.length : Nat),
        UInt32.ofInt (offset.toNat + toInt32 (min (size - 1).toNat text.length : Nat))⟩ := by
  have known : formatText args none (string.memory.drop offset.toNat) 0 = some text := by
    rw [Stored.memory, List.drop_append_of_le_length inside, left]
    subst left
    exact plain_text (fun member => string.live ((List.drop_sublist _ _).subset member))
      fun member => plain ((List.drop_sublist _ _).subset member)
  rw [procPrint, snprintf, vsnprintf_text known, Option.map_some]

theorem offset_moved {offset : UInt32} {count : Nat} (small : offset.toNat + count < 2 ^ 32) :
    (UInt32.ofInt (offset.toNat + (count : Int))).toNat = offset.toNat + count := by
  have whole : ((offset.toNat + count : Nat) : Int) % 2 ^ 32 = (offset.toNat + count : Nat) :=
    Int.emod_eq_of_lt (Int.natCast_nonneg _) (by omega)
  rw [← Nat.cast_add, UInt32.ofInt, whole, Int.toNat_natCast]
  exact UInt32.toNat_ofNat_of_lt' small

/-- What stands in the buffer without the NUL. -/
theorem slice_cut (buf : Bytes) (text : List UInt8) (room : Nat) :
    slice (overlay buf 0 (text.take room ++ [0])) 0 (min room text.length) = text.take room := by
  have inside := slice_overlay_inside buf 0 0 (min room text.length) (text.take room ++ [0])
    (by rw [cut_length]; omega)
  rw [Nat.add_zero, List.drop_zero] at inside
  exact inside.trans (List.take_left' (List.length_take ..))

theorem plain_delivers (shows : FileShows task kind string) (plain : percent ∉ string.chars)
    (short : string.chars.length < 2 ^ 31) : Delivers task kind string.chars := by
  intro args bufs sizes wide
  have onward (left : Nat) : ∀ (k : Nat) (offset : UInt32), offset.toNat ≤ string.chars.length →
      string.chars.length - offset.toNat = left →
      Reads args (some task) kind bufs sizes k offset (string.chars.drop offset.toNat) := by
    induction left using Nat.strong_induction_on with
    | h left hypothesis =>
        intro k offset inside remaining
        obtain ⟨text, textIs⟩ : ∃ text, string.chars.drop offset.toNat = text := ⟨_, rfl⟩
        have length : text.length = left := by rw [← textIs, List.length_drop, remaining]
        have two : 2 ≤ (sizes k).toNat := UInt32.le_iff_toNat_le.mp (wide k)
        have some : 0 < sizes k := UInt32.lt_iff_toNat_lt.mpr (Nat.lt_of_lt_of_le Nat.two_pos two)
        have room := size_room some
        have read := shows (args k) (bufs k) (sizes k) offset
        rw [plain_read plain inside textIs] at read
        have cut := cut_truncated some (Or.inr (show text.length < 2 ^ 31 by omega)) (bufs k)
        have count : toInt32 (min (sizes k - 1).toNat text.length : Nat) =
            (min (sizes k - 1).toNat text.length : Nat) := to_int32_small (by omega) (by omega)
        rw [textIs]
        obtain ⟨size, sizeIs⟩ : ∃ size, min (sizes k - 1).toNat text.length = size := ⟨_, rfl⟩
        have produced := slice_cut (bufs k) text (sizes k - 1).toNat
        rw [sizeIs] at read cut count produced
        rcases Nat.eq_zero_or_pos left with none | more
        · have empty : text = [] := List.eq_nil_of_length_eq_zero (length.trans none)
          have zero : toInt32 (size : Nat) = 0 := by
            rw [count]
            omega
          rw [empty]
          refine .ends read cut.inside ?_
          dsimp only
          exact zero
        · have moved := @offset_moved offset size (by omega)
          have positive : 0 < toInt32 (size : Nat) := by
            rw [count]
            omega
          have later := hypothesis (left - size) (by omega) (k + 1)
            (UInt32.ofInt (offset.toNat + toInt32 (size : Nat))) (by rw [count, moved]; omega)
            (by rw [count, moved]; omega)
          have all := Reads.more read cut.inside (by dsimp only; exact positive) later
          have pieces : text.take (sizes k - 1).toNat = text.take size := by
            rw [List.take_eq_take_iff]
            omega
          dsimp only at all
          rw [count, moved, Int.toNat_natCast, produced, pieces, ← List.drop_drop, textIs,
            List.take_append_drop] at all
          exact all
  exact onward _ 0 0 (Nat.zero_le _) rfl

end Reading

section Directives

/-- Words on the stack: every conversion gives something other than a `%`. -/
def garbage : Arguments := ⟨fun _ => 0x61, fun _ => [0x61], fun _ _ => some [0x30, 0x30, 0x30]⟩

variable {n : UInt32} {out : Bytes} {c : UInt8} {width : Int} {last : Printing} {text : List UInt8}

theorem number_first (known : number width 0x61 = some text) : ∃ a more, text = a :: more ∧ a ≠ percent := by
  rw [number_text (by decide)] at known
  split at known
  next narrow =>
    obtain rfl := Option.some.inj known
    have digits : digitsOf 0x61 = [0x39, 0x37] := by decide +kernel
    rw [if_neg fun both => absurd both.2 (by decide), digits]
    cases width.toNat - 2 with
    | zero => exact ⟨0x39, [0x37], rfl, by decide⟩
    | succ gap => exact ⟨0x20, _, rfl, by decide⟩
  next wide => exact absurd known (Option.some_ne_none text).symm

theorem garbage_first (other : c ≠ percent) (known : conversionText garbage width c 0 = some text) :
    ∃ a more, text = a :: more ∧ a ≠ percent := by
  rw [conversionText] at known
  dsimp only [garbage] at known
  split at known
  next letter => exact ⟨_, _, (Option.some.inj known).symm, by decide⟩
  next notC =>
  split at known
  next letter => exact number_first known
  next notU =>
  split at known
  next letter => exact ⟨0x30, _, (Option.some.inj known).symm, by decide⟩
  next notX =>
  split at known
  next letter =>
    have value : toInt32 (UInt32.toNat 0x61) = 0x61 := by decide
    rw [value, if_neg (by decide)] at known
    exact number_first known
  next notD =>
  split at known
  next letter => exact ⟨_, _, (Option.some.inj known).symm, by decide⟩
  next notF =>
  split at known
  next letter => exact ⟨0x61, [], (Option.some.inj known).symm, by decide⟩
  next notS =>
  split at known
  next letter => exact absurd known (Option.some_ne_none text).symm
  next plain => exact ⟨c, [], (Option.some.inj known).symm, other⟩

/-- The first character that a conversion puts into an empty buffer. -/
theorem convert_first {result : Except Printing Printing} (other : c ≠ percent) (room : 0 < (n - 1).toNat)
    (run : convert garbage n width c (holding out [] 0) = some result) :
    1 ≤ (outcome result).cnt ∧ (outcome result).out 0 ≠ percent := by
  cases convert_cases garbage n width c (holding out [] 0) with
  | puts text known also =>
      obtain ⟨a, more, rfl, unlike⟩ := garbage_first other known
      obtain rfl := Option.some.inj (run.symm.trans also)
      have put := @output_fits n out [] (taken c) room a
      have start : { holding out [] 0 with ap := 0 + taken c } = holding out [] (taken c) := by
        rw [Nat.zero_add]
        rfl
      have grows := @outputs_grows n (holding out [a] (taken c)) room more
      have first : (holding out [a] (taken c)).out 0 = a := @overlay_inside out 0 0 [a] Nat.zero_lt_one
      rw [show (holding out [] 0).ap = 0 from rfl, start, outputs, put]
      refine ⟨grows.more, ?_⟩
      have kept := grows.kept 0 Nat.zero_lt_one
      rw [first] at kept
      exact fun same => unlike (kept.symm.trans same)
  | fails _ nothing => exact absurd (run.symm.trans nothing) (Option.some_ne_none result)
  | signs _ full _ => exact absurd room full

theorem letter_first {rest : List UInt8} (other : c ≠ percent) (letter : ¬isdigit c)
    (room : 0 < (n - 1).toNat)
    (run : printLoop garbage n (some width) (c :: rest) (holding out [] 0) = some last) :
    last.out 0 ≠ percent := by
  rw [printLoop, if_neg letter] at run
  cases converted : convert garbage n width c (holding out [] 0) with
  | none =>
      rw [converted] at run
      exact absurd run (Option.some_ne_none last).symm
  | some result =>
      obtain ⟨more, unlike⟩ := convert_first other room converted
      have first := convert_grows converted (Nat.zero_le _)
      rw [converted] at run
      cases result with
      | error stopped => exact Option.some.inj run ▸ unlike
      | ok next =>
          have kept := (print_loop_grows run first.room).kept 0 more
          exact fun same => unlike (kept.symm.trans same)

/-- Where no other `%` follows, the first character that a directive gives is none. -/
theorem directive_first {post behind : List UInt8} (plain : percent ∉ post) (room : 0 < (n - 1).toNat)
    (run : printLoop garbage n (some width) (post ++ 0 :: behind) (holding out [] 0) = some last) :
    last.out 0 ≠ percent := by
  induction post generalizing width with
  | nil => exact letter_first (by decide) (by decide) room run
  | cons c post hypothesis =>
      have other : c ≠ percent := fun same => plain (same ▸ List.mem_cons_self)
      by_cases digit : isdigit c
      · rw [List.cons_append, printLoop, if_pos digit] at run
        exact hypothesis (fun member => plain (List.mem_cons_of_mem c member)) run
      · exact letter_first other digit room run

variable {task : ProcTask} {kind : Nat} {string : Stored} {args : Arguments} {buf : Bytes}
  {size offset : UInt32} {result : ProcResult}

/-- A call that returns something is a run of the loop. -/
theorem read_run (shows : FileShows task kind string)
    (read : procfsIread args (some task) kind buf size offset = some result) : ∃ last,
      printLoop args size none (string.memory.drop offset.toNat) (holding buf [] 0) = some last ∧
        result = ⟨last.out, toInt32 last.cnt, UInt32.ofInt (offset.toNat + toInt32 last.cnt)⟩ ∧
        last.cnt ≤ (size - 1).toNat := by
  have start : (⟨buf, 0, 0⟩ : Printing) = holding buf [] 0 := by
    rw [holding, overlay_nil, List.length_nil]
  rw [shows, procPrint, snprintf, vsnprintf, start] at read
  obtain ⟨printed, ran, rfl⟩ := Option.map_eq_some_iff.mp read
  obtain ⟨last, looped, rfl⟩ := Option.map_eq_some_iff.mp ran
  refine ⟨last, looped, ?_, (print_loop_grows looped (Nat.zero_le _)).room⟩
  dsimp only

/-- A call with two bytes returns at most one character. -/
theorem read_one {bufs : Nat → Bytes} {k : Nat} {a : UInt8} {rest : List UInt8}
    (shows : FileShows task kind string) (short : offset.toNat + 1 < 2 ^ 32)
    (reads : Reads (fun _ => garbage) (some task) kind bufs (fun _ => 2) k offset (a :: rest)) :
    (∃ last, printLoop garbage 2 none (string.memory.drop offset.toNat) (holding (bufs k) [] 0) =
      some last ∧ last.out 0 = a) ∧ ∃ next : UInt32, next.toNat = offset.toNat + 1 ∧
        Reads (fun _ => garbage) (some task) kind bufs (fun _ => 2) (k + 1) next rest := by
  generalize given : a :: rest = text at reads
  cases reads with
  | ends read inside zero => exact absurd given (List.cons_ne_nil a rest)
  | @more _ _ result later read inside positive reads =>
      obtain ⟨last, looped, rfl, bound⟩ := read_run shows read
      dsimp only at positive given reads
      have one : last.cnt = 1 := by
        have room : ((2 : UInt32) - 1).toNat = 1 := rfl
        rw [room] at bound
        rcases Nat.le_one_iff_eq_zero_or_eq_one.mp bound with none | one
        · rw [none] at positive
          exact absurd positive (lt_irrefl 0)
        · exact one
      have value : toInt32 (1 : Nat) = (1 : Nat) := by decide
      rw [one, value] at given reads
      obtain ⟨head, tail⟩ := List.cons.inj given
      refine ⟨⟨last, looped, head.symm⟩, _, @offset_moved offset 1 short, ?_⟩
      rw [tail]
      exact reads

/-- Character by character the file can be read up to any place. -/
theorem reads_to {bufs : Nat → Bytes} (shows : FileShows task kind string)
    (reads : Reads (fun _ => garbage) (some task) kind bufs (fun _ => 2) 0 0 string.chars) {o : Nat}
    (inside : o ≤ string.chars.length) : ∃ offset : UInt32, offset.toNat = o ∧
      Reads (fun _ => garbage) (some task) kind bufs (fun _ => 2) o offset (string.chars.drop o) := by
  induction o with
  | zero => exact ⟨0, rfl, reads⟩
  | succ o hypothesis =>
      obtain ⟨offset, value, before⟩ := hypothesis (Nat.le_of_succ_le inside)
      have fits := string.fits
      rw [List.drop_eq_getElem_cons inside] at before
      obtain ⟨-, next, moved, after⟩ := read_one shows (by omega) before
      exact ⟨next, by rw [moved, value], after⟩

theorem delivered_plain (shows : FileShows task kind string) (delivers : Delivers task kind string.chars) :
    percent ∉ string.chars := by
  intro member
  -- The last `%`, behind which no conversion can give another one.
  obtain ⟨after, before, parts, plain⟩ := List.eq_append_cons_of_mem (List.mem_reverse.mpr member)
  have split : string.chars = before.reverse ++ percent :: after.reverse := by
    rw [← List.reverse_reverse string.chars, parts, List.reverse_append, List.reverse_cons,
      List.append_assoc, List.singleton_append]
  have length : before.reverse.length < string.chars.length := by
    rw [split, List.length_append, List.length_cons]
    omega
  have fits := string.fits
  obtain ⟨offset, value, reads⟩ := reads_to shows
    (delivers (fun _ => garbage) (fun _ _ => 0) (fun _ => 2) fun _ => le_refl 2) length.le
  have rest : string.chars.drop before.reverse.length = percent :: after.reverse := by
    rw [split, List.drop_left]
  rw [rest] at reads
  obtain ⟨⟨last, looped, first⟩, -⟩ := read_one shows (by omega) reads
  have format : string.memory.drop offset.toNat = percent :: (after.reverse ++ 0 :: string.behind) := by
    rw [value, Stored.memory, List.drop_append_of_le_length length.le, rest]
    rfl
  rw [format, printLoop, if_neg (by decide), if_pos rfl] at looped
  exact directive_first (fun member => plain (List.mem_reverse.mp member)) (by decide) looped first

theorem to_int32_large {count : Nat} (low : 2 ^ 31 ≤ count) (high : count < 2 ^ 32) :
    toInt32 count < 0 := by
  have whole : (count : Int) % (2 ^ 32 : Nat) = count := Int.emod_eq_of_lt (Int.natCast_nonneg _) (by omega)
  rw [toInt32, Int.bmod_def, whole]
  split <;> omega

theorem delivered_short (shows : FileShows task kind string) (delivers : Delivers task kind string.chars) :
    string.chars.length < 2 ^ 31 := by
  by_contra long
  have plain := delivered_plain shows delivers
  have fits := string.fits
  have reads := delivers (fun _ => garbage) (fun _ _ => 0) (fun _ => -1) fun _ => by decide
  have first := shows garbage (fun _ => 0) (-1) 0
  rw [plain_read plain (Nat.zero_le _) rfl] at first
  have room : ((-1 : UInt32) - 1).toNat = 4294967294 := rfl
  have zero : (0 : UInt32).toNat = 0 := rfl
  rw [zero, List.drop_zero, room] at first
  have negative := @to_int32_large (min 4294967294 string.chars.length) (by omega) (by omega)
  generalize string.chars = text at reads
  cases reads with
  | ends read _ none =>
      obtain rfl := Option.some.inj (first.symm.trans read)
      dsimp only at none
      exact absurd none negative.ne
  | more read _ some _ =>
      obtain rfl := Option.some.inj (first.symm.trans read)
      dsimp only at some
      exact absurd some (Int.not_lt.mpr negative.le)

end Directives

/-- The files of a task can be read in any pieces if and only if no `%` is in their strings and their
lengths are an `int`. -/
theorem proc_files_read (task : ProcTask) :
    (Delivers task procPwd task.pwd.chars ↔
      percent ∉ task.pwd.chars ∧ task.pwd.chars.length < 2 ^ 31) ∧
    (Delivers task procName task.name.chars ↔
      percent ∉ task.name.chars ∧ task.name.chars.length < 2 ^ 31) := by
  have exactly {kind : Nat} {string : Stored} (shows : FileShows task kind string) :
      Delivers task kind string.chars ↔ percent ∉ string.chars ∧ string.chars.length < 2 ^ 31 :=
    ⟨fun delivers => ⟨delivered_plain shows delivers, delivered_short shows delivers⟩,
      fun both => plain_delivers shows both.1 both.2⟩
  exact ⟨exactly (pwd_file_shows task), exactly (name_file_shows task)⟩

/-- A task in the directory `/%d`. -/
def percentTask : ProcTask :=
  ⟨⟨[0x2f, 0x25, 0x64], by decide, by decide, []⟩, ⟨[0x73, 0x68], by decide, by decide, []⟩⟩

/-- It cannot read where it is: `%d` is taken for a directive. -/
theorem percent_pwd : ¬Delivers percentTask procPwd percentTask.pwd.chars := by
  intro delivers
  have reads := delivers (fun _ => ⟨fun _ => 7, fun _ => [], fun _ _ => none⟩) (fun _ _ => 0)
    (fun _ => 32) fun _ => by decide
  have wrong : (procfsIread ⟨fun _ => 7, fun _ => [], fun _ _ => none⟩ (some percentTask) procPwd
      (fun _ => 0) 32 0).map (fun result => (slice result.buf 0 2, result.nread)) =
        some ([0x2f, 0x37], 2) := by decide +kernel
  generalize chars : percentTask.pwd.chars = text at reads
  cases reads with
  | ends read _ zero => exact absurd chars (List.cons_ne_nil _ _)
  | more read _ _ _ =>
      rw [read, Option.map_some] at wrong
      obtain ⟨bytes, two⟩ := Prod.mk.inj (Option.some.inj wrong)
      rw [two, show (2 : Int).toNat = 2 from rfl, bytes] at chars
      exact absurd (List.cons.inj (List.cons.inj chars).2).1 (by decide)

end OsWorkbench.Kernel
