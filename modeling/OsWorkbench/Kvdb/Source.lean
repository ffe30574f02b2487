import OsWorkbench.Library.ByteStore
import OsWorkbench.Library.WriteTrace

/-!
# `libkvdb/kvdb.c`

The database operations as programs over the bytes of one file, each `pread`
and `pwrite` one atomic step. Offsets are file offsets; the `uint32_t` sums of
the source are reduced to 32 bits where the source reduces them, and sums with
`BLOCK_LEN`, a `size_t`, are not. The calls of `kvdb_lock` around `kvdb_put` and
`kvdb_get` are the subject of `Kvdb.Locks`; `malloc` is taken to succeed.
-/

namespace OsWorkbench.Kvdb

open ByteStore WriteTrace

/-- A file holds `size` bytes; a later write past the end leaves a hole that
reads as zero. -/
structure File where
  size : Nat
  bytes : Bytes
  hole : ∀ address, size ≤ address → bytes address = 0

structure Pwrite where
  offset : Nat
  payload : List UInt8
  deriving DecidableEq, Repr

namespace File

theorem ext {file other : File} (size : file.size = other.size)
    (bytes : file.bytes = other.bytes) : file = other := by
  cases file
  cases other
  cases size
  cases bytes
  rfl

def empty : File where
  size := 0
  bytes := fun _ => 0
  hole := fun _ _ => rfl

def pread (file : File) (offset count : Nat) : List UInt8 :=
  slice file.bytes offset (min count (file.size - offset))

def pwrite (file : File) (change : Pwrite) : File where
  size := if change.payload = [] then file.size
    else max file.size (change.offset + change.payload.length)
  bytes := overlay file.bytes change.offset change.payload
  hole := by
    intro address outside
    by_cases nothing : change.payload = []
    · rw [if_pos nothing] at outside
      rw [nothing, overlay_nil]
      exact file.hole address outside
    · rw [if_neg nothing] at outside
      rw [overlay_after (le_trans (Nat.le_max_right _ _) outside)]
      exact file.hole address (le_trans (Nat.le_max_left _ _) outside)

end File

instance : Store File Pwrite := ⟨File.pwrite⟩

/-- Why a call never returns: `safe_call` saw a short transfer and exits, the C
standard leaves the step undefined, or a loop ran out of fuel. -/
inductive Halt where
  | exit
  | undefined
  | fuel
  deriving DecidableEq, Repr

abbrev Db := Prog File Pwrite Halt

def headerLen : Nat := 0x100

def blockLen : Nat := 0x1c

/-- `sizeof(string)` and `sizeof(tab)`. -/
def sizeofString : Nat := 0x20

def sizeofTab : Nat := 0x14

def u32 (value : Nat) : Nat := value % 2 ^ 32

def zeros (count : Nat) : List UInt8 := List.replicate count 0

/-- `safe_call(pread(...), ==count)`. -/
def preadSafe (offset count : Nat) : Db (List UInt8) := do
  let got ← Prog.read fun file : File => file.pread offset count
  if got.length = count then pure got else .stop .exit

/-- `pread` whose result nobody checks: after a short read the caller uses
uninitialised memory. -/
def preadUnchecked (offset count : Nat) : Db (List UInt8) := do
  let got ← Prog.read fun file : File => file.pread offset count
  if got.length = count then pure got else .stop .undefined

def pwrite (offset : Nat) (payload : List UInt8) : Db Unit := Prog.write ⟨offset, payload⟩

def readDb (offset count : Nat) : Db (List UInt8) := preadSafe (u32 (headerLen + offset)) count

def writeDb (offset : Nat) (payload : List UInt8) : Db Unit :=
  pwrite (u32 (headerLen + offset)) payload

/-- `struct string`. -/
structure Str where
  info : List UInt8
  next : Nat

def Str.ofBytes (payload : List UInt8) : Str where
  info := payload.take blockLen
  next := wordOf payload blockLen

def readStr (offset : Nat) : Db Str := do
  let payload ← readDb offset sizeofString
  pure (Str.ofBytes payload)

/-- `struct tab`. -/
structure Tab where
  next : Nat
  key : Nat
  keyLen : Nat
  value : Nat
  valueLen : Nat
  deriving DecidableEq, Repr

def Tab.ofBytes (payload : List UInt8) : Tab where
  next := wordOf payload 0
  key := wordOf payload 4
  keyLen := wordOf payload 8
  value := wordOf payload 12
  valueLen := wordOf payload 16

def Tab.bytes (entry : Tab) : List UInt8 :=
  wordBytes entry.next ++ wordBytes entry.key ++ wordBytes entry.keyLen ++
    wordBytes entry.value ++ wordBytes entry.valueLen

def readTab (offset : Nat) : Db Tab := do
  let payload ← readDb offset sizeofTab
  pure (Tab.ofBytes payload)

/-! Offsets in `header`, as `header.h` asserts them. -/

def freeHead : Nat := 0
def freeTail : Nat := 4
def freeSize : Nat := 8
def backupList : Nat := 12
def backupTab : Nat := 24
def backupPos : Nat := 44
def backupPrev : Nat := 48
def backupFlag : Nat := 52
def sizeofHeader : Nat := 56

/-- The first block of the free list is written by hand, right behind the table
entry at offset 0. -/
def initDb : Db Unit := do
  pwrite 0 (wordBytes sizeofTab)
  pwrite 4 (wordBytes sizeofTab)
  pwrite 8 (wordBytes (headerLen + sizeofTab + sizeofString))
  pwrite 12 (zeros (headerLen - 12))
  pwrite headerLen (zeros sizeofTab)
  pwrite (headerLen + sizeofTab) (zeros sizeofString)

/-- `strncmp` on the characters before the terminator; past the end of a list
the terminator is read. -/
def strncmp : Nat → List UInt8 → List UInt8 → Int
  | 0, _, _ => 0
  | count + 1, left, right =>
      let first := left.headD 0
      let second := right.headD 0
      if first = second ∧ first ≠ 0 then strncmp count left.tail right.tail
      else (first.toNat : Int) - second.toNat

/-- Moving `key` on by a block is undefined once that leaves the string. -/
def stringCmp : Nat → List UInt8 → Str → Db Int
  | 0, _, _ => .stop .fuel
  | fuel + 1, key, str =>
      if str.next ≠ 0 then
        if strncmp blockLen key str.info ≠ 0 then pure (strncmp blockLen key str.info)
        else if key.length < blockLen then .stop .undefined
        else do
          let following ← readStr str.next
          stringCmp fuel (key.drop blockLen) following
      else pure (strncmp blockLen key str.info)

def nonzero (byte : UInt8) : Bool := byte != 0

/-- What `strncpy` stores for a block: its characters, padded with zeros. -/
def strncpyBytes (info : List UInt8) : List UInt8 :=
  let chars := info.takeWhile nonzero
  chars ++ zeros (blockLen - chars.length)

/-- The bytes `string_cpy` stores at `dst`. The last `strcpy` may run on into the
`next` field. -/
def stringCpy : Nat → Str → Db (List UInt8)
  | 0, _ => .stop .fuel
  | fuel + 1, str =>
      if str.next ≠ 0 then do
        let following ← readStr str.next
        let rest ← stringCpy fuel following
        pure (strncpyBytes str.info ++ rest)
      else pure ((str.info ++ wordBytes str.next).takeWhile nonzero ++ [0])

/-- The walk of `add_free_list` to the last block of a chain. -/
def lastBlock : Nat → Nat → Nat → Db Nat
  | 0, _, _ => .stop .fuel
  | fuel + 1, prev, cur =>
      if cur ≠ 0 then do
        let following ← readDb (cur + blockLen) 4
        lastBlock fuel cur (wordOf following 0)
      else pure prev

def addFreeList (fuel cur : Nat) : Db Unit := do
  let tailOld ← preadSafe freeTail 4
  writeDb (wordOf tailOld 0 + blockLen) (wordBytes cur)
  let prev ← lastBlock fuel cur cur
  pwrite freeTail (wordBytes prev)

/-- Returns the old end of the file and moves the recorded end on. -/
def getEnd (append : Nat) : Db Nat := do
  let old ← preadUnchecked freeSize 4
  pwrite freeSize (wordBytes (u32 (wordOf old 0 + append)))
  pure (wordOf old 0)

/-- `get_end(fd,sizeof(string))-HEADER_LEN`. -/
def newBlock : Db Nat := do
  let old ← getEnd sizeofString
  pure (u32 (old + 2 ^ 32 - headerLen))

/-- The data of one block: the last one is padded with zeros first. -/
def storeChunk (cur : Nat) (src : List UInt8) : Db Unit :=
  if src.length < blockLen then do
    pwrite (u32 (cur + headerLen)) (zeros blockLen)
    pwrite (u32 (cur + headerLen)) src
  else pwrite (u32 (cur + headerLen)) (src.take blockLen)

/-- An action under a condition. -/
def onlyIf (condition : Prop) [Decidable condition] (action : Db Unit) : Db Unit :=
  if condition then action else pure ()

/-- The block after `prev`: the next one of the free list while `flag` is set and
the tail is not reached, else a new one at the end. -/
def advance (tail : Nat) (flag : Bool) (prev : Nat) (len : Int) : Db (Bool × Nat) :=
  if flag then do
    let link ← preadSafe (prev + blockLen + headerLen) 4
    onlyIf (len < 0) (pwrite backupPrev (wordBytes prev))
    if wordOf link 0 = tail then do
      pwrite freeHead (wordBytes tail)
      let cur ← newBlock
      pure (false, cur)
    else pure (true, wordOf link 0)
  else do
    let cur ← newBlock
    pure (false, cur)

def linkBlock (flag : Bool) (prev cur : Nat) (len : Int) : Db Unit :=
  if len > 0 then writeDb (prev + blockLen) (wordBytes cur)
  else do
    onlyIf flag (pwrite freeHead (wordBytes cur))
    writeDb (prev + blockLen) (zeros 4)

/-- The loop of `alloc_str`; `prev` and `cur` agree at the head of every round. -/
def allocLoop (tail : Nat) : Nat → Bool → Nat → List UInt8 → Db (Bool × Nat)
  | 0, _, _, _ => .stop .fuel
  | fuel + 1, flag, cur, src =>
      if src = [] then pure (flag, cur)
      else do
        storeChunk cur src
        let len : Int := src.length - blockLen
        let after ← advance tail flag cur len
        linkBlock after.1 cur after.2 len
        allocLoop tail fuel after.1 after.2 (src.drop blockLen)

/-- Where `alloc_str` puts the first block. -/
def firstBlock (flag : Bool) (head : Nat) : Db Nat := if flag then pure head else newBlock

def allocStr (fuel : Nat) (src : List UInt8) : Db Nat := do
  let list ← preadUnchecked freeHead 8
  let flag := wordOf list 0 != wordOf list 4
  let ret ← firstBlock flag (wordOf list 0)
  let ended ← allocLoop (wordOf list 4) fuel flag ret src
  pwrite freeHead (wordBytes (if ended.1 then ended.2 else wordOf list 4))
  pure ret

def negBackup : Db Unit := pwrite backupFlag (zeros 1)

def recovBackup : Db Unit := do
  let flag ← preadSafe backupFlag 1
  if flag ≠ [0] then do
    let h ← preadSafe 0 sizeofHeader
    pwrite 0 ((h.drop backupList).take 12)
    writeDb (wordOf h backupPos) ((h.drop backupTab).take sizeofTab)
    writeDb (wordOf h backupPrev + blockLen) (h.take 4)
    negBackup
  else pure ()

/-- The saved header: `free_list` twice, the table entry, its offset, a zero
`backup_prev` and the flag, with the padding of the structure as zeros. -/
def startBackup (pos : Nat) : Db Unit := do
  let originTab ← readDb pos sizeofTab
  let freeList ← preadSafe 0 12
  pwrite 0 (freeList ++ freeList ++ originTab ++ wordBytes pos ++ wordBytes 0 ++ [1] ++ zeros 3)

def checkBackup (keyPos : Nat) : Db Bool := do
  let flag ← preadSafe backupFlag 1
  if flag ≠ [0] then do
    let saved ← preadSafe (backupTab + 4) 4
    pure (wordOf saved 0 == keyPos)
  else pure false

/-- The branch of `_kvdb_put` for a key that is already stored at `curOff`. -/
def updateEntry (fuel curOff : Nat) (curTab : Tab) (value : List UInt8) : Db Int := do
  startBackup curOff
  let stored ← allocStr fuel value
  writeDb curOff { curTab with value := stored, valueLen := u32 value.length }.bytes
  addFreeList fuel curTab.value
  pure 0

/-- The branch of `_kvdb_put` for a new key: the all-zero entry at `curOff` is
filled in and a new one is put at the end. -/
def appendEntry (fuel curOff : Nat) (key value : List UInt8) : Db Int := do
  startBackup curOff
  let valueAt ← allocStr fuel value
  let keyAt ← allocStr fuel key
  let old ← getEnd sizeofTab
  let next := u32 (old + 2 ^ 32 - headerLen)
  writeDb next (zeros sizeofTab)
  writeDb curOff (Tab.mk next keyAt (u32 key.length) valueAt (u32 value.length)).bytes
  pure 0

/-- `_kvdb_put` from the table entry at `curOff` on. -/
def putFrom : Nat → Nat → List UInt8 → List UInt8 → Db Int
  | 0, _, _, _ => .stop .fuel
  | fuel + 1, curOff, key, value => do
      let curTab ← readTab curOff
      if curTab.next ≠ 0 then do
        let keyStr ← readStr curTab.key
        let ret ← stringCmp fuel key keyStr
        if ret = 0 then updateEntry fuel curOff curTab value
        else putFrom fuel curTab.next key value
      else appendEntry fuel curOff key value

/-- `kvdb_put` between its two calls of `kvdb_lock`. -/
def kvdbPut (fuel : Nat) (key value : List UInt8) : Db Int := do
  recovBackup
  let ret ← putFrom fuel 0 key value
  negBackup
  pure ret

/-- The buffer of `_kvdb_get` has `value_len+1` bytes; storing more is undefined. -/
def readValue (fuel : Nat) (curTab : Tab) : Db (List UInt8) := do
  let valStr ← readStr curTab.value
  let stored ← stringCpy fuel valStr
  if stored.length ≤ u32 (curTab.valueLen + 1) then pure (stored.takeWhile nonzero)
  else .stop .undefined

/-- The entry a reader uses: the saved one if `check_backup` says so. -/
def currentTab (saved : Bool) (curTab : Tab) : Db Tab :=
  if saved then do
    let payload ← preadSafe backupTab sizeofTab
    pure (Tab.ofBytes payload)
  else pure curTab

/-- `_kvdb_get` from the table entry at `curOff` on; `none` is `NULL`. -/
def getFrom : Nat → Nat → List UInt8 → Db (Option (List UInt8))
  | 0, _, _ => .stop .fuel
  | fuel + 1, curOff, key => do
      let curTab ← readTab curOff
      if curTab.next ≠ 0 then do
        let keyStr ← readStr curTab.key
        let ret ← stringCmp fuel key keyStr
        if ret = 0 then do
          let saved ← checkBackup curTab.key
          let found ← currentTab saved curTab
          let value ← readValue fuel found
          pure (some value)
        else getFrom fuel curTab.next key
      else pure none

/-- `kvdb_get` between its two calls of `kvdb_lock`. -/
def kvdbGet (fuel : Nat) (key : List UInt8) : Db (Option (List UInt8)) := getFrom fuel 0 key

end OsWorkbench.Kvdb
