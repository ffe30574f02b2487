import Mathlib.Data.List.Basic

/-!
# `dir.c`

The routines on paths. A string is the list of its characters before the NUL; `dest`, which is
edited in place, also keeps how many bytes of its buffer it has been written to. An index of -1 is
`none`. The loop of `dir_cat_real` counts down the characters of `src`.
-/

namespace OsWorkbench.Kernel

def slash : UInt8 := 0x2f
def dot : UInt8 := 0x2e

/-- The string in a buffer, and the number of bytes from its start that have been in use. -/
@[ext] structure Text where
  chars : List UInt8
  reach : Nat
  held : chars.length < reach

/-- A string as `strcpy` leaves it. -/
def Text.copy (chars : List UInt8) : Text := ⟨chars, chars.length + 1, Nat.lt_succ_self _⟩

/-- `dest[i]='\0'`. -/
def Text.cut (dest : Text) (i : Nat) : Text where
  chars := dest.chars.take i
  reach := max dest.reach (i + 1)
  held := by
    have held := dest.held
    have shorter := List.length_take_le' i dest.chars
    omega

def strncat (dest : Text) (src : List UInt8) (n : Nat) : Text where
  chars := dest.chars ++ src.take n
  reach := max dest.reach (dest.chars.length + (src.take n).length + 1)
  held := by
    rw [List.length_append]
    omega

/-- `strncmp` of klib; behind the last character of a string stands its NUL. -/
def strncmp (s1 s2 : List UInt8) : Nat → Int
  | 0 => 0
  | 1 => (s1.headD 0).toNat - (s2.headD 0).toNat
  | n + 2 =>
      if s1.headD 0 = s2.headD 0 ∧ s1.headD 0 ≠ 0 then strncmp s1.tail s2.tail (n + 1)
      else (s1.headD 0).toNat - (s2.headD 0).toNat

def getFirstSlash (path : List UInt8) : Option Nat := path.findIdx? fun c => c == slash

def getLastSlashFrom (path : List UInt8) : Nat → Option Nat
  | 0 => if path.getD 0 0 = slash then some 0 else none
  | idx + 1 => if path.getD (idx + 1) 0 = slash then some (idx + 1) else getLastSlashFrom path idx

def getLastSlash (path : List UInt8) : Option Nat := getLastSlashFrom path path.length

/-- The two assignments for `..`; the first one would be outside `dest` without a slash in it. -/
def cutLast (dest : Text) : Option Text :=
  match getLastSlash dest.chars with
  | none => none
  | some i =>
      let dest := dest.cut i
      match getLastSlash dest.chars with
      | none => some (dest.cut 0)
      | some j => some (dest.cut (j + 1))

/-- One turn of the loop of `dir_cat_real`, before `src` moves on. -/
def catTurn (dest : Text) (src : List UInt8) (next : Nat) : Option Text :=
  if next = 0 then some dest
  else if next = 1 then
    if strncmp src [dot] 1 ≠ 0 then some (strncat dest src (next + 1)) else some dest
  else if next = 2 then
    if strncmp src [dot, dot] 2 ≠ 0 then some (strncat dest src (next + 1))
    else if dest.chars = [slash] then some dest
    else cutLast dest
  else some (strncat dest src (next + 1))

def dirCatReal : Nat → Text → List UInt8 → Option Text
  | 0, _, _ => none
  | turns + 1, dest, src =>
      match getFirstSlash src with
      | none => catTurn dest src src.length
      | some next =>
          (catTurn dest src next).bind fun dest => dirCatReal turns dest (src.drop (next + 1))

/-- What `dir_cat` does to `dest` before `dir_cat_real`. -/
def catStart (dest : Text) (src : List UInt8) : Text :=
  if src.headD 0 = slash then dest.cut 1
  else if dest.chars.getD (dest.chars.length - 1) 0 ≠ slash then strncat dest [slash] 1
  else dest

/-- What `dir_cat` does to `dest` after it. -/
def catFinish (dest : Text) : Text :=
  let len := dest.chars.length
  if dest.chars.getD (len - 1) 0 = slash ∧ len > 1 then dest.cut (len - 1) else dest

def dirCat (dest : Text) (src : List UInt8) : Option Text :=
  if dest.chars.headD 0 ≠ slash then none
  else (dirCatReal (src.length + 1) (catStart dest src) src).map catFinish

def toAbsolute (pwd rela : List UInt8) : Option Text :=
  if rela.headD 0 = slash then some (.copy rela) else dirCat (.copy pwd) rela

/-- A test of `dir_test.c`. -/
example : (dirCat (.copy [slash, 0x74, slash]) [0x61, slash, dot, dot, slash, 0x62]).map Text.chars =
    some [slash, 0x74, slash, 0x62] := by
  decide

end OsWorkbench.Kernel
