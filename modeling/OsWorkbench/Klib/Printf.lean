import OsWorkbench.Library.ByteStore

/-!
# `stdio.c` of klib: `vsnprintf_real`

The machine is a 32-bit one; signed numbers wrap around. A format is the memory that it points to, its
NUL and what stands behind included. There is no result where `num[]` is written outside, where the
assertion fails or where the format is read beyond the memory that is given.
-/

namespace OsWorkbench.Klib

open ByteStore

def percent : UInt8 := 0x25

def isdigit (c : UInt8) : Prop := 0x30 ≤ c ∧ c ≤ 0x39

instance (c : UInt8) : Decidable (isdigit c) := inferInstanceAs (Decidable (_ ∧ _))

def isalpha (c : UInt8) : Prop := (0x61 ≤ c ∧ c ≤ 0x7a) ∨ (0x41 ≤ c ∧ c ≤ 0x5a)

instance (c : UInt8) : Decidable (isalpha c) := inferInstanceAs (Decidable (_ ∨ _))

/-- The value of a number as an `int`. -/
def toInt32 (value : Int) : Int := value.bmod (2 ^ 32)

/-- The arguments as words, the strings that words point to, and the texts of floating-point numbers,
for which the loops need not end. -/
structure Arguments where
  words : Nat → UInt32
  strings : UInt32 → List UInt8
  doubles : UInt32 → UInt32 → Option (List UInt8)

structure Printing where
  out : Bytes
  cnt : Nat
  ap : Nat

/-- `output`; an error is its `return`. -/
def output (n : UInt32) (a : UInt8) (s : Printing) : Except Printing Printing :=
  if s.cnt < (n - 1).toNat then .ok { s with out := overlay s.out s.cnt [a], cnt := s.cnt + 1 }
  else .error { s with out := overlay s.out s.cnt [0] }

/-- Loops that do nothing but `output`. -/
def outputs (n : UInt32) : List UInt8 → Printing → Except Printing Printing
  | [], s => .ok s
  | a :: rest, s => output n a s >>= outputs n rest

/-- `fill`: the test for `0` is made where the `%` stands. -/
def fill (p : UInt8) : UInt8 := if p = 0x30 then 0x30 else 0x20

/-- The digits of a number, `num[i++]=uval%10+'0'`, with the places that are left in `num`; the last
one that was put in stands first. -/
def pushDigits : Nat → Nat → List UInt8 → Option (List UInt8)
  | _, 0, num => some num
  | 0, _ + 1, _ => none
  | room + 1, uval + 1, num =>
      pushDigits room ((uval + 1) / 10) (UInt8.ofNat ((uval + 1) % 10 + 0x30) :: num)

/-- `while (fill_width > i) num[i++] = fill`. -/
def pushFill (width : Int) : Nat → List UInt8 → Option (List UInt8)
  | 0, num => if width > num.length then none else some num
  | room + 1, num =>
      if width > num.length then pushFill width room (fill percent :: num) else some num

/-- What `%u` and `%d` put into `num[10]`, or else the `0`. -/
def number (width : Int) (uval : Nat) : Option (List UInt8) :=
  (pushDigits 10 uval []).bind fun num =>
    (pushFill width (10 - num.length) num).map fun num => if num = [] then [0x30] else num

def hexDigit (digit : Nat) : UInt8 := UInt8.ofNat (if digit < 10 then digit + 0x30 else digit - 10 + 0x61)

/-- The loop of `%x`, with its `i`. -/
def hexDigits : Nat → UInt32 → List UInt8
  | 0, _ => []
  | i + 1, uval => hexDigit (uval >>> 28).toNat :: hexDigits i (uval <<< 4)

section Source

variable (args : Arguments) (n : UInt32)

/-- The `switch`. -/
def convert (width : Int) (c : UInt8) (s : Printing) : Option (Except Printing Printing) :=
  let word := args.words s.ap
  let taken := { s with ap := s.ap + 1 }
  if c = 0x63 then some (output n word.toUInt8 taken)
  else if c = 0x75 then (number width word.toNat).map fun num => outputs n num taken
  else if c = 0x78 ∨ c = 0x70 then some (outputs n (hexDigits 8 word) taken)
  else if c = 0x64 then
    let ival := toInt32 word.toNat
    if ival < 0 then
      match output n 0x2d taken with
      | .error s => some (.error s)
      | .ok s => (number width (toInt32 (-ival)).toNat).map fun num => outputs n num s
    else (number width ival.toNat).map fun num => outputs n num taken
  else if c = 0x66 then
    (args.doubles word (args.words (s.ap + 1))).map fun text =>
      outputs n text { s with ap := s.ap + 2 }
  else if c = 0x73 then some (outputs n ((args.strings word).takeWhile (· ≠ 0)) taken)
  else if isalpha c then none
  else some (output n c s)

/-- The last `output` and `return cnt-1`. -/
def finish (s : Printing) : Printing :=
  match output n 0 s with
  | .error s => s
  | .ok s => { s with cnt := s.cnt - 1 }

/-- `fill_width` after one more digit. -/
def widen (width : Int) (c : UInt8) : Int := toInt32 (width * 10 + (c.toNat - 0x30))

/-- The loop over the format: between directives, or in one with its `fill_width`. -/
def printLoop : Option Int → List UInt8 → Printing → Option Printing
  | _, [], _ => none
  | none, c :: p, s =>
      if c = 0 then some (finish n s)
      else if c = percent then printLoop (some 0) p s
      else
        match output n c s with
        | .error s => some s
        | .ok s => printLoop none p s
  | some width, c :: p, s =>
      if isdigit c then printLoop (some (widen width c)) p s
      else
        match convert args n width c s with
        | none => none
        | some (.error s) => some s
        | some (.ok s) => printLoop none p s

end Source

/-- `vsnprintf`: the memory at `out` afterwards and the result. -/
def vsnprintf (args : Arguments) (out : Bytes) (n : UInt32) (fmt : List UInt8) : Option (Bytes × Int) :=
  (printLoop args n none fmt ⟨out, 0, 0⟩).map fun s => (s.out, toInt32 s.cnt)

def sprintf (args : Arguments) (out : Bytes) (fmt : List UInt8) : Option (Bytes × Int) :=
  vsnprintf args out (-1) fmt

def snprintf (args : Arguments) (out : Bytes) (n : UInt32) (fmt : List UInt8) : Option (Bytes × Int) :=
  vsnprintf args out n fmt

end OsWorkbench.Klib
