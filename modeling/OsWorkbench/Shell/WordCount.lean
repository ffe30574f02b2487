import Mathlib.Data.List.Basic
import Mathlib.Data.UInt

/-!
# `wc.c`

What `wc` counts does not depend on how its input comes: a word that begins in one buffer and goes on
in the next one is one word.
-/

namespace OsWorkbench.Shell

section Source

/-- `space`, the NUL left out: `strchr` of klib does not find it. -/
def space : List UInt8 := [0x20, 0x0d, 0x09, 0x0a, 0x0b]

/-- `cnt[3]`. -/
structure WcCount where
  lines : UInt32
  words : UInt32
  chars : UInt32
  deriving DecidableEq

def WcCount.zero : WcCount := ⟨0, 0, 0⟩

def WcCount.add (total cnt : WcCount) : WcCount :=
  ⟨total.lines + cnt.lines, total.words + cnt.words, total.chars + cnt.chars⟩

/-- What the calls of `vfs->read` give: the buffers, and the result of the last call. -/
structure Input where
  reads : List (List UInt8)
  ended : Int

def dash : List UInt8 := [0x2d]

end Source

section Purpose

end Purpose

section Words

variable {c : UInt8} {text : List UInt8}

/-- The words that begin in a text, which may go on with a word. -/
def begun : Bool → List UInt8 → Nat
  | _, [] => 0
  | inword, c :: text =>
      if c ∈ space then begun false text else (if inword then 0 else 1) + begun true text

end Words

section Files

/-- What is read for an argument, unless it cannot be opened. -/
def inputOf (opened : Nat → Option Input) (stdin : Nat → Input) (i : Nat) (arg : List UInt8) :
    Option Input :=
  if arg ≠ dash then opened i else some (stdin i)

/-- The arguments up to the first one that is not read to its end, with all that is read. -/
def readable (opened : Nat → Option Input) (stdin : Nat → Input) :
    Nat → List (List UInt8) → List (List UInt8 × List UInt8)
  | _, [] => []
  | i, arg :: args =>
      match inputOf opened stdin i arg with
      | none => []
      | some input =>
          if input.ended < 0 then []
          else (arg, input.reads.flatten) :: readable opened stdin (i + 1) args

variable {opened : Nat → Option Input} {stdin : Nat → Input}

end Files

end OsWorkbench.Shell
