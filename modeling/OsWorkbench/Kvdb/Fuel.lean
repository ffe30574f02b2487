import OsWorkbench.Kvdb.Source

/-!
# More fuel changes nothing

Every call that ends without running out of fuel does the same with any larger amount.
-/

namespace OsWorkbench.Kvdb

open ByteStore WriteTrace

section Fuel

abbrev Longer {Value : Type} (program longer : Db Value) : Prop :=
  Outlasts Halt.fuel program longer

theorem same_program {Value : Type} (program : Db Value) : Longer program program :=
  outlasts_refl _ _

theorem string_cmp_longer (fuel : Nat) (key : List UInt8) (str : Str) :
    Longer (stringCmp fuel key str) (stringCmp (fuel + 1) key str) := by
  induction fuel generalizing key str with
  | zero => exact outlasts_stop _ _
  | succ fuel ih =>
      rw [stringCmp, stringCmp]
      split
      next =>
        split
        next => exact same_program _
        next =>
          split
          next => exact same_program _
          next => exact (same_program _).bind fun following => ih _ _
      next => exact same_program _

theorem last_block_longer (fuel prev cur : Nat) :
    Longer (lastBlock fuel prev cur) (lastBlock (fuel + 1) prev cur) := by
  induction fuel generalizing prev cur with
  | zero => exact outlasts_stop _ _
  | succ fuel ih =>
      rw [lastBlock, lastBlock]
      split
      next => exact (same_program _).bind fun following => ih _ _
      next => exact same_program _

theorem add_free_list_longer (fuel cur : Nat) :
    Longer (addFreeList fuel cur) (addFreeList (fuel + 1) cur) := by
  apply (same_program _).bind
  intro tailOld
  apply (same_program _).bind
  intro _
  exact (last_block_longer fuel cur cur).bind fun prev => same_program _

theorem alloc_loop_longer (tail fuel : Nat) (flag : Bool) (cur : Nat) (src : List UInt8) :
    Longer (allocLoop tail fuel flag cur src) (allocLoop tail (fuel + 1) flag cur src) := by
  induction fuel generalizing flag cur src with
  | zero => exact outlasts_stop _ _
  | succ fuel ih =>
      rw [allocLoop, allocLoop]
      split
      next => exact same_program _
      next =>
        apply (same_program _).bind
        intro _
        apply (same_program _).bind
        intro after
        exact (same_program _).bind fun _ => ih _ _ _

theorem alloc_str_longer (fuel : Nat) (src : List UInt8) :
    Longer (allocStr fuel src) (allocStr (fuel + 1) src) := by
  apply (same_program _).bind
  intro list
  apply (same_program _).bind
  intro ret
  exact (alloc_loop_longer _ _ _ _ _).bind fun ended => same_program _

theorem update_entry_longer (fuel curOff : Nat) (curTab : Tab) (value : List UInt8) :
    Longer (updateEntry fuel curOff curTab value) (updateEntry (fuel + 1) curOff curTab value) := by
  apply (same_program _).bind
  intro _
  apply (alloc_str_longer fuel value).bind
  intro stored
  apply (same_program _).bind
  intro _
  exact (add_free_list_longer fuel _).bind fun _ => same_program _

theorem append_entry_longer (fuel curOff : Nat) (key value : List UInt8) :
    Longer (appendEntry fuel curOff key value) (appendEntry (fuel + 1) curOff key value) := by
  apply (same_program _).bind
  intro _
  apply (alloc_str_longer fuel value).bind
  intro valueAt
  exact (alloc_str_longer fuel key).bind fun keyAt => same_program _

theorem put_from_longer (fuel curOff : Nat) (key value : List UInt8) :
    Longer (putFrom fuel curOff key value) (putFrom (fuel + 1) curOff key value) := by
  induction fuel generalizing curOff with
  | zero => exact outlasts_stop _ _
  | succ fuel ih =>
      rw [putFrom, putFrom]
      apply (same_program _).bind
      intro curTab
      split
      next =>
        apply (same_program _).bind
        intro keyStr
        apply (string_cmp_longer fuel key keyStr).bind
        intro ret
        split
        next => exact update_entry_longer _ _ _ _
        next => exact ih _
      next => exact append_entry_longer _ _ _ _

theorem kvdb_put_longer (key value : List UInt8) (fuel : Nat) :
    Longer (kvdbPut fuel key value) (kvdbPut (fuel + 1) key value) := by
  apply (same_program _).bind
  intro _
  exact (put_from_longer fuel 0 key value).bind fun ret => same_program _

end Fuel

end OsWorkbench.Kvdb
