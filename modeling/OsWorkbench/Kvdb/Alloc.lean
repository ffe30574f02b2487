import OsWorkbench.Kvdb.Blocks
import Mathlib.Data.List.Pairwise
import Mathlib.Data.Set.BooleanAlgebra
import Mathlib.Order.CompletePartialOrder

/-!
# `alloc_str`

`Plan` spells out what `alloc_str` does to a string, a free list and a recorded
size: the blocks used, the free list and size left over, and the exact list of
writes. `alloc_str` is shown to perform those writes; what they mean for the file
is then a matter of lists of writes, for the completed call and for every prefix.
-/

namespace OsWorkbench.Kvdb

open ByteStore WriteTrace

section Writes

/-- The addresses one write replaces. -/
def touches (change : Pwrite) : Set Nat := span change.offset change.payload.length

theorem span_disjoint {first firstCount second secondCount : Nat}
    (apart : first + firstCount ≤ second ∨ second + secondCount ≤ first) :
    Disjoint (span first firstCount) (span second secondCount) := by
  rw [Set.disjoint_left]
  intro address left right
  simp only [mem_span] at left right
  omega

theorem apply_eqOn {file : File} {change : Pwrite} {region : Set Nat}
    (avoids : Disjoint (touches change) region) :
    Set.EqOn (Store.apply file change).bytes file.bytes region := by
  intro address member
  exact overlay_frame _ _ _ (fun inside => Set.disjoint_left.mp avoids inside member)

/-- Writes that avoid a region leave it as it was. -/
theorem applyAll_eqOn {file : File} {changes : List Pwrite} {region : Set Nat}
    (avoids : ∀ change ∈ changes, Disjoint (touches change) region) :
    Set.EqOn (applyAll changes file).bytes file.bytes region := by
  induction changes generalizing file with
  | nil => exact fun address _ => rfl
  | cons change rest ih =>
      have later := @ih (Store.apply file change)
        (fun other member => avoids other (by simp [member]))
      exact later.trans (apply_eqOn (avoids change (by simp)))

theorem size_le_apply (file : File) (change : Pwrite) :
    file.size ≤ (Store.apply file change).size := by
  change file.size ≤ if _ then _ else _
  split
  · exact le_rfl
  · exact Nat.le_max_left _ _

theorem size_le_applyAll (file : File) (changes : List Pwrite) :
    file.size ≤ (applyAll changes file).size := by
  induction changes generalizing file with
  | nil => exact le_rfl
  | cons change rest ih => exact (size_le_apply file change).trans (ih _)

/-- Whatever was written is inside the file afterwards. -/
theorem written_inside {file : File} {changes : List Pwrite} {change : Pwrite}
    (member : change ∈ changes) (something : change.payload ≠ []) :
    change.offset + change.payload.length ≤ (applyAll changes file).size := by
  induction changes generalizing file with
  | nil => simp at member
  | cons first rest ih =>
      rcases List.mem_cons.mp member with rfl | later
      · refine le_trans ?_ (size_le_applyAll _ rest)
        change _ ≤ if _ then _ else _
        rw [if_neg something]
        exact Nat.le_max_right _ _
      · exact ih later

def setHead (value : Nat) : Pwrite := ⟨freeHead, wordBytes value⟩

def setTail (value : Nat) : Pwrite := ⟨freeTail, wordBytes value⟩

def setSize (value : Nat) : Pwrite := ⟨freeSize, wordBytes value⟩

def setPrev (value : Nat) : Pwrite := ⟨backupPrev, wordBytes value⟩

def setLink (block value : Nat) : Pwrite := ⟨headerLen + block + blockLen, wordBytes value⟩

/-- The writes of `storeChunk`. -/
def chunkWrites (cur : Nat) (src : List UInt8) : List Pwrite :=
  if src.length < blockLen then [⟨headerLen + cur, zeros blockLen⟩, ⟨headerLen + cur, src⟩]
  else [⟨headerLen + cur, src.take blockLen⟩]

theorem chunk_write_touches {cur : Nat} {src : List UInt8} {change : Pwrite}
    (member : change ∈ chunkWrites cur src) :
    touches change ⊆ span (headerLen + cur) blockLen := by
  unfold chunkWrites at member
  split_ifs at member with short
  · simp only [List.mem_cons, List.not_mem_nil, or_false] at member
    rcases member with rfl | rfl
    · intro address inside
      simpa [touches] using inside
    · intro address inside
      simp only [touches, mem_span, blockLen] at inside short ⊢
      omega
  · simp only [List.mem_singleton] at member
    subst member
    intro address inside
    simp only [touches, mem_span, List.length_take, blockLen] at inside short ⊢
    omega

theorem chunk_writes_avoid {cur : Nat} {src : List UInt8} {region : Set Nat}
    (avoids : Disjoint (span (headerLen + cur) blockLen) region) :
    ∀ change ∈ chunkWrites cur src, Disjoint (touches change) region :=
  fun _ member => avoids.mono_left (chunk_write_touches member)

end Writes

/-- What `alloc_str` does: `cur` is the cursor its loop ends with. -/
structure Plan where
  writes : List Pwrite
  blocks : List Nat
  free : List Nat
  size : Nat
  cur : Nat

/-- The loop once the free list is used up: `cur` has been taken from the end, and
every round takes one more block, the last one for nothing. -/
def planEnd (tail cur size : Nat) (src : List UInt8) : Plan :=
  if blockLen < src.length then
    let later := planEnd tail (size - headerLen) (size + sizeofString) (src.drop blockLen)
    { later with
      writes := chunkWrites cur src ++ [setSize (size + sizeofString),
        setLink cur (size - headerLen)] ++ later.writes
      blocks := cur :: later.blocks }
  else
    { writes := chunkWrites cur src ++ [setSize (size + sizeofString), setLink cur 0]
      blocks := [cur]
      free := [tail]
      size := size + sizeofString
      cur := size - headerLen }
termination_by src.length
decreasing_by simp only [List.length_drop, blockLen] at *; omega

/-- The loop on a free list whose first block is the cursor. -/
def planFree : List Nat → Nat → List UInt8 → Plan
  | [], size, _ => ⟨[], [], [], size, 0⟩
  | [tail], size, src =>
      let later := planEnd tail (size - headerLen) (size + sizeofString) src
      { later with writes := setSize (size + sizeofString) :: later.writes }
  | cur :: next :: rest, size, src =>
      if blockLen < src.length then
        if rest = [] then
          let later := planEnd next (size - headerLen) (size + sizeofString) (src.drop blockLen)
          { later with
            writes := chunkWrites cur src ++ [setHead next, setSize (size + sizeofString),
              setLink cur (size - headerLen)] ++ later.writes
            blocks := cur :: later.blocks }
        else
          let later := planFree (next :: rest) size (src.drop blockLen)
          { later with
            writes := chunkWrites cur src ++ [setLink cur next] ++ later.writes
            blocks := cur :: later.blocks }
      else
        let saved := if src.length < blockLen then [setPrev cur] else []
        if rest = [] then
          { writes := chunkWrites cur src ++ saved ++ [setHead next,
              setSize (size + sizeofString), setLink cur 0]
            blocks := [cur]
            free := [next]
            size := size + sizeofString
            cur := size - headerLen }
        else
          { writes := chunkWrites cur src ++ saved ++ [setHead next, setLink cur 0]
            blocks := [cur]
            free := next :: rest
            size := size
            cur := next }

/-- An empty string takes a block but the loop does not run. -/
def plan (free : List Nat) (size : Nat) (src : List UInt8) : Plan :=
  if src = [] then
    { writes := [setSize (size + sizeofString), setHead (free.headD 0)]
      blocks := [size - headerLen]
      free := free
      size := size + sizeofString
      cur := size - headerLen }
  else
    let loop := planFree free size src
    { loop with writes := loop.writes ++ [setHead (loop.free.headD 0)] }

/-- What `alloc_str` needs of the file: the recorded size, and a free list whose
links lead to its tail through blocks that do not overlap. -/
structure Supply (file : File) (free : List Nat) (size : Nat) : Prop where
  header : headerLen ≤ file.size
  sized : word file.bytes freeSize = size
  linked : free.IsChain fun block next => link file.bytes block = next
  inFile : ∀ block ∈ free.dropLast, headerLen + block + sizeofString ≤ file.size
  below : ∀ block ∈ free, headerLen + block + sizeofString ≤ size
  apart : free.Pairwise fun block other =>
    block + sizeofString ≤ other ∨ other + sizeofString ≤ block

section Steps

variable {file : File} {size cur : Nat} {src : List UInt8}

theorem pwrite_does (file : File) (offset : Nat) (payload : List UInt8) :
    Does (pwrite offset payload) file [⟨offset, payload⟩] () := rfl

theorem write_db_does {offset : Nat} {payload : List UInt8}
    (small : headerLen + offset < 2 ^ 32) :
    Does (writeDb offset payload) file [⟨headerLen + offset, payload⟩] () := by
  rw [writeDb, u32_of_lt small]
  exact pwrite_does _ _ _

theorem get_end_does {append : Nat} (header : headerLen ≤ file.size)
    (sized : word file.bytes freeSize = size) (small : size + append < 2 ^ 32) :
    Does (getEnd append) file [setSize (size + append)] size := by
  have read := @pread_unchecked_does file freeSize 4
    (by simp only [freeSize, headerLen] at header ⊢; omega)
  have value : wordOf (slice file.bytes freeSize 4) 0 = size := by
    rw [word_of_slice _ _ _ _ (by omega)]
    exact sized
  refine does_bind_read read ?_
  rw [value, u32_of_lt small]
  have moved := pwrite_does file freeSize (wordBytes (size + append))
  exact does_bind moved (does_ret _ _)

theorem new_block_does (header : headerLen ≤ file.size)
    (sized : word file.bytes freeSize = size) (room : headerLen ≤ size)
    (small : size + sizeofString < 2 ^ 32) :
    Does newBlock file [setSize (size + sizeofString)] (size - headerLen) := by
  have value : u32 (size + 2 ^ 32 - headerLen) = size - headerLen := by
    simp only [u32, headerLen, sizeofString] at room small ⊢
    omega
  have moved : Does newBlock file [setSize (size + sizeofString)]
      (u32 (size + 2 ^ 32 - headerLen)) := does_bind_pure (get_end_does header sized small)
  rwa [value] at moved

theorem store_chunk_does (small : headerLen + cur < 2 ^ 32) :
    Does (storeChunk cur src) file (chunkWrites cur src) () := by
  have offset : u32 (cur + headerLen) = headerLen + cur := by
    rw [Nat.add_comm]
    exact u32_of_lt small
  unfold storeChunk chunkWrites
  split_ifs
  · rw [offset]
    have first := pwrite_does file (headerLen + cur) (zeros blockLen)
    exact does_bind first (pwrite_does _ _ _)
  · rw [offset]
    exact pwrite_does _ _ _

theorem advance_end_does {tail prev : Nat} {len : Int} (header : headerLen ≤ file.size)
    (sized : word file.bytes freeSize = size) (room : headerLen ≤ size)
    (small : size + sizeofString < 2 ^ 32) :
    Does (advance tail false prev len) file [setSize (size + sizeofString)]
      (false, size - headerLen) :=
  does_bind_pure (new_block_does header sized room small)

theorem only_if_does {condition : Prop} [Decidable condition] {offset : Nat}
    {payload : List UInt8} (file : File) :
    Does (onlyIf condition (pwrite offset payload)) file
      (if condition then [⟨offset, payload⟩] else []) () := by
  unfold onlyIf
  split_ifs
  · exact pwrite_does _ _ _
  · exact does_ret _ _

/-- The link of a block, as `alloc_str` reads it. -/
theorem link_read {prev next : Nat} (inFile : headerLen + prev + sizeofString ≤ file.size)
    (linked : link file.bytes prev = next) :
    Does (preadSafe (prev + blockLen + headerLen) 4) file []
        (slice file.bytes (prev + blockLen + headerLen) 4) ∧
      wordOf (slice file.bytes (prev + blockLen + headerLen) 4) 0 = next := by
  constructor
  · apply pread_safe_does
    simp only [blockLen, headerLen, sizeofString] at inFile ⊢
    omega
  · have address : prev + blockLen + headerLen + 0 = headerLen + prev + blockLen := by
      simp only [headerLen, blockLen]
      omega
    rw [word_of_slice _ _ _ _ (by omega), address]
    exact linked

theorem advance_free_does {tail prev next : Nat} {len : Int}
    (inFile : headerLen + prev + sizeofString ≤ file.size)
    (linked : link file.bytes prev = next) (further : next ≠ tail) :
    Does (advance tail true prev len) file (if len < 0 then [setPrev prev] else [])
      (true, next) := by
  have value := link_read inFile linked
  refine does_bind_read value.1 ?_
  simp only [value.2, further, if_false]
  exact does_bind_pure (only_if_does _)

theorem link_more_does {flag : Bool} {prev : Nat} {len : Int}
    (small : headerLen + prev + sizeofString < 2 ^ 32) (more : len > 0) :
    Does (linkBlock flag prev cur len) file [setLink prev cur] () := by
  simp only [linkBlock, more, if_true]
  have linked := @write_db_does file (prev + blockLen) (wordBytes cur)
    (by simp only [headerLen, blockLen, sizeofString] at small ⊢; omega)
  rwa [← Nat.add_assoc] at linked

theorem link_last_does {flag : Bool} {prev : Nat} {len : Int}
    (small : headerLen + prev + sizeofString < 2 ^ 32) (last : ¬ len > 0) :
    Does (linkBlock flag prev cur len) file
      ((if flag then [setHead cur] else []) ++ [setLink prev 0]) () := by
  simp only [linkBlock, last, if_false]
  have linked (store : File) := @write_db_does store (prev + blockLen) (zeros 4)
    (by simp only [headerLen, blockLen, sizeofString] at small ⊢; omega)
  simp only [← Nat.add_assoc] at linked
  exact does_bind (only_if_does _) (linked _)

end Steps

section Words

variable {file : File}

theorem word_applyAll {changes : List Pwrite} {spot : Nat}
    (avoids : ∀ change ∈ changes, Disjoint (touches change) (span spot 4)) :
    word (applyAll changes file).bytes spot = word file.bytes spot :=
  word_congr (applyAll_eqOn avoids)

/-- The last write to a word decides it. -/
theorem word_written {before after : List Pwrite} {spot value : Nat} (small : value < 2 ^ 32)
    (avoids : ∀ change ∈ after, Disjoint (touches change) (span spot 4)) :
    word (applyAll (before ++ ⟨spot, wordBytes value⟩ :: after) file).bytes spot = value := by
  rw [applyAll_append, applyAll_cons, word_applyAll avoids]
  exact (word_overlay_self _ _ _).trans (Nat.mod_eq_of_lt small)

end Words

/-- The addresses an allocation may change: the free list's head and size, the
remembered link and the blocks it hands out. -/
def allocArea (blocks : List Nat) : Set Nat :=
  {address | address ∈ span freeHead 4 ∨ address ∈ span freeSize 4 ∨
    address ∈ span backupPrev 4 ∨ ∃ block ∈ blocks, address ∈ span (headerLen + block) sizeofString}

def Confined (changes : List Pwrite) (blocks : List Nat) : Prop :=
  ∀ change ∈ changes, touches change ⊆ allocArea blocks

section Confinement

variable {blocks : List Nat}

theorem Confined.append {first second : List Pwrite} (left : Confined first blocks)
    (right : Confined second blocks) : Confined (first ++ second) blocks := by
  intro change member
  rcases List.mem_append.mp member with inside | inside
  · exact left change inside
  · exact right change inside

theorem Confined.cons {change : Pwrite} {rest : List Pwrite}
    (head : touches change ⊆ allocArea blocks) (tail : Confined rest blocks) :
    Confined (change :: rest) blocks := by
  intro other member
  rcases List.mem_cons.mp member with rfl | inside
  · exact head
  · exact tail other inside

theorem confined_nil : Confined [] blocks := by
  intro change member
  simp at member

theorem Confined.mono {changes : List Pwrite} {more : List Nat} (confined : Confined changes blocks)
    (wider : blocks ⊆ more) : Confined changes more := by
  intro change member address inside
  rcases confined change member inside with head | size | prev | ⟨block, used, within⟩
  · exact Or.inl head
  · exact Or.inr (Or.inl size)
  · exact Or.inr (Or.inr (Or.inl prev))
  · exact Or.inr (Or.inr (Or.inr ⟨block, wider used, within⟩))

theorem set_head_confined (value : Nat) : touches (setHead value) ⊆ allocArea blocks :=
  fun _ inside => Or.inl inside

theorem set_size_confined (value : Nat) : touches (setSize value) ⊆ allocArea blocks :=
  fun _ inside => Or.inr (Or.inl inside)

theorem set_prev_confined (value : Nat) : touches (setPrev value) ⊆ allocArea blocks :=
  fun _ inside => Or.inr (Or.inr (Or.inl inside))

theorem set_link_confined {block value : Nat} (used : block ∈ blocks) :
    touches (setLink block value) ⊆ allocArea blocks := by
  intro address inside
  refine Or.inr (Or.inr (Or.inr ⟨block, used, ?_⟩))
  simp only [touches, setLink, mem_span, word_bytes_length, headerLen, blockLen,
    sizeofString] at inside ⊢
  omega

theorem chunk_confined {cur : Nat} {src : List UInt8} (used : cur ∈ blocks) :
    Confined (chunkWrites cur src) blocks := by
  intro change member address inside
  refine Or.inr (Or.inr (Or.inr ⟨cur, used, ?_⟩))
  have within := chunk_write_touches member inside
  simp only [mem_span, headerLen, blockLen, sizeofString] at within ⊢
  omega

theorem plan_end_confined (tail cur size : Nat) (src : List UInt8) :
    Confined (planEnd tail cur size src).writes (planEnd tail cur size src).blocks := by
  fun_induction planEnd tail cur size src with
  | case1 cur size src more later ih =>
      refine Confined.append (Confined.append (chunk_confined (by simp)) ?_)
        (ih.mono (List.subset_cons_self _ _))
      exact Confined.cons (set_size_confined _)
        (Confined.cons (set_link_confined (by simp)) confined_nil)
  | case2 cur size src last =>
      refine Confined.append (chunk_confined (by simp)) ?_
      exact Confined.cons (set_size_confined _)
        (Confined.cons (set_link_confined (by simp)) confined_nil)

theorem plan_free_confined (free : List Nat) (size : Nat) (src : List UInt8) :
    Confined (planFree free size src).writes (planFree free size src).blocks := by
  fun_induction planFree free size src with
  | case1 size src => exact confined_nil
  | case2 tail size src later => exact Confined.cons (set_size_confined _) (plan_end_confined _ _ _ _)
  | case3 cur next size src more later =>
      refine Confined.append (Confined.append (chunk_confined (by simp)) ?_)
        ((plan_end_confined _ _ _ _).mono (List.subset_cons_self _ _))
      exact Confined.cons (set_head_confined _) (Confined.cons (set_size_confined _)
        (Confined.cons (set_link_confined (by simp)) confined_nil))
  | case4 cur next rest size src more further later ih =>
      refine Confined.append (Confined.append (chunk_confined (by simp)) ?_)
        (ih.mono (List.subset_cons_self _ _))
      exact Confined.cons (set_link_confined (by simp)) confined_nil
  | case5 cur next size src last saved =>
      refine Confined.append (Confined.append (chunk_confined (by simp)) ?_) ?_
      · simp only [saved]
        split_ifs
        · exact Confined.cons (set_prev_confined _) confined_nil
        · exact confined_nil
      · exact Confined.cons (set_head_confined _) (Confined.cons (set_size_confined _)
          (Confined.cons (set_link_confined (by simp)) confined_nil))
  | case6 cur next rest size src last saved further =>
      refine Confined.append (Confined.append (chunk_confined (by simp)) ?_) ?_
      · simp only [saved]
        split_ifs
        · exact Confined.cons (set_prev_confined _) confined_nil
        · exact confined_nil
      · exact Confined.cons (set_head_confined _)
          (Confined.cons (set_link_confined (by simp)) confined_nil)

theorem plan_confined (free : List Nat) (size : Nat) (src : List UInt8) :
    Confined (plan free size src).writes (plan free size src).blocks := by
  unfold plan
  split_ifs
  · exact Confined.cons (set_size_confined _) (Confined.cons (set_head_confined _) confined_nil)
  · exact Confined.append (plan_free_confined _ _ _)
      (Confined.cons (set_head_confined _) confined_nil)

end Confinement

end OsWorkbench.Kvdb
