import OsWorkbench.Library.ByteStore
import OsWorkbench.Library.Runs

/-!
# `pipe.c`

`pipe_read` and `pipe_write` as lists of accesses still to be made: each evaluation of `get_size`,
each test of `open`, each `memcpy` and each assignment to `head` or `tail` is one step. A recursive
call puts its own accesses in front of those of the caller. Buffers are objects in memory, so the
sums of the source do not leave `size_t`.
-/

namespace OsWorkbench.Kernel

open ByteStore

/-- `pipe_t`; `mem` has 0x100 bytes, and `isOpen` is the field `open`. -/
structure Pipe where
  head : Nat
  tail : Nat
  isOpen : Bool
  mem : Bytes

def getSize (p : Pipe) : Nat := (((p.tail : Int) - p.head) % 0x100).toNat

/-- The accesses of `pipe_read(p,buf+dst,count)`. -/
inductive ReadOp where
  | size (dst count : Nat)
  | poll (dst count : Nat)
  | copy (dst count : Nat)
  | advance (count : Nat)
  | reset
  deriving DecidableEq

/-- The accesses of `pipe_write(p,buf,count)`; `buf` is the list of the `count` bytes. -/
inductive WriteOp where
  | size (buf : List UInt8)
  | copy (buf : List UInt8)
  | advance (buf : List UInt8)
  | reset
  deriving DecidableEq

/-- How `pipe_read` goes on once it knows the size. -/
def readCall (p : Pipe) (dst count : Nat) : List ReadOp :=
  let size := getSize p
  if size = 0 then [.poll dst count]
  else if count > size then [.size dst size]
  else if count + p.head > 0x100 then
    let remain := 0x100 - p.head
    [.size dst remain, .reset, .size (dst + remain) (count - remain)]
  else [.copy dst count, .advance count]

/-- How `pipe_write` goes on once it knows the size. -/
def writeCall (p : Pipe) (buf : List UInt8) : List WriteOp :=
  let size := getSize p
  if size = 0xff then [.size buf]
  else if buf.length + size > 0xff then
    let remain := 0xff - size
    [.size (buf.take remain), .size (buf.drop remain)]
  else if buf.length + p.tail > 0x100 then
    let remain := 0x100 - p.tail
    [.size (buf.take remain), .reset, .size (buf.drop remain)]
  else [.copy buf, .advance buf]

/-- A task in `pipe_read`: the caller's buffer and the bytes counted so far. -/
structure Reader where
  agenda : List ReadOp
  buf : Bytes
  nread : Nat

structure Writer where
  agenda : List WriteOp
  nwrite : Nat

def readOp (op : ReadOp) (rest : List ReadOp) (p : Pipe) (reader : Reader) : Pipe × Reader :=
  match op with
  | .size dst count => (p, { reader with agenda := readCall p dst count ++ rest })
  | .poll dst count =>
      if p.isOpen then (p, { reader with agenda := .size dst count :: rest })
      else (p, { reader with agenda := rest })
  | .copy dst count =>
      (p, { reader with agenda := rest, buf := overlay reader.buf dst (slice p.mem p.head count) })
  | .advance count =>
      ({ p with head := p.head + count },
        { reader with agenda := rest, nread := reader.nread + count })
  | .reset => ({ p with head := 0 }, { reader with agenda := rest })

def writeOp (op : WriteOp) (rest : List WriteOp) (p : Pipe) (writer : Writer) : Pipe × Writer :=
  match op with
  | .size buf => (p, { writer with agenda := writeCall p buf ++ rest })
  | .copy buf => ({ p with mem := overlay p.mem p.tail buf }, { writer with agenda := rest })
  | .advance buf =>
      ({ p with tail := p.tail + buf.length },
        { writer with agenda := rest, nwrite := writer.nwrite + buf.length })
  | .reset => ({ p with tail := 0 }, { writer with agenda := rest })

/-- A pipe between one writer and one reader. `written` is what was given to `pipe_write` so far,
`received` what `pipe_read` has returned, and `returns` has the length and the result of every
completed `pipe_write`; `asked` is the length of the current one. -/
structure Channel where
  pipe : Pipe
  reader : Reader
  writer : Writer
  asked : Nat
  written : List UInt8
  received : List UInt8
  returns : List (Nat × Nat)

inductive PipeAct where
  | read (count : Nat)
  | reader
  | write (buf : List UInt8)
  | writer
  | close
  deriving DecidableEq

/-- The reader has made an access; with the last one its call returns. -/
def Channel.afterRead (channel : Channel) (p : Pipe) (reader : Reader) : Channel :=
  if reader.agenda = [] then
    { channel with
      pipe := p
      reader := { reader with nread := 0 }
      received := channel.received ++ slice reader.buf 0 reader.nread }
  else { channel with pipe := p, reader := reader }

def Channel.afterWrite (channel : Channel) (p : Pipe) (writer : Writer) : Channel :=
  if writer.agenda = [] then
    { channel with
      pipe := p
      writer := writer
      returns := channel.returns ++ [(channel.asked, writer.nwrite)] }
  else { channel with pipe := p, writer := writer }

def pipeStep (act : PipeAct) (channel : Channel) : Option Channel :=
  match act with
  | .read count =>
      if channel.reader.agenda = [] ∧ 0 < count then
        some { channel with reader := ⟨[.size 0 count], channel.reader.buf, 0⟩ }
      else none
  | .reader =>
      match channel.reader.agenda with
      | [] => none
      | op :: rest =>
          let done := readOp op rest channel.pipe channel.reader
          some (channel.afterRead done.1 done.2)
  | .write buf =>
      if channel.writer.agenda = [] ∧ buf ≠ [] then
        some { channel with
          writer := ⟨[.size buf], 0⟩
          asked := buf.length
          written := channel.written ++ buf }
      else none
  | .writer =>
      match channel.writer.agenda with
      | [] => none
      | op :: rest =>
          let done := writeOp op rest channel.pipe channel.writer
          some (channel.afterWrite done.1 done.2)
  | .close => some { channel with pipe := { channel.pipe with isOpen := false } }

/-- A new pipe; its memory is not cleared. -/
def piped (mem buf : Bytes) : Channel where
  pipe := ⟨0, 0, true, mem⟩
  reader := ⟨[], buf, 0⟩
  writer := ⟨[], 0⟩
  asked := 0
  written := []
  received := []
  returns := []

end OsWorkbench.Kernel
