import DBStream.Native.AppendingBlock

/-!
# Recovering a block from its redo file

`appendingBlock::recoveryFromRedo` of `database/appendingBlock.cpp`.  The whole file is
read into a buffer; its first eight bytes become `m_minRecordId`, and the records behind
them are appended one after the other until the buffer ends.

Nothing bounds the number of turns of the loop (a size word of zero keeps it at its place),
so `replay` takes fuel.
-/

namespace DBStream.Native

variable {I : IndexImpl}

/-- The answers of the system calls during `recoveryFromRedo`: `open`, the two `lseek` calls, `malloc`,
    whether `read` returns the whole file, and whether the tail could be cut off. -/
structure RecoveryIo where
  openFd : Int
  sized : Bool
  allocated : Bool
  rewound : Bool
  readAll : Bool
  truncated : Bool
  deriving DecidableEq

/-- Every system call succeeds. -/
structure RecoveryIo.Works (io : RecoveryIo) : Prop where
  opened : fileHandleValid io.openFd = true
  sized : io.sized = true
  allocated : io.allocated = true
  rewound : io.rewound = true
  readAll : io.readAll = true
  truncated : io.truncated = true

/-- What the write calls would answer; `append` makes none while the redo flag is off. -/
def RecoveryIo.append (io : RecoveryIo) : RedoIo where
  openFd := io.openFd
  seekOk := true
  headWritten := 8
  dataWritten := 0
  synced := true
  now := 0
  flushedAt := 0

/-- `createRecord` on the bytes of one record of the buffer.  A redo file holds what `writeRedo`
    wrote, whole records; other bytes have no record in this model. -/
def Record.parse (d : List UInt8) : Option Record :=
  if h : recordHeadSize ≤ d.length ∧ RecordHead.headSize d = recordHeadSize ∧
      RecordHead.size d = d.length then
    some ⟨d, none, h.1, h.2.1, h.2.2⟩
  else none

namespace RedoState

/-- `truncateFile(m_redoFd, n)`. -/
def truncateFile (r : RedoState) (n : Nat) : RedoState :=
  if r.openFd = some r.m_redoFd then { r with file := some (r.content.take n) } else r

end RedoState

namespace AppendingBlock

/-- Set or clear `BLOCK_FLAG_HAS_REDO`. -/
def setHasRedo (b : AppendingBlock I) (has : Bool) : AppendingBlock I :=
  { b with m_flag := { b.m_flag with hasRedo := has } }

/-- The loop of `recoveryFromRedo` over the buffer: the value it returns (`0`, `1` or `-1`) and the
    block. -/
def replay (Γ : MetaDataCollection I) (io : RecoveryIo) (buf : List UInt8) :
    Nat → Nat → AppendingBlock I → Exec (Option (Int × AppendingBlock I))
  | 0, _, _ => .ok none
  | fuel + 1, head, b =>
    if head ≤ buf.length then
      -- a 32-bit size word is compared with the 64-bit end marker
      if head + 4 = buf.length ∧ RecordHead.size (buf.drop head) = ENDOF_REDO_NUM then
        .ok (some (0, b.setHasRedo true))
      else if buf.length < head + recordHeadSize ∨
          buf.length < head + RecordHead.size (buf.drop head) then
        if io.truncated then
          .ok (some (1, (b.setRedo (b.redo.truncateFile head)).setHasRedo true))
        else .ok (some (-1, b))
      else
        match Record.parse (buf.slice head (RecordHead.size (buf.drop head))) with
        | none => .error .outOfBounds
        | some r => do
          let (s, b) ← b.append Γ r io.append
          if s = .B_OK then replay Γ io buf fuel (head + RecordHead.size (buf.drop head)) b
          else return some (-1, b.setHasRedo true)
    else .ok (some (1, b.setHasRedo true))

/-- The state in which the loop starts: no redo writes, and the first word of the file as
    `m_minRecordId`. -/
def startReplay (b : AppendingBlock I) (buf : List UInt8) : AppendingBlock I :=
  { b.setHasRedo false with m_minRecordId := LE.nat (buf.slice 0 8) }

/-- `appendingBlock::recoveryFromRedo`.  The size of the file is kept in an `int`. -/
def recoveryFromRedo (Γ : MetaDataCollection I) (fuel : Nat) (io : RecoveryIo)
    (b : AppendingBlock I) : Exec (Option (Int × AppendingBlock I)) :=
  let redo := if 0 < b.redo.m_redoFd then b.redo.closeFile else b.redo
  let opened := redo.openRedoFile false b.m_minLogOffset io.append
  let b := b.setRedo opened.2
  if opened.1 then
    let size : Int := if io.sized then Int.bmod b.redo.content.length (2 ^ 32) else -1
    if size < 0 then .ok (some (-1, b))
    else if size < 8 then .ok (some (0, b))
    else if io.allocated ∧ io.rewound ∧ io.readAll then
      let buf := b.redo.content.take size.toNat
      (b.startReplay buf).replay Γ io buf fuel 8
    else .ok (some (-1, b))
  else .ok (some (-1, b))

end AppendingBlock

end DBStream.Native
