import Zit.Bitfield
import Zit.Lib.Splice

/-!
# Pieces

`piece.hpp` and `piece.cpp`: the blocks of one piece, requested and received, and its data until it
has been written. The functions that change a piece return the changed one; `now` is the system
clock, in nanoseconds since its epoch.
-/

set_option autoImplicit false

namespace Zit

open Lib

structure Piece where
  id : UInt32
  pieceSize : UInt32
  blocksRequested : Bitfield
  blocksDone : Bitfield
  data : Bytes
  pieceWritten : Bool := false
  lastRequest : Int := 0
  lastBlock : Int := 0
  deriving DecidableEq, Repr

namespace Piece

def blockSize : UInt32 := (1 : UInt32) <<< 14

/-- `block_count()` of a piece of this size. -/
def blockCountOf (pieceSize : UInt32) : UInt32 :=
  pieceSize / blockSize + if pieceSize % blockSize ≠ 0 then 1 else 0

/-- The constructor. -/
def create (id pieceSize : UInt32) : Piece :=
  { id, pieceSize
    blocksRequested := .ofCount (blockCountOf pieceSize).toNat
    blocksDone := .ofCount (blockCountOf pieceSize).toNat
    data := List.replicate pieceSize.toNat 0 }

variable (p : Piece)

def blockCount : UInt32 := blockCountOf p.pieceSize

/-- `next_offset(mark)` -/
def nextOffset (mark : Bool) (now : Int) : Except Exn (Option UInt32 × Piece) :=
  match (p.blocksRequested.add p.blocksDone).next false with
  | none => .ok (none, p)
  | some next =>
    if next > (p.blockCount - 1).toNat then .ok (none, p)
    else do
      let p := if mark then
          { p with blocksRequested := p.blocksRequested.set next true, lastRequest := now }
        else p
      let next ← castSizeU32 next
      return (some (next * blockSize), p)

/-- No block is missing: what `set_block` returns. -/
def complete : Bool :=
  match p.blocksDone.next false with
  | none => true
  | some next => decide (next ≥ p.blockCount.toNat)

/-- `ranges::copy` into the data of the piece; an empty span is copied anywhere. -/
def copyBlock (offset : UInt32) (data : Bytes) : Except Exn Bytes :=
  if data = [] then .ok p.data
  else if offset.toNat + data.length ≤ p.data.length then
    .ok (overwrite 0 p.data offset.toNat data)
  else .error (.undefined "copy past the end of m_data")

/-- `set_block`: whether this was the last remaining block. -/
def setBlock (offset : UInt32) (data : Bytes) (now : Int) : Except Exn (Bool × Piece) :=
  if offset % blockSize ≠ 0 then
    .error (.runtimeError s!"Invalid block offset: {offset.toNat}")
  else if data.length > blockSize.toNat then
    .error (.runtimeError s!"Block too big: {data.length}")
  else if data.length + offset.toNat > p.pieceSize.toNat then
    .error (.runtimeError "Block overflows piece")
  else do
    let blockId := offset / blockSize
    let done ← p.blocksDone.get blockId.toNat
    let p ← if done then pure p
      else do
        let _ ← p.blocksRequested.get blockId.toNat
        let copied ← p.copyBlock offset data
        pure { p with data := copied, blocksDone := p.blocksDone.set blockId.toNat true }
    let p := { p with lastBlock := now }
    return (p.complete, p)

/-- `set_piece_written(written)` -/
def setPieceWritten (written : Bool) : Piece :=
  { p with
    pieceWritten := written
    blocksDone := (List.range p.blockCount.toNat).foldl (fun bf i => bf.set i true) p.blocksDone
    data := [] }

/-- 30 seconds. -/
def retryAfter : Int := 30 * 1000000000

/-- `time_point::min()` -/
def timeMin : Int := -2 ^ 63

/-- `retry_blocks()`: how many blocks were requested and are not done. -/
def retryBlocks (now : Int) : Nat × Piece :=
  if p.pieceWritten then (0, p)
  else
    let lastActivity := max p.lastBlock p.lastRequest
    if lastActivity = timeMin then (0, p)
    else if now - lastActivity > retryAfter ∧ (p.blocksRequested.next true).isSome then
      ((p.blocksRequested.sub p.blocksDone).count,
        { p with blocksRequested := .ofCount p.blockCount.toNat })
    else (0, p)

/-- `reset()` -/
def reset : Piece :=
  { p with
    blocksRequested := .ofCount p.blockCount.toNat
    blocksDone := .ofCount p.blockCount.toNat
    data := List.replicate p.pieceSize.toNat 0
    pieceWritten := false }

end Piece

end Zit
