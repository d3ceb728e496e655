import Zit.FileWriter
import Zit.Messages

/-!
# The running torrent

The state of a torrent with its pieces, the queue of the file writer, the connected peers and the
disk, and the functions of `torrent.cpp` on it. A `shared_ptr<Piece>` is an index into `heap`, so
that the active pieces and the queue share a piece. `marks` only keeps a record: the data that was
checked before a piece was marked as written.
-/

set_option autoImplicit false

namespace Zit

open Lib

/-! ## Peers -/

/-- A connected `Peer`; `sent` is what has been written to its connection. -/
structure Peer where
  amChoking : Bool := true
  amInterested : Bool := false
  choking : Bool := true
  interested : Bool := false
  listening : Bool := false
  pendingRequests : Int := 0
  remotePieces : Bitfield := .empty
  sent : List Bytes := []

namespace Peer

/-- `m_connection->write(msg)` -/
def write (p : Peer) (msg : Bytes) : Peer := { p with sent := p.sent ++ [msg] }

def setAmChoking (p : Peer) (amChoking : Bool) : Peer :=
  let p := if !p.amChoking && amChoking then p.write (idMsg .choke) else p
  let p := if p.amChoking && !amChoking then p.write (idMsg .unchoke) else p
  { p with amChoking }

/-- `done` is `m_torrent.done()`. -/
def setAmInterested (p : Peer) (done amInterested : Bool) : Peer :=
  if !p.amInterested && amInterested && done then p
  else
    let p := if !p.amInterested && amInterested then p.write (idMsg .interested) else p
    let p := if p.amInterested && !amInterested then p.write (idMsg .notInterested) else p
    { p with amInterested }

end Peer

/-! ## The state -/

/-- The piece `ref` with this id was marked as written after `data` had been checked: by the file
writer, or when it was `found` at start-up. -/
structure Mark where
  ref : Nat
  id : UInt32
  data : Bytes
  found : Bool

structure World where
  heap : List Piece := []
  clientPieces : Bitfield := .empty
  activePieces : AList (fun _ : UInt32 => Nat) := ∅
  queue : List Nat := []
  peers : List Peer := []
  disk : Disk
  marks : List Mark := []

abbrev App := EStateM Exn World

namespace World

/-- The state before a torrent is constructed. -/
def start (cwd : Loc) (fs : FileSystem) : World := { disk := ⟨cwd, fs, [], [], false⟩ }

def onDisk {α : Type} (m : DiskM α) : App α := zoom World.disk (fun disk w => { w with disk }) m

/-- `*ref` -/
def deref (ref : Nat) : App Piece := do
  let w ← get
  match w.heap[ref]? with
  | some piece => return piece
  | none => throw (.undefined "null shared_ptr")

def store (ref : Nat) (piece : Piece) : App Unit :=
  modify fun w => { w with heap := w.heap.set ref piece }

/-- `make_shared<Piece>(id, pieceSize)` -/
def makePiece (id pieceSize : UInt32) : App Nat := do
  let w ← get
  set { w with heap := w.heap ++ [Piece.create id pieceSize] }
  return w.heap.length

/-- The piece a pointer of `m_active_pieces` points to is written. -/
def isWritten (w : World) (ref : Nat) : Bool := (w.heap[ref]?.map (·.pieceWritten)).getD false

/-- `set_piece_written(true)` after `data` was checked. -/
def setWritten (ref : Nat) (data : Bytes) (found : Bool) : App Unit := do
  let piece ← deref ref
  store ref (piece.setPieceWritten true)
  modify fun w => { w with marks := w.marks ++ [⟨ref, piece.id, data, found⟩] }

end World

open World

namespace Torrent

/-- `init_client_pieces` -/
def initClientPieces (count : Nat) : App Unit := do
  let w ← get
  if w.clientPieces.size = 0 then set { w with clientPieces := .ofCount count }

/-- `relevant_pieces` -/
def relevantPieces (w : World) (remotePieces : Bitfield) : Bitfield :=
  remotePieces.sub w.clientPieces

/-- `done()` -/
def done (t : Torrent) (w : World) : Bool :=
  let received := w.clientPieces.count == t.pieces.length && !t.pieces.isEmpty
  let pendingWrites := w.activePieces.entries.any fun e => !w.isWritten e.2
  received && !pendingWrites

/-- The addend of an active piece in `downloaded()`. -/
def downloadedPiece (w : World) (ref : Nat) : Nat :=
  match w.heap[ref]? with
  | some piece => if piece.pieceWritten then piece.pieceSize.toNat else 0
  | none => 0

/-- The sum over the active pieces that are left. -/
def downloadedFrom (w : World) : Int → List (Sigma fun _ : UInt32 => Nat) → Except Exn Int
  | sum, [] => .ok sum
  | sum, piece :: pieces => do
    let sum ← int64 (sum + downloadedPiece w piece.2)
    downloadedFrom w sum pieces

/-- `downloaded()` -/
def downloaded (w : World) : Except Exn Int := downloadedFrom w 0 w.activePieces.entries

/-- `left()` -/
def left (t : Torrent) (w : World) : Except Exn Int := do
  let length ← t.length
  let downloaded ← downloaded w
  int64 (length - downloaded)

/-- `piece_done`; the callback is the one of `FileWriterThread::register_torrent`, which adds the
piece to the queue of the file writer. -/
def pieceDone (ref : Nat) : App Unit := do
  let piece ← deref ref
  modify fun w => { w with clientPieces := w.clientPieces.set piece.id.toNat true }
  modify fun w => { w with queue := w.queue ++ [ref] }

/-- `set_block(piece_id, offset, data)` -/
def setBlock (pieceId offset : UInt32) (data : Bytes) (now : Int) : App Bool := do
  let w ← get
  match w.activePieces.lookup pieceId with
  | some ref =>
    let piece ← deref ref
    let (last, piece) ← lift (piece.setBlock offset data now)
    store ref piece
    if last then pieceDone ref
    return true
  | none => return false

/-- `active_piece(id, create)` -/
def activePiece (t : Torrent) (id : UInt32) (create : Bool := true) : App (Option Nat) := do
  let w ← get
  match w.activePieces.lookup id with
  | some ref => return some ref
  | none =>
    if create then
      let activePieceLength ← lift (t.pieceLengthAt id)
      let ref ← makePiece id activePieceLength
      modify fun w => { w with activePieces := w.activePieces.insert id ref }
      return some ref
    else return none

/-- `reset_piece` -/
def resetPiece (pieceId : UInt32) : App Unit := do
  let w ← get
  match w.activePieces.lookup pieceId with
  | some ref =>
    let piece ← deref ref
    store ref piece.reset
    modify fun w => { w with clientPieces := w.clientPieces.set pieceId.toNat false }
    modify fun w => { w with activePieces := w.activePieces.erase pieceId }
  | none => pure ()

/-- `last_piece_written`; the request to the tracker may fail. -/
def lastPieceWritten : App Unit := do
  modify fun w => { w with
    peers := w.peers.map fun p => if p.listening then p else p.setAmInterested false false }
  match ← onDisk Disk.nextFault with
  | some _ => throw (.runtimeError "tracker request failed")
  | none => pure ()

end Torrent

/-! ## The file writer -/

namespace FileWriter

/-- The `try` block of `write_next_piece`. -/
def writePiece (sha1 : Bytes → Sha1) (t : Torrent) (ref : Nat) : App Unit := do
  let piece ← deref ref
  let sha := sha1 piece.data
  match t.pieces[piece.id.toNat]? with
  | none => throw (.outOfRange "vector::_M_range_check")
  | some hash =>
    if sha ≠ hash then Torrent.resetPiece piece.id
    else
      -- "Create zeroed file if not existing"
      onDisk (TorrentDestination.allocate t)
      onDisk (TorrentDestination.verifyFileSize t)
      onDisk (TorrentDestination.writePiece t piece)
      -- "Ensure we did not change the file size(s)"
      onDisk (TorrentDestination.verifyFileSize t)
      setWritten ref piece.data false
      let w ← get
      if t.done w then
        onDisk (TorrentDestination.torrentComplete t)
        Torrent.lastPieceWritten

/-- `write_next_piece`, once the queue is not empty. -/
def writeNextPiece (sha1 : Bytes → Sha1) (t : Torrent) : App Unit := do
  let w ← get
  match w.queue with
  | [] => pure ()
  | ref :: queue =>
    set { w with queue }
    tryCatch (writePiece sha1 t ref) fun e => if e.isStd then pure () else throw e

end FileWriter

end Zit
