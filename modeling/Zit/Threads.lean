import Zit.Lib.Locks
import Zit.World

/-!
# The peer thread and the writer thread

`Piece::get_block` and `FileWriter::write_next_piece` at the granularity of single locks, unlocks
and uses of `m_piece_written`. The peer thread takes the mutex of a piece and then, for a piece that
is written, the file mutex; the writer thread takes the file mutex and then, again and again, the
mutex of the piece it writes. What the threads compute between these points is the model of the
other modules; the files themselves are left out, so that a file operation may throw.
-/

set_option autoImplicit false

namespace Zit

open Lib

/-- The mutexes the two functions take: `m_file_mutex` and the `m_mutex` of each piece. -/
inductive Mutex
  | file
  | piece (ref : Nat)
  deriving DecidableEq, Repr

inductive Thread
  | peer
  | writer
  deriving DecidableEq, Repr

/-- Where the peer thread is in `get_block`. -/
inductive PeerAt
  | idle
  /-- Before the piece mutex. -/
  | called (ref : Nat) (offset : UInt32)
  /-- Before it looks at `m_blocks_done`. -/
  | entered (ref : Nat) (offset : UInt32)
  /-- Before it looks at `m_piece_written`. -/
  | found (ref : Nat)
  /-- In `read_block`, before the file mutex. -/
  | toDisk (ref : Nat)
  /-- In `read_block`, with the file mutex. -/
  | reading (ref : Nat)
  /-- Before it gives the piece mutex back. -/
  | leaving (ref : Nat)
  deriving DecidableEq, Repr

/-- Where the writer thread is in `write_next_piece`. -/
inductive WriterAt
  | idle
  /-- A piece has been taken from the queue; before the file mutex. -/
  | popped (ref : Nat)
  /-- Before the piece mutex in `data`, for the hash. -/
  | locked (ref : Nat)
  | hashing (ref : Nat)
  /-- Before the hash of this data is compared. -/
  | hashed (ref : Nat) (data : Bytes)
  /-- In `reset_piece`, before the mutex of the active piece. -/
  | resetting (id : UInt32) (ref : Nat)
  | inReset (id : UInt32) (ref : Nat)
  /-- In the destination, with `copies` calls of `data` to come. -/
  | writing (ref copies : Nat)
  | copying (ref copies : Nat)
  /-- In `set_piece_written`, before the piece mutex. -/
  | marked (ref : Nat)
  | clearing (ref : Nat)
  /-- Before it gives the file mutex back. -/
  | finishing
  deriving DecidableEq, Repr

structure Threads where
  world : World
  locks : Locks Mutex Thread := .free
  peer : PeerAt := .idle
  writer : WriterAt := .idle

namespace PeerAt

/-- The mutexes the thread has at this point. -/
def held : PeerAt → List Mutex
  | .idle | .called _ _ => []
  | .entered ref _ | .found ref | .toDisk ref | .leaving ref => [.piece ref]
  | .reading ref => [.file, .piece ref]

/-- The mutex it takes next. -/
def wants : PeerAt → Option Mutex
  | .called ref _ => some (.piece ref)
  | .toDisk _ => some .file
  | _ => none

end PeerAt

namespace WriterAt

def held : WriterAt → List Mutex
  | .idle | .popped _ => []
  | .hashing ref | .inReset _ ref | .copying ref _ | .clearing ref => [.piece ref, .file]
  | _ => [.file]

def wants : WriterAt → Option Mutex
  | .popped _ => some .file
  | .locked ref | .resetting _ ref | .writing ref (_ + 1) | .marked ref => some (.piece ref)
  | _ => none

end WriterAt

namespace Threads

variable (sha1 : Bytes → Sha1) (t : Torrent)

/-- Both threads are idle. -/
def start (world : World) : Threads := { world }

variable (s : Threads)

def held : Thread → List Mutex
  | .peer => s.peer.held
  | .writer => s.writer.held

def wants : Thread → Option Mutex
  | .peer => s.peer.wants
  | .writer => s.writer.wants

def Deadlocked : Prop := s.locks.Deadlock s.wants .peer .writer

/-- The call of `get_block`, which throws before it takes a mutex when the offset is not valid. -/
def getBlock (ref : Nat) (offset : UInt32) : Option Threads := do
  guard (s.peer = .idle)
  let piece ← s.world.heap[ref]?
  guard (offset % Piece.blockSize = 0 ∧ offset < piece.pieceSize)
  return { s with peer := .called ref offset }

/-- The next step of the peer thread. -/
def peerStep : Option Threads :=
  match s.peer with
  | .idle => none
  | .called ref offset => do
    let locks ← s.locks.lock (.piece ref) .peer
    return { s with locks, peer := .entered ref offset }
  | .entered ref offset => do
    let piece ← s.world.heap[ref]?
    if piece.blocksDone.get (offset / Piece.blockSize).toNat = .ok true then
      return { s with peer := .found ref }
    else return { s with peer := .leaving ref }
  | .found ref => do
    let piece ← s.world.heap[ref]?
    if piece.pieceWritten then return { s with peer := .toDisk ref }
    else return { s with peer := .leaving ref }
  | .toDisk ref => do
    let locks ← s.locks.lock .file .peer
    return { s with locks, peer := .reading ref }
  | .reading ref => some { s with locks := s.locks.unlock .file, peer := .leaving ref }
  | .leaving ref => some { s with locks := s.locks.unlock (.piece ref), peer := .idle }

/-- The active piece that is reset because this data has not the hash of the piece. -/
def resetOf (piece : Piece) (data : Bytes) : Option Nat :=
  match t.pieces[piece.id.toNat]? with
  | some hash => if sha1 data ≠ hash then s.world.activePieces.lookup piece.id else none
  | none => none

/-- The data has the hash of the piece. -/
def Matches (piece : Piece) (data : Bytes) : Prop := t.pieces[piece.id.toNat]? = some (sha1 data)

instance (piece : Piece) (data : Bytes) : Decidable (Matches sha1 t piece data) :=
  inferInstanceAs (Decidable (_ = _))

/-- The next step of the writer thread. In the destination it calls `data` once for a single file,
and once for each file the piece is in for several. -/
def writerStep (copies : Nat) : Option Threads :=
  match s.writer with
  | .idle =>
    match s.world.queue with
    | [] => none
    | ref :: queue => some { s with world := { s.world with queue }, writer := .popped ref }
  | .popped ref => do
    let locks ← s.locks.lock .file .writer
    return { s with locks, writer := .locked ref }
  | .locked ref => do
    let locks ← s.locks.lock (.piece ref) .writer
    return { s with locks, writer := .hashing ref }
  | .hashing ref => do
    let piece ← s.world.heap[ref]?
    return { s with locks := s.locks.unlock (.piece ref), writer := .hashed ref piece.data }
  | .hashed ref data => do
    let piece ← s.world.heap[ref]?
    if Matches sha1 t piece data then
      guard (t.isSingleFile = true → copies = 1)
      return { s with writer := .writing ref copies }
    else
      match resetOf sha1 t s piece data with
      | some active => return { s with writer := .resetting piece.id active }
      | none => return { s with writer := .finishing }
  | .resetting id ref => do
    let locks ← s.locks.lock (.piece ref) .writer
    return { s with locks, writer := .inReset id ref }
  | .inReset id ref =>
    some { s with
      world := final (Torrent.resetPiece id) s.world
      locks := s.locks.unlock (.piece ref)
      writer := .finishing }
  | .writing ref (copies + 1) => do
    let locks ← s.locks.lock (.piece ref) .writer
    return { s with locks, writer := .copying ref copies }
  | .copying ref copies =>
    some { s with locks := s.locks.unlock (.piece ref), writer := .writing ref copies }
  | .writing ref 0 => do
    -- "m_piece_written = written", in front of the lock
    let piece ← s.world.heap[ref]?
    return { s with
      world := { s.world with heap := s.world.heap.set ref { piece with pieceWritten := true } }
      writer := .marked ref }
  | .marked ref => do
    let locks ← s.locks.lock (.piece ref) .writer
    return { s with locks, writer := .clearing ref }
  | .clearing ref => do
    let piece ← s.world.heap[ref]?
    return { s with
      world := { s.world with heap := s.world.heap.set ref (piece.setPieceWritten true) }
      locks := s.locks.unlock (.piece ref)
      writer := .finishing }
  | .finishing => some { s with locks := s.locks.unlock .file, writer := .idle }

/-- A file operation of the destination throws; the exception is logged. -/
def fails : Option Threads :=
  match s.writer with
  | .writing _ _ => some { s with writer := .finishing }
  | _ => none

/-- What happens next: a call of `get_block`, `FileWriter::add`, or a step of a thread. -/
inductive Event
  | getBlock (ref : Nat) (offset : UInt32)
  | add (ref : Nat)
  | peer
  | writer (copies : Nat)
  | fails
  deriving DecidableEq, Repr

def step : Event → Option Threads
  | .getBlock ref offset => s.getBlock ref offset
  | .add ref => some { s with world := { s.world with queue := s.world.queue ++ [ref] } }
  | .peer => s.peerStep
  | .writer copies => s.writerStep sha1 t copies
  | .fails => s.fails

end Threads

end Zit
