import Zit.Lib.Effect
import Zit.Lib.FileSystem
import Zit.Piece
import Zit.Torrent

/-!
# Files of a torrent

The disk side of `file_writer.cpp`: the two destinations a piece is written to and `read_block`.
A `Disk` is the file system with the working directory and, for each operation on the outside world
in turn, whether it fails (`faults`; a failing write may have written some bytes). Two further
fields only keep a record: `placed`, where the bytes of each piece have been stored or found, moved
along when the file is renamed, and `renamed`.
-/

set_option autoImplicit false

namespace Zit

open Lib Lib.Path

/-- `len` bytes of piece `id` from its byte `off` on are at position `pos` of the file at `loc`. -/
structure Placed where
  id : UInt32
  off : Nat
  len : Nat
  loc : Loc
  pos : Nat

structure Disk where
  cwd : Loc
  fs : FileSystem
  faults : List (Option Nat)
  placed : List Placed := []
  renamed : Bool := false

abbrev DiskM := EStateM Exn Disk

namespace Disk

/-- The outcome of the next operation: `some k` is a failure. -/
def nextFault : DiskM (Option Nat) := do
  let d ← get
  set { d with faults := d.faults.tail }
  return d.faults.head?.join

/-- A change of the file system. -/
def change (what : String) (f : FileSystem → Loc → Option FileSystem) : DiskM Unit := do
  match ← nextFault with
  | some _ => throw (.fileSystem what)
  | none =>
    let d ← get
    match f d.fs d.cwd with
    | some fs => set { d with fs }
    | none => throw (.fileSystem what)

def existsPath (p : Path) : DiskM Bool := do
  let d ← get
  return d.fs.existsPath d.cwd p

/-- `fs::file_size` -/
def fileSize (p : Path) : DiskM Nat := do
  let d ← get
  match d.fs.fileSize d.cwd p with
  | some n => return n
  | none => throw (.fileSystem "cannot get file size")

/-- An `ofstream` that throws when it could not be opened. -/
def create (p : Path) : DiskM Unit := change "basic_ios::clear" fun fs cwd => fs.openTrunc cwd p

/-- `fs::resize_file` -/
def resizeFile (p : Path) (n : Nat) : DiskM Unit :=
  change "cannot resize file" fun fs cwd => fs.resize cwd p n

/-- `fs::create_directory` -/
def createDirectory (p : Path) : DiskM Unit :=
  change "cannot create directory" fun fs cwd => fs.mkdir cwd p

/-- `fs::create_directories` -/
def createDirectories (p : Path) : DiskM Unit :=
  change "cannot create directories" fun fs cwd => fs.mkdirs cwd p

/-- An `fstream` for reading and writing that throws when it could not be opened. -/
def openFile (p : Path) : DiskM Unit := do
  let d ← get
  match d.fs.fileSize d.cwd p with
  | some _ => return
  | none => throw (.fileSystem "basic_ios::clear")

/-- A write into an open file; one that fails may have written the first `k` bytes. -/
def write (p : Path) (off : Nat) (data : Bytes) : DiskM Unit := do
  match ← nextFault with
  | none =>
    let d ← get
    match d.fs.write d.cwd p off data with
    | some fs => set { d with fs }
    | none => throw (.fileSystem "basic_ios::clear")
  | some k =>
    let d ← get
    match d.fs.write d.cwd p off (data.take k) with
    | some fs => set { d with fs }
    | none => pure ()
    throw (.fileSystem "basic_ios::clear")

/-- The next `n` bytes of a file, from `off` on. -/
def read (p : Path) (off n : Nat) : DiskM Bytes := do
  let d ← get
  match d.fs.read d.cwd p off n with
  | some data => return data
  | none => throw (.fileSystem "basic_ios::clear")

/-- `fs::rename`; what was placed in the file is in the renamed one. -/
def rename (p q : Path) : DiskM Unit := do
  change "cannot rename" fun fs cwd => fs.rename cwd p q
  modify fun d => { d with
    placed := d.placed.map fun e =>
      if e.loc = locate d.cwd p then { e with loc := locate d.cwd q } else e
    renamed := true }

/-- `fs::remove` -/
def remove (p : Path) : DiskM Unit := change "cannot remove" fun fs cwd => fs.remove cwd p

/-- Keeps a record of where the bytes of a piece are. -/
def place (id : UInt32) (off len : Nat) (p : Path) (pos : Nat) : DiskM Unit :=
  modify fun d => { d with placed := d.placed ++ [⟨id, off, len, locate d.cwd p, pos⟩] }

end Disk

open Disk

/-! ## Single files -/

namespace SingleTorrentDestination

variable (t : Torrent)

def allocate : DiskM Unit := do
  if ← existsPath t.tmpfile then return
  else
    let length ← lift t.length
    let length ← lift (castU64 length)
    create t.tmpfile
    resizeFile t.tmpfile length

def verifyFileSize : DiskM Unit := do
  let fsize ← fileSize t.tmpfile
  let length ← lift t.length
  let length ← lift (castU64 length)
  if fsize ≠ length then throw (.runtimeError s!"Unexpected (A) file size {fsize}")

/-- Where `writePiece` puts the piece. -/
def offset (piece : Piece) : UInt32 := piece.id * t.pieceLength

def writePiece (piece : Piece) : DiskM Unit := do
  openFile t.tmpfile
  let offset := offset t piece
  let data := piece.data
  if data.length ≠ piece.pieceSize.toNat then
    throw (.runtimeError s!"Unexpected size: {data.length} != {piece.pieceSize.toNat}")
  else
    write t.tmpfile offset.toNat data
    place piece.id 0 data.length t.tmpfile offset.toNat

/-- `torrentComplete`, without `last_piece_written`. -/
def torrentComplete : DiskM Unit := rename t.tmpfile t.name

end SingleTorrentDestination

/-! ## Several files -/

namespace MultiTorrentDestination

variable (t : Torrent)

/-- One file of `allocate`, created with its size. -/
def allocateFile (fi : FileInfo) : DiskM Unit := do
  let dstName := join t.name fi.path
  createDirectories (parentPath dstName)
  create dstName
  let length ← lift (castU64 fi.length)
  resizeFile dstName length

def allocate : DiskM Unit := do
  if ← existsPath t.tmpfile then return
  else
    create t.tmpfile
    resizeFile t.tmpfile 1
    createDirectory t.name
    forM t.files (allocateFile t)

/-- The `all_of` of `verifyFileSize`. -/
def allSizes : List FileInfo → DiskM Bool
  | [] => return true
  | fi :: files => do
    let expected ← lift (castU64 fi.length)
    let actual ← fileSize (join t.name fi.path)
    if actual = expected then allSizes files else return false

def verifyFileSize : DiskM Unit := do
  if ← allSizes t t.files then return
  else throw (.runtimeError "Unexpected multi torrent file size")

/-- The position in the torrent of what `writePiece` writes next. -/
def pos (piece : Piece) (done : Int) : Int := (piece.id * t.pieceLength).toNat + done

/-- The `while` of `writePiece`: "the piece might be spread over more than one file". Every turn
writes a byte or more, so the size of the piece bounds the turns. -/
def writeLoop (piece : Piece) : Nat → Int → DiskM Unit
  | 0, _ => throw .diverged
  | turns + 1, remaining =>
    if remaining > 0 then do
      let done := piece.pieceSize.toNat - remaining
      let (fi, offset, left) ← lift (t.fileAtPos (pos t piece done))
      let len := min remaining left
      let tmpfile := join t.name fi.path
      openFile tmpfile
      let data := piece.data
      if data.length < done + len ∨ ¬done < data.length then
        throw (.undefined "assert or read past the end of the data")
      else
        write tmpfile offset.toNat ((data.drop done.toNat).take len.toNat)
        place piece.id done.toNat len.toNat tmpfile offset.toNat
        writeLoop piece turns (remaining - len)
    else pure ()

def writePiece (piece : Piece) : DiskM Unit :=
  writeLoop t piece (piece.pieceSize.toNat + 1) piece.pieceSize.toNat

/-- The name of the marker file: the suffixed one. -/
def marker : Path :=
  if endsWith t.tmpfile Torrent.tmpfileExtension then t.tmpfile
  else t.tmpfile ++ Torrent.tmpfileExtension

/-- `torrentComplete`, without `last_piece_written`. -/
def torrentComplete : DiskM Unit := remove (marker t)

end MultiTorrentDestination

/-! ## `TorrentDestination::create` -/

namespace TorrentDestination

variable (t : Torrent)

def allocate : DiskM Unit :=
  if t.isSingleFile then SingleTorrentDestination.allocate t
  else MultiTorrentDestination.allocate t

def verifyFileSize : DiskM Unit :=
  if t.isSingleFile then SingleTorrentDestination.verifyFileSize t
  else MultiTorrentDestination.verifyFileSize t

def writePiece (piece : Piece) : DiskM Unit :=
  if t.isSingleFile then SingleTorrentDestination.writePiece t piece
  else MultiTorrentDestination.writePiece t piece

def torrentComplete : DiskM Unit :=
  if t.isSingleFile then SingleTorrentDestination.torrentComplete t
  else MultiTorrentDestination.torrentComplete t

end TorrentDestination

/-! ## Reading -/

namespace FileWriter

variable (t : Torrent)

def base : Path := if t.isSingleFile then parentPath t.tmpfile else t.tmpfile

/-- The file `read_block` opens at a position, with the offset in it and the bytes left. -/
def readPath (pos : Int) : Except Exn (Path × Int × Int) := do
  let (fi, off, left) ← t.fileAtPos pos
  return (join (base t) fi.path, off, left)

/-- The `while` of `read_block`. A turn that reads nothing repeats for ever, so `length` turns that
did not end it are a loop without end. -/
def readLoop : Nat → Int → UInt32 → Bytes → DiskM Bytes
  | 0, _, _, _ => throw .diverged
  | turns + 1, remaining, cpos, data =>
    if remaining > 0 then do
      let (path, off, left) ← lift (readPath t cpos.toNat)
      let len ← lift (castU32 (min remaining left))
      let bytes ← Disk.read path off.toNat len.toNat
      readLoop turns (remaining - len.toNat) (cpos + len) (data ++ bytes)
    else return data

/-- `read_block(offset, length, torrent)` -/
def readBlock (offset length : UInt32) : DiskM Bytes :=
  readLoop t (length.toNat + 1) length.toNat offset []

end FileWriter

namespace Piece

/-- Where `get_block` reads from: "the last piece is often shorter and can't thus be used to get
the offset". -/
def fileOffset (p : Piece) (t : Torrent) (offset : UInt32) : UInt32 := t.pieceLength * p.id + offset

/-- `get_block(offset, torrent, length)` -/
def getBlock (p : Piece) (offset : UInt32) (t : Torrent) (length : UInt32) : DiskM Bytes := do
  if offset % blockSize ≠ 0 then
    throw (.runtimeError s!"Invalid block offset: {offset.toNat}")
  else if offset ≥ p.pieceSize then
    throw (.runtimeError s!"Too large block offset: {offset.toNat}")
  else
    let blockId := offset / blockSize
    if ¬(← lift (p.blocksDone.get blockId.toNat)) then return []
    else
      let length := if length ≠ 0 then length else blockSize
      if p.pieceWritten then FileWriter.readBlock t (p.fileOffset t offset) length
      else if offset.toNat + length.toNat ≤ p.data.length then
        return (p.data.drop offset.toNat).take length.toNat
      else throw (.undefined "iterator past the end of m_data")

end Piece

end Zit
