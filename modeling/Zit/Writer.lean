import Zit.Bencode
import Zit.Lib.Chunks
import Zit.Lib.Tree

/-!
# Writing a torrent file

`write_torrent` of `torrent_writer.cpp`, up to the text it writes. The entries a
`recursive_directory_iterator` visits are given in their order.
-/

set_option autoImplicit false

namespace Zit

open Lib Lib.Path

/-- What `write_torrent` is called with besides the paths, the time and the version text. -/
structure WriterArgs where
  announceUrl : Bytes
  comment : Bytes
  pieceLength : UInt32
  time : Int64
  createdBy : Bytes

namespace TorrentWriter

variable (sha1 : Bytes → Sha1) (args : WriterArgs)

/-- `get_chunks(is, n, m)`; a first chunk that is shorter than `n` is the last. -/
def getChunks (data : Bytes) (n m : Nat) : List Bytes :=
  (if data.take n = [] then [] else [data.take n]) ++ chunks m (data.drop n)

/-- `piece_data`, `pieces_ss` and `files` in the loop over a directory. -/
structure State where
  pieceData : Bytes := []
  pieces : Bytes := []
  files : List Element := []

/-- A turn of the loop over the chunks of a file. -/
def addChunk (st : State) (chunk : Bytes) : State :=
  let pieceData := st.pieceData ++ chunk
  if pieceData.length = args.pieceLength.toNat then
    { st with pieceData := [], pieces := st.pieces ++ (sha1 pieceData).bytes }
  else { st with pieceData }

/-- `file_dict`; `rel` is the path relative to the data path. -/
def fileDict (rel : List Name) (size : Nat) : Element := .dict [
  (ascii "length".toList, .int (Int64.ofNat size)),
  (ascii "path".toList, .list (rel.map .str)),
  (ascii "path.utf-8".toList, .list (rel.map .str))]

/-- A turn of the loop over the entries; only regular files are added. -/
def addEntry (fs : FileSystem) (l : Loc) (st : State) (rel : List Name) : State :=
  match fs.content (l ++ rel) with
  | none => st
  | some data =>
    let st := { st with files := st.files ++ [fileDict rel data.length] }
    let n := args.pieceLength.toNat
    (getChunks data (n - st.pieceData.length) n).foldl (addChunk sha1 args) st

/-- `info` of a regular file. -/
def singleInfo (name data : Bytes) : List (Bytes × Element) := [
  (ascii "length".toList, .int (Int64.ofNat data.length)),
  (ascii "name".toList, .str name),
  (ascii "name.utf-8".toList, .str name),
  (ascii "piece length".toList, .int (Int64.ofNat args.pieceLength.toNat)),
  (ascii "pieces".toList,
    .str ((chunks args.pieceLength.toNat data).map fun chunk => (sha1 chunk).bytes).flatten)]

/-- `info` of a directory. -/
def multiInfo (name : Bytes) (fs : FileSystem) (l : Loc) (entries : List (List Name)) :
    List (Bytes × Element) :=
  let st := entries.foldl (addEntry sha1 args fs l) {}
  -- "Handle any remaining piece data"
  let pieces :=
    if st.pieceData ≠ [] then st.pieces ++ (sha1 st.pieceData).bytes else st.pieces
  [ (ascii "files".toList, .list st.files),
    (ascii "name".toList, .str name),
    (ascii "name.utf-8".toList, .str name),
    (ascii "piece length".toList, .int (Int64.ofNat args.pieceLength.toNat)),
    (ascii "pieces".toList, .str pieces)]

def rootDict (info : List (Bytes × Element)) : List (Bytes × Element) := [
  (ascii "announce".toList, .str args.announceUrl),
  (ascii "comment".toList, .str args.comment),
  (ascii "created by".toList, .str args.createdBy),
  (ascii "creation date".toList, .int args.time),
  (ascii "encoding".toList, .str (ascii "UTF-8".toList)),
  (ascii "info".toList, .dict info)]

/-- The exception for a path that is no regular file and no directory. -/
def noData (dataPath : Path) : Exn :=
  .runtimeError (s!"Data path '{Bencode.rawText dataPath}' is neither an accessible file " ++
    "nor directory")

/-- `write_torrent`: the text of the torrent file. -/
def writeTorrent (fs : FileSystem) (cwd : Loc) (entries : List (List Name)) (dataPath : Path) :
    Except Exn Bytes :=
  match fs.resolve cwd dataPath with
  | none => .error (noData dataPath)
  | some l =>
    let name := filename dataPath
    match fs.node l with
    | some (.file data) =>
      .ok (Element.dict (rootDict args (singleInfo sha1 args name data))).encode
    | some .dir =>
      .ok (Element.dict (rootDict args (multiInfo sha1 args name fs l entries))).encode
    | none => .error (noData dataPath)

/-! ## The generator -/

namespace Generator

/-- `read_chunk(size)`, which ends where `get` sets the fail bit. -/
def readChunk : Nat → Bytes → IStream → Bytes × IStream
  | 0, buf, is => (buf, is)
  | size + 1, buf, is =>
    match is.get with
    | (some c, is) => readChunk size (buf ++ [c]) is
    | (none, is) => (buf, is)

/-- "Read subsequent chunks (size m)" -/
def subsequent (m : Nat) : Nat → IStream → List Bytes
  | 0, _ => []
  | turns + 1, is =>
    if is.fail then []
    else
      let (next, is) := readChunk m [] is
      if next ≠ [] then next :: subsequent m turns is else []

/-- What `get_chunks(is, n, m)` yields. Each chunk takes a byte, so the turns suffice. -/
def getChunks (is : IStream) (n m : Nat) : List Bytes :=
  let (first, is) := readChunk n [] is
  (if first ≠ [] then [first] else []) ++ subsequent m (is.rest.length + 1) is

/-- A turn of the loop over the entries. -/
def addEntry (fs : FileSystem) (l : Loc) (st : State) (rel : List Name) : State :=
  match fs.content (l ++ rel) with
  | none => st
  | some data =>
    let st := { st with files := st.files ++ [fileDict rel data.length] }
    let n := args.pieceLength.toNat
    (getChunks (IStream.ofStr data) (n - st.pieceData.length) n).foldl (addChunk sha1 args) st

/-- `pieces_ss` behind the loop, with "any remaining piece data". -/
def pieces (fs : FileSystem) (l : Loc) (entries : List (List Name)) : Bytes :=
  let st := entries.foldl (addEntry sha1 args fs l) {}
  if st.pieceData ≠ [] then st.pieces ++ (sha1 st.pieceData).bytes else st.pieces

end Generator

end TorrentWriter

end Zit
