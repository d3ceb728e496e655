import Zit.Bencode
import Zit.Bitfield
import Zit.Lib.Path

/-!
# Torrent metadata

The part of `torrent.hpp` and `torrent.cpp` that is fixed when a torrent has been constructed: the
fields read from the `.torrent` file (`Torrent.ofContent`), the lengths of the pieces and the file
at a position. `int64_t` values are integers; arithmetic on them that overflows is undefined.
-/

set_option autoImplicit false

namespace Zit

open Lib Lib.Path

/-- The settings the modelled functions read; an `IntSetting` is an `int`. -/
structure Config where
  listeningPort : Int
  connectionPort : Int
  maxPendingRequests : Int
  verifyPiecesOnStartup : Bool
  deriving DecidableEq, Repr

structure FileInfo where
  length : Int
  path : Path
  md5sum : Bytes := []
  deriving DecidableEq, Repr

structure Torrent where
  announce : Bytes
  announceList : List (List Bytes) := []
  creationDate : Int := 0
  comment : Bytes := []
  createdBy : Bytes := []
  encoding : Bytes := []
  pieceLength : UInt32
  pieces : List Sha1
  isPrivate : Bool := false
  name : Path
  mLength : Int := 0
  md5sum : Bytes := []
  files : List FileInfo := []
  tmpfile : Path
  infoHash : Sha1
  listeningPort : UInt16
  connectionPort : UInt16
  maxPendingRequests : Int
  deriving DecidableEq, Repr

/-- The result of an `int64_t` operation. -/
def int64 (value : Int) : Except Exn Int :=
  if -2 ^ 63 ≤ value ∧ value < 2 ^ 63 then .ok value else .error (.undefined "signed overflow")

/-- `numeric_cast<unsigned short>` of an `int`. -/
def castU16 (value : Int) (msg : String := "out of range") : Except Exn UInt16 :=
  (numericCast .u16 .i32 value msg).map fun v => UInt16.ofNat v.toNat

theorem castU16_of {value : Int} (h : 0 ≤ value ∧ value < 2 ^ 16) (msg : String) :
    castU16 value msg = .ok (UInt16.ofNat value.toNat) := by
  simp only [castU16, numericCast, IntTy.u16, IntTy.i32, IntTy.max, IntTy.wrap, Bool.false_eq_true,
    if_false]
  rw [if_neg (by omega)]
  simp only [Except.map, Except.ok.injEq]
  congr 2
  omega

theorem castU16_not {value : Int} (h : ¬(0 ≤ value ∧ value < 2 ^ 16)) (msg : String) :
    castU16 value msg = .error (.outOfRange msg) := by
  simp only [castU16, numericCast, IntTy.u16, IntTy.i32, IntTy.max, IntTy.wrap, Bool.false_eq_true,
    if_false]
  rw [if_pos (by omega)]
  rfl

theorem castU16_ok {value : Int} {msg : String} {v : UInt16} (h : castU16 value msg = .ok v) :
    0 ≤ value ∧ value < 2 ^ 16 := by
  by_contra hv
  rw [castU16_not hv] at h
  cases h

/-! ## Reading the file -/

namespace Element

/-- The exception of `Element::to`. -/
def conversionError : Exn := .bencodeConversion "Could not convert to type"

def toInt : Element → Except Exn Int
  | .int i => .ok i.toInt
  | _ => .error conversionError

def toStr : Element → Except Exn Bytes
  | .str s => .ok s
  | _ => .error conversionError

def toList : Element → Except Exn (List Element)
  | .list v => .ok v
  | _ => .error conversionError

def toDict : Element → Except Exn (List (Bytes × Element))
  | .dict m => .ok m
  | _ => .error conversionError

end Element

/-- `contains` or `find` on a `BeDict`. -/
def dictHas (dict : List (Bytes × Element)) (key : String) : Bool :=
  (dict.lookup (ascii key.toList)).isSome

/-- `dict.at(key)` -/
def dictAt (dict : List (Bytes × Element)) (key : String) : Except Exn Element :=
  match dict.lookup (ascii key.toList) with
  | some e => .ok e
  | none => .error (.outOfRange "map::at")

/-- An optional key; `dflt` when it is not there. -/
def dictGet {α : Type} (dict : List (Bytes × Element)) (key : String)
    (conv : Element → Except Exn α) (dflt : α) : Except Exn α :=
  if dictHas dict key then (dictAt dict key).bind conv else .ok dflt

def beDictToFileInfo (element : Element) : Except Exn FileInfo := do
  let dict ← element.toDict
  let md5 ← dictGet dict "md5sum" Element.toStr []
  let pathList ← (← dictAt dict "path").toList
  let path ← pathList.foldlM (fun a b => (join a ·) <$> b.toStr) []
  let length ← (← dictAt dict "length").toInt
  return ⟨length, path, md5⟩

/-- The hashes of the `pieces` string from position `i` on; `i` advances by 20 up to its size. -/
def sha1sFrom (pieces : Bytes) : Nat → Nat → Except Exn (List Sha1)
  | 0, _ => .ok []
  | n + 1, i => do
    let sha1 ← Sha1.fromBuffer pieces i
    return sha1 :: (← sha1sFrom pieces n (i + 20))

namespace Torrent

/-- `tmpfileExtension()` -/
def tmpfileExtension : Path := ascii ".zit_downloading".toList

/-- One tier of the announce list. -/
def announceTier (tier : Element) : Except Exn (List Bytes) := do
  (← tier.toList).mapM Element.toStr

/-- "Either 'length' or 'files' is needed depending on mode". -/
def mode (info : List (Bytes × Element)) : Except Exn (Int × List FileInfo) := do
  let mLength ← dictGet info "length" Element.toInt 0
  if dictHas info "files" ∧ mLength ≠ 0 then
    .error (.runtimeError "Invalid torrent: dual mode")
  else
    let files ← dictGet info "files" (fun e => do (← e.toList).mapM beDictToFileInfo) []
    if mLength = 0 ∧ files = [] then .error (.runtimeError "Invalid torrent: no mode")
    else return (mLength, files)

/-- The constructor up to the info hash; `content` is what `read_file` returns. -/
def ofContent (sha1 : Bytes → Sha1) (config : Config) (dataDir : Path) (content : Bytes) :
    Except Exn Torrent := do
  let listeningPort ← castU16 config.listeningPort "listening port out of range"
  let connectionPort ← castU16 config.connectionPort "connection port out of range"
  let root ← Bencode.decode content
  let root ← root.toDict
  if ¬dictHas root "announce" then
    .error (.runtimeError
      "Zit does not currently support torrents without the announce field")
  else
    let announce ← (← dictAt root "announce").toStr
    let info ← (← dictAt root "info").toDict
    let name ← (join dataDir ·) <$> (← dictAt info "name").toStr
    let tmpfile := name ++ tmpfileExtension
    let pieces ← (← dictAt info "pieces").toStr
    if pieces.length % 20 ≠ 0 then .error (.runtimeError "Unexpected pieces length")
    else
      let sha1s ← sha1sFrom pieces (pieces.length / 20) 0
      let pieceLength ← castU32 (← (← dictAt info "piece length").toInt)
      let (mLength, files) ← mode info
      let creationDate ← dictGet root "creation date" Element.toInt 0
      let comment ← dictGet root "comment" Element.toStr []
      let createdBy ← dictGet root "created by" Element.toStr []
      let encoding ← dictGet root "encoding" Element.toStr []
      let md5sum ← dictGet root "md5sum" Element.toStr []
      let isPrivate ← dictGet root "private" (fun e => (· == 1) <$> e.toInt) false
      let announceList ← dictGet root "announce-list"
        (fun e => do (← e.toList).mapM announceTier) []
      return {
        announce, announceList, creationDate, comment, createdBy, encoding, pieceLength,
        pieces := sha1s, isPrivate, name, mLength, md5sum, files, tmpfile,
        infoHash := sha1 (Element.dict info).encode, listeningPort, connectionPort,
        maxPendingRequests := config.maxPendingRequests }

variable (t : Torrent)

/-! ## Lengths and positions -/

def isSingleFile : Bool := t.mLength != 0

/-- The sum of the lengths of the files. -/
def filesLength : Int → List FileInfo → Except Exn Int
  | a, [] => .ok a
  | a, fi :: files => do
    let a ← int64 (a + fi.length)
    filesLength a files

/-- `length()` -/
def length : Except Exn Int := if t.isSingleFile then .ok t.mLength else filesLength 0 t.files

/-- `piece_length(id)`: "the last piece might be shorter". -/
def pieceLengthAt (id : UInt32) : Except Exn UInt32 :=
  if id.toNat + 1 = t.pieces.length then do
    let length ← t.length
    if t.pieceLength = 0 then .error (.undefined "division by zero")
    else
      let mod ← castU32 (length.tmod t.pieceLength.toNat)
      return if mod ≠ 0 then mod else t.pieceLength
  else .ok t.pieceLength

/-- The loop of `file_at_pos` over the files that are left; `cpos` is where they begin. -/
def fileAtPosFrom (pos : Int) : Int → List FileInfo → Except Exn (Option (FileInfo × Int × Int))
  | _, [] => .ok none
  | cpos, fi :: files => do
    let bound ← int64 (cpos + fi.length)
    if pos < bound then
      let off ← int64 (pos - cpos)
      let left ← int64 (bound - pos)
      return some (fi, off, left)
    else fileAtPosFrom pos bound files

/-- The file, the offset in it and the bytes left in it from a position of the torrent. -/
def fileAtPos (pos : Int) : Except Exn (FileInfo × Int × Int) :=
  if t.isSingleFile then do
    let length ← t.length
    let left ← int64 (length - pos)
    return (⟨length, t.tmpfile, t.md5sum⟩, pos, left)
  else do
    match ← fileAtPosFrom pos 0 t.files with
    | some found => return found
    | none =>
      let length ← t.length
      .error (.runtimeError s!"pos > torrent size {pos}>{length}")

end Torrent

end Zit
