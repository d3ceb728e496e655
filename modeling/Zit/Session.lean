import Zit.Lib.Run
import Zit.Peer

/-!
# From construction on

The check of existing files when a torrent is constructed (`verify_existing_file`), the constructor
as a whole, and the steps of a running torrent: `Step sha1 t w a w'` for what peers, timers and the
file writer make happen, one function call after the other.
-/

set_option autoImplicit false

namespace Zit

open Lib Lib.Path World

namespace Torrent

variable (sha1 : Bytes → Sha1) (t : Torrent)

/-! ## Verification -/

/-- A piece that matches: its bit, the active piece (none has this id yet) and its flag. -/
def foundPiece (id : UInt32) (data : Bytes) : App Unit := do
  modify fun w => { w with clientPieces := w.clientPieces.set id.toNat true }
  match ← t.activePiece id with
  | some ref => setWritten ref data true
  | none => pure ()

/-- Where `verify_piece_single_file` looks for a piece. -/
def verifyOffset (id : UInt32) : UInt32 := id * t.pieceLength

/-- `verify_piece_single_file`: whether the piece was found. -/
def verifyPieceSingleFile (fileLength : Nat) (index : Nat) (hash : Sha1) : App Bool := do
  let id ← lift (castU32 index)
  let offset := t.verifyOffset id
  onDisk (Disk.openFile t.tmpfile)
  let tail ← lift (castSizeU32 ((fileLength + (2 ^ 64 - offset.toNat)) % 2 ^ 64))
  let len := min t.pieceLength tail
  let data ← onDisk (Disk.read t.tmpfile offset.toNat len.toNat)
  if hash = sha1 data then
    t.foundPiece id data
    onDisk (Disk.place id 0 data.length t.tmpfile offset.toNat)
    return true
  else return false

/-- Bytes read while a piece is verified: where they are in the piece and on disk. -/
structure Chunk where
  off : Nat
  len : Nat
  path : Path
  pos : Nat

/-- Where `verify_piece_multi_file` looks for a piece. -/
def verifyPos (id : UInt32) : Int := (id * t.pieceLength).toNat

/-- The `while` of `verify_piece_multi_file`: the data read, nothing when a file is missing. Every
turn reads a byte or more, so the length of a piece bounds the turns. -/
def verifyLoop (globalLen : Int) :
    Nat → Int → Int → Bytes → List Chunk → DiskM (Option (Bytes × List Chunk))
  | 0, _, _, _, _ => throw .diverged
  | turns + 1, gpos, remaining, data, chunks =>
    if remaining > 0 ∧ gpos < globalLen then do
      let (fi, offset, left) ← lift (t.fileAtPos gpos)
      let file := join t.name fi.path
      if ¬(← Disk.existsPath file) then return none
      else
        let len := min left remaining
        let bytes ← Disk.read file offset.toNat len.toNat
        verifyLoop globalLen turns (gpos + len) (remaining - len) (data ++ bytes)
          (chunks ++ [⟨data.length, bytes.length, file, offset.toNat⟩])
    else return some (data, chunks)

/-- `verify_piece_multi_file`: whether the piece was found. -/
def verifyPieceMultiFile (globalLen : Int) (index : Nat) (hash : Sha1) : App Bool := do
  let id ← lift (castU32 index)
  match ← onDisk (t.verifyLoop globalLen (t.pieceLength.toNat + 1) (t.verifyPos id)
    t.pieceLength.toNat [] []) with
  | none => return false
  | some (data, chunks) =>
    if hash = sha1 data then
      t.foundPiece id data
      onDisk (forM chunks fun c => Disk.place id c.off c.len c.path c.pos)
      return true
    else return false

/-- The `for_each` over the pieces, which the threads may take in any `order`; how many were found.
An exception that leaves an element function of a parallel algorithm ends the program. -/
def verifyPieces (verify : Nat → Sha1 → App Bool) : List Nat → App Nat
  | [] => return 0
  | index :: order =>
    match t.pieces[index]? with
    | none => verifyPieces verify order
    | some hash => do
      let found ← tryCatch (verify index hash) fun _ => throw (.undefined "std::terminate")
      let n ← verifyPieces verify order
      return n + found.toNat

/-- `m_tmpfile` once `verify_existing_file` has looked at the file names. -/
def existingTmpfile : DiskM Path := do
  if ← Disk.existsPath t.name then
    if t.isSingleFile then
      if ← Disk.existsPath t.tmpfile then
        throw (.runtimeError "Temporary and full filename exists")
      else return t.name
    else return t.name
  else return t.tmpfile

/-- `verify_existing_file`: the torrent with its new `m_tmpfile`. -/
def verifyExistingFile (order : List Nat) : App Torrent := do
  -- "Assume that we have the whole file"
  let nameExists ← onDisk (Disk.existsPath t.name)
  let fullFile := t.isSingleFile && nameExists
  let tmpfile ← onDisk t.existingTmpfile
  let t := { t with tmpfile }
  if ← onDisk (Disk.existsPath t.tmpfile) then
    let numPieces ←
      if t.isSingleFile then do
        let fileLength ← onDisk (Disk.fileSize t.tmpfile)
        t.verifyPieces (t.verifyPieceSingleFile sha1 fileLength) order
      else do
        let globalLen ← lift t.length
        t.verifyPieces (t.verifyPieceMultiFile sha1 globalLen) order
    if fullFile ∧ numPieces ≠ t.pieces.length then
      throw (.runtimeError "Filename exists but does not match all pieces")
    else return t
  else return t

/-- The constructor, on a disk, with the info hashes of the torrents that exist already. -/
def construct (config : Config) (dataDir : Path) (content : Bytes) (existing : List Sha1)
    (order : List Nat) : App Torrent := do
  let t ← lift (ofContent sha1 config dataDir content)
  let t ← if config.verifyPiecesOnStartup then t.verifyExistingFile sha1 order else pure t
  if t.infoHash ∈ existing then throw (.runtimeError "Torrent already exists") else return t

end Torrent

/-- `t` has just been constructed, in the state `w`. -/
def Constructed (sha1 : Bytes → Sha1) (t : Torrent) (w : World) : Prop :=
  ∃ config dataDir content existing order cwd fs,
    order.Perm (List.range t.pieces.length) ∧
    Torrent.construct sha1 config dataDir content existing order (start cwd fs) = .ok t w

/-! ## Steps -/

/-- A call that a peer, a timer or the file writer makes; the peers' calls with the time. -/
inductive Action
  | connect (listening : Bool)
  | disconnect (i : Nat)
  | setRemotePieces (i : Nat) (bf : Bitfield)
  | have (i : Nat) (id : UInt32) (now : Int)
  | setChoking (i : Nat) (choking : Bool) (now : Int)
  | setInterested (i : Nat) (interested : Bool)
  | setAmInterested (i : Nat) (amInterested : Bool)
  | setAmChoking (i : Nat) (amChoking : Bool)
  | request (i : Nat) (index begin length : UInt32)
  | reportBitfield (i : Nat)
  | requestNextBlock (i : Nat) (now : Int) (maxPending : UInt16)
  /-- a PIECE message -/
  | setBlock (i : Nat) (pieceId offset : UInt32) (data : Bytes) (now : Int)
  /-- `Torrent::set_block` itself -/
  | storeBlock (pieceId offset : UInt32) (data : Bytes) (now : Int)
  | activePiece (id : UInt32) (create : Bool)
  | retryBlocks (id : UInt32) (now : Int)
  /-- the file writer; the outcomes of what it does with the disk -/
  | writeNextPiece (faults : List (Option Nat))

/-- `retry_blocks` of the active piece with this id, as `retry_pieces` calls it. -/
def retryBlocksOf (id : UInt32) (now : Int) : App Unit := do
  let w ← get
  match w.activePieces.lookup id with
  | none => pure ()
  | some ref =>
    let piece ← deref ref
    store ref (piece.retryBlocks now).2

def Action.run (sha1 : Bytes → Sha1) (t : Torrent) : Action → App Unit
  | .connect listening => modify fun w => { w with peers := w.peers ++ [{ listening }] }
  | .disconnect i => modify fun w => { w with peers := w.peers.eraseIdx i }
  | .setRemotePieces i bf => Peer.setRemotePieces i bf
  | .have i id now => Peer.haveId t i id now
  | .setChoking i choking now => Peer.setChoking t i choking now
  | .setInterested i interested => Peer.setInterested i interested
  | .setAmInterested i amInterested => Peer.setAmInterestedOf t i amInterested
  | .setAmChoking i amChoking => Peer.modifyPeer i (·.setAmChoking amChoking)
  | .request i index begin length => Peer.request t i index begin length
  | .reportBitfield i => Peer.reportBitfield i
  | .requestNextBlock i now maxPending => discard (Peer.requestNextBlock t i now maxPending)
  | .setBlock i pieceId offset data now => Peer.setBlock t i pieceId offset data now
  | .storeBlock pieceId offset data now => discard (Torrent.setBlock pieceId offset data now)
  | .activePiece id create => discard (t.activePiece id create)
  | .retryBlocks id now => retryBlocksOf id now
  | .writeNextPiece faults => do
    modify fun w => { w with disk := { w.disk with faults } }
    FileWriter.writeNextPiece sha1 t

/-- The call returns or throws an exception. -/
def Step (sha1 : Bytes → Sha1) (t : Torrent) (w : World) (a : Action) (w' : World) : Prop :=
  wp (a.run sha1 t) w (fun _ w1 => w' = w1) fun e w1 => e.isStd = true ∧ w' = w1

/-- The state after a call, when it does not end the program. -/
def Action.next (sha1 : Bytes → Sha1) (t : Torrent) (a : Action) (w : World) : Option World :=
  match a.run sha1 t w with
  | .ok _ w' => some w'
  | .error e w' => if e.isStd then some w' else none

theorem next_iff {sha1 : Bytes → Sha1} {t : Torrent} {a : Action} {w w' : World} :
    a.next sha1 t w = some w' ↔ Step sha1 t w a w' := by
  unfold Action.next Step wp
  cases a.run sha1 t w with
  | ok u w1 => exact Option.some_inj.trans eq_comm
  | error e w1 =>
    rw [Option.ite_none_right_eq_some, Option.some_inj]
    exact and_congr_right fun _ => eq_comm

/-- The state after the calls, when each is allowed and none of them ends the program. -/
def Action.runAll (allowed : World → Action → Bool) (sha1 : Bytes → Sha1) (t : Torrent) :
    List Action → World → Option World
  | [], w => some w
  | a :: as, w =>
    if allowed w a then
      match a.run sha1 t w with
      | .ok _ w' => runAll allowed sha1 t as w'
      | .error e w' => if e.isStd then runAll allowed sha1 t as w' else none
    else none

theorem run_of_runAll {allowed : World → Action → Bool} {sha1 : Bytes → Sha1} {t : Torrent}
    {as : List Action} {w w' : World} (h : Action.runAll allowed sha1 t as w = some w') :
    Run (fun w a w' => allowed w a = true ∧ Step sha1 t w a w') w as w' := by
  induction as generalizing w with
  | nil =>
    rw [← Option.some.inj h]
    exact .nil w
  | cons a as ih =>
    unfold Action.runAll at h
    simp only [Option.ite_none_right_eq_some] at h
    obtain ⟨ha, h⟩ := h
    cases hr : a.run sha1 t w with
    | ok u w1 =>
      rw [hr] at h
      refine .cons ⟨ha, ?_⟩ (ih h)
      rw [Step, wp, hr]
    | error e w1 =>
      rw [hr] at h
      simp only [Option.ite_none_right_eq_some] at h
      refine .cons ⟨ha, ?_⟩ (ih h.2)
      rw [Step, wp, hr]
      exact ⟨h.1, rfl⟩

/-- Constructs a torrent and checks the state; for evaluation. -/
def checkNew (sha1 : Bytes → Sha1) (config : Config) (dataDir : Path) (content : Bytes)
    (order : List Nat) (fs : FileSystem) (check : Torrent → World → Bool) : Bool :=
  match Torrent.construct sha1 config dataDir content [] order (start [] fs) with
  | .ok t w => decide (order.Perm (List.range t.pieces.length)) && check t w
  | .error _ _ => false

theorem checkNew_true {sha1 : Bytes → Sha1} {config : Config} {dataDir : Path} {content : Bytes}
    {order : List Nat} {fs : FileSystem} {check : Torrent → World → Bool}
    (h : checkNew sha1 config dataDir content order fs check = true) :
    ∃ t w, Constructed sha1 t w ∧ check t w = true := by
  unfold checkNew at h
  cases hc : Torrent.construct sha1 config dataDir content [] order (start [] fs) with
  | ok t w =>
    simp only [hc, Bool.and_eq_true, decide_eq_true_eq] at h
    exact ⟨t, w, ⟨_, _, _, _, _, _, _, h.1, hc⟩, h.2⟩
  | error e w =>
    rw [hc] at h
    cases h

end Zit
