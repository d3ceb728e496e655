import Zit.World

/-!
# Peers

The functions of `peer.cpp` that act on the torrent: the choice of the next piece and block, and
what a message of the remote peer makes happen. A peer is named by its index in `World.peers`.
-/

set_option autoImplicit false

namespace Zit

open Lib World

namespace Peer

def getPeer (i : Nat) : App Peer := do
  let w ← get
  match w.peers[i]? with
  | some p => return p
  | none => throw (.undefined "no such peer")

def modifyPeer (i : Nat) (f : Peer → Peer) : App Unit :=
  modify fun w => { w with peers := w.peers.modify i f }

variable (t : Torrent)

/-! ## Requests -/

/-- The `while (true)` of `next_piece` from the index `start` on; every turn moves on, so the size
of the bitfield bounds the turns. -/
def nextPieceFrom (relevantPieces : Bitfield) (nonRequested : Bool) : Nat → Nat → App (Option Nat)
  | 0, _ => throw .diverged
  | turns + 1, start =>
    match relevantPieces.next true start with
    | none => return none
    | some nextId => do
      let id ← lift (castSizeU32 nextId)
      match ← t.activePiece id with
      | none =>
        if nonRequested then nextPieceFrom relevantPieces nonRequested turns (nextId + 1)
        else return none
      | some ref =>
        let piece ← deref ref
        let (offset, _) ← lift (piece.nextOffset false 0)
        if !nonRequested || offset.isSome then return some ref
        else nextPieceFrom relevantPieces nonRequested turns (nextId + 1)

/-- `next_piece(non_requested)` -/
def nextPiece (i : Nat) (nonRequested : Bool) : App (Option Nat) := do
  let p ← getPeer i
  let w ← get
  let relevantPieces := Torrent.relevantPieces w p.remotePieces
  nextPieceFrom t relevantPieces nonRequested (relevantPieces.size + 1) 0

/-- The size of a request; a "last block" is reduced. -/
def requestLength (piece : Piece) (offset : UInt32) : UInt32 :=
  if offset + Piece.blockSize > piece.pieceSize then piece.pieceSize % Piece.blockSize
  else Piece.blockSize

/-- The `for` of `request_next_block`: the requests collected and their number. -/
def requestLoop (i : Nat) (now : Int) : Nat → Bytes → Nat → App (Bytes × Nat)
  | 0, req, requests => return (req, requests)
  | n + 1, req, requests => do
    match ← nextPiece t i true with
    | none => return (req, requests)
    | some ref =>
      let piece ← deref ref
      let (offset, piece) ← lift (piece.nextOffset true now)
      store ref piece
      match offset with
      | none => return (req, requests)
      | some offset =>
        modifyPeer i fun p => { p with pendingRequests := p.pendingRequests + 1 }
        requestLoop i now n (req ++ requestMsg piece.id offset (requestLength piece offset))
          (requests + 1)

/-- "Maximum number of pending requests to have. If 0, use config value". -/
def requestLimit (maxPending : UInt16) : Except Exn UInt16 :=
  if maxPending = 0 then castU16 t.maxPendingRequests else .ok maxPending

/-- "Important to write only once". -/
def writeRequests (i : Nat) (req : Bytes) : App Unit :=
  modifyPeer i fun p => if req = [] then p else p.write req

/-- `request_next_block(max_pending)` -/
def requestNextBlock (i : Nat) (now : Int) (maxPending : UInt16 := 0) : App Nat := do
  let p ← getPeer i
  if !p.amInterested then return 0
  else if p.choking then return 0
  else
    let maxPending ← lift (requestLimit t maxPending)
    if maxPending = 0 then throw (.runtimeError "Max pending requests cannot be zero")
    else
      let needed : Int := maxPending.toNat - p.pendingRequests
      if needed ≤ 0 then return 0
      else
        let (req, requests) ← requestLoop t i now needed.toNat [] 0
        writeRequests i req
        return requests

/-! ## Messages of the remote peer -/

def setChoking (i : Nat) (choking : Bool) (now : Int) : App Unit := do
  let p ← getPeer i
  if p.choking && !choking then
    modifyPeer i fun p => { p with choking }
    discard (requestNextBlock t i now)
  else if !p.choking && choking then
    modifyPeer i fun p => { p with choking, pendingRequests := 0 }

def setInterested (i : Nat) (interested : Bool) : App Unit :=
  modifyPeer i fun p =>
    let p := if !p.interested && interested then p.setAmChoking false else p
    { p with interested }

def setRemotePieces (i : Nat) (bf : Bitfield) : App Unit := do
  modifyPeer i fun p => { p with remotePieces := bf }
  Torrent.initClientPieces bf.size

/-- What `have` remembers of the remote peer. -/
def addRemotePiece (i : Nat) (id : UInt32) : App Unit := do
  let p ← getPeer i
  if p.remotePieces.count = 0 then
    -- "we assume that the remote has all pieces"
    let numberOfPieces := t.pieces.length
    Torrent.initClientPieces numberOfPieces
    let filled ← lift ((Bitfield.ofCount numberOfPieces).fill numberOfPieces true)
    modifyPeer i fun p => { p with remotePieces := filled }
  else
    modifyPeer i fun p => { p with remotePieces := p.remotePieces.set id.toNat true }

/-- `have(id)` -/
def haveId (i : Nat) (id : UInt32) (now : Int) : App Unit := do
  addRemotePiece t i id
  discard (requestNextBlock t i now)

def setBlock (i : Nat) (pieceId offset : UInt32) (data : Bytes) (now : Int) : App Unit := do
  modifyPeer i fun p =>
    { p with pendingRequests := if p.pendingRequests > 0 then p.pendingRequests - 1
      else p.pendingRequests }
  discard (Torrent.setBlock pieceId offset data now)
  discard (requestNextBlock t i now)

def request (i : Nat) (index begin length : UInt32) : App Unit := do
  let p ← getPeer i
  if p.amChoking then return
  else if !p.interested then return
  else
    match ← t.activePiece index with
    | none => return
    | some ref =>
      let piece ← deref ref
      let data ← onDisk (piece.getBlock begin t length)
      if data ≠ [] then
        let msg ← lift (pieceMsg index begin data)
        modifyPeer i (·.write msg)

/-! ## Messages to the remote peer -/

def reportBitfield (i : Nat) : App Unit := do
  let w ← get
  if (w.clientPieces.next true).isSome then
    let msg ← lift (bitfieldMsg w.clientPieces)
    modifyPeer i (·.write msg)

def setAmInterestedOf (i : Nat) (amInterested : Bool) : App Unit := do
  let w ← get
  modifyPeer i (·.setAmInterested (t.done w) amInterested)

end Peer

end Zit
