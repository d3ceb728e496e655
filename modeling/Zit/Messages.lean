import Zit.Bitfield
import Zit.Lib.Search

/-!
# Incoming messages

`messages.cpp` and the receiving half of `PeerConnection` in `peer.cpp`. `Message.parse` returns the
calls it makes on the peer, in order, with the bytes it consumes; every exception it can throw
leaves before the first of these calls. What the calls do is not part of this module.
-/

set_option autoImplicit false

namespace Zit

open Lib

inductive PeerWireId
  | choke | unchoke | interested | notInterested | have | bitfield | request | piece | cancel | port
  | unknown
  deriving DecidableEq, Repr

/-- `static_cast<pwid_t>` -/
def PeerWireId.toByte : PeerWireId → UInt8
  | .choke => 0
  | .unchoke => 1
  | .interested => 2
  | .notInterested => 3
  | .have => 4
  | .bitfield => 5
  | .request => 6
  | .piece => 7
  | .cancel => 8
  | .port => 9
  | .unknown => 255

/-- `to_peer_wire_id` -/
def toPeerWireId (t : UInt8) : PeerWireId :=
  match t with
  | 0 => .choke
  | 1 => .unchoke
  | 2 => .interested
  | 3 => .notInterested
  | 4 => .have
  | 5 => .bitfield
  | 6 => .request
  | 7 => .piece
  | 8 => .cancel
  | 9 => .port
  | _ => .unknown

/-- `MAX_INCOMING_DATA_SIZE` -/
def maxIncomingDataSize : UInt32 := 2 * 1024 * 1024

/-- `MIN_BT_MSG_LENGTH` -/
def minBtMsgLength : Nat := 68

/-- `BT_START` -/
def btStart : Bytes := 0x13 :: ascii "BitTorrent protocol".toList

/-! ## The handshake -/

structure HandshakeMsg where
  reserved : Bytes
  infoHash : Sha1
  peerId : Bytes
  consumed : Nat
  bitfield : Bitfield := .empty
  deriving DecidableEq, Repr

/-- `HandshakeMsg::parse` of a message of at least 68 bytes that begins with the protocol string. -/
def HandshakeMsg.parseStart (msg : Bytes) : Except Exn (Option HandshakeMsg) := do
  let reserved := (msg.drop 20).take 8
  let infoHash ← Sha1.fromBuffer msg 28
  let peerId := (msg.drop 48).take 20
  -- "Handle optional bitfield"
  if msg.length > minBtMsgLength then
    if msg.length < 73 then return none
    else if msg[72]?.map toPeerWireId ≠ some .bitfield then return none
    else
      let len ← fromBigEndian msg 68
      let last : UInt32 := 73 + len - 1
      if last.toNat > msg.length then return some ⟨reserved, infoHash, peerId, 0, .empty⟩
      else if last.toNat < 73 then
        .error (.lengthError "cannot create std::vector larger than max_size()")
      else
        let bf : Bitfield := ⟨(msg.take last.toNat).drop 73⟩
        return some ⟨reserved, infoHash, peerId, last.toNat, bf⟩
  else return some ⟨reserved, infoHash, peerId, msg.length, .empty⟩

/-- `HandshakeMsg::parse`: a protocol string further inside is parsed as a message of its own. -/
def HandshakeMsg.parse (msg : Bytes) : Except Exn (Option HandshakeMsg) :=
  if msg.length < minBtMsgLength then .ok none
  else
    match search btStart msg with
    | none => .ok none
    | some 0 => parseStart msg
    | some k => if (msg.drop k).length < minBtMsgLength then .ok none else parseStart (msg.drop k)

/-! ## Length-prefixed messages -/

/-- What a message makes the connection call. -/
inductive PeerCall
  | verifyInfoHash (infoHash : Sha1)
  | setRemotePieces (bf : Bitfield)
  | handshake
  | reportBitfield
  | setAmInterested (amInterested : Bool)
  | setChoking (choking : Bool)
  | setInterested (interested : Bool)
  | have (id : UInt32)
  | setBlock (index offset : UInt32) (data : Bytes)
  | request (index begin length : UInt32)
  /-- `PeerConnection::stop` -/
  | stop
  | disconnected
  deriving DecidableEq, Repr

/-- One call of `Message::parse` that returned. -/
structure Parsed where
  calls : List PeerCall
  consumed : Nat
  deriving DecidableEq, Repr

/-- The torrent's info hash, and whether the peer is one that connected to us. -/
structure PeerContext where
  infoHash : Sha1
  listening : Bool

namespace Message

/-- The branch of a handshake. -/
def parseHandshake (ctx : PeerContext) (handshake : HandshakeMsg) : Parsed :=
  if handshake.consumed = 0 then ⟨[], 0⟩
  else if ctx.infoHash ≠ handshake.infoHash then
    ⟨[.verifyInfoHash handshake.infoHash], handshake.consumed⟩
  else
    let bf := handshake.bitfield
    ⟨[.verifyInfoHash handshake.infoHash] ++
      (if bf.size ≠ 0 then [.setRemotePieces bf] else []) ++
      (if ctx.listening then [.handshake] else []) ++ [.reportBitfield, .setAmInterested true],
      handshake.consumed⟩

/-- The `switch` over the message id; `len` is the length prefix. -/
def parseId (msg : Bytes) (len : UInt32) (id : UInt8) : Except Exn Parsed :=
  match toPeerWireId id with
  | .choke => .ok ⟨[.setChoking true], (len + 4).toNat⟩
  | .unchoke => .ok ⟨[.setChoking false], (len + 4).toNat⟩
  | .piece => do
    let index ← fromBigEndian msg 5
    let offset ← fromBigEndian msg 9
    if len < 9 then .error (.undefined "span end before its start")
    else return ⟨[.setBlock index offset ((msg.drop 13).take (len.toNat - 9))], (len + 4).toNat⟩
  | .interested => .ok ⟨[.setInterested true], (len + 4).toNat⟩
  | .notInterested => .ok ⟨[.setInterested false], (len + 4).toNat⟩
  | .have => do
    let haveId ← fromBigEndian msg 5
    return ⟨[.have haveId], 9⟩
  | .bitfield => .ok ⟨[.setRemotePieces ⟨(msg.drop 5).take (len.toNat - 1)⟩], (len + 4).toNat⟩
  | .request => do
    let index ← fromBigEndian msg 5
    let begin ← fromBigEndian msg 9
    let length ← fromBigEndian msg 13
    return ⟨[.request index begin length], (len + 4).toNat⟩
  -- "Currently unsupported messages"
  | .cancel | .port | .unknown => .ok ⟨[], msg.length⟩

/-- `Message::parse` of a message that is no handshake. -/
def parsePrefixed (msg : Bytes) : Except Exn Parsed :=
  if msg.length ≥ 4 then do
    let len ← fromBigEndian msg 0
    if len > maxIncomingDataSize then return ⟨[.stop, .disconnected], 0⟩
    else if (len + 4).toNat > msg.length then return ⟨[], 0⟩
    else if len = 0 then return ⟨[], 4⟩
    else
      match msg[4]? with
      | some id => parseId msg len id
      | none => return ⟨[], msg.length⟩
  else .ok ⟨[], 0⟩

/-- `Message::parse`; `peer.update_activity()` comes before every other call. -/
def parse (ctx : PeerContext) (msg : Bytes) : Except Exn Parsed := do
  match ← HandshakeMsg.parse msg with
  | some handshake => return parseHandshake ctx handshake
  | none => parsePrefixed msg

end Message

/-! ## Receiving -/

/-- The receiving state of a `PeerConnection`: `response_` and `m_stopped`. -/
structure PeerConnection where
  response : Bytes
  stopped : Bool
  deriving DecidableEq, Repr

/-- What a call of `handle_response` did: the messages parsed, the connection after it and the
exception that left it, if any. -/
structure Received where
  parsed : List Parsed
  conn : PeerConnection
  thrown : Option Exn
  deriving DecidableEq, Repr

namespace PeerConnection

/-- The `while` of `handle_response` over a buffer; every turn that goes on consumes something, so
the size of the buffer bounds the turns. -/
def drain (ctx : PeerContext) : Nat → PeerConnection → Received
  | 0, conn => ⟨[], conn, none⟩
  | turns + 1, conn =>
    if conn.response.isEmpty then ⟨[], conn, none⟩
    else
      match Message.parse ctx conn.response with
      | .error e => ⟨[], conn, some e⟩
      | .ok p =>
        let conn : PeerConnection :=
          ⟨conn.response.drop p.consumed, conn.stopped || p.calls.contains .stop⟩
        if p.consumed = 0 then ⟨[p], conn, none⟩
        else
          let rest := drain ctx turns conn
          ⟨p :: rest.parsed, rest.conn, rest.thrown⟩

/-- `handle_response` after a read of `data`. -/
def handleResponse (ctx : PeerContext) (conn : PeerConnection) (data : Bytes) : Received :=
  if conn.stopped then ⟨[], conn, none⟩
  else
    let response := conn.response ++ data
    drain ctx response.length { conn with response := response }

/-- The reads of a connection one after the other, until one throws. -/
def receive (ctx : PeerContext) : PeerConnection → List Bytes → Received
  | conn, [] => ⟨[], conn, none⟩
  | conn, data :: reads =>
    let r := handleResponse ctx conn data
    if r.thrown.isSome then r
    else
      let rest := receive ctx r.conn reads
      ⟨r.parsed ++ rest.parsed, rest.conn, rest.thrown⟩

/-- A connection nothing was read from. -/
def init : PeerConnection := ⟨[], false⟩

end PeerConnection

/-! ## Outgoing messages -/

/-- A message that is only an id, as `set_am_choking` and `set_am_interested` write it. -/
def idMsg (id : PeerWireId) : Bytes := [0, 0, 0, 1, id.toByte]

/-- The PIECE message `Peer::request` writes. -/
def pieceMsg (index begin : UInt32) (data : Bytes) : Except Exn Bytes := do
  let len ← castSizeU32 (9 + data.length)
  return toBigEndian len ++ [PeerWireId.piece.toByte] ++ toBigEndian index ++ toBigEndian begin ++
    data

/-- One REQUEST of the batch `request_next_block` writes. -/
def requestMsg (index begin length : UInt32) : Bytes :=
  toBigEndian 13 ++ [PeerWireId.request.toByte] ++ toBigEndian index ++ toBigEndian begin ++
    toBigEndian length

/-- The BITFIELD message of `report_bitfield`. -/
def bitfieldMsg (bf : Bitfield) : Except Exn Bytes := do
  let len ← castSizeU32 (1 + bf.sizeBytes)
  return toBigEndian len ++ [PeerWireId.bitfield.toByte] ++ bf.bytes

end Zit
