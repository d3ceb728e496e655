import Mathlib.Data.List.AList
import Zit.Lib.Decimal
import Zit.Lib.Effect
import Zit.Types

/-!
# Trackers

`tracker_request` of `torrent.cpp` for all torrents of a process: the tiers of announce URLs and the
UDP requests, whose objects are in one map that all torrents share. A torrent is a number; what the
functions ask of it at the time of a call is its `TorrentView`. The replies of the network, the
random values and the time are given with the call. `asked`, `sent` and `answers` only keep a record.
-/

set_option autoImplicit false

namespace Zit

open Lib Lib.Decimal

/-! ## URLs -/

structure Url where
  scheme : Bytes
  host : Bytes
  path : Bytes
  port : Option UInt16
  deriving DecidableEq, Repr

namespace Url

/-- The groups `([^/\n]*?)(?::(\d+))?`: digits behind the last colon are the port. -/
def splitPort (authority : Bytes) : Except Exn (Bytes × Option UInt16) :=
  let ds := (authority.reverse.takeWhile isDigit).reverse
  let rest := authority.take (authority.length - ds.length)
  if ds ≠ [] ∧ rest.getLast? = some 58 then
    if value ds ≥ 2 ^ 31 then .error (.outOfRange "stoi")
    else if value ds ≥ 2 ^ 16 then .error (.outOfRange "out of range")
    else .ok (rest.dropLast, some (UInt16.ofNat (value ds)))
  else .ok (authority, none)

/-- What follows the scheme, `(/.*)?$` included. -/
def parseRest (scheme rest : Bytes) : Except Exn Url := do
  let authority := rest.takeWhile (· != 47)
  let path := rest.dropWhile (· != 47)
  if 10 ∈ authority ∨ 10 ∈ path ∨ 13 ∈ path then .error (.runtimeError "Invalid URL")
  else
    let (host, port) ← splitPort authority
    return { scheme, host, path := if path = [] then [47] else path, port }

/-- The constructor for a string that is not binary. -/
def parse (url : Bytes) : Except Exn Url :=
  match [ascii "udp".toList, ascii "https".toList, ascii "http".toList].find?
    fun scheme => (scheme ++ ascii "://".toList).isPrefixOf url with
  | some scheme => parseRest scheme (url.drop (scheme.length + 3))
  | none => .error (.runtimeError "Invalid URL")

end Url

/-! ## Integers on the wire -/

/-- `to_big_endian` of a type of `n` bytes. -/
def bigEndian (n : Nat) (val : Int) : Bytes :=
  (List.range n).map fun i => UInt8.ofNat (val % 2 ^ (8 * n) / 2 ^ (8 * (n - 1 - i))).toNat

/-- `from_big_endian` of an unsigned type of `n` bytes. -/
def ofBigEndian (n : Nat) (buf : Bytes) (offset : Nat) : Except Exn Nat :=
  if offset + n > buf.length then
    .error (.outOfRange s!"Target range outside of buffer: ({offset},{buf.length})")
  else .ok (((buf.drop offset).take n).foldl (fun a b => a * 256 + b.toNat) 0)

@[simp] theorem bigEndian_length (n : Nat) (val : Int) : (bigEndian n val).length = n := by
  simp [bigEndian]

/-! ## Torrents and requests -/

/-- A torrent at the time of a call; `info_hash` and `peer_id` have 20 bytes. -/
structure TorrentView where
  infoHash : Sha1
  peerId : Bytes
  peerId_length : peerId.length = 20
  downloaded : Int
  left : Int
  listeningPort : UInt16
  done : Bool
  initiatePeerConnections : Bool
  stopped : Bool
  announce : Bytes
  announceList : List (List Bytes)

/-- `local_announce_list` -/
def TorrentView.localAnnounceList (t : TorrentView) : List (List Bytes) :=
  if t.announceList ≠ [] then t.announceList else [[t.announce]]

inductive TrackerEvent
  | started
  | stopped
  | completed
  | unspecified
  deriving DecidableEq, Repr

def TrackerEvent.toInt : TrackerEvent → Int
  | .started => 0
  | .stopped => 1
  | .completed => 2
  | .unspecified => 3

inductive UdpAction
  | connect
  | announce
  | scrape
  | err
  deriving DecidableEq, Repr

def UdpAction.toInt : UdpAction → Int
  | .connect => 0
  | .announce => 1
  | .scrape => 2
  | .err => 3

/-- `toUdpAction` -/
def toUdpAction : Nat → Except Exn UdpAction
  | 0 => .ok .connect
  | 1 => .ok .announce
  | 2 => .ok .scrape
  | 3 => .ok .err
  | _ => .error (.runtimeError "Unknown udp tracker action")

/-- `UDPTrackerRequest`, with the torrent of its `m_torrent`. -/
structure UDPTrackerRequest where
  torrent : Nat
  connectionId : Option Nat := none
  lastConnectionId : Int := -2 ^ 63

/-- A `Peer` that a tracker names, bound to a torrent. -/
structure TrackerPeer where
  url : Url
  torrent : Nat
  deriving DecidableEq

/-- A packet sent in a `tracker_request` of `caller`, whose state was `view`. -/
structure UdpPacket where
  caller : Nat
  view : TorrentView
  url : Url
  announce : Bool
  packet : Bytes

/-- What a `tracker_request` of `caller` returned; `via` is the UDP tracker it came from. -/
structure Answer where
  caller : Nat
  via : Option Url
  peers : List TrackerPeer

/-- What `udpRequest` does with a packet. -/
structure Reply where
  sent : Bool
  result : Except Exn Bytes

/-- What `http_tracker_request` makes of the reply. -/
inductive HttpReply
  | peers (success : Bool) (urls : List Url)
  | httpException
  | failed (e : Exn)

inductive TrackerExn
  | http
  | std (e : Exn)

structure Trackers where
  requests : AList (fun _ : Url => UDPTrackerRequest) := ∅
  asked : List (Url × Nat) := []
  sent : List UdpPacket := []
  answers : List Answer := []
  replies : List Reply := []
  httpReplies : List HttpReply := []
  randoms : List Nat := []
  now : Int := 0

/-- A call of `tracker_request`: the torrents at that time, the tiers as they have been shuffled and
what the network and the clock do. -/
structure Call where
  caller : Nat
  views : Nat → TorrentView
  event : TrackerEvent
  tiers : List (List Bytes)
  /-- `resolve()`, when the settings ask for it -/
  resolve : Url → Url
  /-- the host has one of the own addresses -/
  isLocalHost : Bytes → Bool
  replies : List Reply
  httpReplies : List HttpReply
  randoms : List Nat
  now : Int

abbrev TrackerM := EStateM TrackerExn Trackers

namespace Trackers

def liftStd {α : Type} (x : Except Exn α) : TrackerM α := lift (x.mapError .std)

/-- `random_value` -/
def random : TrackerM Nat := do
  let w ← get
  set { w with randoms := w.randoms.tail }
  return w.randoms.head?.getD 0

variable (c : Call)

/-- `Net::udpRequest` -/
def udpRequest (url : Url) (announce : Bool) (packet : Bytes) : TrackerM Bytes := do
  if url.scheme ≠ ascii "udp".toList then
    throw (.std (.runtimeError "udpGet called on non-udp url"))
  else if url.port = none then
    throw (.std (.runtimeError "udp url without port not supported"))
  else
    let w ← get
    let reply : Reply := w.replies.head?.getD ⟨true, .ok []⟩
    let sent : UdpPacket := ⟨c.caller, c.views c.caller, url, announce, packet⟩
    set { w with
      replies := w.replies.tail
      sent := if reply.sent then w.sent ++ [sent] else w.sent }
    liftStd reply.result

/-- `retry_call` of a request, twice: a reply that is not empty. -/
def retryRequest (url : Url) (announce : Bool) (packet : Bytes) : TrackerM (Option Bytes) := do
  let response ← udpRequest c url announce packet
  if response ≠ [] then return some response
  else
    let response ← udpRequest c url announce packet
    return if response ≠ [] then some response else none

/-! ## `UDPTrackerRequest` -/

def connectRequest (transactionId : Nat) : Bytes :=
  bigEndian 8 0x41727101980 ++ bigEndian 4 UdpAction.connect.toInt ++ bigEndian 4 transactionId

/-- The request for `url` in the map. -/
def store (url : Url) (r : UDPTrackerRequest) : TrackerM Unit :=
  modify fun w => { w with requests := w.requests.insert url r }

/-- `connect()`: whether the request for `url` has a connection, and the changed request. -/
def connect (url : Url) (r : UDPTrackerRequest) : TrackerM (Bool × UDPTrackerRequest) := do
  let w ← get
  let r := if w.now - r.lastConnectionId > 60 * 10 ^ 9 then { r with connectionId := none } else r
  store url r
  if r.connectionId.isSome then return (true, r)
  else
    let transactionId ← random
    match ← retryRequest c url false (connectRequest transactionId) with
    | none => return (false, r)
    | some response =>
      if response.length < 16 then return (false, r)
      else
        let action ← liftStd ((ofBigEndian 4 response 0).bind toUdpAction)
        let replyId ← liftStd (ofBigEndian 4 response 4)
        if replyId ≠ transactionId % 2 ^ 32 then return (false, r)
        else if action ≠ .connect then return (false, r)
        else
          let connectionId ← liftStd (ofBigEndian 8 response 8)
          let r := { r with connectionId := some connectionId, lastConnectionId := w.now }
          store url r
          return (true, r)

/-- The 100 bytes of an announce request. -/
def announceRequest (connectionId transactionId key : Nat) (t : TorrentView)
    (event : TrackerEvent) : Bytes :=
  bigEndian 8 connectionId ++ bigEndian 4 UdpAction.announce.toInt ++ bigEndian 4 transactionId ++
    t.infoHash.bytes ++ t.peerId ++ bigEndian 8 t.downloaded ++ bigEndian 8 t.left ++
    bigEndian 8 0 ++ bigEndian 4 event.toInt ++ bigEndian 4 0 ++ bigEndian 4 key ++
    bigEndian 4 50 ++ bigEndian 2 t.listeningPort.toNat ++ bigEndian 2 0

/-- The peer at index `i` of the list in a response. -/
def peerUrl (response : Bytes) (i : Nat) : Except Exn Url := do
  let ip ← fromBigEndian response (20 + i * 6)
  let port ← ofBigEndian 2 response (20 + i * 6 + 4)
  let byte (shift : UInt32) := digits ((ip >>> shift) &&& 0xFF).toNat
  let ipStr := byte 24 ++ 46 :: byte 16 ++ 46 :: byte 8 ++ 46 :: byte 0
  Url.parse (ascii "http://".toList ++ ipStr ++ 58 :: digits port)

/-- The peers of a response, bound to `torrent`. -/
def readPeers (torrent : Nat) (t : TorrentView) (response : Bytes) :
    List Nat → Except Exn (List TrackerPeer)
  | [] => .ok []
  | i :: is => do
    let purl ← peerUrl response i
    let purl := c.resolve purl
    let peers ← readPeers torrent t response is
    return if purl.host = ascii "127.0.0.1".toList ∧ purl.port = some t.listeningPort then peers
      else ⟨purl, torrent⟩ :: peers

/-- What `announce` makes of a response. -/
def readResponse (torrent : Nat) (t : TorrentView) (transactionId : Nat) (response : Bytes) :
    Except Exn (Bool × List TrackerPeer) := do
  let action ← (ofBigEndian 4 response 0).bind toUdpAction
  let replyId ← ofBigEndian 4 response 4
  if replyId ≠ transactionId % 2 ^ 32 then return (false, [])
  else if action ≠ .announce then return (false, [])
  else if c.event = .unspecified ∨ c.event = .started then
    if !t.initiatePeerConnections && t.done then return (true, [])
    else
      let _ ← ofBigEndian 4 response 8
      let _ ← ofBigEndian 4 response 12
      let _ ← ofBigEndian 4 response 16
      let peers ← readPeers c torrent t response (List.range ((response.length - 20) / 6))
      return (true, peers)
  else return (true, [])

/-- `announce(event)` of the request for `url`. -/
def announce (url : Url) (r : UDPTrackerRequest) : TrackerM (Bool × List TrackerPeer) := do
  let (connected, r) ← connect c url r
  if !connected then return (false, [])
  else
    match r.connectionId with
    | none => throw (.std (.runtimeError
        "UDPTrackerRequest::announce called without a connection"))
    | some connectionId =>
      let transactionId ← random
      let key ← random
      let t := c.views r.torrent
      match ← retryRequest c url true
        (announceRequest connectionId transactionId key t c.event) with
      | none => return (true, [])
      | some response => liftStd (readResponse c r.torrent t transactionId response)

/-! ## `Torrent::tracker_request` -/

/-- `udp_tracker_request`: a URL keeps the request that was made for it first. -/
def udpTrackerRequest (url : Url) : TrackerM (Bool × List TrackerPeer) := do
  modify fun w => { w with asked := w.asked ++ [(url, c.caller)] }
  let w ← get
  let r := (w.requests.lookup url).getD { torrent := c.caller }
  store url r
  announce c url r

/-- `http_tracker_request` -/
def httpTrackerRequest : TrackerM (Bool × List TrackerPeer) := do
  let w ← get
  set { w with httpReplies := w.httpReplies.tail }
  match w.httpReplies.head? with
  | some (.peers success urls) => return (success, urls.map (⟨·, c.caller⟩))
  | some .httpException | none => throw .http
  | some (.failed e) => throw (.std e)

/-- `do_tracker_request`, with the UDP tracker the result is from. -/
def doTrackerRequest (announceUrl : Bytes) : TrackerM (Bool × List TrackerPeer × Option Url) := do
  let url ← liftStd (Url.parse announceUrl)
  if (ascii "http".toList).isPrefixOf url.scheme then
    let (success, peers) ← httpTrackerRequest c
    return (success, peers, none)
  else if url.scheme = ascii "udp".toList then
    let (success, peers) ← udpTrackerRequest c url
    return (success, peers, some url)
  else throw (.std (.runtimeError "Unhandled tracker url scheme"))

/-- The `try` block. -/
def attempt (announceUrl : Bytes) :
    TrackerM (Except TrackerExn (Bool × List TrackerPeer × Option Url)) :=
  tryCatch (Except.ok <$> doTrackerRequest c announceUrl) fun e => pure (.error e)

/-- `success`, `peers_from_tracker` and `thrown`. -/
structure Attempt where
  success : Bool := false
  peers : List TrackerPeer := []
  via : Option Url := none
  thrown : Option Exn := none

/-- The loop over one tier. -/
def tryTier : List Bytes → Attempt → TrackerM Attempt
  | [], a => return a
  | announceUrl :: tier, a => do
    if (c.views c.caller).stopped ∧ c.event ≠ .stopped then return a
    else
      match ← attempt c announceUrl with
      | .ok (success, peers, via) => return ⟨success, peers, via, none⟩
      | .error .http => tryTier tier a
      | .error (.std e) => tryTier tier { a with thrown := some e }

/-- "We will now try each tier in order". -/
def tryTiers : List (List Bytes) → Attempt → TrackerM Attempt
  | [], a => return a
  | tier :: tiers, a => do
    let a ← tryTier c tier a
    if a.success then return a else tryTiers tiers a

/-- `is_local_peer` -/
def isLocalPeer (peer : TrackerPeer) : Bool :=
  peer.url.port.getD 0 == (c.views c.caller).listeningPort && c.isLocalHost peer.url.host

/-- `tracker_request(event)` -/
def trackerRequest : TrackerM (List TrackerPeer) := do
  modify fun w => { w with
    replies := c.replies, httpReplies := c.httpReplies, randoms := c.randoms, now := c.now }
  let a ← tryTiers c c.tiers {}
  match a.thrown with
  | some e => throw (.std e)
  | none =>
    let peers := a.peers.filter fun p => !isLocalPeer c p
    modify fun w => { w with answers := w.answers ++ [⟨c.caller, a.via, peers⟩] }
    return peers

end Trackers

end Zit
