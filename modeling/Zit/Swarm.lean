import Zit.RetryPeers
import Zit.Torrent
import Zit.Tracker

/-!
# The peers of a torrent

The ways into `m_peers` and out of it: `start`, `retry_peers`, accepted connections and
`disconnected`, with the URLs the constructors of `Url` build from the replies of the trackers. What
is known of the network and the settings is a `Network`, given with each event.
-/

set_option autoImplicit false

namespace Zit

open Lib Lib.Decimal

/-- `lookup` is the reverse lookup of a host: an error for an address that is not of version 4, no
name for what is no address or has none. -/
structure Network where
  resolveUrls : Bool
  lookup : Bytes → Except Exn (Option Bytes)
  plain : ∀ host name, lookup host = .ok (some name) → 58 ∉ name ∧ 47 ∉ name
  isV6 : Bytes → Bool
  isLocalHost : Bytes → Bool
  listeningPort : UInt16
  /-- a connection to the URL can be created -/
  opens : Url → Bool

namespace Url

/-- `authority()` -/
def authority (u : Url) : Bytes :=
  match u.port with
  | some port => u.host ++ 58 :: digits port.toNat
  | none => u.host

/-- `str()` of an URL without parameters. -/
def str (u : Url) : Bytes := u.scheme ++ ascii "://".toList ++ u.authority ++ u.path

/-- What tells peers apart. -/
def endpoint (u : Url) : Bytes × Option UInt16 := (u.host, u.port)

/-- The constructor for a binary string. -/
def parseBinary : Bytes → Except Exn Url
  | [a, b, c, d, p, q] => .ok {
      scheme := ascii "http".toList
      host := digits a.toNat ++ 46 :: digits b.toNat ++ 46 :: digits c.toNat ++ 46 :: digits d.toNat
      path := []
      port := some (UInt16.ofNat (p.toNat * 256 + q.toNat)) }
  | url => .error (.runtimeError s!"Invalid binary URL length {url.length}")

variable (net : Network)

/-- `resolve()` -/
def resolve (u : Url) : Except Exn Url :=
  if (ascii "172.17.".toList).isPrefixOf u.host then
    .ok { u with host := ascii "localhost".toList }
  else (net.lookup u.host).map fun name => { u with host := name.getD u.host }

/-- The constructor, with what the setting says about `resolve`. -/
def make (url : Bytes) (binary : Bool) : Except Exn Url :=
  (if binary then parseBinary url else parse url).bind fun u =>
    if net.resolveUrls then u.resolve net else .ok u

/-- `is_local(purl, port)` -/
def isLocal (u : Url) : Bool :=
  u.host == ascii "127.0.0.1".toList && u.port == some net.listeningPort

end Url

/-! ## The peers in a reply -/

section
variable (net : Network)

/-- A peer of `read_peers_string_list`. -/
def peerEntryUrl (elm : Element) : Except Exn Url := do
  let peer ← elm.toDict
  let ip ← (← dictAt peer "ip").toStr
  let port ← (← dictAt peer "port").toInt
  Url.make net (ascii "http://".toList ++ ip ++ 58 :: intDigits port) false

/-- `read_peers_string_list` -/
def readPeersStringList (peers : Element) : Except Exn (List Url) := do
  let urls ← (← peers.toList).mapM (peerEntryUrl net)
  return urls.filter fun purl => !net.isV6 purl.host && !purl.isLocal net

/-- `read_peers_binary_form` -/
def readPeersBinaryForm (peers : Element) : Except Exn (List Url) := do
  let binary ← peers.toStr
  if binary = [] then .error (.runtimeError "Peer list is empty")
  else
    let urls ← (List.range ((binary.length + 5) / 6)).mapM fun i =>
      Url.make net ((binary.drop (i * 6)).take 6) true
    return urls.filter fun purl => !net.isV6 purl.host && !purl.isLocal net

/-- The peers in the response to an announce request. -/
def readPeersUdp (response : Bytes) : Except Exn (List Url) := do
  let _ ← ofBigEndian 4 response 16
  let urls ← (List.range ((response.length - 20) / 6)).mapM fun i => do
    let purl ← Trackers.peerUrl response i
    if net.resolveUrls then purl.resolve net else return purl
  return urls.filter fun purl => !purl.isLocal net

/-- What the tracker that is used in the end replies: the element `peers` of a HTTP reply, the
response to an UDP request, or nothing with peers; otherwise no tracker could be asked. -/
inductive TrackerReply
  | http (peers : Element)
  | udp (response : Bytes)
  | noPeers
  | failed (e : Exn)

def TrackerReply.read : TrackerReply → Except Exn (List Url)
  | .http (.list v) => readPeersStringList net (.list v)
  | .http peers => readPeersBinaryForm net peers
  | .udp response => readPeersUdp net response
  | .noPeers => .ok []
  | .failed e => .error e

/-- `is_local_peer` -/
def Url.isLocalPeer (u : Url) : Bool :=
  u.port.getD 0 == net.listeningPort && net.isLocalHost u.host

/-- The URLs of the peers `tracker_request` returns. -/
def TrackerReply.urls (reply : TrackerReply) : Except Exn (List Url) :=
  (reply.read net).map fun urls => urls.filter fun u => !u.isLocalPeer net

end

/-! ## The functions of the torrent -/

/-- The `ref` of a peer is the position of its URL. -/
structure Swarm where
  list : PeerList := { peers := [] }
  urls : List Url := []

namespace Swarm

abbrev SwarmM := EStateM Exn Swarm

def onList {α : Type} : PeerList.Peers α → SwarmM α := zoom list fun l s => { s with list := l }

/-- Peers with these URLs, the first one being `ref`. -/
def makePeers (listening : Bool) (opens : Url → Bool) (ref : Nat) (urls : List Url) :
    List PeerRef :=
  (urls.zipIdx ref).map fun (u, ref) => ⟨ref, some u.str, false, listening, opens u⟩

/-- `make_shared<Peer>`, for each URL. -/
def create (listening : Bool) (opens : Url → Bool) (urls : List Url) : SwarmM (List PeerRef) := do
  let s ← get
  set { s with urls := s.urls ++ urls }
  return makePeers listening opens s.urls.length urls

/-- `tracker_request` -/
def trackerRequest (net : Network) (reply : TrackerReply) : SwarmM (List PeerRef) := do
  create false net.opens (← lift (reply.urls net))

/-- `start()` -/
def start (net : Network) (reply : TrackerReply) : SwarmM Unit := do
  let s ← get
  if s.list.peers ≠ [] then throw (.runtimeError "Local peer vector not empty")
  else
    let peers ← trackerRequest net reply
    onList do
      modify fun l => { l with peers }
      forM peers PeerList.handshake

/-- `retry_peers()`, with the peers that have become inactive. When the trackers cannot be asked,
the peers have been arranged and stopped. -/
def retryPeers (net : Network) (partition : Partition) (stopped : Bool) (inactive : Nat → Bool)
    (reply : TrackerReply) : SwarmM Unit := do
  onList (modify fun l => {
    l with peers := l.peers.map fun p => { p with inactive := inactive p.ref } })
  if stopped then return
  else
    match reply.urls net with
    | .ok urls =>
      let peers ← create false net.opens urls
      onList (PeerList.retryPeers partition false peers)
    | .error e => onList do
      let l ← get
      let (front, back) := partition.run PeerRef.stale l.peers
      set { l with peers := front ++ back }
      if front.length ≠ 0 then forM back PeerList.stop
      throw e

/-- The URL of an accepted connection. -/
def acceptedUrl (ip : Bytes) (port : UInt16) : Except Exn Url :=
  Url.parse (ascii "http://".toList ++ ip ++ 58 :: digits port.toNat)

/-- What `listen` does with an accepted connection that is for this torrent. -/
def accept (ip : Bytes) (port : UInt16) : SwarmM Unit := do
  let url ← lift (acceptedUrl ip port)
  let peers ← create true (fun _ => true) [url]
  forM peers fun peer => do
    let _ ← onList (PeerList.addPeer peer none)
    return

/-- `disconnected(peer)` -/
def disconnected (ref : Nat) : SwarmM Unit := onList do
  let l ← get
  set { l with peers := l.peers.eraseP (·.ref == ref) }
  forM (l.peers.find? (·.ref == ref)).toList PeerList.stop

/-! ## Events -/

/-- What `ranges::shuffle` does. -/
structure Shuffle where
  run : List PeerRef → List PeerRef
  perm : ∀ xs, (run xs).Perm xs

inductive Event
  | start (net : Network) (reply : TrackerReply)
  | retryPeers (net : Network) (partition : Partition) (stopped : Bool) (inactive : Nat → Bool)
      (reply : TrackerReply)
  | accepted (ip : Bytes) (port : UInt16)
  | disconnected (ref : Nat)
  /-- `retry_pieces` shuffles the peers -/
  | retryPieces (shuffle : Shuffle)

def handle : Event → SwarmM Unit
  | .start net reply => start net reply
  | .retryPeers net partition stopped inactive reply =>
    retryPeers net partition stopped inactive reply
  | .accepted ip port => accept ip port
  | .disconnected ref => disconnected ref
  | .retryPieces shuffle => onList (modify fun l => { l with peers := shuffle.run l.peers })

/-- The state after an event, also when an exception leaves it; none where the behaviour is
undefined. -/
def step (s : Swarm) (e : Event) : Option Swarm :=
  match handle e s with
  | .error (.undefined _) _ => none
  | .ok _ s' | .error _ s' => some s'

end Swarm

end Zit
