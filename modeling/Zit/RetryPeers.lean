import Zit.Lib.Effect
import Zit.Types

/-!
# The list of peers

`add_peer` and `retry_peers` of `torrent.cpp` on `m_peers`. A `shared_ptr<Peer>` is a `PeerRef`;
`stops` and `handshakes` keep a record of the peers these functions have been called on.
-/

set_option autoImplicit false

namespace Zit

open Lib

/-- A peer, with what the functions ask of it; `opens` when its connection can be created. -/
structure PeerRef where
  ref : Nat
  url : Option Bytes
  inactive : Bool
  listening : Bool
  opens : Bool := true
  deriving DecidableEq, Repr

/-- `p->is_inactive() && !p->is_listening()` -/
def PeerRef.stale (p : PeerRef) : Bool := p.inactive && !p.listening

/-- Both have an URL, and it is the same. -/
def PeerRef.sameUrl (p q : PeerRef) : Bool := p.url.isSome && p.url == q.url

structure PeerList where
  peers : List PeerRef
  stops : List Nat := []
  handshakes : List Nat := []

/-- `ranges::partition`: the elements with the property before the others, in any order. -/
structure Partition where
  run : (PeerRef → Bool) → List PeerRef → List PeerRef × List PeerRef
  perm : ∀ p xs, ((run p xs).1 ++ (run p xs).2).Perm xs
  front : ∀ p xs, ∀ x ∈ (run p xs).1, p x = true
  back : ∀ p xs, ∀ x ∈ (run p xs).2, p x = false

namespace PeerList

abbrev Peers := EStateM Exn PeerList

/-- `p->stop()` -/
def stop (p : PeerRef) : Peers Unit := modify fun s => { s with stops := s.stops ++ [p.ref] }

/-- `p->handshake()` -/
def handshake (p : PeerRef) : Peers Unit :=
  if p.opens then modify fun s => { s with handshakes := s.handshakes ++ [p.ref] }
  else throw (.runtimeError "Creating peer connection")

/-- "Stop and remove the old entry"; the position it had. -/
def replace (peer : PeerRef) : Peers (Option Nat) := do
  let s ← get
  match s.peers.findIdx? (peer.sameUrl ·) with
  | none => return none
  | some k =>
    forM s.peers[k]?.toList stop
    modify fun s => { s with peers := s.peers.eraseIdx k }
    return some k

/-- `add_peer(peer, peers)`: the other vector with the peer, and the position that has been erased
from `m_peers`. -/
def addPeer (peer : PeerRef) (peers : Option (List PeerRef)) :
    Peers (Option (List PeerRef) × Option Nat) := do
  let erased ← replace peer
  handshake peer
  match peers with
  | some peers => return (some (peers ++ [peer]), erased)
  | none =>
    modify fun s => { s with peers := s.peers ++ [peer] }
    return (none, erased)

/-- The loop over the peers of the tracker, with `new_peers` and the positions erased from
`m_peers`. -/
def addPeers : List PeerRef → List PeerRef → List Nat → Peers (List PeerRef × List Nat)
  | [], newPeers, erased => return (newPeers, erased)
  | peer :: trackerPeers, newPeers, erased => do
    let (newPeers', k) ← addPeer peer (some newPeers)
    addPeers trackerPeers (newPeers'.getD newPeers) (erased ++ k.toList)

/-- `retry_peers`, with `m_stopped` and what `tracker_request` returns. An element that is erased
invalidates the iterators at and after it. -/
def retryPeers (partition : Partition) (stopped : Bool) (trackerPeers : List PeerRef) :
    Peers Unit := do
  if stopped then return
  else
    let s ← get
    let (front, back) := partition.run PeerRef.stale s.peers
    set { s with peers := front ++ back }
    let inactive := front.length
    if inactive ≠ 0 then forM back stop
    -- "Connect to new peers (discarding the ones we just dropped or active ones)"
    let (newPeers, erased) ← addPeers trackerPeers [] []
    if inactive ≠ 0 then
      if erased.any (· ≤ inactive) then throw (.undefined "erase up to an invalidated iterator")
      else modify fun s => { s with peers := s.peers.drop inactive }
    modify fun s => { s with peers := s.peers ++ newPeers }

end PeerList

end Zit
