import Zit.Messages

/-!
# Incoming connections

`PeerAcceptor::listen` of `peer.cpp` on one accepted connection. It parses the handshake in a buffer
of its own and hands the socket on to a new peer, whose `PeerConnection` reads what comes after.
-/

set_option autoImplicit false

namespace Zit

namespace PeerAcceptor

/-- What `listen` makes of its buffer: the torrent of the new peer, if there is one. `known` are the
info hashes of `Torrent::get`. -/
def newPeer (known : Sha1 → Bool) (buffer : Bytes) : Except Exn (Option PeerContext) := do
  match ← HandshakeMsg.parse buffer with
  -- "Invalid handshake"
  | none => return none
  | some handshake =>
    if known handshake.infoHash then return some ⟨handshake.infoHash, true⟩
    -- "Unknown info_hash"
    else return none

/-- `listen` on a connection whose first read, of 68 bytes or more, is followed by those of the new
peer: what the peer receives. -/
def listen (known : Sha1 → Bool) : List Bytes → Except Exn (Option Received)
  | [] => .ok none
  | buffer :: reads => do
    match ← newPeer known buffer with
    | none => return none
    | some ctx => return some (PeerConnection.receive ctx .init reads)

end PeerAcceptor

end Zit
