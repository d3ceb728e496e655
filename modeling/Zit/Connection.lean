import Zit.Session

/-!
# Connections of a running torrent

`PeerConnection::handle_response` on the torrent: the messages in a buffer are parsed and the calls
they ask for are made, one after the other. Nothing between it and `Torrent::run` handles an
exception, so one that leaves it ends the torrent (`Net.Step`).
-/

set_option autoImplicit false

namespace Zit

open Lib World

namespace Peer

variable (t : Torrent)

/-- What `Peer::handshake` writes. -/
def handshakeMsg (peerId : Bytes) : Bytes :=
  btStart ++ List.replicate 8 0 ++ t.infoHash.bytes ++ peerId

/-- `Torrent::disconnected`, which drops the peer. -/
def disconnected (i : Nat) : App Unit := modify fun w => { w with peers := w.peers.eraseIdx i }

/-- A call of `Message::parse` on the peer `i`; `stop` is seen to by the connection. -/
def call (peerId : Bytes) (i : Nat) (now : Int) : PeerCall → App Unit
  | .verifyInfoHash _ => pure ()
  | .setRemotePieces bf => setRemotePieces i bf
  | .handshake => modifyPeer i (·.write (handshakeMsg t peerId))
  | .reportBitfield => reportBitfield i
  | .setAmInterested amInterested => setAmInterestedOf t i amInterested
  | .setChoking choking => setChoking t i choking now
  | .setInterested interested => setInterested i interested
  | .have id => haveId t i id now
  | .setBlock index offset data => setBlock t i index offset data now
  | .request index begin length => request t i index begin length
  | .stop => pure ()
  | .disconnected => disconnected i

/-! ## Receiving -/

variable (peerId : Bytes) (ctx : PeerContext) (i : Nat) (now : Int)

/-- A turn of the `while` of `handle_response`: the connection after it and the bytes consumed. -/
def handleTurn (conn : PeerConnection) : App (PeerConnection × Nat) := do
  let p ← lift (Message.parse ctx conn.response)
  forM p.calls (call t peerId i now)
  return (⟨conn.response.drop p.consumed, conn.stopped || p.calls.contains .stop⟩, p.consumed)

/-- The `while`; a turn that goes on consumes something, so the size of the buffer bounds them. -/
def handleLoop : Nat → PeerConnection → App PeerConnection
  | 0, conn => return conn
  | turns + 1, conn =>
    if conn.response.isEmpty then return conn
    else do
      let (conn, consumed) ← handleTurn t peerId ctx i now conn
      if consumed = 0 then return conn else handleLoop turns conn

/-- `handle_response` of the peer `i` after a read of `data`. -/
def handleResponse (conn : PeerConnection) (data : Bytes) : App PeerConnection := do
  let p ← getPeer i
  if conn.stopped then return conn
  else
    let response := conn.response ++ data
    handleLoop t peerId ⟨t.infoHash, p.listening⟩ i now response.length { conn with response }

end Peer

/-! ## All connections -/

/-- A torrent with the connections of its peers, in their order, and the exception that has left
`handle_response`, if any. -/
structure Net where
  world : World
  conns : List PeerConnection
  thrown : Option Exn := none

/-- Bytes come in on a connection, or something else makes a call. -/
inductive Event
  | receive (i : Nat) (data : Bytes) (now : Int)
  | other (a : Action)

/-- The connections after a call: one for each peer. -/
def Action.conns (conns : List PeerConnection) : Action → List PeerConnection
  | .connect _ => conns ++ [.init]
  | .disconnect i => conns.eraseIdx i
  | _ => conns

namespace Net

variable (sha1 : Bytes → Sha1) (t : Torrent) (peerId : Bytes)

/-- A read on the connection `conn` of the peer `i`; a connection that was stopped has no peer any
more. -/
def receive (n : Net) (i : Nat) (conn : PeerConnection) (data : Bytes) (now : Int) : Net :=
  match Peer.handleResponse t peerId i now conn data n.world with
  | .ok conn world =>
    { world, conns := if conn.stopped then n.conns.eraseIdx i else n.conns.set i conn }
  | .error e world => { n with world, thrown := some e }

inductive Step : Net → Event → Net → Prop
  | receive {n : Net} {i : Nat} {p : Peer} {conn : PeerConnection} (hrun : n.thrown = none)
      (hpeer : n.world.peers[i]? = some p) (hconn : n.conns[i]? = some conn) (data : Bytes)
      (now : Int) : Step n (.receive i data now) (n.receive t peerId i conn data now)
  | other {n : Net} {a : Action} {world : World} (hrun : n.thrown = none)
      (hstep : Zit.Step sha1 t n.world a world) :
      Step n (.other a) { n with world, conns := a.conns n.conns }

/-- The state after an event, when it can happen and does not end the program. -/
def next (n : Net) : Event → Option Net
  | .receive i data now =>
    match n.thrown, n.world.peers[i]?, n.conns[i]? with
    | none, some _, some conn => some (n.receive t peerId i conn data now)
    | _, _, _ => none
  | .other a =>
    if n.thrown.isSome then none
    else (a.next sha1 t n.world).map fun world => { n with world, conns := a.conns n.conns }

variable {sha1 t peerId}

/-- An event leads to one state. -/
theorem next_iff {n n' : Net} {e : Event} :
    n.next sha1 t peerId e = some n' ↔ Step sha1 t peerId n e n' := by
  constructor
  · intro h
    cases e with
    | receive i data now =>
      simp only [next] at h
      split at h
      · rename_i conn hrun hpeer hconn
        obtain rfl := Option.some.inj h
        exact .receive hrun hpeer hconn data now
      · cases h
    | other a =>
      simp only [next, Option.ite_none_left_eq_some, Option.map_eq_some_iff] at h
      obtain ⟨hrun, world, hworld, rfl⟩ := h
      exact .other (by simpa using hrun) (Zit.next_iff.1 hworld)
  · intro h
    cases h with
    | receive hrun hpeer hconn => simp only [next, hrun, hpeer, hconn]
    | other hrun hstep => simp [next, hrun, Zit.next_iff.2 hstep]

/-- A run that ends without an exception has had none. -/
theorem running_of_run {n n' : Net} {es : List Event} (h : Run (Step sha1 t peerId) n es n')
    (hn : n'.thrown = none) {pre : List Event} {m : Net} (hpre : pre <+: es)
    (hm : Run (Step sha1 t peerId) n pre m) : m.thrown = none := by
  obtain ⟨rest, rfl⟩ := hpre
  obtain ⟨m', hm', hrest⟩ := h.of_append
  have hdet : ∀ s e s1 s2, Step sha1 t peerId s e s1 → Step sha1 t peerId s e s2 → s1 = s2 :=
    fun _ _ _ _ h1 h2 => Option.some.inj ((next_iff.2 h1).symm.trans (next_iff.2 h2))
  obtain rfl := hm.unique hdet hm'
  cases hrest with
  | nil => exact hn
  | cons hs _ => cases hs <;> assumption

end Net

end Zit
