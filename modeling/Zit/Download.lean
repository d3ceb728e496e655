import Zit.Connection

/-!
# A download from seeders

A torrent whose peers all have the whole content and answer what they are asked for, each in its own
time and order: they unchoke, and send the block of a REQUEST they have read and not answered yet.
The file writer takes a step of its own whenever a piece is queued. What a seeder reads is what has
been written to its connection, read as this client reads messages.
-/

set_option autoImplicit false

namespace Zit

open Lib World

/-- A REQUEST, as it is read. -/
structure BlockRequest where
  index : UInt32
  begin : UInt32
  length : UInt32
  deriving DecidableEq, Repr

namespace Seeder

def asRequest : PeerCall → Option BlockRequest
  | .request index begin length => some ⟨index, begin, length⟩
  | _ => none

/-- The requests among the messages in these bytes. -/
def readRequests : Nat → Bytes → List BlockRequest
  | 0, _ => []
  | turns + 1, bytes =>
    match Message.parsePrefixed bytes with
    | .ok p =>
      if p.consumed = 0 then []
      else p.calls.filterMap asRequest ++ readRequests turns (bytes.drop p.consumed)
    | .error _ => []

/-- The requests in what has been written to the connection. -/
def hears (sent : List Bytes) : List BlockRequest :=
  readRequests sent.flatten.length sent.flatten

/-- The block that is asked for. -/
def answer (t : Torrent) (content : Bytes) (r : BlockRequest) : Bytes :=
  (content.drop (r.index.toNat * t.pieceLength.toNat + r.begin.toNat)).take r.length.toNat

/-- The pieces a seeder shows: all of them. -/
def Complete (t : Torrent) (bf : Bitfield) : Prop :=
  t.pieces.length ≤ bf.size ∧ ∀ k, bf.bit k = true ↔ k < t.pieces.length

end Seeder

/-- The call returns. -/
def Returns (sha1 : Bytes → Sha1) (t : Torrent) (w : World) (a : Action) (w' : World) : Prop :=
  a.run sha1 t w = .ok ⟨⟩ w'

/-- The state after a call that returns, for evaluation. -/
def returned (sha1 : Bytes → Sha1) (t : Torrent) (w : World) (a : Action) : Option World :=
  match a.run sha1 t w with
  | .ok _ w' => some w'
  | .error _ _ => none

theorem returned_iff {sha1 : Bytes → Sha1} {t : Torrent} {w w' : World} {a : Action} :
    returned sha1 t w a = some w' ↔ Returns sha1 t w a w' := by
  unfold returned Returns
  cases a.run sha1 t w with
  | ok u w1 => simp
  | error e w1 => simp

/-- The disk takes the next piece of the queue. -/
def World.Writable (t : Torrent) (w : World) : Prop :=
  ∀ ref queue piece, w.queue = ref :: queue → w.heap[ref]? = some piece →
    ∃ d, (do
      TorrentDestination.allocate t
      TorrentDestination.verifyFileSize t
      TorrentDestination.writePiece t piece
      TorrentDestination.verifyFileSize t : DiskM Unit) { w.disk with faults := [] } = .ok ⟨⟩ d

/-- What happens with a seeder until it is the torrent's turn: we connect, and it shows its
pieces. -/
def greetOne (bf : Bitfield) (i : Nat) : List Action :=
  [.connect false, .reportBitfield i, .setAmInterested i true, .setRemotePieces i bf]

/-- `m` seeders. -/
def greet (bf : Bitfield) : Nat → List Action
  | 0 => []
  | m + 1 => greet bf m ++ greetOne bf m

/-- The torrent, and for each seeder the requests it has read and not answered. -/
structure Download where
  world : World
  todo : Nat → List BlockRequest

namespace Download

def start (world : World) : Download := { world, todo := fun _ => [] }

/-- What has been written to the connection of a peer. -/
def sentTo (w : World) (i : Nat) : List Bytes := (w.peers[i]?.map (·.sent)).getD []

/-- What is written between two states. -/
def written (w w' : World) (i : Nat) : List Bytes := (sentTo w' i).drop (sentTo w i).length

/-- The seeders read what has been written by the call. -/
def hear (d : Download) (w' : World) : Download where
  world := w'
  todo i := d.todo i ++ Seeder.hears (written d.world w' i)

/-- A seeder has sent the block of a request. -/
def answered (d : Download) (i : Nat) (r : BlockRequest) : Download :=
  { d with todo := Function.update d.todo i ((d.todo i).erase r) }

inductive Event
  | unchoke (i : Nat) (now : Int)
  | answer (i : Nat) (r : BlockRequest) (now : Int)
  | write

variable (sha1 : Bytes → Sha1) (t : Torrent) (content : Bytes)

inductive Step : Download → Event → Download → Prop
  | unchoke {d : Download} {i : Nat} {p : Peer} {now : Int} {w' : World}
      (hp : d.world.peers[i]? = some p) (hchoking : p.choking = true)
      (hrun : Returns sha1 t d.world (.setChoking i false now) w') :
      Step d (.unchoke i now) (d.hear w')
  | answer {d : Download} {i : Nat} {r : BlockRequest} {now : Int} {w' : World}
      (hr : r ∈ d.todo i)
      (hrun : Returns sha1 t d.world
        (.setBlock i r.index r.begin (Seeder.answer t content r) now) w') :
      Step d (.answer i r now) ((d.answered i r).hear w')
  | write {d : Download} {w' : World} (hq : d.world.queue ≠ []) (hdisk : d.world.Writable t)
      (hrun : Returns sha1 t d.world (.writeNextPiece []) w') : Step d .write (d.hear w')

/-- The download after an event, when it can happen; for evaluation. -/
def exec (d : Download) : Event → Option Download
  | .unchoke i now =>
    if (d.world.peers[i]?.map (·.choking)) = some true then
      (returned sha1 t d.world (.setChoking i false now)).map d.hear
    else none
  | .answer i r now =>
    if r ∈ d.todo i then
      (returned sha1 t d.world
        (.setBlock i r.index r.begin (Seeder.answer t content r) now)).map (d.answered i r).hear
    else none
  | .write =>
    match d.world.queue with
    | [] => none
    | ref :: _ =>
      if (d.world.heap[ref]?.all fun piece =>
          match (do
            TorrentDestination.allocate t
            TorrentDestination.verifyFileSize t
            TorrentDestination.writePiece t piece
            TorrentDestination.verifyFileSize t : DiskM Unit) { d.world.disk with faults := [] } with
          | .ok _ _ => true
          | .error _ _ => false) then
        (returned sha1 t d.world (.writeNextPiece [])).map d.hear
      else none

variable {sha1 t content}

theorem exec_step {d d' : Download} {e : Event} (h : d.exec sha1 t content e = some d') :
    Step sha1 t content d e d' := by
  cases e with
  | unchoke i now =>
    simp only [exec, Option.ite_none_right_eq_some] at h
    obtain ⟨p, hp, hchoking⟩ := Option.map_eq_some_iff.1 h.1
    obtain ⟨w', hrun, rfl⟩ := Option.map_eq_some_iff.1 h.2
    exact .unchoke hp hchoking (returned_iff.1 hrun)
  | answer i r now =>
    simp only [exec, Option.ite_none_right_eq_some] at h
    obtain ⟨w', hrun, rfl⟩ := Option.map_eq_some_iff.1 h.2
    exact .answer h.1 (returned_iff.1 hrun)
  | write =>
    unfold exec at h
    cases hq : d.world.queue with
    | nil =>
      rw [hq] at h
      cases h
    | cons ref rest =>
      rw [hq] at h
      simp only [Option.ite_none_right_eq_some] at h
      obtain ⟨w', hrun, rfl⟩ := Option.map_eq_some_iff.1 h.2
      refine .write (by rw [hq]; exact List.cons_ne_nil _ _) (fun ref' queue piece hq' hp => ?_)
        (returned_iff.1 hrun)
      obtain ⟨rfl, -⟩ := List.cons.inj (hq.symm.trans hq')
      have hok := h.1
      rw [hp, Option.all_some] at hok
      split at hok
      · rename_i d' hd'
        exact ⟨d', hd'⟩
      · cases hok

end Download

end Zit
