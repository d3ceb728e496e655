import Zit.Download

/-!
# A download from clients that run this code

Both ends of a connection are torrents of this program: one lacks the content, the others have it.
They have greeted each other: every handshake and every BITFIELD has been read whole, and of what has
been written only the leecher's INTERESTED is unread. From then on what an end writes to the
connection the other one reads in order, in parts of any size: a read takes some bytes of what has
been written and not been read yet, and `handle_response` deals with them.
-/

set_option autoImplicit false

namespace Zit

open Lib World

/-- The bytes that have been written to the peer `i`. -/
def stream (w : World) (i : Nat) : Bytes := (Download.sentTo w i).flatten

/-- Those of them that are not an INTERESTED. -/
def shownTo (w : World) (i : Nat) : Bytes :=
  ((Download.sentTo w i).filter (· ≠ idMsg .interested)).flatten

/-- The end that downloads and the others, each with one peer. `up` and `down` say how many bytes
have been read of what the leecher has written to a seeder, and the seeder to the leecher. -/
structure Exchange where
  leecher : Net
  seeders : Nat → Net
  up : Nat → Nat
  down : Nat → Nat

/-- What happens at a seeder before: the leecher connects, and both show their pieces. -/
def greeted (own : Bitfield) : List Action :=
  [.connect true, .reportBitfield 0, .setRemotePieces 0 own]

namespace Exchange

/-- `m` seeders and the leecher after both greetings: the bytes of the handshakes and the BITFIELDs
count as read, and only those of an INTERESTED are unread. -/
def start (w : World) (ws : Nat → World) (m : Nat) : Exchange where
  leecher := ⟨w, List.replicate m .init, none⟩
  seeders i := ⟨ws i, [.init], none⟩
  up i := (shownTo w i).length
  down i := (stream (ws i) 0).length

/-- The next `n` bytes a seeder reads, or as many as there are. -/
def nextUp (x : Exchange) (i n : Nat) : Bytes := ((stream x.leecher.world i).drop (x.up i)).take n

/-- The next `n` bytes the leecher reads, or as many as there are. -/
def nextDown (x : Exchange) (i n : Nat) : Bytes :=
  ((stream (x.seeders i).world 0).drop (x.down i)).take n

inductive Event
  /-- the seeder `i` reads -/
  | up (i n : Nat) (now : Int)
  /-- the leecher reads from the seeder `i` -/
  | down (i n : Nat) (now : Int)
  /-- the file writer of the leecher -/
  | write

def readUp (x : Exchange) (i : Nat) (data : Bytes) (seeder : Net) : Exchange :=
  { x with
    seeders := Function.update x.seeders i seeder
    up := Function.update x.up i (x.up i + data.length) }

def readDown (x : Exchange) (i : Nat) (data : Bytes) (leecher : Net) : Exchange :=
  { x with leecher, down := Function.update x.down i (x.down i + data.length) }

variable (sha1 : Bytes → Sha1) (t : Torrent) (ts : Nat → Torrent) (peerIds : Nat → Bytes)
  (peerId : Bytes)

inductive Step : Exchange → Event → Exchange → Prop
  | up {x : Exchange} {i n : Nat} {now : Int} {seeder : Net} (hne : x.nextUp i n ≠ [])
      (hread : Net.Step sha1 (ts i) (peerIds i) (x.seeders i) (.receive 0 (x.nextUp i n) now)
        seeder) :
      Step x (.up i n now) (x.readUp i (x.nextUp i n) seeder)
  | down {x : Exchange} {i n : Nat} {now : Int} {leecher : Net} (hne : x.nextDown i n ≠ [])
      (hread : Net.Step sha1 t peerId x.leecher (.receive i (x.nextDown i n) now) leecher) :
      Step x (.down i n now) (x.readDown i (x.nextDown i n) leecher)
  | write {x : Exchange} {leecher : Net} (hq : x.leecher.world.queue ≠ [])
      (hdisk : x.leecher.world.Writable t)
      (hwrite : Net.Step sha1 t peerId x.leecher (.other (.writeNextPiece [])) leecher) :
      Step x .write { x with leecher }

/-! ## Evaluation -/

/-- The exchange after an event, when it can happen. -/
def exec (x : Exchange) : Event → Option Exchange
  | .up i n now =>
    if x.nextUp i n = [] then none
    else ((x.seeders i).next sha1 (ts i) (peerIds i) (.receive 0 (x.nextUp i n) now)).map
      (x.readUp i (x.nextUp i n))
  | .down i n now =>
    if x.nextDown i n = [] then none
    else (x.leecher.next sha1 t peerId (.receive i (x.nextDown i n) now)).map
      (x.readDown i (x.nextDown i n))
  | .write =>
    if x.leecher.thrown.isSome then none
    else ((⟨x.leecher.world, fun _ => []⟩ : Download).exec sha1 t [] .write).map fun d =>
      { x with leecher := { x.leecher with world := d.world } }

variable {sha1 t ts peerIds peerId}

theorem exec_step {x x' : Exchange} {e : Event}
    (h : x.exec sha1 t ts peerIds peerId e = some x') :
    Step sha1 t ts peerIds peerId x e x' := by
  cases e with
  | up i n now =>
    simp only [exec, Option.ite_none_left_eq_some] at h
    obtain ⟨seeder, hread, rfl⟩ := Option.map_eq_some_iff.1 h.2
    exact .up h.1 (Net.next_iff.1 hread)
  | down i n now =>
    simp only [exec, Option.ite_none_left_eq_some] at h
    obtain ⟨leecher, hread, rfl⟩ := Option.map_eq_some_iff.1 h.2
    exact .down h.1 (Net.next_iff.1 hread)
  | write =>
    simp only [exec, Option.ite_none_left_eq_some] at h
    obtain ⟨hrun, h⟩ := h
    obtain ⟨d, hexec, rfl⟩ := Option.map_eq_some_iff.1 h
    cases Download.exec_step hexec with
    | @write w' hq hdisk hreturns =>
      refine .write hq hdisk ?_
      have hstep : Zit.Step sha1 t x.leecher.world (.writeNextPiece []) w' :=
        wp_intro hreturns rfl
      exact .other (by simpa using hrun) hstep

end Exchange

end Zit
