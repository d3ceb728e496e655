import Zit.Lib.Chunks
import Zit.Proof.Numeric
import Zit.Proof.Tracker

/-!
# The announce packet

What the UDP tracker protocol reads in the 100 bytes of an announce request: every field the client
means, but for the event. The packet has the number of the enumerator, which the protocol gives to
another event (`announceRequest_event`).
-/

set_option autoImplicit false

namespace Zit.Packet

open Lib Trackers

/-- The fields of an announce request. -/
structure Announce where
  connectionId : Nat
  action : Nat
  transactionId : Nat
  infoHash : Bytes
  peerId : Bytes
  downloaded : Int
  left : Int
  uploaded : Int
  event : TrackerEvent
  ip : Nat
  key : Nat
  numWant : Int
  port : Nat
  extensions : Nat
  deriving DecidableEq

/-- The events of the protocol. -/
def protocolEvent : Nat → Option TrackerEvent
  | 0 => some .unspecified
  | 1 => some .completed
  | 2 => some .started
  | 3 => some .stopped
  | _ => none

/-- A signed field. -/
def signed (bs : Bytes) : Int := (BigEndian.ofBytes bs : Int).bmod (2 ^ (8 * bs.length))

/-- The lengths of the fields in the protocol. -/
def layout : List Nat := [8, 4, 4, 20, 20, 8, 8, 8, 4, 4, 4, 4, 2, 2]

def decode (packet : Bytes) : Option Announce :=
  if packet.length ≠ layout.sum then none
  else
    match cut layout packet with
    | [connectionId, action, transactionId, infoHash, peerId, downloaded, left, uploaded, event, ip,
        key, numWant, port, extensions] =>
      (protocolEvent (BigEndian.ofBytes event)).map fun event => {
        connectionId := BigEndian.ofBytes connectionId
        action := BigEndian.ofBytes action
        transactionId := BigEndian.ofBytes transactionId
        infoHash, peerId
        downloaded := signed downloaded
        left := signed left
        uploaded := signed uploaded
        event
        ip := BigEndian.ofBytes ip
        key := BigEndian.ofBytes key
        numWant := signed numWant
        port := BigEndian.ofBytes port
        extensions := BigEndian.ofBytes extensions }
    | _ => none

/-- What `UDPTrackerRequest::announce` means to send. -/
def meant (connectionId transactionId key : Nat) (t : TorrentView) (event : TrackerEvent) :
    Announce where
  connectionId := connectionId
  action := 1
  transactionId := transactionId
  infoHash := t.infoHash.bytes
  peerId := t.peerId
  downloaded := t.downloaded
  left := t.left
  uploaded := 0
  event := event
  ip := 0
  key := key
  numWant := 50
  port := t.listeningPort.toNat
  extensions := 0

/-- The event the protocol reads in the number of an enumerator. -/
def readAs : TrackerEvent → TrackerEvent
  | .started => .unspecified
  | .stopped => .completed
  | .completed => .started
  | .unspecified => .stopped

theorem protocolEvent_toInt (event : TrackerEvent) :
    protocolEvent event.toInt.toNat = some (readAs event) := by
  cases event <;> rfl

theorem readAs_ne (event : TrackerEvent) : readAs event ≠ event := by
  cases event <;> decide

theorem ofBytes_field {n : Nat} {v : Nat} (h : v < 2 ^ (8 * n)) :
    BigEndian.ofBytes (bigEndian n v) = v := by
  rw [Numeric.ofBytes_bigEndian, Nat.mod_eq_of_lt h]

theorem signed_bigEndian {n : Nat} {v : Int} (hn : 0 < n)
    (h : -2 ^ (8 * n - 1) ≤ v ∧ v < 2 ^ (8 * n - 1)) : signed (bigEndian n v) = v := by
  have hpow : (2 ^ (8 * n) : Nat) = 2 * 2 ^ (8 * n - 1) := by
    rw [← Nat.pow_succ', Nat.succ_eq_add_one, Nat.sub_add_cancel (by omega)]
  have hcast : ((2 ^ (8 * n - 1) : Nat) : Int) = 2 ^ (8 * n - 1) := by push_cast; rfl
  have hnonneg : 0 ≤ v % 2 ^ (8 * n) := Int.emod_nonneg _ (Int.pow_pos (by decide)).ne'
  have hlt : (v % 2 ^ (8 * n)).toNat < 256 ^ n := by
    have hmod := Int.emod_lt_of_pos v (show (0 : Int) < 2 ^ (8 * n) from Int.pow_pos (by decide))
    rw [show 256 ^ n = 2 ^ (8 * n) from (Nat.pow_mul 2 8 n).symm]
    zify
    omega
  rw [signed, bigEndian_length, Numeric.bigEndian_eq_toBytes, BigEndian.ofBytes_toBytes,
    Nat.mod_eq_of_lt hlt, Int.toNat_of_nonneg hnonneg,
    show (2 : Int) ^ (8 * n) = ((2 ^ (8 * n) : Nat) : Int) by push_cast; rfl, Int.emod_bmod]
  apply Int.bmod_eq_of_le <;> omega

section
variable {connectionId transactionId key : Nat} {t : TorrentView} {event : TrackerEvent}
  (hc : connectionId < 2 ^ 64) (ht : transactionId < 2 ^ 32) (hk : key < 2 ^ 32)
  (hd : IntTy.i64.Holds t.downloaded) (hl : IntTy.i64.Holds t.left)

theorem cut_announceRequest : cut layout (announceRequest connectionId transactionId key t event) =
    [bigEndian 8 connectionId, bigEndian 4 1, bigEndian 4 transactionId, t.infoHash.bytes, t.peerId,
      bigEndian 8 t.downloaded, bigEndian 8 t.left, bigEndian 8 0, bigEndian 4 event.toInt,
      bigEndian 4 0, bigEndian 4 key, bigEndian 4 50, bigEndian 2 t.listeningPort.toNat,
      bigEndian 2 0] := by
  have h := cut_flatten [bigEndian 8 connectionId, bigEndian 4 1, bigEndian 4 transactionId,
    t.infoHash.bytes, t.peerId, bigEndian 8 t.downloaded, bigEndian 8 t.left, bigEndian 8 0,
    bigEndian 4 event.toInt, bigEndian 4 0, bigEndian 4 key, bigEndian 4 50,
    bigEndian 2 t.listeningPort.toNat, bigEndian 2 0]
  simp only [List.map_cons, List.map_nil, bigEndian_length, t.infoHash.size, t.peerId_length] at h
  rw [← h]
  simp [announceRequest, layout, UdpAction.toInt]

theorem length_announceRequest :
    (announceRequest connectionId transactionId key t event).length = 100 := by
  simp [announceRequest, t.infoHash.size, t.peerId_length]

include hc ht hk hd hl

theorem decode_announceRequest :
    decode (announceRequest connectionId transactionId key t event) =
      some (meant connectionId transactionId key t (readAs event)) := by
  have hlen : ¬(announceRequest connectionId transactionId key t event).length ≠ layout.sum := by
    rw [length_announceRequest]
    decide
  have hevent : BigEndian.ofBytes (bigEndian 4 event.toInt) = event.toInt.toNat := by
    cases event <;> decide
  have hconst : BigEndian.ofBytes (bigEndian 4 1) = 1 ∧ signed (bigEndian 8 0) = 0 ∧
      BigEndian.ofBytes (bigEndian 4 0) = 0 ∧ signed (bigEndian 4 50) = 50 ∧
      BigEndian.ofBytes (bigEndian 2 0) = 0 := by decide
  have hport := t.listeningPort.toNat_lt
  simp only [IntTy.Holds, IntTy.min, IntTy.max, IntTy.i64, if_true] at hd hl
  unfold decode
  rw [if_neg hlen, cut_announceRequest]
  dsimp only
  rw [hevent, protocolEvent_toInt, Option.map_some, ofBytes_field hc, ofBytes_field ht,
    ofBytes_field hk, ofBytes_field hport, signed_bigEndian (by decide) (by omega),
    signed_bigEndian (by decide) (by omega), hconst.1, hconst.2.1, hconst.2.2.1, hconst.2.2.2.1,
    hconst.2.2.2.2]
  rfl

/-- Whatever the values are, the packet has 100 bytes and the protocol reads them in it, but for
another event. -/
theorem announceRequest_event :
    (announceRequest connectionId transactionId key t event).length = 100 ∧
    (∃ other, decode (announceRequest connectionId transactionId key t event) =
      some { meant connectionId transactionId key t event with event := other }) ∧
    decode (announceRequest connectionId transactionId key t event) ≠
      some (meant connectionId transactionId key t event) := by
  refine ⟨length_announceRequest, ⟨readAs event, decode_announceRequest hc ht hk hd hl⟩, ?_⟩
  rw [decode_announceRequest hc ht hk hd hl]
  intro h
  exact readAs_ne event (congrArg Announce.event (Option.some.inj h))

end

theorem announceRequest_event_started :
    (announceRequest 1 2 3 (torrentView 0) .started).length = 100 ∧
    (∃ other, decode (announceRequest 1 2 3 (torrentView 0) .started) =
      some { meant 1 2 3 (torrentView 0) .started with event := other }) ∧
    decode (announceRequest 1 2 3 (torrentView 0) .started) ≠
      some (meant 1 2 3 (torrentView 0) .started) :=
  announceRequest_event (by decide) (by decide) (by decide) (by decide) (by decide)

/-- A client that starts is none that has started to the tracker. -/
theorem announceRequest_none : ¬∀ (connectionId transactionId key : Nat) (t : TorrentView)
    (event : TrackerEvent), connectionId < 2 ^ 64 → transactionId < 2 ^ 32 → key < 2 ^ 32 →
    IntTy.i64.Holds t.downloaded → IntTy.i64.Holds t.left →
      (announceRequest connectionId transactionId key t event).length = 100 ∧
      decode (announceRequest connectionId transactionId key t event) =
        some (meant connectionId transactionId key t event) := by
  intro hall
  have h := (hall 1 2 3 (torrentView 0) .started (by decide) (by decide) (by decide) (by decide)
    (by decide)).2
  rw [decode_announceRequest (by decide) (by decide) (by decide) (by decide) (by decide)] at h
  exact readAs_ne .started (congrArg Announce.event (Option.some.inj h))

end Zit.Packet
