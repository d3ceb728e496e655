import Zit.Proof.Segmentation

/-!
# The handshake and the reads it came in

An outgoing connection reads a handshake followed by messages. Up to the first four bytes nothing
happens; the read that brings the fourth decides (`handshake_segmentation_iff`): it must end with
the handshake, or reach into a non-empty BITFIELD behind it, which is then waited for.
-/

set_option autoImplicit false

namespace Zit

open Lib PeerConnection

/-- The fields of a handshake. -/
structure Handshake where
  reserved : Bytes
  infoHash : Sha1
  peerId : Bytes
  reserved_length : reserved.length = 8
  peerId_length : peerId.length = 20

namespace Handshake

def bytes (hs : Handshake) : Bytes := btStart ++ hs.reserved ++ hs.infoHash.bytes ++ hs.peerId

/-- The calls that accept a handshake, without the BITFIELD read along with it. -/
def accept (hs : Handshake) : List PeerCall :=
  [.verifyInfoHash hs.infoHash, .reportBitfield, .setAmInterested true]

/-- The calls that accept a handshake and the BITFIELD behind it. -/
def acceptWith (hs : Handshake) (bf : Bytes) : List PeerCall :=
  [.verifyInfoHash hs.infoHash, .setRemotePieces ⟨bf⟩, .reportBitfield, .setAmInterested true]

@[simp] theorem bytes_length (hs : Handshake) : hs.bytes.length = 68 := by
  simp [bytes, hs.reserved_length, hs.peerId_length, hs.infoHash.size,
    show btStart.length = 20 from rfl]

variable (hs : Handshake)

theorem btStart_front (x : Bytes) : btStart <+: hs.bytes ++ x := by
  unfold bytes
  simp only [List.append_assoc]
  exact List.prefix_append _ _

/-- The four bytes that would be a length. -/
theorem bytes_front (x : Bytes) : ∃ q, hs.bytes ++ x = toBigEndian 0x13426974 ++ q := by
  have h : btStart = toBigEndian 0x13426974 ++ btStart.drop 4 := by decide
  refine ⟨btStart.drop 4 ++ hs.reserved ++ hs.infoHash.bytes ++ hs.peerId ++ x, ?_⟩
  rw [bytes]
  conv => lhs; rw [h]
  simp

theorem fromBuffer_hash (x : Bytes) : Sha1.fromBuffer (hs.bytes ++ x) 28 = .ok hs.infoHash := by
  have hfront : (btStart ++ hs.reserved).length = 28 := by
    simp [hs.reserved_length, show btStart.length = 20 from rfl]
  have htake : ((hs.bytes ++ x).drop 28).take 20 = hs.infoHash.bytes := by
    rw [bytes, List.append_assoc, List.append_assoc, List.drop_left' hfront,
      ← hs.infoHash.size, List.take_left]
  rw [Sha1.fromBuffer, if_neg (by simp; omega), dif_pos (by rw [htake]; exact hs.infoHash.size)]
  simp only [htake]

section
variable {hs} {b x : Bytes} (hb : b <+: hs.bytes ++ x)
include hb

/-- The start of a handshake looks like one when a read ends with it or behind a BITFIELD id. -/
theorem looks_iff : LooksLikeHandshake b ↔ b.length = 68 ∨ 73 ≤ b.length ∧ b[72]? = some 5 := by
  have hlen : btStart.length = 20 := rfl
  constructor
  · intro hin
    obtain ⟨k, hk, h⟩ := hin
    have hle := length_of_search hk
    have hpre : btStart <+: b :=
      List.prefix_of_prefix_length_le (btStart_front hs x) hb (by omega)
    rw [search_of_front hpre] at hk
    cases hk
    simpa using h
  · intro h
    have hpre : btStart <+: b :=
      List.prefix_of_prefix_length_le (btStart_front hs x) hb (by omega)
    exact ⟨0, search_of_front hpre, by simpa using h⟩

/-- Otherwise its first four bytes are a length above the maximum. -/
theorem parse_rejected (ctx : PeerContext) (h4 : 4 ≤ b.length) (hl : ¬LooksLikeHandshake b) :
    Message.parse ctx b = .ok ⟨[.stop, .disconnected], 0⟩ := by
  obtain ⟨q, hq⟩ := bytes_front hs x
  rw [hq] at hb
  obtain ⟨q', rfl⟩ := take_four b q _ hb h4
  rw [Message.parse_of_not_looks ctx hl, Message.parsePrefixed, if_pos h4, fromBigEndian_front]
  rfl

theorem parse_short (ctx : PeerContext) (h4 : b.length < 4) :
    Message.parse ctx b = .ok ⟨[], 0⟩ := by
  have hl : ¬LooksLikeHandshake b := by
    rw [looks_iff hb]
    omega
  rw [Message.parse_of_not_looks ctx hl, Message.parsePrefixed, if_neg (by omega)]

end

end Handshake

namespace Message

theorem parseStart_infoHash {r : Bytes} {msg : HandshakeMsg}
    (h : HandshakeMsg.parseStart r = .ok (some msg)) :
    Sha1.fromBuffer r 28 = .ok msg.infoHash := by
  simp only [HandshakeMsg.parseStart] at h
  obtain ⟨hash, hhash, h⟩ := bind_eq_ok.1 h
  rw [hhash]
  split at h
  · split at h
    · cases h
    split at h
    · cases h
    obtain ⟨len, -, h⟩ := bind_eq_ok.1 h
    split at h
    · cases h
      rfl
    split at h
    · cases h
    · cases h
      rfl
  · cases h
    rfl

end Message

namespace Handshake

variable (hs : Handshake)

theorem parse_eq (x : Bytes) :
    HandshakeMsg.parse (hs.bytes ++ x) = HandshakeMsg.parseStart (hs.bytes ++ x) := by
  rw [Message.parse_drop (search_of_front (btStart_front hs x)), List.drop_zero, if_neg]
  simp [minBtMsgLength]

theorem parse_self : ∃ msg, HandshakeMsg.parse hs.bytes = .ok (some msg) ∧
    msg.infoHash = hs.infoHash ∧ msg.consumed = 68 ∧ msg.bitfield = .empty := by
  have hp := parse_eq hs []
  rw [List.append_nil] at hp
  rcases Message.parseStart_cases (r := hs.bytes) (by simp) with ⟨-, h, -⟩ | ⟨msg, hmsg, hc, hbf, -⟩ |
    ⟨h, -⟩
  · exact absurd hs.bytes_length h
  · have hhash := Message.parseStart_infoHash hmsg
    have hself := fromBuffer_hash hs []
    rw [List.append_nil, hhash] at hself
    exact ⟨msg, hp.trans hmsg, by simpa using hself, hc.trans hs.bytes_length, hbf⟩
  · simp at h

/-- A handshake alone in the buffer is accepted. -/
theorem parse_alone : Message.parse ⟨hs.infoHash, false⟩ hs.bytes = .ok ⟨hs.accept, 68⟩ := by
  obtain ⟨msg, hp, hi, hc, hbf⟩ := parse_self hs
  rw [Message.parse, hp]
  simp [bind, Except.bind, pure, Except.pure, Message.parseHandshake, hc, hi, hbf, accept,
    Bitfield.empty, Bitfield.size]

/-- Where the BITFIELD behind a handshake ends. -/
theorem bitfield_last (bf : Bytes) (hlen : (Msg.bitfield bf).body.length ≤ 2 * 1024 * 1024) :
    (73 + UInt32.ofNat (Msg.bitfield bf).body.length - 1).toNat =
      68 + (Msg.bitfield bf).encode.length := by
  have hnat := Message.sized_toNat (Message.sized_of_le (m := .bitfield bf) hlen)
  rw [UInt32.toNat_sub_of_le, UInt32.toNat_add, hnat, Msg.encode_length]
  · simp only [UInt32.reduceToNat]
    omega
  · rw [UInt32.le_iff_toNat_le, UInt32.toNat_add, hnat]
    simp only [UInt32.reduceToNat]
    omega

/-- With a complete BITFIELD behind it, it is accepted together with that. -/
theorem parse_with (bf x : Bytes) (hlen : (Msg.bitfield bf).body.length ≤ 2 * 1024 * 1024) :
    Message.parse ⟨hs.infoHash, false⟩ (hs.bytes ++ (Msg.bitfield bf).encode ++ x) =
      .ok ⟨if bf = [] then hs.accept else hs.acceptWith bf,
        68 + (Msg.bitfield bf).encode.length⟩ := by
  have hbody : (Msg.bitfield bf).body = 5 :: bf := rfl
  have hblen : (Msg.bitfield bf).body.length = bf.length + 1 := rfl
  have hp := parse_eq hs ((Msg.bitfield bf).encode ++ x)
  rw [← List.append_assoc] at hp
  have hrlen : (hs.bytes ++ (Msg.bitfield bf).encode ++ x).length =
      68 + (Msg.bitfield bf).encode.length + x.length := by
    simp only [List.length_append, hs.bytes_length]
  have hfield : fromBigEndian (hs.bytes ++ (Msg.bitfield bf).encode ++ x) 68 =
      .ok (UInt32.ofNat (Msg.bitfield bf).body.length) := by
    rw [Msg.encode, List.append_assoc, List.append_assoc]
    exact fromBigEndian_field _ _ _ hs.bytes_length (by omega)
  have hid : (hs.bytes ++ (Msg.bitfield bf).encode ++ x)[72]? = some 5 := by
    rw [List.append_assoc, List.getElem?_append_right (by simp), hs.bytes_length, Msg.encode, hbody]
    rfl
  have hlast := bitfield_last bf hlen
  rw [Message.parse, hp]
  rcases Message.parseStart_cases (r := hs.bytes ++ (Msg.bitfield bf).encode ++ x)
    (by rw [hrlen]; omega) with ⟨-, -, h⟩ | ⟨_, -, -, -, h⟩ | ⟨-, -, len, hl, h⟩
  · exact absurd ⟨by rw [hrlen, Msg.encode_length]; omega, hid⟩ h
  · rw [hrlen, Msg.encode_length] at h
    omega
  · rw [hfield] at hl
    cases hl
    rw [hlast] at h
    rcases h with ⟨_, -, -, h⟩ | ⟨-, h, -⟩ | ⟨msg, hmsg, hc, hbf, -⟩
    · omega
    · rw [Msg.encode_length] at h
      omega
    · have hhash := Message.parseStart_infoHash hmsg
      have hself := fromBuffer_hash hs ((Msg.bitfield bf).encode ++ x)
      rw [← List.append_assoc, hhash] at hself
      have hi : msg.infoHash = hs.infoHash := by simpa using hself
      have htake : ((hs.bytes ++ (Msg.bitfield bf).encode ++ x).take
          (68 + (Msg.bitfield bf).encode.length)).drop 73 = bf := by
        rw [List.take_left' (by simp only [List.length_append, hs.bytes_length]), Msg.encode, hbody,
          show ∀ l : Bytes, hs.bytes ++ (l ++ 5 :: bf) = (hs.bytes ++ l ++ [5]) ++ bf by simp,
          List.drop_left' (by simp)]
      rw [htake] at hbf
      rw [hmsg]
      by_cases hb0 : bf = []
      · subst hb0
        simp [bind, Except.bind, pure, Except.pure, Message.parseHandshake, hc, hi, hbf, accept,
          Bitfield.size]
      · simp [bind, Except.bind, pure, Except.pure, Message.parseHandshake, hc, hi, hbf, acceptWith,
          Bitfield.size, hb0]

/-- An incomplete BITFIELD behind it is waited for. -/
theorem waits (bf x b : Bytes) (hlen : (Msg.bitfield bf).body.length ≤ 2 * 1024 * 1024)
    (hb : b <+: hs.bytes ++ (Msg.bitfield bf).encode ++ x) (h73 : 73 ≤ b.length)
    (hlt : b.length < 68 + (Msg.bitfield bf).encode.length) : WaitsForBitfield b := by
  have hbody : (Msg.bitfield bf).body = 5 :: bf := rfl
  obtain ⟨q, rfl⟩ : ∃ q, b = hs.bytes ++ toBigEndian (UInt32.ofNat (Msg.bitfield bf).body.length) ++
      5 :: q := by
    have hpre : hs.bytes ++ toBigEndian (UInt32.ofNat (Msg.bitfield bf).body.length) ++ [5] <+: b := by
      refine List.prefix_of_prefix_length_le ?_ hb (by simpa using h73)
      rw [Msg.encode, hbody]
      exact ⟨bf ++ x, by simp⟩
    obtain ⟨q, hq⟩ := hpre
    exact ⟨q, by rw [← hq]; simp⟩
  have hlast := bitfield_last bf hlen
  have hs0 : search btStart (hs.bytes ++ toBigEndian (UInt32.ofNat (Msg.bitfield bf).body.length) ++
      5 :: q) = some 0 := by
    rw [List.append_assoc]
    exact search_of_front (btStart_front hs _)
  refine ⟨0, UInt32.ofNat (Msg.bitfield bf).body.length, hs0, h73, ?_, ?_, ?_⟩
  · rw [List.drop_zero, List.getElem?_append_right (by simp)]
    simp
  · rw [List.drop_zero, List.append_assoc]
    exact fromBigEndian_field _ _ _ hs.bytes_length (by omega)
  · rw [hlast]
    exact hlt

end Handshake

namespace PeerConnection

/-! ## Reads -/

theorem drain_turns (ctx : PeerContext) (s : Bool) {t t' : Nat} {b : Bytes} (h : b.length ≤ t)
    (h' : b.length ≤ t') : drain ctx t ⟨b, s⟩ = drain ctx t' ⟨b, s⟩ := by
  induction t generalizing t' b s with
  | zero =>
    have : b = [] := List.length_eq_zero_iff.1 (by omega)
    subst this
    rw [drain_empty, drain_empty]
  | succ t ih =>
    by_cases hne : b = []
    · subst hne
      rw [drain_empty, drain_empty]
    · have hpos := List.length_pos_iff.2 hne
      obtain ⟨t', rfl⟩ : ∃ n, t' = n + 1 := ⟨t' - 1, by omega⟩
      rw [drain, drain, if_neg (by simpa using hne), if_neg (by simpa using hne)]
      cases Message.parse ctx b with
      | error e => rfl
      | ok p =>
        by_cases hc : p.consumed = 0
        · simp only [hc, if_true]
        · simp only [hc, if_false]
          have hlt : (b.drop p.consumed).length ≤ t ∧ (b.drop p.consumed).length ≤ t' := by
            rw [List.length_drop]
            omega
          rw [ih _ hlt.1 hlt.2]

/-- A read whose first parse consumes is that parse, and then what it left read as a read of its
own. -/
theorem receive_go (ctx : PeerContext) {b r : Bytes} (reads : List Bytes) {p : Parsed}
    (hne : b ++ r ≠ []) (hp : Message.parse ctx (b ++ r) = .ok p) (hc : p.consumed ≠ 0)
    (hstop : p.calls.contains .stop = false) :
    receive ctx ⟨b, false⟩ (r :: reads) =
      ⟨p :: (receive ctx .init ((b ++ r).drop p.consumed :: reads)).parsed,
        (receive ctx .init ((b ++ r).drop p.consumed :: reads)).conn,
        (receive ctx .init ((b ++ r).drop p.consumed :: reads)).thrown⟩ := by
  have hpos := List.length_pos_iff.2 hne
  obtain ⟨t, ht⟩ : ∃ n, (b ++ r).length = n + 1 := ⟨(b ++ r).length - 1, by omega⟩
  have hd := drain_go hne t hp hc
  rw [← ht, hstop] at hd
  have hlt : ((b ++ r).drop p.consumed).length ≤ t := by
    rw [List.length_drop]
    omega
  have hturns := drain_turns ctx false hlt (Nat.le_refl _)
  simp only [hturns] at hd
  simp only [receive, handleResponse, Bool.false_eq_true, if_false, hd, PeerConnection.init,
    List.nil_append]
  split <;> rfl

theorem receive_idle (ctx : PeerContext) {b r : Bytes} (reads : List Bytes)
    (hp : b ++ r ≠ [] → Message.parse ctx (b ++ r) = .ok ⟨[], 0⟩) :
    (receive ctx ⟨b, false⟩ (r :: reads)).conn = (receive ctx ⟨b ++ r, false⟩ reads).conn ∧
      (receive ctx ⟨b, false⟩ (r :: reads)).thrown = (receive ctx ⟨b ++ r, false⟩ reads).thrown ∧
      trace (receive ctx ⟨b, false⟩ (r :: reads)).parsed =
        trace (receive ctx ⟨b ++ r, false⟩ reads).parsed := by
  by_cases hne : b ++ r = []
  · have hd : drain ctx (b ++ r).length ⟨b ++ r, false⟩ = ⟨[], ⟨b ++ r, false⟩, none⟩ := by
      rw [hne]
      rfl
    rw [receive_cons ctx b r reads hd rfl]
    exact ⟨rfl, rfl, rfl⟩
  · have hpos := List.length_pos_iff.2 hne
    obtain ⟨t, ht⟩ : ∃ n, (b ++ r).length = n + 1 := ⟨(b ++ r).length - 1, by omega⟩
    have hd := drain_stay hne t (hp hne) rfl
    rw [← ht] at hd
    rw [receive_cons ctx b r reads hd rfl]
    exact ⟨rfl, rfl, rfl⟩

/-- Every buffer a message is looked at in, when the messages start at position `h` of the bytes and
`c` of these are in the buffer already. -/
def CleanFrom (bytes : Bytes) (c h : Nat) (ms : List Msg) (reads : List Bytes) : Prop :=
  ∀ j < reads.length, ∀ k m, ms[k]? = some m →
    h + start ms k < c + boundary reads (j + 1) →
    c + boundary reads j < h + start ms (k + 1) →
    Message.CleanSlice m ((bytes.take (c + boundary reads (j + 1))).drop (h + start ms k))

/-- A read that does not reach the messages matters to none. -/
theorem cleanFrom_skip {bytes r : Bytes} {c h : Nat} {ms : List Msg} {reads : List Bytes}
    (hr : c + r.length ≤ h) :
    CleanFrom bytes c h ms (r :: reads) ↔ CleanFrom bytes (c + r.length) h ms reads := by
  constructor
  · intro hc j hj k m hm hk hk'
    have := hc (j + 1) (by simpa using hj) k m hm (by rw [boundary_cons]; omega)
      (by rw [boundary_cons]; omega)
    rwa [boundary_cons, ← Nat.add_assoc] at this
  · rintro hc (_ | j) hj k m hm hk hk'
    · rw [boundary_cons, boundary_zero] at hk
      omega
    · rw [boundary_cons] at hk hk' ⊢
      have := hc j (by simpa using hj) k m hm (by omega) (by omega)
      rwa [← Nat.add_assoc]

/-- A read that reaches past `front` holds it, and the first bytes behind it. -/
theorem read_front {front b r y : Bytes} {reads : List Bytes}
    (hbytes : b ++ (r :: reads).flatten = front ++ y) (hr : front.length ≤ (b ++ r).length) :
    ∃ q, b ++ r = front ++ q ∧ q ++ reads.flatten = y := by
  rw [List.flatten_cons, ← List.append_assoc] at hbytes
  obtain ⟨q, hq⟩ : front <+: b ++ r := by
    have hpre : b ++ r <+: front ++ y := by
      rw [← hbytes]
      exact List.prefix_append _ _
    exact List.prefix_of_prefix_length_le (List.prefix_append _ _) hpre hr
  refine ⟨q, hq.symm, ?_⟩
  rw [← hq, List.append_assoc] at hbytes
  exact List.append_cancel_left hbytes

/-- The read that reaches the messages brings their first bytes. -/
theorem cleanFrom_enter {front b r : Bytes} {ms : List Msg} {reads : List Bytes}
    (hbytes : b ++ (r :: reads).flatten = front ++ Msg.encodeAll ms)
    (hb : b.length < front.length) (hr : front.length ≤ (b ++ r).length) :
    CleanFrom (front ++ Msg.encodeAll ms) b.length front.length ms (r :: reads) ↔
      CleanReads ms [] ((b ++ r).drop front.length :: reads) := by
  obtain ⟨q, hq, hall⟩ := read_front hbytes hr
  have hall : (q :: reads).flatten = Msg.encodeAll ms := by rw [List.flatten_cons, hall]
  have hlen := congrArg List.length hq
  simp only [List.length_append] at hlen hr
  rw [hq, List.drop_left, cleanReads_iff (by rw [List.nil_append, hall]) (cut_nil ms)]
  simp only [List.nil_append, List.length_nil, Nat.zero_add, hall]
  have hbd : ∀ j, b.length + boundary (r :: reads) (j + 1) =
      front.length + boundary (q :: reads) (j + 1) := by
    intro j
    rw [boundary_cons, boundary_cons]
    omega
  have hslice : ∀ j k, ((front ++ Msg.encodeAll ms).take
      (b.length + boundary (r :: reads) (j + 1))).drop (front.length + start ms k) =
      ((Msg.encodeAll ms).take (boundary (q :: reads) (j + 1))).drop (start ms k) := by
    intro j k
    rw [hbd, List.take_length_add_append, List.drop_length_add_append]
  have hprev : ∀ j k, start ms k < start ms (k + 1) →
      (b.length + boundary (r :: reads) j < front.length + start ms (k + 1) ↔
        boundary (q :: reads) j < start ms (k + 1)) := by
    rintro (_ | j) k hk
    · simp only [boundary_zero]
      omega
    · rw [hbd]
      omega
  have hlt : ∀ k m, ms[k]? = some m → start ms k < start ms (k + 1) := by
    intro k m hm
    rw [start_succ hm, Msg.encode_length]
    omega
  refine forall_congr' fun j => forall_congr' fun hj => forall_congr' fun k =>
    forall_congr' fun m => forall_congr' fun hm => ?_
  rw [hslice, hbd, hprev j k (hlt k m hm), Nat.add_lt_add_iff_left]

end PeerConnection

namespace Handshake

/-- The handshake was accepted once, with or without a BITFIELD behind it, the connection is open and
the messages were delivered as each would be in a read of its own. -/
def Safe (hs : Handshake) (ms : List Msg) (x : Received) : Prop :=
  (trace x.parsed = ⟨hs.accept, 68⟩ :: ms.map Msg.frame ∨
    ∃ bf ms', ms = .bitfield bf :: ms' ∧ trace x.parsed =
      ⟨hs.acceptWith bf, 68 + (Msg.bitfield bf).encode.length⟩ :: ms'.map Msg.frame) ∧
  x.conn = ⟨[], false⟩ ∧ x.thrown = none

theorem safe_congr {hs : Handshake} {ms : List Msg} {x y : Received} (h1 : x.conn = y.conn)
    (h2 : x.thrown = y.thrown) (h3 : trace x.parsed = trace y.parsed) :
    Safe hs ms x ↔ Safe hs ms y := by
  rw [Safe, Safe, h1, h2, h3]

/-- A first parse that is none of the two acceptances is not safe. -/
theorem not_safe {hs : Handshake} {ms : List Msg} {x : Received} {p : Parsed} {q : List Parsed}
    (h : trace x.parsed = p :: q) (h1 : p ≠ ⟨hs.accept, 68⟩)
    (h2 : ∀ bf ms', ms = .bitfield bf :: ms' →
      p ≠ ⟨hs.acceptWith bf, 68 + (Msg.bitfield bf).encode.length⟩) : ¬Safe hs ms x := by
  rintro ⟨hx | ⟨bf, ms', hms, hx⟩, -⟩
  · rw [h] at hx
    exact h1 (List.cons.inj hx).1
  · rw [h] at hx
    exact h2 bf ms' hms (List.cons.inj hx).1

theorem accept_ne_acceptWith (hs : Handshake) (bf : Bytes) : hs.accept ≠ hs.acceptWith bf := by
  intro h
  have := congrArg List.length h
  simp [accept, acceptWith] at this

section
variable {hs : Handshake} {b r : Bytes} {ms : List Msg} {reads : List Bytes}
  (hlen : ∀ m ∈ ms, m.body.length ≤ 2 * 1024 * 1024)
include hlen

/-- The messages behind what a first parse consumed. -/
theorem delivers_after {front : Bytes}
    (hbytes : b ++ (r :: reads).flatten = front ++ Msg.encodeAll ms)
    (hb : b.length < front.length) (hr : front.length ≤ (b ++ r).length) (ctx : PeerContext) :
    Delivers (receive ctx .init ((b ++ r).drop front.length :: reads)) ms [] ↔
      CleanFrom (front ++ Msg.encodeAll ms) b.length front.length ms (r :: reads) := by
  rw [cleanFrom_enter hbytes hb hr]
  have hall : [] ++ ((b ++ r).drop front.length :: reads).flatten = Msg.encodeAll ms := by
    have h := congrArg (List.drop front.length) hbytes
    rw [List.drop_left, List.flatten_cons, ← List.append_assoc,
      List.drop_append_of_le_length hr] at h
    rw [List.nil_append, List.flatten_cons]
    exact h
  have h := receive_delivers ctx ((b ++ r).drop front.length :: reads) (sized_of_max hlen)
    (b := []) (by rw [hall]) (cut_nil ms)
  rw [hall, split_all] at h
  exact h

theorem safe_alone (hbytes : b ++ (r :: reads).flatten = hs.bytes ++ Msg.encodeAll ms)
    (hb : b.length < 68) (hr : (b ++ r).length = 68) :
    Safe hs ms (receive ⟨hs.infoHash, false⟩ ⟨b, false⟩ (r :: reads)) ↔
      CleanFrom (hs.bytes ++ Msg.encodeAll ms) b.length 68 ms (r :: reads) := by
  have hbr : b ++ r = hs.bytes := by
    rw [List.flatten_cons, ← List.append_assoc] at hbytes
    exact (List.append_inj hbytes (by rw [hr, hs.bytes_length])).1
  have hd := delivers_after hlen hbytes (by rwa [hs.bytes_length])
    (by rw [hs.bytes_length, hr]) ⟨hs.infoHash, false⟩
  rw [hs.bytes_length] at hd
  have hp := parse_alone hs
  rw [← hbr] at hp
  rw [← hd, receive_go _ reads (by rintro h; rw [h] at hr; cases hr) hp (by simp)
    (by simp [accept])]
  have hne : (⟨hs.accept, 68⟩ : Parsed) ≠ ⟨[], 0⟩ := by simp [accept]
  unfold Safe Delivers
  rw [trace_cons hne]
  constructor
  · rintro ⟨h | ⟨bf, ms', -, h⟩, h2⟩
    · exact ⟨(List.cons.inj h).2, h2⟩
    · exact absurd (congrArg Parsed.calls (List.cons.inj h).1) (accept_ne_acceptWith hs bf)
  · intro hin
    obtain ⟨h, h2⟩ := hin
    exact ⟨.inl (by rw [h]), h2⟩

omit hlen in
theorem safe_with {bf : Bytes} (hlen : ∀ m ∈ Msg.bitfield bf :: ms, m.body.length ≤ 2 * 1024 * 1024)
    (hbytes : b ++ (r :: reads).flatten =
      hs.bytes ++ (Msg.bitfield bf).encode ++ Msg.encodeAll ms)
    (hb : b.length < 68 + (Msg.bitfield bf).encode.length)
    (hr : 68 + (Msg.bitfield bf).encode.length ≤ (b ++ r).length) :
    Safe hs (.bitfield bf :: ms) (receive ⟨hs.infoHash, false⟩ ⟨b, false⟩ (r :: reads)) ↔
      bf ≠ [] ∧ CleanFrom (hs.bytes ++ (Msg.bitfield bf).encode ++ Msg.encodeAll ms) b.length
        (68 + (Msg.bitfield bf).encode.length) ms (r :: reads) := by
  have hfront : (hs.bytes ++ (Msg.bitfield bf).encode).length =
      68 + (Msg.bitfield bf).encode.length := by rw [List.length_append, hs.bytes_length]
  have hd := delivers_after (fun m hm => hlen m (by simp [hm])) hbytes (by rwa [hfront])
    (by rwa [hfront]) ⟨hs.infoHash, false⟩
  rw [hfront] at hd
  obtain ⟨x, hx, -⟩ := read_front hbytes (by rwa [hfront])
  have hp := parse_with hs bf x (hlen _ (by simp))
  rw [← hx] at hp
  have hne : b ++ r ≠ [] := by
    intro h
    rw [h] at hr
    simp at hr
  have hstop : (if bf = [] then hs.accept else hs.acceptWith bf).contains .stop = false := by
    split <;> simp [accept, acceptWith]
  have hgo := receive_go _ reads hne hp (by simp) hstop
  have hidle : (⟨if bf = [] then hs.accept else hs.acceptWith bf,
      68 + (Msg.bitfield bf).encode.length⟩ : Parsed) ≠ ⟨[], 0⟩ := by simp
  rw [hgo]
  by_cases h0 : bf = []
  · refine iff_of_false (not_safe (trace_cons hidle _) ?_ ?_) fun h => h.1 h0
    · simp
    · rintro bf' ms' hms
      cases hms
      simp [h0, accept_ne_acceptWith]
  · rw [← hd, and_iff_right h0]
    unfold Safe Delivers
    rw [trace_cons hidle]
    simp only [if_neg h0]
    constructor
    · rintro ⟨h | ⟨bf', ms', hms, h⟩, h2⟩
      · exact absurd (congrArg Parsed.calls (List.cons.inj h).1).symm (accept_ne_acceptWith hs bf)
      · cases hms
        exact ⟨(List.cons.inj h).2, h2⟩
    · intro hin
      obtain ⟨h, h2⟩ := hin
      exact ⟨.inr ⟨bf, ms, rfl, by rw [h]⟩, h2⟩

end

/-- While the BITFIELD is incomplete nothing happens. -/
theorem safe_waiting {hs : Handshake} {bf : Bytes} {ms : List Msg} (reads : List Bytes) {b : Bytes}
    (hlen : ∀ m ∈ Msg.bitfield bf :: ms, m.body.length ≤ 2 * 1024 * 1024)
    (hbytes : b ++ reads.flatten = hs.bytes ++ (Msg.bitfield bf).encode ++ Msg.encodeAll ms)
    (hlo : 73 ≤ b.length) (hb : b.length < 68 + (Msg.bitfield bf).encode.length) :
    Safe hs (.bitfield bf :: ms) (receive ⟨hs.infoHash, false⟩ ⟨b, false⟩ reads) ↔
      CleanFrom (hs.bytes ++ (Msg.bitfield bf).encode ++ Msg.encodeAll ms) b.length
        (68 + (Msg.bitfield bf).encode.length) ms reads := by
  induction reads generalizing b with
  | nil =>
    have := congrArg List.length hbytes
    simp at this
    simp at hb
    omega
  | cons r reads ih =>
    by_cases hr : 68 + (Msg.bitfield bf).encode.length ≤ (b ++ r).length
    · have h0 : bf ≠ [] := by
        rintro rfl
        simp [Msg.body] at hb
        omega
      rw [safe_with hlen hbytes hb hr, and_iff_right h0]
    · have hpre : b ++ r <+: hs.bytes ++ (Msg.bitfield bf).encode ++ Msg.encodeAll ms := by
        rw [← hbytes, List.flatten_cons, ← List.append_assoc]
        exact List.prefix_append _ _
      have hlt := Nat.lt_of_not_le hr
      have hlo' : 73 ≤ (b ++ r).length := by
        rw [List.length_append]
        omega
      have hw := waits hs bf _ _ (hlen _ (by simp)) hpre hlo' hlt
      obtain ⟨h1, h2, h3⟩ := receive_idle ⟨hs.infoHash, false⟩ reads
        fun _ => Message.parse_of_waits ⟨hs.infoHash, false⟩ hw
      rw [safe_congr h1 h2 h3, ih (by rw [← hbytes, List.flatten_cons, List.append_assoc]) hlo' hlt,
        cleanFrom_skip (by rw [List.length_append] at hlt; omega), List.length_append]

/-- The byte behind the length of the first message. -/
theorem byte_72 (hs : Handshake) {ms : List Msg}
    (hlen : ∀ m ∈ ms, m.body.length ≤ 2 * 1024 * 1024) :
    (hs.bytes ++ Msg.encodeAll ms)[72]? = some 5 ↔ ∃ bf ms', ms = .bitfield bf :: ms' := by
  rw [List.getElem?_append_right (by simp), hs.bytes_length]
  cases ms with
  | nil => simp
  | cons m ms =>
    rw [Msg.encodeAll_cons, Msg.encode, List.append_assoc,
      List.getElem?_append_right (by simp), toBigEndian_length]
    cases m with
    | keepAlive =>
      cases ms with
      | nil => simp [Msg.body]
      | cons m' ms =>
        -- the high byte of the next length prefix
        have hmax : m'.body.length ≤ 2097152 := hlen m' (by simp)
        have hnat : (UInt32.ofNat m'.body.length).toNat = m'.body.length :=
          Message.sized_toNat (Message.sized_of_le (m := m') hmax)
        have hbyte : ((UInt32.ofNat m'.body.length >>> 24) &&& 0xFF).toUInt8 = 0 := by
          have hshift : UInt32.ofNat m'.body.length >>> 24 = 0 := by
            apply UInt32.toNat.inj
            rw [UInt32.toNat_shiftRight, hnat]
            simp [Nat.shiftRight_eq_div_pow]
            omega
          rw [hshift]
          rfl
        have h0 : (Msg.keepAlive.body ++ Msg.encodeAll (m' :: ms))[72 - 68 - 4]? = some 0 := by
          rw [Msg.encodeAll_cons, Msg.encode]
          exact congrArg some hbyte
        rw [h0]
        simp
    | bitfield bf => simp [Msg.body]
    | unsupported id h payload =>
      simp [Msg.body]
      rintro rfl
      exact absurd h (by decide)
    | _ => simp [Msg.body]

/-- The messages behind a BITFIELD whose id has come. -/
theorem safe_bitfield {hs : Handshake} {bf : Bytes} {ms : List Msg} (reads : List Bytes)
    {b r : Bytes} (hlen : ∀ m ∈ Msg.bitfield bf :: ms, m.body.length ≤ 2 * 1024 * 1024)
    (hbytes : b ++ (r :: reads).flatten = hs.bytes ++ Msg.encodeAll (.bitfield bf :: ms))
    (hb : b.length < 4) (h73 : 73 ≤ (b ++ r).length) :
    Safe hs (.bitfield bf :: ms) (receive ⟨hs.infoHash, false⟩ ⟨b, false⟩ (r :: reads)) ↔
      bf ≠ [] ∧ CleanFrom (hs.bytes ++ Msg.encodeAll (.bitfield bf :: ms)) b.length
        (68 + (Msg.bitfield bf).encode.length) ms (r :: reads) := by
  rw [Msg.encodeAll_cons, ← List.append_assoc] at hbytes ⊢
  by_cases hr : 68 + (Msg.bitfield bf).encode.length ≤ (b ++ r).length
  · rw [safe_with hlen hbytes (by rw [Msg.encode_length]; omega) hr]
  · have hlt := Nat.lt_of_not_le hr
    have hadd : (b ++ r).length = b.length + r.length := List.length_append
    have hbytes' : (b ++ r) ++ reads.flatten =
        hs.bytes ++ (Msg.bitfield bf).encode ++ Msg.encodeAll ms := by
      rw [← hbytes, List.flatten_cons, List.append_assoc]
    have hpre : b ++ r <+: hs.bytes ++ (Msg.bitfield bf).encode ++ Msg.encodeAll ms := by
      rw [← hbytes']
      exact List.prefix_append _ _
    have h0 : bf ≠ [] := by
      rintro rfl
      simp [Msg.body] at hlt h73
      omega
    have hw := waits hs bf _ _ (hlen _ (by simp)) hpre h73 hlt
    obtain ⟨h1, h2, h3⟩ := receive_idle ⟨hs.infoHash, false⟩ reads
      fun _ => Message.parse_of_waits ⟨hs.infoHash, false⟩ hw
    rw [safe_congr h1 h2 h3, safe_waiting reads hlen hbytes' h73 hlt, and_iff_right h0,
      cleanFrom_skip (by omega), hadd]

/-- A first buffer of four bytes or more that is no handshake closes the connection. -/
theorem not_safe_rejected {hs : Handshake} {ms : List Msg} (reads : List Bytes) {b r : Bytes}
    (hpre : b ++ r <+: hs.bytes ++ Msg.encodeAll ms) (h4 : 4 ≤ (b ++ r).length)
    (hl : ¬LooksLikeHandshake (b ++ r)) :
    ¬Safe hs ms (receive ⟨hs.infoHash, false⟩ ⟨b, false⟩ (r :: reads)) := by
  have hp := parse_rejected hpre ⟨hs.infoHash, false⟩ h4 hl
  have hne : b ++ r ≠ [] := by
    intro h
    rw [h] at h4
    simp at h4
  obtain ⟨t, ht⟩ : ∃ n, (b ++ r).length = n + 1 := ⟨(b ++ r).length - 1, by omega⟩
  have hd := drain_stay hne t hp rfl
  rw [← ht] at hd
  rw [receive_cons _ b r reads hd rfl]
  refine not_safe (p := ⟨[.stop, .disconnected], 0⟩) (q := _)
    (trace_cons (by simp) _) (by simp) ?_
  intro bf ms' _
  simp [acceptWith]

/-- The read that brings the fourth byte comes first. -/
theorem exists_first {c : Nat} {r : Bytes} (reads : List Bytes) (hc : c < 4)
    (hr : 4 ≤ c + r.length) (P : Nat → Prop) :
    (∃ i < (r :: reads).length, c + boundary (r :: reads) i < 4 ∧
      P (c + boundary (r :: reads) (i + 1))) ↔ P (c + r.length) := by
  constructor
  · rintro ⟨_ | i, hi, h4, h⟩
    · rwa [boundary_cons, boundary_zero, Nat.add_zero] at h
    · rw [boundary_cons] at h4
      omega
  · exact fun h => ⟨0, by simp, by simpa using hc, by
      rwa [boundary_cons, boundary_zero, Nat.add_zero]⟩

/-- It comes later than a read that does not bring it. -/
theorem exists_later {c : Nat} {r : Bytes} (reads : List Bytes) (hr : c + r.length < 4)
    {P : Nat → Prop} (hP : ∀ n, P n → 4 ≤ n) :
    (∃ i < (r :: reads).length, c + boundary (r :: reads) i < 4 ∧
      P (c + boundary (r :: reads) (i + 1))) ↔
    ∃ i < reads.length, c + r.length + boundary reads i < 4 ∧
      P (c + r.length + boundary reads (i + 1)) := by
  constructor
  · rintro ⟨_ | i, hi, h4, h⟩
    · rw [boundary_cons, boundary_zero, Nat.add_zero] at h
      exact absurd (hP _ h) (by omega)
    · rw [boundary_cons, ← Nat.add_assoc] at h4 h
      exact ⟨i, by simpa using hi, h4, h⟩
  · intro hin
    obtain ⟨i, hi, h4, h⟩ := hin
    refine ⟨i + 1, by simpa using hi, ?_⟩
    rw [boundary_cons, boundary_cons, ← Nat.add_assoc, ← Nat.add_assoc]
    exact ⟨h4, h⟩

theorem safe_iff {hs : Handshake} {ms : List Msg} (reads : List Bytes) {b : Bytes}
    (hlen : ∀ m ∈ ms, m.body.length ≤ 2 * 1024 * 1024)
    (hbytes : b ++ reads.flatten = hs.bytes ++ Msg.encodeAll ms) (hb : b.length < 4) :
    Safe hs ms (receive ⟨hs.infoHash, false⟩ ⟨b, false⟩ reads) ↔
      ∃ i < reads.length, b.length + boundary reads i < 4 ∧
        ((b.length + boundary reads (i + 1) = 68 ∧
            CleanFrom (hs.bytes ++ Msg.encodeAll ms) b.length 68 ms reads) ∨
          (73 ≤ b.length + boundary reads (i + 1) ∧
            ∃ bf ms', ms = .bitfield bf :: ms' ∧ bf ≠ [] ∧
              CleanFrom (hs.bytes ++ Msg.encodeAll ms) b.length
                (68 + (Msg.bitfield bf).encode.length) ms' reads)) := by
  induction reads generalizing b with
  | nil =>
    have := congrArg List.length hbytes
    simp at this
    omega
  | cons r reads ih =>
    have hbytes' : (b ++ r) ++ reads.flatten = hs.bytes ++ Msg.encodeAll ms := by
      rw [← hbytes, List.flatten_cons, List.append_assoc]
    have hpre : b ++ r <+: hs.bytes ++ Msg.encodeAll ms := by
      rw [← hbytes']
      exact List.prefix_append _ _
    have hadd : (b ++ r).length = b.length + r.length := List.length_append
    by_cases h4 : (b ++ r).length < 4
    · -- too short for anything
      obtain ⟨h1, h2, h3⟩ := receive_idle ⟨hs.infoHash, false⟩ reads
        fun _ => parse_short hpre ⟨hs.infoHash, false⟩ h4
      have hskip {h : Nat} (hh : 68 ≤ h) (ms' : List Msg) :
          CleanFrom (hs.bytes ++ Msg.encodeAll ms) b.length h ms' (r :: reads) ↔
            CleanFrom (hs.bytes ++ Msg.encodeAll ms) (b.length + r.length) h ms' reads :=
        cleanFrom_skip (by omega)
      rw [safe_congr h1 h2 h3, ih hbytes' h4, hadd,
        exists_later reads (P := fun n => (n = 68 ∧ _) ∨ (73 ≤ n ∧ _)) (by omega) (by omega)]
      simp only [hskip (Nat.le_refl 68), hskip (Nat.le_add_right 68 _)]
    · -- this read decides
      rw [exists_first reads hb (by omega) fun n => (n = 68 ∧ _) ∨ (73 ≤ n ∧ _), ← hadd]
      have hid : 73 ≤ (b ++ r).length →
          ((b ++ r)[72]? = some 5 ↔ ∃ bf ms', ms = .bitfield bf :: ms') := by
        intro h73
        rw [← byte_72 hs hlen, ← hbytes',
          List.getElem?_append_left (show 72 < (b ++ r).length by omega)]
      by_cases h68 : (b ++ r).length = 68
      · rw [safe_alone hlen hbytes (by omega) h68]
        exact ⟨fun h => .inl ⟨h68, h⟩, fun h => h.elim (·.2) fun h => absurd h.1 (by omega)⟩
      by_cases hl : LooksLikeHandshake (b ++ r)
      · obtain ⟨h73, h5⟩ := ((looks_iff hpre).1 hl).resolve_left h68
        obtain ⟨bf, ms, rfl⟩ := (hid h73).1 h5
        rw [safe_bitfield reads hlen hbytes hb h73]
        constructor
        · exact fun h => .inr ⟨h73, bf, ms, rfl, h⟩
        · intro h
          rcases h with h | ⟨-, bf', ms', hms, h⟩
          · exact absurd h.1 h68
          · cases hms
            exact h
      · -- the connection is closed
        refine iff_of_false (not_safe_rejected reads hpre (by omega) hl) ?_
        intro h
        rcases h with ⟨h, -⟩ | ⟨h73, bf, ms', hms, -⟩
        · exact h68 h
        · exact hl ((looks_iff hpre).2 (.inr ⟨h73, (hid h73).2 ⟨bf, ms', hms⟩⟩))

end Handshake

/-- On an outgoing connection a handshake and what follows are read safely exactly when the first
read boundary from the fourth byte on is the end of the handshake, or lies behind the id of a
non-empty BITFIELD that follows it, and the messages after these are only looked at in clean
slices. -/
theorem handshake_segmentation_iff (hs : Handshake) (ms : List Msg) (reads : List Bytes)
    (hbytes : reads.flatten = hs.bytes ++ Msg.encodeAll ms)
    (hlen : ∀ m ∈ ms, m.body.length ≤ 2 * 1024 * 1024) :
    hs.Safe ms (receive ⟨hs.infoHash, false⟩ .init reads) ↔
      ∃ i < reads.length, boundary reads i < 4 ∧
        ((boundary reads (i + 1) = 68 ∧ CleanFrom reads.flatten 0 68 ms reads) ∨
          (73 ≤ boundary reads (i + 1) ∧ ∃ bf ms', ms = .bitfield bf :: ms' ∧ bf ≠ [] ∧
            CleanFrom reads.flatten 0 (68 + (Msg.bitfield bf).encode.length) ms' reads)) := by
  have h := Handshake.safe_iff reads (b := []) hlen hbytes (by simp)
  simp only [List.length_nil, Nat.zero_add] at h
  rw [PeerConnection.init, h, hbytes]

/-- A handshake without fields of its own, for examples. -/
def zeroHandshake : Handshake :=
  ⟨List.replicate 8 0, .zero, List.replicate 20 0, rfl, Sha1.zero.size⟩

/-- A handshake that comes in two reads closes the connection. -/
theorem handshake_split_closed : ¬∀ (hs : Handshake) (ms : List Msg) (reads : List Bytes),
    reads.flatten = hs.bytes ++ Msg.encodeAll ms →
    (∀ m ∈ ms, m.body.length ≤ 2 * 1024 * 1024) →
    hs.Safe ms (receive ⟨hs.infoHash, false⟩ .init reads) := by
  intro h
  have hx := (h zeroHandshake [] [zeroHandshake.bytes.take 10, zeroHandshake.bytes.drop 10]
    (by decide) (by simp)).2.1
  revert hx
  decide +kernel

theorem handshake_alone_accepted : zeroHandshake.Safe [.unchoke []]
    (receive ⟨zeroHandshake.infoHash, false⟩ .init
      [zeroHandshake.bytes, (Msg.unchoke []).encode]) :=
  (handshake_segmentation_iff zeroHandshake [.unchoke []]
    [zeroHandshake.bytes, (Msg.unchoke []).encode] (by decide) (by decide)).2
    ⟨0, by decide, by decide, .inl ⟨by decide, by
      rintro (_ | _ | j) hj (_ | k) m hm hk hk'
      · exact absurd hk (by decide)
      · cases hm
      · cases hm
        exact (cleanSlice_iff (by decide +kernel) (by decide)).2 fun _ => .inl rfl
      · cases hm
      · exact absurd hj (by simp)
      · exact absurd hj (by simp)⟩⟩

end Zit
