import Zit.Messages
import Zit.Lib.Fallible

/-!
# One message at the front of a buffer

The peer wire protocol as typed messages (`Msg`), their bytes and what they ask of the peer, and
what `Message.parse` makes of a buffer that starts with one: a complete message is parsed as its
own frame and a cut one is waited for (`parse_frame`, `parse_cut`) when the buffer is `CleanSlice`;
otherwise the parse does something no message asks for (`parse_deviant`).
-/

set_option autoImplicit false

namespace Zit

open Lib

/-! ## Messages -/

/-- A length-prefixed message. The ids without a payload of their own may carry any bytes. -/
inductive Msg
  | keepAlive
  | choke (rest : Bytes)
  | unchoke (rest : Bytes)
  | interested (rest : Bytes)
  | notInterested (rest : Bytes)
  | have (id : UInt32)
  | bitfield (bf : Bytes)
  | request (index begin length : UInt32)
  | piece (index offset : UInt32) (data : Bytes)
  | unsupported (id : UInt8) (h : 8 ≤ id) (payload : Bytes)

namespace Msg

/-- The bytes after the length prefix. -/
def body : Msg → Bytes
  | keepAlive => []
  | choke rest => 0 :: rest
  | unchoke rest => 1 :: rest
  | interested rest => 2 :: rest
  | notInterested rest => 3 :: rest
  | .have id => 4 :: toBigEndian id
  | bitfield bf => 5 :: bf
  | request index begin length =>
    6 :: (toBigEndian index ++ toBigEndian begin ++ toBigEndian length)
  | piece index offset data => 7 :: (toBigEndian index ++ toBigEndian offset ++ data)
  | unsupported id _ payload => id :: payload

def encode (m : Msg) : Bytes := toBigEndian (UInt32.ofNat m.body.length) ++ m.body

def encodeAll (ms : List Msg) : Bytes := ms.flatMap encode

/-- What a supported message asks of the peer. -/
def calls : Msg → List PeerCall
  | keepAlive => []
  | choke _ => [.setChoking true]
  | unchoke _ => [.setChoking false]
  | interested _ => [.setInterested true]
  | notInterested _ => [.setInterested false]
  | .have id => [.have id]
  | bitfield bf => [.setRemotePieces ⟨bf⟩]
  | request index begin length => [.request index begin length]
  | piece index offset data => [.setBlock index offset data]
  | unsupported _ _ _ => []

def supported : Msg → Bool
  | unsupported _ _ _ => false
  | _ => true

/-- The parse of a message on its own: its calls, and exactly its bytes. -/
def frame (m : Msg) : Parsed := ⟨m.calls, m.encode.length⟩

/-- The length prefix can hold the length. -/
def Sized (m : Msg) : Prop := m.body.length < 2 ^ 32

@[simp] theorem encode_length (m : Msg) : m.encode.length = 4 + m.body.length := by
  simp [encode]

@[simp] theorem encodeAll_nil : encodeAll [] = [] := rfl

@[simp] theorem encodeAll_cons (m : Msg) (ms : List Msg) :
    encodeAll (m :: ms) = m.encode ++ encodeAll ms := by
  simp [encodeAll]

theorem encodeAll_append (ms ms' : List Msg) :
    encodeAll (ms ++ ms') = encodeAll ms ++ encodeAll ms' := by
  simp [encodeAll]

theorem frame_ne_idle (m : Msg) : m.frame ≠ ⟨[], 0⟩ := by
  intro h
  have := congrArg Parsed.consumed h
  simp [frame] at this

/-- A message asks for nothing a handshake or a closed connection causes. -/
theorem calls_of_mem {m : Msg} {c : PeerCall} (h : c ∈ m.calls) :
    (∀ i, c ≠ .verifyInfoHash i) ∧ c ≠ .stop := by
  cases m <;> simp_all [calls]

end Msg

/-! ## Length prefixes -/

theorem fromBigEndian_front (v : UInt32) (q : Bytes) : fromBigEndian (toBigEndian v ++ q) 0 = .ok v :=
  fromBigEndian_toBigEndian [] q v (by simp)

/-- A field of a message body. -/
theorem fromBigEndian_field (p q : Bytes) (v : UInt32) {n : Nat} (hn : p.length = n)
    (h : n < 2 ^ 63) : fromBigEndian (p ++ (toBigEndian v ++ q)) n = .ok v := by
  subst hn
  rw [← List.append_assoc]
  exact fromBigEndian_toBigEndian p q v h

theorem take_four (b c : Bytes) (v : UInt32) (hb : b <+: toBigEndian v ++ c) (h4 : 4 ≤ b.length) :
    ∃ q, b = toBigEndian v ++ q := by
  obtain ⟨q, hq⟩ := List.prefix_of_prefix_length_le (List.prefix_append (toBigEndian v) c) hb
    (by simpa using h4)
  exact ⟨q, hq.symm⟩

namespace Message

/-! ## A message that is no handshake -/

theorem toPeerWireId_unsupported {id : UInt8} (h : 8 ≤ id) :
    toPeerWireId id = .cancel ∨ toPeerWireId id = .port ∨ toPeerWireId id = .unknown := by
  have hall : ∀ n < 256, 8 ≤ n → (toPeerWireId (UInt8.ofNat n) = .cancel ∨
      toPeerWireId (UInt8.ofNat n) = .port ∨ toPeerWireId (UInt8.ofNat n) = .unknown) := by
    decide +kernel
  have hid : UInt8.ofNat id.toNat = id := UInt8.ofNat_toNat
  rw [← hid]
  exact hall id.toNat id.toNat_lt (UInt8.le_iff_toNat_le.1 h)

theorem sized_toNat {m : Msg} (hs : m.Sized) :
    (UInt32.ofNat m.body.length).toNat = m.body.length := by
  rw [UInt32.toNat_ofNat']
  exact Nat.mod_eq_of_lt hs

theorem sized_of_le {m : Msg} (h : m.body.length ≤ maxIncomingDataSize.toNat) : m.Sized := by
  have : maxIncomingDataSize.toNat = 2097152 := rfl
  unfold Msg.Sized
  omega

/-- A length prefix above the maximum closes the connection, whatever follows it. -/
theorem parsePrefixed_long {m : Msg} {b r : Bytes} (hs : m.Sized) (hb : b <+: m.encode ++ r)
    (h4 : 4 ≤ b.length) (hlong : maxIncomingDataSize.toNat < m.body.length) :
    parsePrefixed b = .ok ⟨[.stop, .disconnected], 0⟩ := by
  obtain ⟨q, rfl⟩ := take_four b (m.body ++ r) _ (by simpa [Msg.encode] using hb) h4
  have hgt : UInt32.ofNat m.body.length > maxIncomingDataSize := by
    rw [gt_iff_lt, UInt32.lt_iff_toNat_lt, sized_toNat hs]
    exact hlong
  unfold parsePrefixed
  rw [if_pos (by simp), fromBigEndian_front]
  simp [bind, Except.bind, hgt, pure, Except.pure]

section
variable {m : Msg} (hm : m.body.length ≤ maxIncomingDataSize.toNat)
include hm

theorem prefix_not_long : ¬UInt32.ofNat m.body.length > maxIncomingDataSize := by
  rw [gt_iff_lt, UInt32.lt_iff_toNat_lt, sized_toNat (sized_of_le hm)]
  omega

theorem prefix_add_four : (UInt32.ofNat m.body.length + 4).toNat = m.encode.length := by
  have : maxIncomingDataSize.toNat = 2097152 := rfl
  rw [UInt32.toNat_add, sized_toNat (sized_of_le hm), Msg.encode_length,
    show (4 : UInt32).toNat = 4 from rfl]
  omega

/-- A message that is not there yet is waited for. -/
theorem parsePrefixed_cut {b r : Bytes} (hb : b <+: m.encode ++ r)
    (hlen : b.length < m.encode.length) : parsePrefixed b = .ok ⟨[], 0⟩ := by
  unfold parsePrefixed
  by_cases h4 : b.length ≥ 4
  · rw [if_pos h4]
    obtain ⟨q, rfl⟩ := take_four b (m.body ++ r) _ (by simpa [Msg.encode] using hb) h4
    rw [fromBigEndian_front]
    have hadd := prefix_add_four hm
    have hgt : (UInt32.ofNat m.body.length + 4).toNat >
        (toBigEndian (UInt32.ofNat m.body.length) ++ q).length := by omega
    simp only [bind, Except.bind]
    rw [if_neg (prefix_not_long hm), if_pos hgt]
    rfl
  · rw [if_neg h4]

theorem parseId_complete (r : Bytes) {id : UInt8} {payload : Bytes} (hb : m.body = id :: payload) :
    parseId (m.encode ++ r) (UInt32.ofNat m.body.length) id =
      .ok (if m.supported then m.frame else ⟨[], (m.encode ++ r).length⟩) := by
  have hadd := prefix_add_four hm
  have hlen : (UInt32.ofNat m.body.length).toNat = m.body.length := sized_toNat (sized_of_le hm)
  have hbytes : m.encode ++ r =
      (toBigEndian (UInt32.ofNat m.body.length) ++ [id]) ++ (payload ++ r) := by
    simp [Msg.encode, hb]
  generalize hp : toBigEndian (UInt32.ofNat m.body.length) ++ [id] = front at hbytes
  have hfront : front.length = 5 := by rw [← hp]; rfl
  cases m with
  | keepAlive => cases hb
  | choke rest | unchoke rest | interested rest | notInterested rest =>
    cases hb
    rw [parseId, show toPeerWireId _ = _ from rfl]
    simp only [hadd]
    rfl
  | «have» v =>
    cases hb
    have h5 := fromBigEndian_field front r v hfront (by omega)
    rw [parseId, show toPeerWireId 4 = .have from rfl, hbytes]
    simp only [h5, bind, Except.bind]
    rfl
  | bitfield bf =>
    cases hb
    have hdrop : ((front ++ (payload ++ r)).drop 5).take payload.length = payload := by
      rw [List.drop_left' hfront, List.take_left]
    rw [parseId, show toPeerWireId 5 = .bitfield from rfl, hbytes]
    simp only [hadd, hlen, hdrop,
      show (Msg.bitfield payload).body.length - 1 = payload.length by simp [Msg.body]]
    rfl
  | request index begin length =>
    cases hb
    have h5 := fromBigEndian_field front (toBigEndian begin ++ (toBigEndian length ++ r)) index
      hfront (by omega)
    have h9 := fromBigEndian_field (front ++ toBigEndian index) (toBigEndian length ++ r) begin
      (n := 9) (by simp [hfront]) (by omega)
    have h13 := fromBigEndian_field (front ++ toBigEndian index ++ toBigEndian begin) r length
      (n := 13) (by simp [hfront]) (by omega)
    simp only [List.append_assoc] at h5 h9 h13 hbytes
    rw [parseId, show toPeerWireId 6 = .request from rfl, hbytes]
    simp only [h5, h9, h13, hadd, bind, Except.bind]
    rfl
  | piece index offset data =>
    cases hb
    have h5 := fromBigEndian_field front (toBigEndian offset ++ (data ++ r)) index hfront (by omega)
    have h9 := fromBigEndian_field (front ++ toBigEndian index) (data ++ r) offset
      (n := 9) (by simp [hfront]) (by omega)
    have hdrop : ((front ++ (toBigEndian index ++ (toBigEndian offset ++ (data ++ r)))).drop 13).take
        data.length = data := by
      rw [show front ++ (toBigEndian index ++ (toBigEndian offset ++ (data ++ r))) =
        (front ++ toBigEndian index ++ toBigEndian offset) ++ (data ++ r) by simp,
        List.drop_left' (by simp [hfront]), List.take_left]
    have hnine : ¬UInt32.ofNat (Msg.piece index offset data).body.length < 9 := by
      rw [UInt32.lt_iff_toNat_lt, hlen, show (9 : UInt32).toNat = 9 from rfl]
      simp [Msg.body]
      omega
    have hdata : (Msg.piece index offset data).body.length - 9 = data.length := by
      simp [Msg.body]
      omega
    simp only [List.append_assoc] at h5 h9 hbytes
    rw [parseId, show toPeerWireId 7 = .piece from rfl, hbytes]
    simp only [h5, h9, hnine, hlen, hdata, hdrop, hadd, bind, Except.bind, if_false]
    rfl
  | unsupported id' h payload' =>
    cases hb
    unfold parseId
    rcases toPeerWireId_unsupported h with hid | hid | hid <;> rw [hid] <;> rfl

theorem parsePrefixed_complete (r : Bytes) : parsePrefixed (m.encode ++ r) =
    .ok (if m.supported then m.frame else ⟨[], (m.encode ++ r).length⟩) := by
  have hadd := prefix_add_four hm
  have hlen : (UInt32.ofNat m.body.length).toNat = m.body.length := sized_toNat (sized_of_le hm)
  have hge : ¬(UInt32.ofNat m.body.length + 4).toNat > (m.encode ++ r).length := by
    rw [List.length_append]
    omega
  have hfield : fromBigEndian (m.encode ++ r) 0 = .ok (UInt32.ofNat m.body.length) := by
    rw [Msg.encode, List.append_assoc]
    exact fromBigEndian_front _ _
  unfold parsePrefixed
  rw [if_pos (by simp; omega), hfield]
  simp only [bind, Except.bind]
  rw [if_neg (prefix_not_long hm), if_neg hge]
  by_cases hk : m = .keepAlive
  · subst hk
    rfl
  obtain ⟨id, payload, hbody⟩ : ∃ id payload, m.body = id :: payload := by
    cases m <;> first | exact absurd rfl hk | exact ⟨_, _, rfl⟩
  have h0 : UInt32.ofNat m.body.length ≠ 0 := by
    intro h
    rw [h, hbody] at hlen
    simp at hlen
  have h4 : (m.encode ++ r)[4]? = some id := by
    rw [Msg.encode, hbody]
    rfl
  rw [if_neg h0, h4]
  exact parseId_complete hm r hbody

end

end Message

/-! ## Buffers that look like a handshake -/

/-- The first protocol string in a buffer, with what follows it, is taken for a handshake: exactly
68 bytes are left from it, or there is the id of a BITFIELD message behind them. -/
def LooksLikeHandshake (b : Bytes) : Prop :=
  ∃ k, search btStart b = some k ∧
    ((b.drop k).length = 68 ∨ 73 ≤ (b.drop k).length ∧ (b.drop k)[72]? = some 5)

/-- That BITFIELD message is not complete. -/
def WaitsForBitfield (b : Bytes) : Prop :=
  ∃ k len, search btStart b = some k ∧ 73 ≤ (b.drop k).length ∧ (b.drop k)[72]? = some 5 ∧
    fromBigEndian (b.drop k) 68 = .ok len ∧ (b.drop k).length < (73 + len - 1).toNat

namespace Message

theorem fromBuffer_ok {b : Bytes} {n : Nat} (h : n + 20 ≤ b.length) (hn : n + 20 < 2 ^ 64) :
    ∃ hash, Sha1.fromBuffer b n = .ok hash := by
  have hlen : ((b.drop n).take 20).length = 20 := by
    rw [List.length_take, List.length_drop]
    omega
  refine ⟨⟨_, hlen⟩, ?_⟩
  rw [Sha1.fromBuffer, if_neg (by omega), dif_pos hlen]

theorem fromBigEndian_ok {b : Bytes} {n : Nat} (h : n + 4 ≤ b.length) (hn : n + 4 < 2 ^ 64) :
    ∃ v, fromBigEndian b n = .ok v := by
  have hget : ∀ k, k < 4 → ∃ x, b[n + k]? = some x := fun k hk =>
    ⟨_, List.getElem?_eq_getElem (by omega)⟩
  obtain ⟨b3, h3⟩ := hget 3 (by omega)
  obtain ⟨b2, h2⟩ := hget 2 (by omega)
  obtain ⟨b1, h1⟩ := hget 1 (by omega)
  obtain ⟨b0, h0⟩ := hget 0 (by omega)
  rw [Nat.add_zero] at h0
  rw [fromBigEndian, if_neg (by omega), h3, h2, h1, h0]
  exact ⟨_, rfl⟩

/-- The protocol string begins the rest of the buffer. -/
theorem parse_drop {b : Bytes} {k : Nat} (hk : search btStart b = some k) :
    HandshakeMsg.parse b =
      if (b.drop k).length < minBtMsgLength then .ok none else HandshakeMsg.parseStart (b.drop k) := by
  unfold HandshakeMsg.parse
  by_cases hb : b.length < minBtMsgLength
  · have hd : (b.drop k).length < minBtMsgLength := by
      rw [List.length_drop]
      omega
    rw [if_pos hb, if_pos hd]
  · rw [if_neg hb, hk]
    cases k with
    | zero =>
      rw [List.drop_zero, if_neg hb]
      rfl
    | succ k => rfl

theorem toPeerWireId_bitfield {t : UInt8} : toPeerWireId t = .bitfield ↔ t = 5 := by
  have hall : ∀ n < 256, toPeerWireId (UInt8.ofNat n) = .bitfield → UInt8.ofNat n = 5 := by
    decide +kernel
  refine ⟨fun h => ?_, fun h => by rw [h]; rfl⟩
  have ht : UInt8.ofNat t.toNat = t := UInt8.ofNat_toNat
  rw [← ht] at h ⊢
  exact hall t.toNat t.toNat_lt h

theorem bitfieldId_iff {msg : Bytes} :
    msg[72]?.map toPeerWireId = some PeerWireId.bitfield ↔ msg[72]? = some 5 := by
  cases h : msg[72]? with
  | none => simp
  | some t => simp [toPeerWireId_bitfield]

/-- What a handshake makes of the buffer: nothing while it waits, and a check of the info hash
otherwise, unless the bitfield length throws. -/
theorem parseStart_cases {r : Bytes} (h68 : 68 ≤ r.length) :
    (HandshakeMsg.parseStart r = .ok none ∧ r.length ≠ 68 ∧
      ¬(73 ≤ r.length ∧ r[72]? = some 5)) ∨
    (∃ hs, HandshakeMsg.parseStart r = .ok (some hs) ∧ hs.consumed = r.length ∧
      hs.bitfield = .empty ∧ r.length = 68) ∨
    (73 ≤ r.length ∧ r[72]? = some 5 ∧ ∃ len, fromBigEndian r 68 = .ok len ∧
      ((∃ hs, HandshakeMsg.parseStart r = .ok (some hs) ∧ hs.consumed = 0 ∧
          r.length < (73 + len - 1).toNat) ∨
        ((73 + len - 1).toNat ≤ r.length ∧ (73 + len - 1).toNat < 73 ∧
          ∃ e, HandshakeMsg.parseStart r = .error e) ∨
        (∃ hs, HandshakeMsg.parseStart r = .ok (some hs) ∧ hs.consumed = (73 + len - 1).toNat ∧
          hs.bitfield = ⟨(r.take (73 + len - 1).toNat).drop 73⟩ ∧
          (73 + len - 1).toNat ≤ r.length ∧ 73 ≤ (73 + len - 1).toNat))) := by
  obtain ⟨hash, hhash⟩ := fromBuffer_ok (b := r) (n := 28) (by omega) (by omega)
  have hmin : minBtMsgLength = 68 := rfl
  have hx : HandshakeMsg.parseStart r = HandshakeMsg.parseStart r := rfl
  conv at hx => rhs; unfold HandshakeMsg.parseStart
  rw [hhash] at hx
  simp only [bind, Except.bind, pure, Except.pure] at hx
  by_cases h : r.length > minBtMsgLength
  · rw [if_pos h] at hx
    by_cases h73 : r.length < 73
    · rw [if_pos h73] at hx
      exact .inl ⟨hx, by omega, by omega⟩
    · rw [if_neg h73] at hx
      by_cases hid : r[72]? = some 5
      · obtain ⟨len, hlen⟩ := fromBigEndian_ok (b := r) (n := 68) (by omega) (by omega)
        rw [if_neg (by simpa using bitfieldId_iff.2 hid), hlen] at hx
        refine .inr (.inr ⟨by omega, hid, len, hlen, ?_⟩)
        by_cases h1 : (73 + len - 1).toNat > r.length
        · simp only [if_pos h1] at hx
          exact .inl ⟨_, hx, rfl, h1⟩
        · simp only [if_neg h1] at hx
          by_cases h2 : (73 + len - 1).toNat < 73
          · rw [if_pos h2] at hx
            exact .inr (.inl ⟨by omega, h2, _, hx⟩)
          · rw [if_neg h2] at hx
            exact .inr (.inr ⟨_, hx, rfl, rfl, by omega, by omega⟩)
      · rw [if_pos (by simpa using mt bitfieldId_iff.1 hid)] at hx
        exact .inl ⟨hx, by omega, fun hc => hid hc.2⟩
  · rw [if_neg h] at hx
    exact .inr (.inl ⟨_, hx, rfl, rfl, by omega⟩)

/-- A handshake that is more than waited for. -/
def Handshaken (r : Except Exn Parsed) : Prop :=
  (∃ e, r = .error e) ∨ ∃ p i, r = .ok p ∧ .verifyInfoHash i ∈ p.calls

theorem parseHandshake_consumed (ctx : PeerContext) (hs : HandshakeMsg) (h : hs.consumed ≠ 0) :
    (parseHandshake ctx hs).consumed = hs.consumed ∧
      .verifyInfoHash hs.infoHash ∈ (parseHandshake ctx hs).calls := by
  unfold parseHandshake
  rw [if_neg h]
  split
  · exact ⟨rfl, by simp⟩
  · exact ⟨rfl, by simp⟩

theorem handshake_none {b : Bytes} (h : ¬LooksLikeHandshake b) :
    HandshakeMsg.parse b = .ok none := by
  cases hs : search btStart b with
  | none => simp [HandshakeMsg.parse, hs]
  | some k =>
    rw [parse_drop hs]
    by_cases hlen : (b.drop k).length < minBtMsgLength
    · rw [if_pos hlen]
    · rw [if_neg hlen]
      have hl := Nat.le_of_not_lt hlen
      rcases parseStart_cases hl with ⟨h1, -⟩ | ⟨_, -, -, -, h68⟩ | ⟨h73, hid, -⟩
      · exact h1
      · exact absurd ⟨k, hs, .inl h68⟩ h
      · exact absurd ⟨k, hs, .inr ⟨h73, hid⟩⟩ h

theorem parse_of_not_looks (ctx : PeerContext) {b : Bytes} (h : ¬LooksLikeHandshake b) :
    parse ctx b = parsePrefixed b := by
  rw [parse, handshake_none h]
  rfl

theorem parse_of_waits (ctx : PeerContext) {b : Bytes} (h : WaitsForBitfield b) :
    parse ctx b = .ok ⟨[], 0⟩ := by
  obtain ⟨k, len, hs, h73, hid, hlen, hlt⟩ := h
  rw [parse, parse_drop hs, if_neg (by unfold minBtMsgLength; omega)]
  rcases parseStart_cases (r := b.drop k) (by omega) with ⟨-, -, hc⟩ | ⟨_, -, -, -, h68⟩ |
    ⟨-, -, len', hlen', h⟩
  · exact absurd ⟨h73, hid⟩ hc
  · omega
  · rw [hlen] at hlen'
    cases hlen'
    rcases h with ⟨msg, hmsg, h0, -⟩ | ⟨hle, -⟩ | ⟨_, -, -, -, hle, -⟩
    · rw [hmsg]
      simp [bind, Except.bind, pure, Except.pure, parseHandshake, h0]
    · omega
    · omega

theorem parse_of_looks (ctx : PeerContext) {b : Bytes} (h : LooksLikeHandshake b)
    (hw : ¬WaitsForBitfield b) : Handshaken (parse ctx b) := by
  obtain ⟨k, hs, hr⟩ := h
  have h68 : 68 ≤ (b.drop k).length := by omega
  rw [parse, parse_drop hs, if_neg (by unfold minBtMsgLength; omega)]
  rcases parseStart_cases h68 with ⟨-, h1, h2⟩ | ⟨msg, hmsg, hc, -, -⟩ | ⟨h73, hid, len, hlen, h⟩
  · rcases hr with hr | hr
    · exact absurd hr h1
    · exact absurd hr h2
  · rw [hmsg]
    have := (parseHandshake_consumed ctx msg (by omega)).2
    exact .inr ⟨_, _, rfl, this⟩
  · rcases h with ⟨_, -, -, hlt⟩ | ⟨-, -, e, he⟩ | ⟨msg, hmsg, hc, -, -, hle⟩
    · exact absurd ⟨k, len, hs, h73, hid, hlen, hlt⟩ hw
    · rw [he]
      exact .inl ⟨e, rfl⟩
    · rw [hmsg]
      have := (parseHandshake_consumed ctx msg (by omega)).2
      exact .inr ⟨_, _, rfl, this⟩

/-! ## Slices of a stream of messages -/

/-- The buffer that starts with `m` is read as the messages in it: a complete `m` is not taken for a
handshake, within the maximum length and, if unsupported, alone in the buffer; a cut `m` does not
look like a handshake, except one that waits, and does not announce too long a message. -/
def CleanSlice (m : Msg) (buf : Bytes) : Prop :=
  (m.encode.length ≤ buf.length → ¬LooksLikeHandshake buf ∧
    m.body.length ≤ maxIncomingDataSize.toNat ∧
    (m.supported = true ∨ buf.length = m.encode.length)) ∧
  (buf.length < m.encode.length → (LooksLikeHandshake buf → WaitsForBitfield buf) ∧
    (¬LooksLikeHandshake buf → 4 ≤ buf.length → m.body.length ≤ maxIncomingDataSize.toNat))

/-- The parse is none a stream with `m` next should cause. -/
def Deviant (m : Msg) (r : Except Exn Parsed) : Prop :=
  (∃ e, r = .error e) ∨ ∃ p, r = .ok p ∧ p ≠ ⟨[], 0⟩ ∧ p ≠ m.frame

theorem deviant_of_handshaken {m : Msg} {r : Except Exn Parsed} (h : Handshaken r) :
    Deviant m r := by
  rcases h with h | ⟨p, i, hp, hi⟩
  · exact .inl h
  · refine .inr ⟨p, hp, ?_, ?_⟩
    · rintro rfl
      cases hi
    · rintro rfl
      exact (Msg.calls_of_mem hi).1 i rfl

/-- A buffer that waits goes on looking like a handshake whatever is received. -/
theorem looks_of_waits {b : Bytes} (h : WaitsForBitfield b) (x : Bytes) :
    LooksLikeHandshake (b ++ x) := by
  obtain ⟨k, len, hk, h73, hid, -⟩ := h
  have hdrop : (b ++ x).drop k = b.drop k ++ x := by
    rw [List.drop_append_of_le_length]
    have := length_of_search hk
    omega
  refine ⟨k, search_append hk x, .inr ⟨?_, ?_⟩⟩
  · rw [hdrop, List.length_append]
    omega
  · rw [hdrop, List.getElem?_append_left (by omega)]
    exact hid

section
variable (ctx : PeerContext) {m : Msg} {buf r : Bytes}

theorem parse_frame (h : CleanSlice m (m.encode ++ r)) :
    parse ctx (m.encode ++ r) = .ok m.frame := by
  obtain ⟨hl, hmax, hsup⟩ := h.1 (by simp)
  rw [parse_of_not_looks ctx hl, parsePrefixed_complete hmax]
  rcases hsup with hsup | hlen
  · rw [if_pos hsup]
  · by_cases hsup : m.supported = true
    · rw [if_pos hsup]
    · rw [if_neg hsup, hlen]
      cases m <;> simp_all [Msg.supported, Msg.frame, Msg.calls]

theorem parse_cut (hb : buf <+: m.encode ++ r) (h : CleanSlice m buf)
    (hlen : buf.length < m.encode.length) : parse ctx buf = .ok ⟨[], 0⟩ := by
  obtain ⟨hw, hmax⟩ := h.2 hlen
  by_cases hl : LooksLikeHandshake buf
  · exact parse_of_waits ctx (hw hl)
  · rw [parse_of_not_looks ctx hl]
    by_cases h4 : 4 ≤ buf.length
    · exact parsePrefixed_cut (hmax hl h4) hb hlen
    · rw [parsePrefixed, if_neg h4]

/-- A slice that is not clean shows at once, or keeps a complete message waiting. -/
theorem parse_deviant (hs : m.Sized) (hb : buf <+: m.encode ++ r) (h : ¬CleanSlice m buf) :
    Deviant m (parse ctx buf) ∨ (m.encode.length ≤ buf.length ∧ WaitsForBitfield buf) := by
  have hlong : ¬LooksLikeHandshake buf → 4 ≤ buf.length →
      ¬m.body.length ≤ maxIncomingDataSize.toNat → Deviant m (parse ctx buf) := by
    intro hl h4 hmax
    rw [parse_of_not_looks ctx hl, parsePrefixed_long hs hb h4 (Nat.lt_of_not_le hmax)]
    refine .inr ⟨_, rfl, by simp, fun hc => ?_⟩
    have hmem : PeerCall.stop ∈ m.calls := by
      rw [show m.calls = m.frame.calls from rfl, ← hc]
      simp
    exact (Msg.calls_of_mem hmem).2 rfl
  by_cases hw : WaitsForBitfield buf
  · by_cases hlen : m.encode.length ≤ buf.length
    · exact .inr ⟨hlen, hw⟩
    · have hl : LooksLikeHandshake buf := by simpa using looks_of_waits hw []
      exact absurd ⟨fun hc => absurd hc hlen, fun _ => ⟨fun _ => hw, fun hc => absurd hl hc⟩⟩ h
  left
  by_cases hl : LooksLikeHandshake buf
  · exact deviant_of_handshaken (parse_of_looks ctx hl hw)
  by_cases hlen : m.encode.length ≤ buf.length
  · have h4 : 4 ≤ buf.length := by
      rw [Msg.encode_length] at hlen
      omega
    by_cases hmax : m.body.length ≤ maxIncomingDataSize.toNat
    · obtain ⟨q, rfl⟩ : ∃ q, buf = m.encode ++ q := by
        obtain ⟨q, hq⟩ := List.prefix_of_prefix_length_le (List.prefix_append m.encode r) hb hlen
        exact ⟨q, hq.symm⟩
      have hsup : ¬(m.supported = true ∨ (m.encode ++ q).length = m.encode.length) := fun hc =>
        h ⟨fun _ => ⟨hl, hmax, hc⟩, fun hc => absurd hc (by omega)⟩
      rw [not_or] at hsup
      rw [parse_of_not_looks ctx hl, parsePrefixed_complete hmax, if_neg hsup.1]
      refine .inr ⟨_, rfl, fun hc => ?_, fun hc => hsup.2 (congrArg Parsed.consumed hc)⟩
      have := congrArg Parsed.consumed hc
      simp at this
    · exact hlong hl h4 hmax
  · by_cases hc : 4 ≤ buf.length ∧ ¬m.body.length ≤ maxIncomingDataSize.toNat
    · exact hlong hl hc.1 hc.2
    · refine absurd ⟨fun hc => absurd hc hlen, fun _ => ⟨fun hc => absurd hc hl, fun _ h4 => ?_⟩⟩ h
      by_contra hmax
      exact hc ⟨h4, hmax⟩

end

end Message

end Zit
