import Zit.Proof.Front

/-!
# Fields inside their message

`Extracts` says from which ranges of a buffer the arguments of a call are read. A message is `Inside`
when these ranges are within it and parsing consumes the message and no more: exactly when no
handshake is found in the buffer, the length is not refused, and it is one for the id
(`inside_iff`). A length that is refused closes the connection (`fields_inside`).
-/

set_option autoImplicit false

namespace Zit.Message

open Lib

/-- The calls of one message, with the ranges (start and size) of the buffer they are read from. -/
inductive Extracts (b : Bytes) : List (Nat × Nat) → List PeerCall → Prop
  | ignored : Extracts b [] []
  | choking (choking : Bool) : Extracts b [] [.setChoking choking]
  | interested (interested : Bool) : Extracts b [] [.setInterested interested]
  | have : Extracts b [(5, 4)] [.have (word b 5)]
  | bitfield (n : Nat) : Extracts b [(5, n)] [.setRemotePieces ⟨(b.drop 5).take n⟩]
  | request : Extracts b [(5, 4), (9, 4), (13, 4)] [.request (word b 5) (word b 9) (word b 13)]
  | piece (n : Nat) : Extracts b [(5, 4), (9, 4), (13, n)]
      [.setBlock (word b 5) (word b 9) ((b.drop 13).take n)]

/-- Parsing reads nothing beyond the message at the front, and consumes it. -/
def Inside (ctx : PeerContext) (b : Bytes) (len : UInt32) : Prop :=
  ∃ reads calls, Extracts b reads calls ∧ parse ctx b = .ok ⟨calls, len.toNat + 4⟩ ∧
    ∀ r ∈ reads, r.1 + r.2 ≤ len.toNat + 4

/-- `switch` reads nothing beyond the message, and consumes it. -/
def SwitchInside (b : Bytes) (len : UInt32) (id : UInt8) : Prop :=
  ∃ reads calls, Extracts b reads calls ∧ parseId b len id = .ok ⟨calls, len.toNat + 4⟩ ∧
    ∀ r ∈ reads, r.1 + r.2 ≤ len.toNat + 4

/-- The length is one for the id: that of the fields, or for an id that is not supported that of the
whole buffer. -/
def Suits (size : Nat) (len : UInt32) : PeerWireId → Prop
  | .have => len.toNat = 5
  | .request => 13 ≤ len.toNat
  | .piece => 9 ≤ len.toNat
  | .cancel | .port | .unknown => size = len.toNat + 4
  | _ => True

/-- The buffer starts with a complete message of this length and id. -/
structure Complete (b : Bytes) (len : UInt32) (id : UInt8) : Prop where
  length : fromBigEndian b 0 = .ok len
  pos : 0 < len.toNat
  fits : len.toNat + 4 ≤ b.length
  id : b[4]? = some id

variable {ctx : PeerContext} {b : Bytes} {len : UInt32} {id : UInt8}

theorem Extracts.not_verify {reads : List (Nat × Nat)} {calls : List PeerCall}
    (h : Extracts b reads calls) (infoHash : Sha1) : .verifyInfoHash infoHash ∉ calls := by
  cases h <;> simp

/-- A handshake is no message with a length. -/
theorem not_inside_handshake {hs : HandshakeMsg} (h : HandshakeMsg.parse b = .ok (some hs)) :
    ¬Inside ctx b len := by
  intro hin
  obtain ⟨reads, calls, he, hp, -⟩ := hin
  rw [parse, h] at hp
  have hp : parseHandshake ctx hs = ⟨calls, len.toNat + 4⟩ := Except.ok.inj hp
  by_cases h0 : hs.consumed = 0
  · rw [parseHandshake, if_pos h0, Parsed.mk.injEq] at hp
    omega
  · have hmem := (parseHandshake_consumed ctx hs h0).2
    rw [hp] at hmem
    exact he.not_verify _ hmem

theorem parse_of_none (h : HandshakeMsg.parse b = .ok none) : parse ctx b = parsePrefixed b := by
  rw [parse, h]
  rfl

namespace Complete

variable (h : Complete b len id)
include h

theorem ne_zero : len ≠ 0 := by
  intro h0
  have := h.pos
  rw [h0] at this
  exact absurd this (by decide)

theorem parsePrefixed_refused (hmax : len > maxIncomingDataSize) :
    parsePrefixed b = .ok ⟨[.stop, .disconnected], 0⟩ := by
  have hfits := h.fits
  rw [parsePrefixed, if_pos (by omega), h.length]
  exact if_pos hmax

omit h in
theorem toNat_add (hmax : ¬len > maxIncomingDataSize) : (len + 4).toNat = len.toNat + 4 := by
  have hle : len.toNat ≤ maxIncomingDataSize.toNat := UInt32.le_iff_toNat_le.1 (UInt32.not_lt.1 hmax)
  have hsize : maxIncomingDataSize.toNat = 2097152 := by decide
  rw [UInt32.toNat_add, show (4 : UInt32).toNat = 4 from rfl]
  omega

theorem parsePrefixed_id (hmax : ¬len > maxIncomingDataSize) : parsePrefixed b = parseId b len id := by
  have hfits := h.fits
  rw [parsePrefixed, if_pos (by omega), h.length]
  simp only [bind, Except.bind, if_neg hmax, toNat_add hmax, if_neg h.ne_zero, h.id,
    if_neg (show ¬len.toNat + 4 > b.length by omega)]

theorem have_iff (hid : toPeerWireId id = .have) : SwitchInside b len id ↔ len.toNat = 5 := by
  have hfits := h.fits
  constructor
  · intro hin
    obtain ⟨reads, calls, -, hp, -⟩ := hin
    by_cases hnine : 9 ≤ b.length
    · rw [parseId_have len hid hnine] at hp
      have hsize := (Parsed.mk.inj (Except.ok.inj hp)).2
      omega
    · obtain ⟨e, he⟩ := parseId_have_short len hid (Nat.lt_of_not_le hnine)
      rw [he] at hp
      cases hp
  · intro hfive
    refine ⟨_, _, .have, by rw [parseId_have len hid (by omega), hfive], ?_⟩
    simp only [List.mem_singleton, forall_eq]
    omega

theorem request_iff (hmax : ¬len > maxIncomingDataSize) (hid : toPeerWireId id = .request) :
    SwitchInside b len id ↔ 13 ≤ len.toNat := by
  have hfits := h.fits
  constructor
  · intro hin
    obtain ⟨reads, calls, he, hp, hin⟩ := hin
    by_cases hb : 17 ≤ b.length
    · rw [parseId_request len hid hb] at hp
      obtain ⟨rfl, -⟩ := Parsed.mk.inj (Except.ok.inj hp)
      cases he
      have hlast := hin (13, 4) (by simp)
      omega
    · obtain ⟨e, he⟩ := parseId_request_short len hid (Nat.lt_of_not_le hb)
      rw [he] at hp
      cases hp
  · intro hthirteen
    refine ⟨_, _, .request, by rw [parseId_request len hid (by omega), toNat_add hmax], ?_⟩
    simp only [List.mem_cons, List.not_mem_nil, or_false, forall_eq_or_imp, forall_eq]
    omega

theorem piece_iff (hmax : ¬len > maxIncomingDataSize) (hid : toPeerWireId id = .piece) :
    SwitchInside b len id ↔ 9 ≤ len.toNat := by
  have hfits := h.fits
  constructor
  · intro hin
    obtain ⟨reads, calls, -, hp, -⟩ := hin
    by_cases hnine : len < 9
    · obtain ⟨e, he⟩ := parseId_piece_short hid (.inr hnine)
      rw [he] at hp
      cases hp
    · exact UInt32.le_iff_toNat_le.1 (UInt32.not_lt.1 hnine)
  · intro hnine
    have hnot : ¬len < 9 := UInt32.not_lt.2 (UInt32.le_iff_toNat_le.2 hnine)
    refine ⟨_, _, .piece (len.toNat - 9),
      by rw [parseId_piece hid (by omega) hnot, toNat_add hmax], ?_⟩
    simp only [List.mem_cons, List.not_mem_nil, or_false, forall_eq_or_imp, forall_eq]
    omega

/-- What `switch` makes of the id, within the message exactly for the lengths that suit it. -/
theorem parseId_iff (hmax : ¬len > maxIncomingDataSize) :
    SwitchInside b len id ↔ Suits b.length len (toPeerWireId id) := by
  have hlen := toNat_add hmax
  cases hid : toPeerWireId id with
  | choke => exact iff_of_true ⟨_, _, .choking true, by rw [parseId, hid, hlen], by simp⟩ trivial
  | unchoke => exact iff_of_true ⟨_, _, .choking false, by rw [parseId, hid, hlen], by simp⟩ trivial
  | interested =>
    exact iff_of_true ⟨_, _, .interested true, by rw [parseId, hid, hlen], by simp⟩ trivial
  | notInterested =>
    exact iff_of_true ⟨_, _, .interested false, by rw [parseId, hid, hlen], by simp⟩ trivial
  | bitfield =>
    have hpos := h.pos
    refine iff_of_true ⟨_, _, .bitfield (len.toNat - 1), by rw [parseId, hid, hlen], ?_⟩ trivial
    simp only [List.mem_singleton, forall_eq]
    omega
  | cancel | port | unknown =>
    constructor
    · intro hin
      obtain ⟨reads, calls, -, hp, -⟩ := hin
      rw [parseId, hid] at hp
      exact (Parsed.mk.inj (Except.ok.inj hp)).2
    · intro hsuits
      have hsize : b.length = len.toNat + 4 := hsuits
      exact ⟨_, _, .ignored, by simp only [parseId, hid, hsize], by simp⟩
  | «have» => exact h.have_iff hid
  | request => exact h.request_iff hmax hid
  | piece => exact h.piece_iff hmax hid

/-- Exactly when a message stays inside itself. -/
theorem inside_iff : Inside ctx b len ↔ HandshakeMsg.parse b = .ok none ∧
    len ≤ maxIncomingDataSize ∧ Suits b.length len (toPeerWireId id) := by
  cases hh : HandshakeMsg.parse b with
  | error e =>
    refine iff_of_false ?_ fun hc => by cases hc.1
    intro hin
    obtain ⟨reads, calls, -, hp, -⟩ := hin
    rw [parse, hh] at hp
    cases hp
  | ok r =>
    cases r with
    | some hs => exact iff_of_false (not_inside_handshake hh) fun hc => by cases hc.1
    | none =>
      unfold Inside
      rw [parse_of_none hh]
      by_cases hmax : len > maxIncomingDataSize
      · refine iff_of_false ?_ fun hc => UInt32.not_le.2 hmax hc.2.1
        intro hin
        obtain ⟨reads, calls, -, hp, -⟩ := hin
        rw [h.parsePrefixed_refused hmax, Except.ok.injEq, Parsed.mk.injEq] at hp
        omega
      · rw [h.parsePrefixed_id hmax, and_iff_right rfl, and_iff_right (UInt32.not_lt.1 hmax)]
        exact h.parseId_iff hmax

end Complete

/-- The fields of a message whose length suits its id stay inside it whatever follows, and it is
consumed; a length beyond the limit closes the connection before anything is read. -/
theorem fields_inside (ctx : PeerContext) {b : Bytes} {len : UInt32} {id : UInt8}
    (h : Complete b len id) (hno : HandshakeMsg.parse b = .ok none) :
    (len ≤ maxIncomingDataSize → Suits b.length len (toPeerWireId id) → Inside ctx b len) ∧
      (len > maxIncomingDataSize → parse ctx b = .ok ⟨[.stop, .disconnected], 0⟩) := by
  refine ⟨fun hmax hsuits => h.inside_iff.2 ⟨hno, hmax, hsuits⟩, fun hmax => ?_⟩
  rw [parse_of_none hno, h.parsePrefixed_refused hmax]

/-- Two bytes at the beginning of piece 1, and the start of the next message. -/
def twoBytes : Bytes := [0, 0, 0, 11, 7, 0, 0, 0, 1, 0, 0, 0, 0, 5, 6, 0, 0]

theorem fields_inside_two : Inside ⟨.zero, false⟩ twoBytes 11 :=
  (@fields_inside ⟨.zero, false⟩ twoBytes 11 7 ⟨by decide, by decide, by decide, by decide⟩
    (by decide)).1 (by decide) (show 9 ≤ _ by decide)

/-- A complete message of more than two megabytes. -/
def large : Bytes := toBigEndian 2097153 ++ List.replicate 2097153 0

theorem large_length : large.length = 2097157 := by
  rw [large, List.length_append, List.length_replicate]
  rfl

theorem large_no_handshake : HandshakeMsg.parse large = .ok none := by
  have hnone : search btStart large = none := by
    by_contra hc
    obtain ⟨k, hk⟩ := Option.ne_none_iff_exists'.1 hc
    have hmem : (66 : UInt8) ∈ large :=
      List.mem_of_mem_drop ((prefix_of_search hk).subset (by decide))
    rcases List.mem_append.1 hmem with h | h
    · exact absurd h (by decide)
    · exact absurd (List.eq_of_mem_replicate h) (by decide)
  rw [HandshakeMsg.parse, hnone, ite_self]

theorem large_complete : Complete large 2097153 0 := by
  have hlen := large_length
  refine ⟨fromBigEndian_front _ _, by decide, ?_, ?_⟩
  · rw [hlen]
    decide
  · rw [large, List.getElem?_append_right (by decide), List.getElem?_replicate]
    exact if_pos (by decide)

/-- It is refused, so it is not consumed. -/
theorem refused_large : ¬∀ (ctx : PeerContext) (b : Bytes) (len : UInt32) (id : UInt8),
    Complete b len id → HandshakeMsg.parse b = .ok none → Inside ctx b len := by
  intro hall
  have hin := hall ⟨.zero, false⟩ large 2097153 0 large_complete large_no_handshake
  exact absurd (large_complete.inside_iff.1 hin).2.1 (by decide)

end Zit.Message
