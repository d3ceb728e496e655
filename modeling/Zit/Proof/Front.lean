import Zit.Proof.Frame

/-!
# What a buffer begins with

`front` reads the length-prefixed message at the front of a buffer off its bytes, and
`parsePrefixed_front` says what `Message.parse` makes of it. `PeerCall.acts` marks the calls with
which a message changes the peer or the torrent.
-/

set_option autoImplicit false

namespace Zit

open Lib

/-- The calls that act on a message of the remote peer. -/
def PeerCall.acts : PeerCall → Bool
  | .setChoking _ | .setInterested _ | .have _ | .setRemotePieces _ | .request _ _ _
  | .setBlock _ _ _ => true
  | _ => false

/-- What stands at the front of a buffer that holds no handshake. -/
inductive Front
  /-- a part of a message, a message without content or an unsupported one -/
  | idle
  /-- a length that no message has -/
  | tooLong
  /-- a message that lacks its fields -/
  | short
  | call (c : PeerCall)
  deriving DecidableEq, Repr

/-- The 32-bit field at this position. -/
def word (b : Bytes) (n : Nat) : UInt32 := ((fromBigEndian b n).toOption).getD 0

/-- The call a message asks for; `len` is its length prefix. -/
def frontId (b : Bytes) (len : UInt32) (id : UInt8) : Front :=
  match id with
  | 0 => .call (.setChoking true)
  | 1 => .call (.setChoking false)
  | 2 => .call (.setInterested true)
  | 3 => .call (.setInterested false)
  | 4 => if b.length < 9 then .short else .call (.have (word b 5))
  | 5 => .call (.setRemotePieces ⟨(b.drop 5).take (len.toNat - 1)⟩)
  | 6 => if b.length < 17 then .short else .call (.request (word b 5) (word b 9) (word b 13))
  | 7 =>
    if b.length < 13 ∨ len < 9 then .short
    else .call (.setBlock (word b 5) (word b 9) ((b.drop 13).take (len.toNat - 9)))
  | _ => .idle

def front (b : Bytes) : Front :=
  if b.length < 4 then .idle
  else if word b 0 > maxIncomingDataSize then .tooLong
  else if (word b 0 + 4).toNat > b.length ∨ word b 0 = 0 then .idle
  else frontId b (word b 0) (b[4]?.getD 8)

/-! ## Fields -/

theorem fromBigEndian_word {b : Bytes} {n : Nat} (h : n + 4 ≤ b.length) (hn : n + 4 < 2 ^ 64) :
    fromBigEndian b n = .ok (word b n) := by
  obtain ⟨v, hv⟩ := Message.fromBigEndian_ok h hn
  rw [word, hv]
  rfl

theorem fromBigEndian_short {b : Bytes} {n : Nat} (h : b.length < n + 4) (hn : n + 4 < 2 ^ 64) :
    ∃ e, fromBigEndian b n = .error e := by
  rw [fromBigEndian, if_pos (by omega)]
  exact ⟨_, rfl⟩

/-! ## The messages with fields -/

section
variable {b : Bytes} {id : UInt8} (len : UInt32)

theorem parseId_have (hid : toPeerWireId id = .have) (h : 9 ≤ b.length) :
    Message.parseId b len id = .ok ⟨[.have (word b 5)], 9⟩ := by
  rw [Message.parseId, hid]
  simp only [fromBigEndian_word (n := 5) h (by omega)]
  rfl

theorem parseId_have_short (hid : toPeerWireId id = .have) (h : b.length < 9) :
    ∃ e, Message.parseId b len id = .error e := by
  obtain ⟨e, he⟩ := fromBigEndian_short (n := 5) h (by omega)
  rw [Message.parseId, hid]
  simp only [he]
  exact ⟨e, rfl⟩

theorem parseId_request (hid : toPeerWireId id = .request) (h : 17 ≤ b.length) :
    Message.parseId b len id =
      .ok ⟨[.request (word b 5) (word b 9) (word b 13)], (len + 4).toNat⟩ := by
  rw [Message.parseId, hid]
  simp only [fromBigEndian_word (b := b) (n := 5) (by omega) (by omega),
    fromBigEndian_word (b := b) (n := 9) (by omega) (by omega),
    fromBigEndian_word (b := b) (n := 13) (by omega) (by omega)]
  rfl

theorem parseId_request_short (hid : toPeerWireId id = .request) (h : b.length < 17) :
    ∃ e, Message.parseId b len id = .error e := by
  obtain ⟨e, he⟩ := fromBigEndian_short (n := 13) h (by omega)
  rw [Message.parseId, hid]
  cases h5 : fromBigEndian b 5 with
  | error e5 => exact ⟨e5, rfl⟩
  | ok index =>
    cases h9 : fromBigEndian b 9 with
    | error e9 => exact ⟨e9, by simp [bind, Except.bind]⟩
    | ok begin => exact ⟨e, by simp [he, bind, Except.bind]⟩

variable {len}

theorem parseId_piece (hid : toPeerWireId id = .piece) (h : 13 ≤ b.length) (h9 : ¬len < 9) :
    Message.parseId b len id =
      .ok ⟨[.setBlock (word b 5) (word b 9) ((b.drop 13).take (len.toNat - 9))],
        (len + 4).toNat⟩ := by
  rw [Message.parseId, hid]
  simp only [fromBigEndian_word (b := b) (n := 5) (by omega) (by omega),
    fromBigEndian_word (b := b) (n := 9) (by omega) (by omega), bind, Except.bind, if_neg h9]
  rfl

theorem parseId_piece_short (hid : toPeerWireId id = .piece) (h : b.length < 13 ∨ len < 9) :
    ∃ e, Message.parseId b len id = .error e := by
  rw [Message.parseId, hid]
  by_cases hb : b.length < 13
  · obtain ⟨e, he⟩ := fromBigEndian_short (n := 9) hb (by omega)
    cases h5 : fromBigEndian b 5 with
    | error e5 => exact ⟨e5, rfl⟩
    | ok index => exact ⟨e, by simp [he, bind, Except.bind]⟩
  · simp only [fromBigEndian_word (b := b) (n := 5) (by omega) (by omega),
      fromBigEndian_word (b := b) (n := 9) (by omega) (by omega), bind, Except.bind,
      if_pos (h.resolve_left hb)]
    exact ⟨_, rfl⟩

end

/-! ## What `Message.parse` makes of it -/

/-- The result of parsing a buffer that begins so. -/
def Front.Makes (r : Except Exn Parsed) : Front → Prop
  | .idle => ∃ n, r = .ok ⟨[], n⟩
  | .tooLong => r = .ok ⟨[.stop, .disconnected], 0⟩
  | .short => ∃ e, r = .error e
  | .call c => ∃ n, r = .ok ⟨[c], n⟩

theorem frontId_unsupported (b : Bytes) (len : UInt32) {id : UInt8} (h : 8 ≤ id) :
    frontId b len id = .idle := by
  unfold frontId
  split <;> first | rfl | exact absurd h (by decide)

theorem parseId_front (b : Bytes) (len : UInt32) (id : UInt8) :
    (frontId b len id).Makes (Message.parseId b len id) := by
  by_cases hid : 8 ≤ id
  · rw [frontId_unsupported b len hid]
    unfold Message.parseId
    rcases Message.toPeerWireId_unsupported hid with h | h | h
    · exact ⟨_, by rw [h]⟩
    · exact ⟨_, by rw [h]⟩
    · exact ⟨_, by rw [h]⟩
  · have hcases : id = 0 ∨ id = 1 ∨ id = 2 ∨ id = 3 ∨ id = 4 ∨ id = 5 ∨ id = 6 ∨ id = 7 := by
      rw [UInt8.le_iff_toNat_le] at hid
      simp only [← UInt8.toNat_inj]
      simp at hid ⊢
      omega
    rcases hcases with rfl | rfl | rfl | rfl | rfl | rfl | rfl | rfl
    · exact ⟨_, rfl⟩
    · exact ⟨_, rfl⟩
    · exact ⟨_, rfl⟩
    · exact ⟨_, rfl⟩
    · show (if b.length < 9 then Front.short else _).Makes _
      split
      · exact parseId_have_short len rfl (by assumption)
      · exact ⟨_, parseId_have len rfl (by omega)⟩
    · exact ⟨_, rfl⟩
    · show (if b.length < 17 then Front.short else _).Makes _
      split
      · exact parseId_request_short len rfl (by assumption)
      · exact ⟨_, parseId_request len rfl (by omega)⟩
    · show (if b.length < 13 ∨ len < 9 then Front.short else _).Makes _
      split
      · exact parseId_piece_short rfl (by assumption)
      · rename_i h
        rw [not_or] at h
        exact ⟨_, parseId_piece rfl (by omega) h.2⟩

theorem parsePrefixed_front (b : Bytes) : (front b).Makes (Message.parsePrefixed b) := by
  unfold front Message.parsePrefixed
  by_cases h4 : b.length < 4
  · rw [if_pos h4, if_neg (by omega)]
    exact ⟨0, rfl⟩
  · rw [if_neg h4, if_pos (by omega), fromBigEndian_word (by omega) (by omega)]
    simp only [bind, Except.bind]
    by_cases hmax : word b 0 > maxIncomingDataSize
    · rw [if_pos hmax, if_pos hmax]
      rfl
    · rw [if_neg hmax, if_neg hmax]
      by_cases hpart : (word b 0 + 4).toNat > b.length
      · rw [if_pos hpart, if_pos (Or.inl hpart)]
        exact ⟨0, rfl⟩
      · rw [if_neg hpart]
        by_cases h0 : word b 0 = 0
        · rw [if_pos h0, if_pos (Or.inr h0)]
          exact ⟨4, rfl⟩
        · have hno : ¬((word b 0 + 4).toNat > b.length ∨ word b 0 = 0) :=
            fun hc => hc.elim hpart h0
          rw [if_neg h0, if_neg hno]
          cases hid : b[4]? with
          | none => exact ⟨b.length, rfl⟩
          | some id => exact parseId_front b (word b 0) id

/-- A message at the front is acted on by one call. -/
theorem front_acts {b : Bytes} {c : PeerCall} (h : front b = .call c) : c.acts = true := by
  unfold front frontId at h
  repeat' split at h
  all_goals first
    | cases h
      rfl
    | cases h

end Zit
