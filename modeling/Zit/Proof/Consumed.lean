import Zit.Proof.Front

/-!
# What a handshake consumes

`HandshakeMsg.parse` finds a handshake anywhere in a buffer, and counts what it consumes from where
the handshake begins; the length of a BITFIELD message behind it enters a 32-bit sum. `counts_iff`
says for which buffers the count is the position where the handshake ends.
-/

set_option autoImplicit false

namespace Zit

open Lib

/-- A handshake at the position `s` of a buffer that ends at `k`: alone, or with a BITFIELD message
behind it that carries `bf`. -/
inductive HandshakeAt (msg : Bytes) (s : Nat) : (k : Nat) → (bf : Bitfield) → Prop
  | alone (hin : s + 68 ≤ msg.length) (hno : msg[s + 72]? ≠ some 5) :
      HandshakeAt msg s (s + 68) .empty
  | withBitfield (hid : msg[s + 72]? = some 5) (hpos : 0 < (word (msg.drop s) 68).toNat)
      (hin : s + 72 + (word (msg.drop s) 68).toNat ≤ msg.length) :
      HandshakeAt msg s (s + 72 + (word (msg.drop s) 68).toNat)
        ⟨(msg.drop (s + 73)).take ((word (msg.drop s) 68).toNat - 1)⟩

/-- The parse returns, and what it says it consumes ends where the handshake does. -/
def HandshakeMsg.Counts (msg : Bytes) : Prop :=
  ∃ r, HandshakeMsg.parse msg = .ok r ∧ ∀ hs, r = some hs → hs.consumed ≠ 0 →
    hs.consumed ≤ msg.length ∧ ∃ s, search btStart msg = some s ∧
      HandshakeAt msg s hs.consumed hs.bitfield

/-- The length of a BITFIELD message behind the first protocol string fits the 32-bit sum, and a
handshake that is complete begins the buffer. -/
def HandshakeMsg.Countable (msg : Bytes) : Prop :=
  ∀ s, search btStart msg = some s →
    (73 ≤ (msg.drop s).length → (msg.drop s)[72]? = some 5 →
      0 < (word (msg.drop s) 68).toNat ∧ (word (msg.drop s) 68).toNat < 2 ^ 32 - 72) ∧
    (s = 0 ∨ (msg.drop s).length ≠ 68 ∧
      ¬(73 ≤ (msg.drop s).length ∧ (msg.drop s)[72]? = some 5 ∧
        72 + (word (msg.drop s) 68).toNat ≤ (msg.drop s).length))

namespace HandshakeMsg

/-- The end of the BITFIELD message, as it is computed. -/
theorem last_toNat (len : UInt32) : (73 + len - 1).toNat = (72 + len.toNat) % 2 ^ 32 := by
  have hlen := len.toNat_lt
  rw [show 73 + len - 1 = 72 + len by grind, UInt32.toNat_add]
  rfl

section
variable {msg : Bytes} {s : Nat}

/-- A BITFIELD message fixes where the handshake ends. -/
theorem end_of_bitfield (hid : msg[s + 72]? = some 5) {k : Nat} {bf : Bitfield}
    (h : HandshakeAt msg s k bf) : k = s + 72 + (word (msg.drop s) 68).toNat := by
  cases h with
  | alone _ hno => exact absurd hid hno
  | withBitfield _ _ _ => rfl

/-- Without one it is the end of the handshake. -/
theorem end_of_alone (hno : msg[s + 72]? ≠ some 5) {k : Nat} {bf : Bitfield}
    (h : HandshakeAt msg s k bf) : k = s + 68 := by
  cases h with
  | alone _ _ => rfl
  | withBitfield hid _ _ => exact absurd hid hno

theorem counts_none (h : parse msg = .ok none) : Counts msg := ⟨none, h, nofun⟩

theorem counts_some {hs : HandshakeMsg} (h : parse msg = .ok (some hs))
    (hsearch : search btStart msg = some s) (h0 : hs.consumed ≠ 0) :
    Counts msg ↔ hs.consumed ≤ msg.length ∧ HandshakeAt msg s hs.consumed hs.bitfield := by
  constructor
  · intro hin
    obtain ⟨r, hr, hall⟩ := hin
    rw [h, Except.ok.injEq] at hr
    obtain ⟨hle, s', hs', hat⟩ := hall hs hr.symm h0
    rw [hsearch, Option.some.injEq] at hs'
    exact ⟨hle, hs' ▸ hat⟩
  · intro hat
    refine ⟨_, h, fun hs' he _ => ?_⟩
    rw [← Option.some.inj he]
    exact ⟨hat.1, s, hsearch, hat.2⟩

/-- A handshake that ends the buffer is counted right when it begins it. -/
theorem counts_alone {hs : HandshakeMsg} (h : parse msg = .ok (some hs))
    (hsearch : search btStart msg = some s) (hlen : (msg.drop s).length = 68)
    (hc : hs.consumed = 68) (hbf : hs.bitfield = .empty) : Counts msg ↔ s = 0 := by
  rw [List.length_drop] at hlen
  have hno : msg[s + 72]? ≠ some 5 := by
    rw [List.getElem?_eq_none (by omega)]
    exact (Option.some_ne_none 5).symm
  rw [counts_some h hsearch (by omega), hc, hbf]
  constructor
  · intro hat
    have hend := end_of_alone hno hat.2
    omega
  · rintro rfl
    exact ⟨by omega, .alone (by omega) hno⟩

/-- So is one with a BITFIELD behind it. -/
theorem counts_bitfield {hs : HandshakeMsg} (h : parse msg = .ok (some hs))
    (hsearch : search btStart msg = some s) (hid : msg[s + 72]? = some 5)
    (hpos : 0 < (word (msg.drop s) 68).toNat)
    (hle : 72 + (word (msg.drop s) 68).toNat ≤ (msg.drop s).length)
    (hc : hs.consumed = 72 + (word (msg.drop s) 68).toNat)
    (hbf : hs.bitfield = ⟨((msg.drop s).take (72 + (word (msg.drop s) 68).toNat)).drop 73⟩) :
    Counts msg ↔ s = 0 := by
  rw [List.length_drop] at hle
  rw [counts_some h hsearch (by omega), hc, hbf]
  constructor
  · intro hat
    have hend := end_of_bitfield hid hat.2
    omega
  · rintro rfl
    refine ⟨by omega, ?_⟩
    have hat := HandshakeAt.withBitfield hid hpos (by omega)
    rw [List.drop_take,
      show 72 + (word (msg.drop 0) 68).toNat - 73 = (word (msg.drop 0) 68).toNat - 1 by omega]
    simpa only [Nat.zero_add, List.drop_zero] using hat

/-- `Countable` at the first protocol string. -/
theorem countable_at (hsearch : search btStart msg = some s) : Countable msg ↔
    (73 ≤ (msg.drop s).length → (msg.drop s)[72]? = some 5 →
      0 < (word (msg.drop s) 68).toNat ∧ (word (msg.drop s) 68).toNat < 2 ^ 32 - 72) ∧
    (s = 0 ∨ (msg.drop s).length ≠ 68 ∧
      ¬(73 ≤ (msg.drop s).length ∧ (msg.drop s)[72]? = some 5 ∧
        72 + (word (msg.drop s) 68).toNat ≤ (msg.drop s).length)) := by
  refine ⟨fun h => h s hsearch, fun h s' hs' => ?_⟩
  rw [hsearch, Option.some.injEq] at hs'
  exact hs' ▸ h

/-- The count is right exactly for a handshake that begins the buffer, if there is a complete one,
with a length that does not wrap. -/
theorem counts_iff (msg : Bytes) : Counts msg ↔ Countable msg := by
  cases hsearch : search btStart msg with
  | none =>
    have hnone : parse msg = .ok none := by simp [parse, hsearch]
    refine iff_of_true (counts_none hnone) fun s hs => ?_
    rw [hsearch] at hs
    cases hs
  | some s =>
    have hparse := Message.parse_drop hsearch
    rw [countable_at hsearch]
    by_cases hshort : (msg.drop s).length < minBtMsgLength
    · rw [if_pos hshort] at hparse
      have hmin : minBtMsgLength = 68 := rfl
      exact iff_of_true (counts_none hparse) ⟨fun _ => by omega, .inr ⟨by omega, fun _ => by omega⟩⟩
    · rw [if_neg hshort] at hparse
      have h68 : 68 ≤ (msg.drop s).length := Nat.le_of_not_lt hshort
      rcases Message.parseStart_cases h68 with ⟨hnone, hne, hno⟩ | ⟨hs, hok, hc, hbf, hlen⟩ |
        ⟨h73, hid, len, hlen, hcases⟩
      · rw [hnone] at hparse
        refine iff_of_true (counts_none hparse) ⟨fun h1 h2 => absurd ⟨h1, h2⟩ hno, .inr ⟨hne, ?_⟩⟩
        exact fun h => hno ⟨h.1, h.2.1⟩
      · -- the handshake ends the buffer
        rw [hok] at hparse
        rw [counts_alone hparse hsearch hlen (hc.trans hlen) hbf]
        exact ⟨fun h0 => ⟨fun _ => by omega, .inl h0⟩, fun h => h.2.resolve_right (·.1 hlen)⟩
      · have hword : word (msg.drop s) 68 = len := by rw [word, hlen]; rfl
        have hlast := last_toNat len
        have hlt := len.toNat_lt
        rcases hcases with ⟨hs, hok, hc, hwait⟩ | ⟨-, hwrap, e, herr⟩ | ⟨hs, hok, hc, hbf, hle, hge⟩
        · -- the BITFIELD is waited for
          rw [hok] at hparse
          rw [hword]
          refine iff_of_true ⟨_, hparse, fun hs' he h0 => ?_⟩ ⟨fun _ _ => by omega, .inr ?_⟩
          · rw [← Option.some.inj he] at h0
            exact absurd hc h0
          · exact ⟨by omega, fun h => by omega⟩
        · -- the sum wraps
          rw [herr] at hparse
          refine iff_of_false ?_ fun h => ?_
          · intro hin
            obtain ⟨r, hr, -⟩ := hin
            rw [hparse] at hr
            cases hr
          · have hfits := h.1 h73 hid
            rw [hword] at hfits
            omega
        · rw [hok] at hparse
          have hend : (73 + len - 1).toNat = 72 + len.toNat := by omega
          rw [hend, ← hword] at hc hbf hle
          rw [hend, ← hword] at hge
          have hid' : msg[s + 72]? = some 5 := by rwa [List.getElem?_drop] at hid
          rw [counts_bitfield hparse hsearch hid' (by omega) hle hc hbf]
          refine ⟨fun h0 => ⟨fun _ _ => ?_, .inl h0⟩, fun h => h.2.resolve_right ?_⟩
          · rw [hword] at hge ⊢
            omega
          · exact fun hno => hno.2 ⟨h73, hid, hle⟩

/-- The length 0 behind a handshake makes the parse throw. -/
theorem not_counts : ¬∀ msg, Counts msg := by
  intro hall
  obtain ⟨r, hr, -⟩ := hall (btStart ++ List.replicate 48 0 ++ [0, 0, 0, 0, 5])
  have herr : (parse (btStart ++ List.replicate 48 0 ++ [0, 0, 0, 0, 5])).isOk = false := by
    decide +kernel
  rw [hr] at herr
  cases herr

end

end HandshakeMsg

end Zit
