import Zit.Acceptor
import Zit.Proof.Front
import Zit.Proof.Handshake

/-!
# What an incoming connection loses

Whatever `listen` reads behind the handshake is not passed on. So a new peer is sent the messages it
would be sent if the first read ended with the handshake when it does end there; and when it does
not, the peer consumes fewer bytes than the messages have (`receive_consumed`), so that they cannot
all reach it (`listen_iff`).
-/

set_option autoImplicit false

namespace Zit

open Lib PeerConnection

/-- How many bytes were consumed. -/
def consumedBy (ps : List Parsed) : Nat := (ps.map (·.consumed)).sum

theorem consumedBy_append (ps qs : List Parsed) :
    consumedBy (ps ++ qs) = consumedBy ps + consumedBy qs := by
  simp [consumedBy]

theorem consumedBy_trace (ps : List Parsed) : consumedBy (trace ps) = consumedBy ps := by
  induction ps with
  | nil => rfl
  | cons p ps ih =>
    by_cases hp : p = ⟨[], 0⟩
    · rw [hp, show trace (⟨[], 0⟩ :: ps) = trace ps by simp [trace], ih]
      simp [consumedBy]
    · rw [trace_cons hp]
      simp only [consumedBy, List.map_cons, List.sum_cons] at ih ⊢
      rw [ih]

theorem consumedBy_frames (ms : List Msg) :
    consumedBy (ms.map Msg.frame) = (Msg.encodeAll ms).length := by
  induction ms with
  | nil => rfl
  | cons m ms ih =>
    rw [Msg.encodeAll_cons, List.length_append, ← ih]
    rfl

/-! ## Nothing is consumed that has not been read -/

theorem parseHandshake_le (ctx : PeerContext) (hs : HandshakeMsg) :
    (Message.parseHandshake ctx hs).consumed ≤ hs.consumed := by
  by_cases h : hs.consumed = 0
  · rw [Message.parseHandshake, if_pos h, h]
  · exact Nat.le_of_eq (Message.parseHandshake_consumed ctx hs h).1

theorem handshake_le {b : Bytes} {hs : HandshakeMsg} (h : HandshakeMsg.parse b = .ok (some hs)) :
    hs.consumed ≤ b.length := by
  cases hk : search btStart b with
  | none =>
    simp [HandshakeMsg.parse, hk] at h
  | some k =>
    rw [Message.parse_drop hk] at h
    split at h
    · cases h
    · rename_i h68
      have hmin : minBtMsgLength = 68 := rfl
      have hdrop : (b.drop k).length ≤ b.length := by simp
      rcases Message.parseStart_cases (r := b.drop k) (by omega) with ⟨hn, -⟩ |
        ⟨hs', h', hc, -⟩ | ⟨-, -, len, -, ⟨hs', h', hc, -⟩ | ⟨-, -, e, h'⟩ | ⟨hs', h', hc, -, hle, -⟩⟩
      · rw [hn] at h
        cases h
      · rw [h'] at h
        cases h
        omega
      · rw [h'] at h
        cases h
        omega
      · rw [h'] at h
        cases h
      · rw [h'] at h
        cases h
        omega

theorem parseId_le {b : Bytes} {len : UInt32} {id : UInt8} {p : Parsed}
    (hin : (len + 4).toNat ≤ b.length) (h : Message.parseId b len id = .ok p) :
    p.consumed ≤ b.length := by
  unfold Message.parseId at h
  split at h
  case h_3 =>
    obtain ⟨_, -, h⟩ := bind_eq_ok.1 h
    obtain ⟨_, -, h⟩ := bind_eq_ok.1 h
    split at h
    · cases h
    · cases h
      exact hin
  case h_6 =>
    -- a HAVE counts nine bytes whatever its length
    obtain ⟨haveId, hid, h⟩ := bind_eq_ok.1 h
    cases h
    by_contra hlt
    obtain ⟨e, he⟩ := fromBigEndian_short (b := b) (n := 5) (by simpa using hlt) (by omega)
    rw [he] at hid
    cases hid
  case h_8 =>
    obtain ⟨_, -, h⟩ := bind_eq_ok.1 h
    obtain ⟨_, -, h⟩ := bind_eq_ok.1 h
    obtain ⟨_, -, h⟩ := bind_eq_ok.1 h
    cases h
    exact hin
  all_goals
    cases h
    first
    | exact hin
    | exact Nat.le_refl _

theorem parsePrefixed_le {b : Bytes} {p : Parsed} (h : Message.parsePrefixed b = .ok p) :
    p.consumed ≤ b.length := by
  unfold Message.parsePrefixed at h
  split at h
  · rename_i h4
    obtain ⟨len, -, h⟩ := bind_eq_ok.1 h
    split at h
    · cases h
      exact Nat.zero_le _
    · split at h
      · cases h
        exact Nat.zero_le _
      · rename_i hin
        split at h
        · cases h
          exact h4
        · split at h
          · exact parseId_le (Nat.le_of_not_lt hin) h
          · cases h
            exact Nat.le_refl _
  · cases h
    exact Nat.zero_le _

theorem parse_le {ctx : PeerContext} {b : Bytes} {p : Parsed} (h : Message.parse ctx b = .ok p) :
    p.consumed ≤ b.length := by
  obtain ⟨handshake, hp, h⟩ := bind_eq_ok.1 h
  cases handshake with
  | some hs =>
    cases h
    exact (parseHandshake_le ctx hs).trans (handshake_le hp)
  | none => exact parsePrefixed_le h

theorem drain_consumed (ctx : PeerContext) (turns : Nat) (conn : PeerConnection) :
    consumedBy (drain ctx turns conn).parsed + (drain ctx turns conn).conn.response.length =
      conn.response.length := by
  induction turns generalizing conn with
  | zero => simp [drain, consumedBy]
  | succ turns ih =>
    unfold drain
    split
    · simp [consumedBy]
    · cases hp : Message.parse ctx conn.response with
      | error e => simp [consumedBy]
      | ok p =>
        have hle := parse_le hp
        by_cases hc : p.consumed = 0
        · simp [hc, consumedBy]
        · simp only [if_neg hc]
          have := ih ⟨conn.response.drop p.consumed, conn.stopped || p.calls.contains .stop⟩
          simp only [consumedBy, List.map_cons, List.sum_cons, List.length_drop] at this ⊢
          omega

theorem handleResponse_consumed (ctx : PeerContext) (conn : PeerConnection) (data : Bytes) :
    consumedBy (handleResponse ctx conn data).parsed +
        (handleResponse ctx conn data).conn.response.length ≤
      conn.response.length + data.length := by
  unfold handleResponse
  split
  · simp [consumedBy]
  · rw [drain_consumed, List.length_append]

/-- A connection consumes no more bytes than are read. -/
theorem receive_consumed (ctx : PeerContext) (conn : PeerConnection) (reads : List Bytes) :
    consumedBy (receive ctx conn reads).parsed ≤ conn.response.length + reads.flatten.length := by
  induction reads generalizing conn with
  | nil => simp [receive, consumedBy]
  | cons data reads ih =>
    have hone := handleResponse_consumed ctx conn data
    unfold receive
    dsimp only
    rw [List.flatten_cons, List.length_append]
    split
    · omega
    · have := ih (handleResponse ctx conn data).conn
      rw [consumedBy_append]
      omega

/-! ## The first read -/

/-- What is dispatched to the new peer, if there is one. -/
def dispatched (known : Sha1 → Bool) (reads : List Bytes) : Except Exn (Option (List Parsed)) :=
  (PeerAcceptor.listen known reads).map fun r => r.map fun x => trace x.parsed

/-- It is the same as when the first read ends with the handshake. What is compared are the messages
`parse` takes, also those it calls nothing for: a keep-alive or an unsupported message that is dropped
is a difference. -/
def SameDispatch (known : Sha1 → Bool) (first : Bytes) (reads : List Bytes) : Prop :=
  dispatched known (first :: reads) = dispatched known (first.take 68 :: first.drop 68 :: reads)

section
variable {known : Sha1 → Bool} {hs : Handshake} {ms : List Msg} {first : Bytes} {reads : List Bytes}

/-- A read that brings nothing. -/
theorem receive_nothing (ctx : PeerContext) (reads : List Bytes) :
    receive ctx .init ([] :: reads) = receive ctx .init reads := by
  rw [receive]
  rfl

theorem dispatched_newPeer {ctx : PeerContext}
    (h : PeerAcceptor.newPeer known first = .ok (some ctx)) :
    dispatched known (first :: reads) = .ok (some (trace (receive ctx .init reads).parsed)) := by
  simp [dispatched, PeerAcceptor.listen, h, bind, Except.bind, pure, Except.pure, Except.map]

/-- What is dispatched comes from the reads behind the first. -/
theorem dispatched_some {ps : List Parsed} (h : dispatched known (first :: reads) = .ok (some ps)) :
    ∃ ctx, ps = trace (receive ctx .init reads).parsed := by
  cases ha : PeerAcceptor.newPeer known first with
  | error e => simp [dispatched, PeerAcceptor.listen, ha, bind, Except.bind, Except.map] at h
  | ok r =>
    cases r with
    | none =>
      simp [dispatched, PeerAcceptor.listen, ha, bind, Except.bind, pure, Except.pure,
        Except.map] at h
    | some ctx =>
      rw [dispatched_newPeer ha] at h
      exact ⟨ctx, by simpa using h.symm⟩

theorem newPeer_handshake (hk : known hs.infoHash = true) :
    PeerAcceptor.newPeer known hs.bytes = .ok (some ⟨hs.infoHash, true⟩) := by
  obtain ⟨msg, hp, hi, -, -⟩ := Handshake.parse_self hs
  simp [PeerAcceptor.newPeer, hp, hi, hk, bind, Except.bind, pure, Except.pure]

/-- The messages behind a handshake are dispatched as if the first read ended with it when it does;
and, provided that they would all be parsed then, only when it does. -/
theorem listen_iff (hk : known hs.infoHash = true)
    (hbytes : (first :: reads).flatten = hs.bytes ++ Msg.encodeAll ms) (h68 : 68 ≤ first.length) :
    (first.length = 68 → SameDispatch known first reads) ∧
      (Delivers (receive ⟨hs.infoHash, true⟩ .init (first.drop 68 :: reads)) ms [] →
        (SameDispatch known first reads ↔ first.length = 68)) := by
  rw [List.flatten_cons] at hbytes
  have htake : first.take 68 = hs.bytes := by
    have h := congrArg (List.take 68) hbytes
    rwa [List.take_append_of_le_length h68, List.take_append_of_le_length (by simp),
      List.take_of_length_le (l := hs.bytes) (by simp)] at h
  have href := @dispatched_newPeer known (first.take 68) (first.drop 68 :: reads) _
    (htake ▸ newPeer_handshake hk)
  have hsame : first.length = 68 → SameDispatch known first reads := by
    intro hlen
    have hfirst : first.take 68 = first := List.take_of_length_le (by omega)
    have hdrop : first.drop 68 = [] := List.drop_of_length_le (by omega)
    rw [SameDispatch, href, hdrop, receive_nothing]
    exact dispatched_newPeer (by rw [← hfirst, htake]; exact newPeer_handshake hk)
  refine ⟨hsame, fun hd => ⟨fun hs' => ?_, hsame⟩⟩
  -- the bytes of the messages do not fit into the reads behind the first
  rw [SameDispatch, href, hd.1] at hs'
  obtain ⟨ctx, hps⟩ := dispatched_some hs'
  have hall := consumedBy_frames ms
  rw [hps, consumedBy_trace] at hall
  have hle := receive_consumed ctx .init reads
  have hlen := congrArg List.length hbytes
  rw [List.length_append, List.length_append, hs.bytes_length] at hlen
  have hinit : PeerConnection.init.response.length = 0 := rfl
  omega

/-- The handshake comes alone, an UNCHOKE after it. -/
theorem listen_iff_alone : SameDispatch (fun _ => true) zeroHandshake.bytes
    [(Msg.unchoke []).encode] :=
  (@listen_iff (fun _ => true) zeroHandshake [.unchoke []] zeroHandshake.bytes
    [(Msg.unchoke []).encode] rfl (by decide) (by decide)).1 (by decide)

/-- The BITFIELD that comes along with the handshake is lost. -/
theorem listen_drops : ¬∀ (known : Sha1 → Bool) (hs : Handshake) (ms : List Msg) (first : Bytes)
    (reads : List Bytes), known hs.infoHash = true →
    (first :: reads).flatten = hs.bytes ++ Msg.encodeAll ms → 68 ≤ first.length →
    SameDispatch known first reads := by
  intro h
  have hx := h (fun _ => true) zeroHandshake [.bitfield [128], .unchoke []]
    (zeroHandshake.bytes ++ (Msg.bitfield [128]).encode) [(Msg.unchoke []).encode] rfl
    (by decide) (by decide)
  revert hx
  unfold SameDispatch
  decide +kernel

end

end Zit
