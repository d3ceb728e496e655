import Zit.Proof.Accounting
import Zit.Proof.Calls
import Zit.Proof.Front

/-!
# Connections that do not end the torrent

`Parseable` says of a buffer whether `Message::parse` returns (`parse_parseable`), and `TurnHarmless`
of a buffer and a state whether the calls it makes return too. A torrent is not ended by its peers
exactly as long as every read is harmless in the state it comes in (`running_iff`).
-/

set_option autoImplicit false

namespace Zit

open Lib World

/-! ## Parsing -/

/-- A BITFIELD message behind a handshake ends before its bits begin. -/
def EndsEarly (b : Bytes) : Prop :=
  ∃ k len, search btStart b = some k ∧ 73 ≤ (b.drop k).length ∧ (b.drop k)[72]? = some 5 ∧
    fromBigEndian (b.drop k) 68 = .ok len ∧ (73 + len - 1).toNat < 73

/-- What a buffer makes the peer call, read off its bytes. -/
inductive Makes (ctx : PeerContext) (b : Bytes) : Parsed → Prop
  | handshake {hs : HandshakeMsg} (h : HandshakeMsg.parse b = .ok (some hs)) :
      Makes ctx b (Message.parseHandshake ctx hs)
  | idle (hlooks : ¬LooksLikeHandshake b) (hf : front b = .idle) (n : Nat) : Makes ctx b ⟨[], n⟩
  | tooLong (hlooks : ¬LooksLikeHandshake b) (hf : front b = .tooLong) :
      Makes ctx b ⟨[.stop, .disconnected], 0⟩
  | call (hlooks : ¬LooksLikeHandshake b) {c : PeerCall} (hf : front b = .call c) (n : Nat) :
      Makes ctx b ⟨[c], n⟩

/-- What looks like a handshake does not end early, and no other message lacks its fields. -/
def Parseable (b : Bytes) : Prop := ¬EndsEarly b ∧ (¬LooksLikeHandshake b → front b ≠ .short)

theorem parse_looks (ctx : PeerContext) {b : Bytes} (hlooks : LooksLikeHandshake b) :
    (¬EndsEarly b ∧ ∃ hs, HandshakeMsg.parse b = .ok (some hs)) ∨
      EndsEarly b ∧ ∃ e, Message.parse ctx b = .error e := by
  obtain ⟨k, hs, hr⟩ := hlooks
  have hearly : ∀ {len : UInt32}, fromBigEndian (b.drop k) 68 = .ok len → EndsEarly b →
      (73 + len - 1).toNat < 73 := by
    rintro len hlen ⟨k', len', hs', -, -, hlen', hlt⟩
    obtain rfl := Option.some.inj (hs.symm.trans hs')
    obtain rfl := Except.ok.inj (hlen.symm.trans hlen')
    exact hlt
  rw [Message.parse, Message.parse_drop hs, if_neg (by unfold minBtMsgLength; omega)]
  rcases Message.parseStart_cases (r := b.drop k) (by omega) with ⟨-, h1, h2⟩ |
    ⟨msg, hmsg, -, -, h68⟩ | ⟨h73, hid, len, hlen, h⟩
  · exact absurd hr fun hr => hr.elim h1 h2
  · refine .inl ⟨?_, msg, hmsg⟩
    intro hin
    obtain ⟨k', len, hs', h73, -⟩ := hin
    obtain rfl := Option.some.inj (hs.symm.trans hs')
    omega
  · rcases h with ⟨msg, hmsg, -, hlt⟩ | ⟨-, hlt, e, he⟩ | ⟨msg, hmsg, -, -, -, hle⟩
    · exact .inl ⟨fun he => absurd (hearly hlen he) (by omega), msg, hmsg⟩
    · rw [he]
      exact .inr ⟨⟨k, len, hs, h73, hid, hlen, hlt⟩, e, rfl⟩
    · exact .inl ⟨fun he => absurd (hearly hlen he) (by omega), msg, hmsg⟩

/-- `Message::parse` returns exactly if the buffer is parseable. -/
theorem parse_parseable (ctx : PeerContext) (b : Bytes) :
    (Parseable b ∧ ∃ p, Message.parse ctx b = .ok p ∧ Makes ctx b p) ∨
      ¬Parseable b ∧ ∃ e, Message.parse ctx b = .error e := by
  by_cases hlooks : LooksLikeHandshake b
  · rcases parse_looks ctx hlooks with ⟨hearly, hs, hparse⟩ | ⟨hearly, he⟩
    · refine .inl ⟨⟨hearly, fun hno => absurd hlooks hno⟩, _, ?_, .handshake hparse⟩
      rw [Message.parse, hparse]
      rfl
    · exact .inr ⟨fun hp => hp.1 hearly, he⟩
  · have hearly : ¬EndsEarly b := by
      intro hin
      obtain ⟨k, len, hs, h73, hid, -⟩ := hin
      exact hlooks ⟨k, hs, .inr ⟨h73, hid⟩⟩
    have hiff : Parseable b ↔ front b ≠ .short :=
      ⟨fun h => h.2 hlooks, fun h => ⟨hearly, fun _ => h⟩⟩
    rw [hiff, Message.parse_of_not_looks ctx hlooks]
    have hmakes := parsePrefixed_front b
    cases hf : front b with
    | idle =>
      rw [hf] at hmakes
      obtain ⟨n, hn⟩ := hmakes
      exact .inl ⟨by decide, _, hn, .idle hlooks hf n⟩
    | tooLong =>
      rw [hf] at hmakes
      exact .inl ⟨by decide, _, hmakes, .tooLong hlooks hf⟩
    | short =>
      rw [hf] at hmakes
      exact .inr ⟨fun hno => hno rfl, hmakes⟩
    | call c =>
      rw [hf] at hmakes
      obtain ⟨n, hn⟩ := hmakes
      exact .inl ⟨by simp, _, hn, .call hlooks hf n⟩

/-! ## The calls of a handshake -/

/-- The calls around `report_bitfield`, which never throw. -/
def PeerCall.Quiet : PeerCall → Prop
  | .verifyInfoHash _ | .setRemotePieces _ | .handshake | .setAmInterested _ => True
  | _ => False

/-- A handshake is answered with a bitfield if it is for this torrent, and its own has come. -/
def Answered (infoHash : Sha1) (hs : HandshakeMsg) : Prop :=
  hs.consumed ≠ 0 ∧ infoHash = hs.infoHash

theorem parseHandshake_calls (ctx : PeerContext) (hs : HandshakeMsg) :
    (Answered ctx.infoHash hs ∧ ∃ pre, (∀ c ∈ pre, PeerCall.Quiet c) ∧
      (Message.parseHandshake ctx hs).calls = pre ++ [.reportBitfield, .setAmInterested true]) ∨
    (¬Answered ctx.infoHash hs ∧ ∀ c ∈ (Message.parseHandshake ctx hs).calls, c.Quiet) := by
  unfold Message.parseHandshake
  by_cases h0 : hs.consumed = 0
  · exact .inr ⟨fun ha => ha.1 h0, by simp [h0]⟩
  · rw [if_neg h0]
    by_cases hne : ctx.infoHash ≠ hs.infoHash
    · exact .inr ⟨fun ha => hne ha.2, by simp [hne, PeerCall.Quiet]⟩
    · rw [if_neg hne]
      refine .inl ⟨⟨h0, not_not.1 hne⟩, _, ?_, rfl⟩
      intro c hc
      simp only [List.mem_append, List.mem_ite_nil_right, List.mem_singleton] at hc
      rcases hc with (rfl | ⟨-, rfl⟩) | ⟨-, rfl⟩ <;> trivial

section
variable {sha1 : Bytes → Sha1} {t : Torrent} {peerId : Bytes} {ctx : PeerContext} {i : Nat}
  {now : Int} {w : World}

/-- A bitfield that is made for the pieces of a peer has no bit to report. -/
theorem setRemotePieces_report (bf : Bitfield) : wp (Peer.setRemotePieces i bf) w
    (fun _ w' => Harmless t i now w' .reportBitfield ↔ Harmless t i now w .reportBitfield)
    fun _ _ => True := by
  have hnone {own : Bitfield} (hbits : ∀ k, own.bit k = false) : own.next true = none := by
    cases hnext : own.next true with
    | none => rfl
    | some k =>
      have hbit := (own.next_some hnext).2.2.1
      exact absurd ((hbits k).symm.trans hbit) Bool.false_ne_true
  simp only [Peer.setRemotePieces, Peer.modifyPeer, Torrent.initClientPieces, wp_bind, wp_modify,
    wp_get]
  refine wp_ite (fun hsize => ?_) fun _ => Iff.rfl
  refine iff_of_true (fun hsome => ?_) fun hsome => ?_
  · rw [hnone (Bitfield.bit_ofCount _)] at hsome
    cases hsome
  · rw [hnone fun k => Bitfield.bit_of_size_le _ (by omega)] at hsome
    cases hsome

theorem quiet_spec (hl : t.Lengths) (hn : t.pieces.length < 2 ^ 32) {c : PeerCall} (hc : c.Quiet)
    (h : WellFormed sha1 t w) (hi : i < w.peers.length) : wp (Peer.call t peerId i now c) w
      (fun _ w' => (Harmless t i now w' .reportBitfield ↔ Harmless t i now w .reportBitfield) ∧
        WellFormed sha1 t w' ∧ i < w'.peers.length)
      fun _ _ => False := by
  have hreport : wp (Peer.call t peerId i now c) w
      (fun _ w' => Harmless t i now w' .reportBitfield ↔ Harmless t i now w .reportBitfield)
      fun _ _ => True := by
    cases c with
    | setRemotePieces bf => exact setRemotePieces_report bf
    | verifyInfoHash _ | handshake | setAmInterested _ => exact Iff.rfl
    | _ => cases hc
  have hcall := call_spec h hl hn (List.getElem?_eq_getElem hi) peerId now c
  have hharmless : Harmless t i now w c := by
    cases c with
    | setRemotePieces _ | verifyInfoHash _ | handshake | setAmInterested _ => trivial
    | _ => cases hc
  have hne : c ≠ .disconnected := by
    rintro rfl
    exact hc
  refine wp_mono (wp_and hreport hcall) (fun _ w' h' => ?_) fun _ _ h' => h'.2 hharmless
  exact ⟨h'.1, h'.2.2, (h'.2.1.2 hne).symm ▸ hi⟩

theorem quiets_spec (hl : t.Lengths) (hn : t.pieces.length < 2 ^ 32) {cs : List PeerCall}
    (hcs : ∀ c ∈ cs, c.Quiet) (h : WellFormed sha1 t w) (hi : i < w.peers.length) :
    wp (forM cs (Peer.call t peerId i now)) w
      (fun _ w' => (Harmless t i now w' .reportBitfield ↔ Harmless t i now w .reportBitfield) ∧
        WellFormed sha1 t w' ∧ i < w'.peers.length)
      fun _ _ => False := by
  induction cs generalizing w with
  | nil => exact ⟨Iff.rfl, h, hi⟩
  | cons c cs ih =>
    rw [List.forall_mem_cons] at hcs
    simp only [List.forM_cons, wp_bind]
    refine wp_mono (quiet_spec hl hn hcs.1 h hi) (fun _ w1 h1 => ?_) fun _ _ hf => hf
    rw [← h1.1]
    exact ih hcs.2 h1.2.1 h1.2.2

theorem answer_spec (hl : t.Lengths) (hn : t.pieces.length < 2 ^ 32) (h : WellFormed sha1 t w)
    (hi : i < w.peers.length) (hs : HandshakeMsg) :
    wp (forM (Message.parseHandshake ctx hs).calls (Peer.call t peerId i now)) w
      (fun _ w' => (Answered ctx.infoHash hs → Harmless t i now w .reportBitfield) ∧
        WellFormed sha1 t w' ∧ i < w'.peers.length)
      fun _ _ => ¬(Answered ctx.infoHash hs → Harmless t i now w .reportBitfield) := by
  rcases parseHandshake_calls ctx hs with ⟨ha, pre, hpre, hcalls⟩ | ⟨ha, hcalls⟩
  · have hiff : (Answered ctx.infoHash hs → Harmless t i now w .reportBitfield) ↔
        Harmless t i now w .reportBitfield := ⟨fun hall => hall ha, fun hr _ => hr⟩
    rw [hiff, hcalls, List.forM_append, wp_bind]
    refine wp_mono (quiets_spec hl hn hpre h hi) (fun _ w1 h1 => ?_) fun _ _ hf => hf.elim
    obtain ⟨hreport, hw1, hi1⟩ := h1
    rw [← hreport, List.forM_cons, wp_bind]
    have hcall := call_spec hw1 hl hn (List.getElem?_eq_getElem hi1) peerId now .reportBitfield
    refine wp_mono hcall (fun _ w2 h2 => ?_) fun _ _ h2 => h2
    obtain ⟨⟨hr, hlen⟩, hw2⟩ := h2
    have hquiet : ∀ c ∈ [PeerCall.setAmInterested true], c.Quiet := by
      rintro c hc
      rw [List.mem_singleton.1 hc]
      trivial
    exact wp_mono (quiets_spec hl hn hquiet hw2 ((hlen nofun).symm ▸ hi1))
      (fun _ _ h3 => ⟨hr, h3.2⟩) fun _ _ hf => hf.elim
  · exact wp_mono (quiets_spec hl hn hcalls h hi) (fun _ _ h' => ⟨fun hyes => absurd hyes ha, h'.2⟩)
      fun _ _ hf => hf.elim

end

/-! ## A turn -/

section
variable (t : Torrent) (peerId : Bytes) (ctx : PeerContext) (i : Nat) (now : Int)

/-- A buffer can be parsed, and the peer and the torrent are ready for the message in it. -/
structure TurnHarmless (buf : Bytes) (w : World) : Prop where
  parseable : Parseable buf
  call : ∀ c, ¬LooksLikeHandshake buf → front buf = .call c → Harmless t i now w c
  answer : ∀ hs, HandshakeMsg.parse buf = .ok (some hs) → Answered ctx.infoHash hs →
    Harmless t i now w .reportBitfield

/-- Every turn is harmless in the state before it. -/
def LoopHarmless : Nat → PeerConnection → World → Prop
  | 0, _, _ => True
  | turns + 1, conn, w => conn.response.isEmpty = false →
    TurnHarmless t ctx i now conn.response w ∧
      ∀ conn' consumed w', Peer.handleTurn t peerId ctx i now conn w = .ok (conn', consumed) w' →
        consumed ≠ 0 → LoopHarmless turns conn' w'

end

section
variable {sha1 : Bytes → Sha1} {t : Torrent} {peerId : Bytes} {ctx : PeerContext} {i : Nat}
  {now : Int} {w : World}

/-- A peer is dropped. -/
theorem final_spec (h : WellFormed sha1 t w) :
    wp (forM [PeerCall.stop, .disconnected] (Peer.call t peerId i now)) w
      (fun _ w' => WellFormed sha1 t w') fun _ _ => False := by
  have hdrop : Changes sha1 t .all w { w with peers := w.peers.eraseIdx i } :=
    call_moves (i := i) peerId .disconnected now
  exact h.changes hdrop

theorem calls_spec (hl : t.Lengths) (hn : t.pieces.length < 2 ^ 32) (h : WellFormed sha1 t w)
    (hi : i < w.peers.length) {buf : Bytes} (hparse : Parseable buf) {p : Parsed}
    (hp : Makes ctx buf p) :
    wp (forM p.calls (Peer.call t peerId i now)) w
      (fun _ w' => TurnHarmless t ctx i now buf w ∧ WellFormed sha1 t w' ∧
        (p.consumed ≠ 0 → i < w'.peers.length))
      fun _ _ => ¬TurnHarmless t ctx i now buf w := by
  have hno {hs : HandshakeMsg} (hlooks : ¬LooksLikeHandshake buf)
      (hparse : HandshakeMsg.parse buf = .ok (some hs)) : False := by
    rw [Message.handshake_none hlooks] at hparse
    cases hparse
  cases hp with
  | @handshake hs hhs =>
    have hlooks : LooksLikeHandshake buf := not_not.1 fun hl => hno hl hhs
    have hiff : TurnHarmless t ctx i now buf w ↔
        (Answered ctx.infoHash hs → Harmless t i now w .reportBitfield) := by
      refine ⟨fun ht => ht.answer hs hhs, fun ha => ⟨hparse, fun c hl => absurd hlooks hl, ?_⟩⟩
      rintro hs' hhs'
      obtain rfl := Option.some.inj (Except.ok.inj (hhs.symm.trans hhs'))
      exact ha
    rw [hiff]
    exact wp_mono (answer_spec hl hn h hi hs) (fun _ _ h' => ⟨h'.1, h'.2.1, fun _ => h'.2.2⟩)
      fun _ _ h' => h'
  | idle hlooks hf n =>
    refine ⟨⟨hparse, fun c _ hc => ?_, fun hs hhs => (hno hlooks hhs).elim⟩, h, fun _ => hi⟩
    rw [hf] at hc
    cases hc
  | tooLong hlooks hf =>
    refine wp_mono (final_spec h) (fun _ w' h' => ?_) fun _ _ hf => hf.elim
    refine ⟨⟨hparse, fun c _ hc => ?_, fun hs hhs => (hno hlooks hhs).elim⟩, h', fun h0 => ?_⟩
    · rw [hf] at hc
      cases hc
    · exact absurd rfl h0
  | @call hlooks c hf n =>
    have hiff : TurnHarmless t ctx i now buf w ↔ Harmless t i now w c := by
      refine ⟨fun ht => ht.call c hlooks hf, fun hc => ⟨hparse, ?_, ?_⟩⟩
      · rintro c' - hf'
        obtain rfl := Front.call.inj (hf.symm.trans hf')
        exact hc
      · exact fun hs hhs => (hno hlooks hhs).elim
    have hne : c ≠ .disconnected := by
      rintro rfl
      exact absurd (front_acts hf) nofun
    have hcall := call_spec h hl hn (List.getElem?_eq_getElem hi) peerId now c
    rw [hiff, List.forM_cons, wp_bind]
    refine wp_mono hcall (fun _ w' h' => ?_) fun _ _ h' => h'
    exact ⟨h'.1.1, h'.2, fun _ => (h'.1.2 hne).symm ▸ hi⟩

theorem handleTurn_spec (hl : t.Lengths) (hn : t.pieces.length < 2 ^ 32) (h : WellFormed sha1 t w)
    (hi : i < w.peers.length) (conn : PeerConnection) :
    wp (Peer.handleTurn t peerId ctx i now conn) w
      (fun r w' => TurnHarmless t ctx i now conn.response w ∧ WellFormed sha1 t w' ∧
        (r.2 ≠ 0 → i < w'.peers.length))
      fun _ _ => ¬TurnHarmless t ctx i now conn.response w := by
  unfold Peer.handleTurn
  simp only [wp_bind]
  rcases parse_parseable ctx conn.response with ⟨hparse, p, hp, hmakes⟩ | ⟨hparse, e, he⟩
  · rw [wp_lift_ok hp]
    exact calls_spec hl hn h hi hparse hmakes
  · rw [he]
    exact fun ht => hparse ht.parseable

/-! ## A read -/

theorem handleLoop_spec (hl : t.Lengths) (hn : t.pieces.length < 2 ^ 32) (turns : Nat)
    (conn : PeerConnection) (w : World) (h : WellFormed sha1 t w) (hi : i < w.peers.length) :
    wp (Peer.handleLoop t peerId ctx i now turns conn) w
      (fun _ _ => LoopHarmless t peerId ctx i now turns conn w)
      fun _ _ => ¬LoopHarmless t peerId ctx i now turns conn w := by
  induction turns generalizing conn w with
  | zero => trivial
  | succ turns ih =>
    unfold Peer.handleLoop
    refine wp_ite (fun hempty => ?_) fun hne => ?_
    · intro hne
      rw [hempty] at hne
      cases hne
    · have hfalse : conn.response.isEmpty = false := by simpa using hne
      have hturn := @handleTurn_spec sha1 t peerId ctx i now w hl hn h hi conn
      simp only [wp_bind]
      refine wp_of (fun r w1 hok => ?_) fun e w1 herr hall =>
        wp_error hturn herr (hall hfalse).1
      obtain ⟨conn', consumed⟩ := r
      obtain ⟨hturn', hw1, hi1⟩ := wp_ok hturn hok
      have hiff : LoopHarmless t peerId ctx i now (turns + 1) conn w ↔
          (consumed ≠ 0 → LoopHarmless t peerId ctx i now turns conn' w1) := by
        simp [LoopHarmless, hfalse, hturn', hok]
      rw [hiff]
      refine wp_ite (fun h0 hne => absurd h0 hne) fun hne => ?_
      exact wp_mono (ih conn' w1 hw1 (hi1 hne)) (fun _ _ h' _ => h') fun _ _ h' hall => h' (hall hne)

theorem handleLoop_moves (turns : Nat) (conn : PeerConnection) (w : World) :
    Moves (Change sha1 t .all) (Peer.handleLoop t peerId ctx i now turns conn) w := by
  induction turns generalizing conn w with
  | zero => exact .refl
  | succ turns ih =>
    have hcalls (cs : List PeerCall) (w : World) :
        Moves (Change sha1 t .all) (forM cs (Peer.call t peerId i now)) w := by
      induction cs generalizing w with
      | nil => exact .refl
      | cons c cs ih => exact Moves.bind (call_moves peerId c now) fun _ w1 _ => ih w1
    unfold Peer.handleLoop
    refine Moves.ite (fun _ => .refl) fun _ => Moves.bind ?_ fun r w1 _ => ?_
    · exact Moves.bind_lift fun p _ => Moves.bind (hcalls p.calls w) fun _ _ _ => .refl
    · exact Moves.ite (fun _ => .refl) fun _ => ih _ w1

theorem handleResponse_moves (conn : PeerConnection) (data : Bytes) :
    Moves (Change sha1 t .all) (Peer.handleResponse t peerId i now conn data) w := by
  unfold Peer.handleResponse
  apply moves_getPeer
  intro p _
  exact Moves.ite (fun _ => .refl) fun _ => handleLoop_moves _ _ w

end

/-! ## Runs -/

/-- No peer is connected yet. -/
def Net.start (w : World) : Net := ⟨w, [], none⟩

/-- A read on a connection that is not stopped is harmless. -/
def Event.Harmless (t : Torrent) (peerId : Bytes) (n : Net) : Event → Prop
  | .receive i data now => ∀ p conn, n.world.peers[i]? = some p → n.conns[i]? = some conn →
    conn.stopped = false →
      LoopHarmless t peerId ⟨t.infoHash, p.listening⟩ i now (conn.response ++ data).length
        { conn with response := conn.response ++ data } n.world
  | .other _ => True

section
variable {sha1 : Bytes → Sha1} {t : Torrent} {peerId : Bytes}

theorem receive_spec (hl : t.Lengths) (hn : t.pieces.length < 2 ^ 32) {n : Net} {i : Nat} {p : Peer}
    {conn : PeerConnection} (h : WellFormed sha1 t n.world)
    (hp : n.world.peers[i]? = some p) (hconn : n.conns[i]? = some conn) (data : Bytes)
    (now : Int) : WellFormed sha1 t (n.receive t peerId i conn data now).world ∧
      ((n.receive t peerId i conn data now).thrown = none ↔
        (Event.receive i data now).Harmless t peerId n) := by
  have hmoves := @handleResponse_moves sha1 t peerId i now n.world conn data
  have hiff : (Event.receive i data now).Harmless t peerId n ↔ (conn.stopped = false →
      LoopHarmless t peerId ⟨t.infoHash, p.listening⟩ i now (conn.response ++ data).length
        { conn with response := conn.response ++ data } n.world) := by
    simp [Event.Harmless, hp, hconn]
  have hspec : wp (Peer.handleResponse t peerId i now conn data) n.world
      (fun _ _ => (Event.receive i data now).Harmless t peerId n)
      fun _ _ => ¬(Event.receive i data now).Harmless t peerId n := by
    rw [hiff]
    simp only [Peer.handleResponse, wp_bind]
    refine (wp_getPeer hp).2 (wp_ite (fun hs hf => ?_) fun hs => ?_)
    · rw [hs] at hf
      cases hf
    · have hfalse : conn.stopped = false := by simpa using hs
      exact wp_mono (handleLoop_spec hl hn _ _ n.world h (List.getElem?_eq_some_iff.1 hp).1)
        (fun _ _ h' _ => h') fun _ _ h' hall => h' (hall hfalse)
  unfold Net.receive
  cases hr : Peer.handleResponse t peerId i now conn data n.world with
  | ok conn' w' =>
    have hharmless := wp_ok hspec hr
    exact ⟨h.changes (hmoves.ok hr), iff_of_true rfl hharmless⟩
  | error e w' =>
    have hharmful := wp_error hspec hr
    exact ⟨h.changes (hmoves.error hr), iff_of_false (Option.some_ne_none _) hharmful⟩

/-- No exception leaves `handle_response` exactly as long as every read is harmless. -/
theorem running_iff {w0 : World} (hc : Constructed sha1 t w0) (peerId : Bytes) (es : List Event) :
    (∀ pre n, pre <+: es → Run (Net.Step sha1 t peerId) (Net.start w0) pre n → n.thrown = none) ↔
      ∀ pre e n n', pre ++ [e] <+: es → Run (Net.Step sha1 t peerId) (Net.start w0) pre n →
        Net.Step sha1 t peerId n e n' → e.Harmless t peerId n := by
  have hl := Torrent.lengths_of_constructed hc
  have hn := hc.pieces_le
  refine Run.inv_iff (K := fun n : Net => WellFormed sha1 t n.world)
    (I := fun n : Net => n.thrown = none) (C := fun n (e : Event) => e.Harmless t peerId n)
    (fun n e n' h hrun hs => ?_) (WellFormed.of_constructed hc) rfl
  cases hs with
  | receive _ hp hconn data now => exact receive_spec hl (by omega) h hp hconn data now
  | other _ hstep =>
    exact ⟨h.changes (step_moves hstep (Hazards.le_all _)), iff_of_true hrun trivial⟩

end

/-! ## Whole messages, and a HAVE without its field -/

/-- A peer connects, an UNCHOKE comes in two parts, and a HAVE. -/
def wholeMessages : List Event :=
  [.other (.connect true), .receive 0 [0, 0, 0, 1] 5, .receive 0 [1] 6,
    .receive 0 [0, 0, 0, 5, 4, 0, 0, 0, 0] 7]

/-- A peer connects and sends a HAVE of length 1. -/
def bareHave : List Event := [.other (.connect true), .receive 0 [0, 0, 0, 1, 4] 5]

theorem bareHave_ends : ∃ t w0 n, Constructed Torrent.oneByteSha1 t w0 ∧
    Run (Net.Step Torrent.oneByteSha1 t []) (Net.start w0) bareHave n ∧ n.thrown ≠ none := by
  have hcheck : checkNew Torrent.oneByteSha1 Torrent.oneByteConfig [] Torrent.oneByteFile [0] ⟨∅⟩
      (fun t w0 => (Action.runAll (fun _ _ => true) Torrent.oneByteSha1 t [.connect true] w0).any
        fun w => w.peers[0]?.isSome && decide (wp (Peer.handleResponse t [] 0 5 .init
          [0, 0, 0, 1, 4]) w (fun _ _ => False) fun _ _ => True)) = true := by
    decide +kernel
  obtain ⟨t, w0, hc, h⟩ := checkNew_true hcheck
  simp only [Option.any_eq_true, Bool.and_eq_true, decide_eq_true_eq, Option.isSome_iff_exists] at h
  obtain ⟨w, hr, ⟨p, hp⟩, hthrows⟩ := h
  have hrun := (run_of_runAll hr).mono fun _ _ _ h => h.2
  rcases hrun with _ | ⟨hstep, ⟨⟩⟩
  refine ⟨t, w0, _, hc, .cons (.other rfl hstep) (.cons (.receive rfl hp rfl _ _) (.nil _)), ?_⟩
  obtain ⟨e, w', he⟩ := error_of_wp hthrows
  simp only [Net.receive, he]
  exact Option.some_ne_none e

theorem wholeMessages_run : ∃ t w0 n, Constructed Torrent.oneByteSha1 t w0 ∧
    Run (Net.Step Torrent.oneByteSha1 t []) (Net.start w0) wholeMessages n ∧ n.thrown = none := by
  have hcheck : checkNew Torrent.oneByteSha1 Torrent.oneByteConfig [] Torrent.oneByteFile [0] ⟨∅⟩
      (fun t w0 => (wholeMessages.foldlM (Net.next Torrent.oneByteSha1 t []) (Net.start w0)).any
        fun n => n.thrown.isNone) = true := by
    decide +kernel
  obtain ⟨t, w0, hc, h⟩ := checkNew_true hcheck
  obtain ⟨n, hn, hthrown⟩ := (Option.any_eq_true _ _).1 h
  exact ⟨t, w0, n, hc, (Run.of_foldlM hn).mono fun _ _ _ h => Net.next_iff.1 h,
    Option.isNone_iff_eq_none.1 hthrown⟩

/-- Reads that are harmless all along, and a run with one that is not. -/
theorem running_iff_oneByte :
    (∃ t w0 n, Constructed Torrent.oneByteSha1 t w0 ∧
      Run (Net.Step Torrent.oneByteSha1 t []) (Net.start w0) wholeMessages n ∧ n.thrown = none ∧
      ∀ pre e m m', pre ++ [e] <+: wholeMessages →
        Run (Net.Step Torrent.oneByteSha1 t []) (Net.start w0) pre m →
        Net.Step Torrent.oneByteSha1 t [] m e m' → e.Harmless t [] m) ∧
    ∃ t w0 pre e n, Constructed Torrent.oneByteSha1 t w0 ∧ pre ++ [e] <+: bareHave ∧
      Run (Net.Step Torrent.oneByteSha1 t []) (Net.start w0) pre n ∧ ¬e.Harmless t [] n := by
  refine ⟨?_, ?_⟩
  · obtain ⟨t, w0, n, hc, hrun, hn⟩ := wholeMessages_run
    exact ⟨t, w0, n, hc, hrun, hn, (running_iff hc [] wholeMessages).1 fun _ _ hpre hm =>
      Net.running_of_run hrun hn hpre hm⟩
  obtain ⟨t, w0, n, hc, hrun, hthrown⟩ := bareHave_ends
  by_contra hno
  refine hthrown ((running_iff hc [] bareHave).2 ?_ bareHave n List.prefix_rfl hrun)
  intro pre e n n' hpre hrun _
  by_contra hharm
  exact hno ⟨t, w0, pre, e, n, hc, hpre, hrun, hharm⟩

/-- A peer can end the torrent. -/
theorem running_ends : ¬∀ (sha1 : Bytes → Sha1) (t : Torrent) (w0 : World) (peerId : Bytes)
    (es : List Event) (n : Net), Constructed sha1 t w0 →
      Run (Net.Step sha1 t peerId) (Net.start w0) es n → n.thrown = none := by
  intro hall
  obtain ⟨t, w0, n, hc, hrun, hthrown⟩ := bareHave_ends
  exact hthrown (hall _ t w0 [] bareHave n hc hrun)

end Zit
