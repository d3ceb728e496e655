import Zit.Connection
import Zit.Proof.Assembly
import Zit.Proof.Segmentation

/-!
# A connection that reads a stream of messages

`Channel` says how far the other end has read what has been written as messages: which of them have
come in full, and what is in the buffer of the next one. Writing and reading keep it
(`Channel.write`, `Channel.read`). When the messages are `Plain`, no part of the stream looks like a
handshake, and a read makes the calls of the messages it completes, one message after the other,
however the stream is cut (`receive_messages`).
-/

set_option autoImplicit false

namespace Zit

open Lib World PeerConnection

/-! ## Plain messages -/

/-- A message that the receiver takes for what it is: behind its first byte, which is zero, there is
no protocol string. -/
def Msg.Plain (m : Msg) : Prop :=
  m.supported = true ∧ m.body.length ≤ maxIncomingDataSize.toNat ∧
    ∃ rest, m.encode = 0 :: rest ∧ search btStart rest = none

namespace Msg

theorem zero_notMem_btStart : (0 : UInt8) ∉ btStart := by decide

/-- The length of a message that is not too long begins with a zero. -/
theorem encode_front {m : Msg} (h : m.body.length ≤ maxIncomingDataSize.toNat) :
    ∃ a b c, m.encode = 0 :: a :: b :: c :: m.body := by
  have hsize : maxIncomingDataSize.toNat = 2097152 := rfl
  have hfirst : ((UInt32.ofNat m.body.length >>> 24) &&& 0xFF).toUInt8 = 0 := by
    have hshift : UInt32.ofNat m.body.length >>> 24 = 0 := by
      refine UInt32.toNat.inj ?_
      rw [UInt32.toNat_shiftRight, Message.sized_toNat (Message.sized_of_le h),
        Nat.shiftRight_eq_div_pow]
      exact Nat.div_eq_of_lt (Nat.lt_of_le_of_lt h (by decide))
    rw [hshift]
    rfl
  exact ⟨_, _, _, by rw [encode, toBigEndian, hfirst]; rfl⟩

/-- A message that is shorter than the protocol string. -/
theorem plain_of_short {m : Msg} (hs : m.supported = true) (h : m.body.length < 17) : m.Plain := by
  have hmax : m.body.length ≤ maxIncomingDataSize.toNat := by
    have hsize : maxIncomingDataSize.toNat = 2097152 := rfl
    omega
  obtain ⟨a, b, c, he⟩ := encode_front hmax
  refine ⟨hs, hmax, _, he, search_short_none ?_⟩
  rw [show btStart.length = 20 by decide]
  simp only [List.length_cons]
  omega

/-- The offset of a block ends with a zero. -/
theorem toBigEndian_aligned {offset : UInt32} (h0 : offset % Piece.blockSize = 0) :
    ∃ x y z, toBigEndian offset = [x, y, z, 0] := by
  have hlast : ((offset >>> 0) &&& 0xFF).toUInt8 = 0 := by
    have hmod := congrArg UInt32.toNat h0
    rw [UInt32.toNat_mod, Piece.blockSize_toNat, show (0 : UInt32).toNat = 0 from rfl] at hmod
    refine UInt8.toNat.inj ?_
    simp only [UInt32.toNat_toUInt8, UInt32.toNat_and, UInt32.toNat_shiftRight]
    rw [show (255 : UInt32).toNat = 2 ^ 8 - 1 from rfl, Nat.and_two_pow_sub_one_eq_mod]
    simp only [show (0 : UInt32).toNat % 32 = 0 from rfl, Nat.shiftRight_zero,
      show (0 : UInt8).toNat = 0 from rfl]
    omega
  exact ⟨_, _, _, by rw [toBigEndian, hlast]⟩

/-- A block of data without the protocol string. -/
theorem plain_piece {index offset : UInt32} {data : Bytes} (h0 : offset % Piece.blockSize = 0)
    (hlen : data.length ≤ 16384) (hno : search btStart data = none) :
    (piece index offset data).Plain := by
  have hsize : maxIncomingDataSize.toNat = 2097152 := rfl
  have hmax : (piece index offset data).body.length ≤ maxIncomingDataSize.toNat := by
    simp only [body, List.length_cons, List.length_append, toBigEndian_length]
    omega
  obtain ⟨a, b, c, he⟩ := encode_front hmax
  -- nothing reaches from the fields over the zero into the data
  obtain ⟨x, y, z, hoff⟩ := toBigEndian_aligned h0
  refine ⟨rfl, hmax, _, he, ?_⟩
  have hsplit : a :: b :: c :: (piece index offset data).body =
      (a :: b :: c :: 7 :: (toBigEndian index ++ [x, y, z])) ++ 0 :: data := by
    simp [body, hoff]
  rw [hsplit]
  refine search_insert_none zero_notMem_btStart (search_short_none ?_) hno
  rw [show btStart.length = 20 by decide]
  simp

/-- The protocol string is not in front of plain messages, and not in them. -/
theorem search_before {ms : List Msg} (h : ∀ m ∈ ms, m.Plain) {l : Bytes}
    (hl : search btStart l = none) : search btStart (l ++ encodeAll ms) = none := by
  induction ms generalizing l with
  | nil => rwa [encodeAll_nil, List.append_nil]
  | cons m ms ih =>
    obtain ⟨-, -, rest, he, hrest⟩ := h m List.mem_cons_self
    rw [encodeAll_cons, he, List.cons_append]
    exact search_insert_none zero_notMem_btStart hl
      (ih (fun m hm => h m (List.mem_cons_of_mem _ hm)) hrest)

theorem search_encodeAll {ms : List Msg} (h : ∀ m ∈ ms, m.Plain) :
    search btStart (encodeAll ms) = none := search_before (l := []) h (by decide)

end Msg

/-! ## One read -/

section
variable (t : Torrent) (peerId : Bytes) (ctx : PeerContext) (i : Nat) (now : Int)

/-- The calls of a message. -/
def Peer.handle (m : Msg) : App Unit := forM m.calls (Peer.call t peerId i now)

variable {t peerId ctx i now} {w w' : World}

/-- A complete message at the front of the buffer. -/
theorem Peer.handleTurn_message {m : Msg} (hm : m.Plain) {r : Bytes}
    (hno : search btStart (m.encode ++ r) = none) :
    Peer.handleTurn t peerId ctx i now ⟨m.encode ++ r, false⟩ = (do
      Peer.handle t peerId i now m
      return (⟨r, false⟩, m.encode.length)) := by
  have hclean : Message.CleanSlice m (m.encode ++ r) :=
    (cleanSlice_iff hno hm.2.1).2 fun _ => .inl hm.1
  have hparse := Message.parse_frame ctx hclean
  have hstop := frame_no_stop m
  funext w
  rw [Peer.handleTurn, run_lift_bind hparse]
  simp only [Msg.frame] at hstop ⊢
  rw [hstop, List.drop_left, Bool.or_false]
  rfl

/-- A part of a message is waited for. -/
theorem Peer.handleLoop_cut {ms : List Msg} (hms : ∀ m ∈ ms, m.Plain) {r : Bytes}
    (hr : r <+: Msg.encodeAll ms) (hcut : Cut ms r) {turns : Nat} (hturns : r.length ≤ turns) :
    Peer.handleLoop t peerId ctx i now turns ⟨r, false⟩ w = .ok ⟨r, false⟩ w := by
  cases turns with
  | zero => rfl
  | succ turns =>
    rw [Peer.handleLoop]
    by_cases hne : r = []
    · rw [if_pos (by simp [hne])]
      rfl
    · rw [if_neg (by simpa using hne)]
      cases ms with
      | nil => exact absurd hcut hne
      | cons m ms =>
        have hm := hms m List.mem_cons_self
        have hno : search btStart r = none := by
          obtain ⟨q, hq⟩ := hr
          have := search_take_none (Msg.search_encodeAll hms) r.length
          rwa [← hq, List.take_left] at this
        have hclean : Message.CleanSlice m r := (cleanSlice_iff hno hm.2.1).2 fun _ => .inl hm.1
        rw [Msg.encodeAll_cons] at hr
        have hparse := Message.parse_cut ctx hr hclean hcut
        have hturn : Peer.handleTurn t peerId ctx i now ⟨r, false⟩ w = .ok (⟨r, false⟩, 0) w := by
          rw [Peer.handleTurn, run_lift_bind hparse]
          rfl
        rw [run_bind hturn]
        rfl

/-- The `while` of `handle_response` handles the messages that are complete, and waits for the
rest. -/
theorem Peer.handleLoop_messages {new rest : List Msg} (hms : ∀ m ∈ new ++ rest, m.Plain) {r : Bytes}
    (hr : r <+: Msg.encodeAll rest) (hcut : Cut rest r) {turns : Nat}
    (hturns : (Msg.encodeAll new ++ r).length ≤ turns)
    (hrun : forM new (Peer.handle t peerId i now) w = .ok ⟨⟩ w') :
    Peer.handleLoop t peerId ctx i now turns ⟨Msg.encodeAll new ++ r, false⟩ w =
      .ok ⟨r, false⟩ w' := by
  induction new generalizing turns w with
  | nil =>
    obtain rfl : w = w' := by
      simp only [List.forM_nil] at hrun
      exact (EStateM.Result.ok.inj hrun).2
    exact Peer.handleLoop_cut hms hr hcut hturns
  | cons m new ih =>
    have hm := hms m List.mem_cons_self
    have hlen : 0 < m.encode.length := by
      rw [Msg.encode_length]
      omega
    rw [Msg.encodeAll_cons, List.append_assoc] at hturns ⊢
    rw [List.length_append] at hturns
    obtain ⟨turns, rfl⟩ : ∃ n, turns = n + 1 := ⟨turns - 1, by omega⟩
    have hno : search btStart (m.encode ++ (Msg.encodeAll new ++ r)) = none := by
      obtain ⟨q, hq⟩ := hr
      have hall := search_take_none (Msg.search_encodeAll hms)
        (m.encode ++ (Msg.encodeAll new ++ r)).length
      rw [List.cons_append, Msg.encodeAll_cons, Msg.encodeAll_append, ← hq] at hall
      simpa only [← List.append_assoc, List.take_left] using hall
    rw [List.forM_cons] at hrun
    obtain ⟨w1, h1, h2⟩ : ∃ w1, Peer.handle t peerId i now m w = .ok ⟨⟩ w1 ∧
        forM new (Peer.handle t peerId i now) w1 = .ok ⟨⟩ w' := by
      cases h1 : Peer.handle t peerId i now m w with
      | ok u w1 =>
        rw [run_bind h1] at hrun
        exact ⟨w1, rfl, hrun⟩
      | error e w1 =>
        simp only [bind, EStateM.bind, h1] at hrun
        cases hrun
    have hturn : Peer.handleTurn t peerId ctx i now
        ⟨m.encode ++ (Msg.encodeAll new ++ r), false⟩ w =
          .ok (⟨Msg.encodeAll new ++ r, false⟩, m.encode.length) w1 := by
      rw [Peer.handleTurn_message hm hno, run_bind h1]
      rfl
    rw [Peer.handleLoop, if_neg (by simp [Msg.encode, toBigEndian]), run_bind hturn]
    simp only
    rw [if_neg (by omega)]
    refine ih (fun x hx => hms x (List.mem_cons_of_mem _ hx)) ?_ h2
    omega

/-- A read makes the calls of the messages it completes. -/
theorem Net.receive_messages {n : Net} {conn : PeerConnection} {p : Peer} {data : Bytes}
    (hpeer : n.world.peers[i]? = some p) (hopen : conn.stopped = false) {new rest : List Msg}
    (hms : ∀ m ∈ new ++ rest, m.Plain) {buf : Bytes}
    (hread : conn.response ++ data = Msg.encodeAll new ++ buf) (hbuf : buf <+: Msg.encodeAll rest)
    (hcut : Cut rest buf) (hrun : forM new (Peer.handle t peerId i now) n.world = .ok ⟨⟩ w') :
    n.receive t peerId i conn data now = ⟨w', n.conns.set i ⟨buf, false⟩, none⟩ := by
  have hget : Peer.getPeer i n.world = .ok p n.world := by
    simp only [Peer.getPeer, run_bind (get_run _), hpeer]
    rfl
  have hresponse : Peer.handleResponse t peerId i now conn data n.world = .ok ⟨buf, false⟩ w' := by
    rw [Peer.handleResponse, run_bind hget, hopen, if_neg Bool.false_ne_true, hread]
    exact Peer.handleLoop_messages hms hbuf hcut (Nat.le_refl _) hrun
  rw [Net.receive, hresponse]
  rfl

end

/-! ## How far the other end has read -/

/-- The bytes behind `pre` are those of the messages `got` and `rest`; `n` bytes have been read, which
are `pre`, `got` and `buf` of the next message. -/
structure Channel (pre bytes : Bytes) (n : Nat) (got rest : List Msg) (buf : Bytes) : Prop where
  written : bytes = pre ++ Msg.encodeAll (got ++ rest)
  le : n ≤ bytes.length
  taken : bytes.take n = pre ++ Msg.encodeAll got ++ buf
  cut : Cut rest buf

namespace Channel
variable {pre bytes buf : Bytes} {n : Nat} {got rest : List Msg}

theorem start (pre : Bytes) (rest : List Msg) :
    Channel pre (pre ++ Msg.encodeAll rest) pre.length [] rest [] := by
  refine ⟨rfl, ?_, ?_, cut_nil rest⟩
  · rw [List.length_append]
    exact Nat.le_add_right _ _
  · rw [List.take_left, Msg.encodeAll_nil, List.append_nil, List.append_nil]

theorem buffered (h : Channel pre bytes n got rest buf) : buf <+: Msg.encodeAll rest := by
  have hpre := List.take_prefix n bytes
  rw [h.taken, h.written, Msg.encodeAll_append, ← List.append_assoc] at hpre
  exact (List.prefix_append_right_inj _).1 hpre

/-- More is written. -/
theorem write (h : Channel pre bytes n got rest buf) (more : List Msg) :
    Channel pre (bytes ++ Msg.encodeAll more) n got (rest ++ more) buf := by
  refine ⟨?_, ?_, ?_, ?_⟩
  · rw [h.written, List.append_assoc, ← Msg.encodeAll_append, List.append_assoc]
  · rw [List.length_append]
    exact Nat.le_add_right_of_le h.le
  · rw [List.take_append_of_le_length h.le]
    exact h.taken
  · have hcut := h.cut
    cases rest with
    | nil =>
      rw [show buf = [] from hcut]
      exact cut_nil _
    | cons m rest => exact hcut

/-- A read completes some messages. -/
theorem read (h : Channel pre bytes n got rest buf) (k : Nat) :
    ∃ new rest' buf', rest = new ++ rest' ∧
      buf ++ (bytes.drop n).take k = Msg.encodeAll new ++ buf' ∧
      Channel pre bytes (n + ((bytes.drop n).take k).length) (got ++ new) rest' buf' := by
  obtain ⟨q, hq⟩ := h.buffered
  have hnext : bytes.drop n = q := by
    have hsplit := List.take_append_drop n bytes
    rw [h.taken, List.append_assoc] at hsplit
    conv at hsplit => rhs; rw [h.written, Msg.encodeAll_append, ← List.append_assoc, ← hq]
    rwa [List.append_cancel_left_eq, List.append_cancel_left_eq] at hsplit
  have hin : buf ++ (bytes.drop n).take k <+: Msg.encodeAll rest := by
    rw [hnext, ← hq]
    exact (List.prefix_append_right_inj _).2 (List.take_prefix k q)
  obtain ⟨h1, h2, -, h4⟩ := split_spec hin
  refine ⟨_, _, _, h1, h2, ?_, ?_, ?_, h4⟩
  · rw [List.append_assoc, ← h1]
    exact h.written
  · have hlen := List.length_take_le' k (bytes.drop n)
    rw [List.length_drop] at hlen
    have := h.le
    omega
  · rw [List.take_add, h.taken, Msg.encodeAll_append]
    simp only [List.append_assoc]
    rw [← h2, ← List.prefix_iff_eq_take.1 (List.take_prefix k (bytes.drop n))]

/-- Everything has been read. -/
theorem finished (h : Channel pre bytes n got rest buf) (hall : bytes.drop n = []) : rest = [] := by
  have htake : bytes.take n = bytes := by
    have := List.take_append_drop n bytes
    rwa [hall, List.append_nil] at this
  have heq : Msg.encodeAll rest = buf := by
    have := h.taken
    rwa [htake, h.written, Msg.encodeAll_append, ← List.append_assoc,
      List.append_cancel_left_eq] at this
  have hcut := h.cut
  cases rest with
  | nil => rfl
  | cons m rest =>
    rw [← heq, Cut, Msg.encodeAll_cons, List.length_append] at hcut
    omega

end Channel

/-- The connection after `n` of the bytes, which are those of the messages `all` behind `pre`: it has
handled the messages `got`. -/
def Receives (pre bytes : Bytes) (n : Nat) (conn : PeerConnection) (all got : List Msg) : Prop :=
  ∃ rest buf, all = got ++ rest ∧ conn = ⟨buf, false⟩ ∧ Channel pre bytes n got rest buf

namespace Receives
variable {pre bytes : Bytes} {n : Nat} {conn : PeerConnection} {all got : List Msg}

theorem start (pre : Bytes) (all : List Msg) :
    Receives pre (pre ++ Msg.encodeAll all) pre.length .init all [] :=
  ⟨all, [], rfl, rfl, .start pre all⟩

theorem bytes_eq (h : Receives pre bytes n conn all got) : bytes = pre ++ Msg.encodeAll all := by
  obtain ⟨rest, buf, rfl, -, hch⟩ := h
  exact hch.written

theorem le (h : Receives pre bytes n conn all got) : n ≤ bytes.length := by
  obtain ⟨_, _, -, -, hch⟩ := h
  exact hch.le

theorem prefix_all (h : Receives pre bytes n conn all got) : ∃ rest, all = got ++ rest := by
  obtain ⟨rest, _, hall, -⟩ := h
  exact ⟨rest, hall⟩

theorem write (h : Receives pre bytes n conn all got) (more : List Msg) :
    Receives pre (pre ++ Msg.encodeAll (all ++ more)) n conn (all ++ more) got := by
  have hbytes := h.bytes_eq
  obtain ⟨rest, buf, rfl, rfl, hch⟩ := h
  refine ⟨rest ++ more, buf, List.append_assoc _ _ _, rfl, ?_⟩
  rw [Msg.encodeAll_append, ← List.append_assoc, ← hbytes]
  exact hch.write more

/-- A read handles some messages more. -/
theorem receive (h : Receives pre bytes n conn all got) (hall : ∀ m ∈ all, m.Plain) (k : Nat)
    (t : Torrent) (peerId : Bytes) (i : Nat) (now : Int) : ∃ new rest,
      all = got ++ new ++ rest ∧ ∀ {net : Net} {p : Peer} {w' : World},
        net.world.peers[i]? = some p →
        forM new (Peer.handle t peerId i now) net.world = .ok ⟨⟩ w' →
        ∃ conn', net.receive t peerId i conn ((bytes.drop n).take k) now =
            ⟨w', net.conns.set i conn', none⟩ ∧
          Receives pre bytes (n + ((bytes.drop n).take k).length) conn' all (got ++ new) := by
  obtain ⟨rest, buf, rfl, rfl, hch⟩ := h
  obtain ⟨new, rest', buf', rfl, hread, hch'⟩ := hch.read k
  refine ⟨new, rest', (List.append_assoc _ _ _).symm, fun hpeer hrun => ⟨⟨buf', false⟩, ?_, ?_⟩⟩
  · exact Net.receive_messages hpeer rfl
      (fun m hm => hall m (List.mem_append_right _ hm)) hread hch'.buffered hch'.cut hrun
  · exact ⟨rest', buf', (List.append_assoc _ _ _).symm, rfl, hch'⟩

/-- When everything has been read, every message has been handled. -/
theorem finished (h : Receives pre bytes n conn all got) (hread : bytes.drop n = []) : got = all := by
  obtain ⟨rest, buf, rfl, -, hch⟩ := h
  rw [hch.finished hread, List.append_nil]

end Receives

end Zit
