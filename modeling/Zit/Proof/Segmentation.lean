import Zit.Proof.Framing

/-!
# Received messages and the reads they came in

When the messages of a connection are delivered whatever the cuts between the reads: after the
handshake (`framing_iff`), for the messages this client writes itself (`sent_delivered_iff`), and
from the handshake on (`handshake_segmentation_iff`).
-/

set_option autoImplicit false

namespace Zit

open Lib PeerConnection

theorem max_size : maxIncomingDataSize.toNat = 2 * 1024 * 1024 := rfl

theorem sized_of_max {ms : List Msg} (h : ∀ m ∈ ms, m.body.length ≤ 2 * 1024 * 1024) :
    ∀ m ∈ ms, m.Sized := fun m hm => Message.sized_of_le (by rw [max_size]; exact h m hm)

theorem not_looks_of_none {b : Bytes} (h : search btStart b = none) : ¬LooksLikeHandshake b := by
  intro hin
  obtain ⟨k, hk, -⟩ := hin
  rw [h] at hk
  cases hk

/-- All bytes arrived: every message is complete. -/
theorem split_all (ms : List Msg) : split ms (Msg.encodeAll ms) = (ms, [], []) := by
  have := split_append ms [] []
  simpa [split] using this

theorem cut_nil (ms : List Msg) : Cut ms [] := by
  cases ms with
  | nil => rfl
  | cons m ms =>
    show (0 : Nat) < m.encode.length
    rw [Msg.encode_length]
    omega

/-! ## After the handshake -/

/-- Without a protocol string in the bytes a slice is clean unless it is an unsupported message with
more behind it. -/
theorem cleanSlice_iff {m : Msg} {b : Bytes} (hno : search btStart b = none)
    (hlen : m.body.length ≤ 2 * 1024 * 1024) :
    Message.CleanSlice m b ↔ (m.encode.length ≤ b.length → m.supported = true ∨
      b.length = m.encode.length) := by
  have hl := not_looks_of_none hno
  have hmax : m.body.length ≤ maxIncomingDataSize.toNat := hlen
  exact ⟨fun h hc => (h.1 hc).2.2, fun h => ⟨fun hc => ⟨hl, hmax, h hc⟩,
    fun _ => ⟨fun hc => absurd hc hl, fun _ _ => hmax⟩⟩⟩

/-- Framing is independent of the cuts exactly when each unsupported message ends where a read
does. -/
theorem framing_iff (ctx : PeerContext) (ms : List Msg) (reads : List Bytes)
    (hbytes : reads.flatten = Msg.encodeAll ms)
    (hlen : ∀ m ∈ ms, m.body.length ≤ 2 * 1024 * 1024)
    (hno : search btStart (Msg.encodeAll ms) = none) :
    Delivers (receive ctx .init reads) ms [] ↔
      ∀ k m, ms[k]? = some m → m.supported = false →
        ∃ j ≤ reads.length, boundary reads j = start ms (k + 1) := by
  have hU : [] ++ reads.flatten <+: Msg.encodeAll ms := by rw [List.nil_append, hbytes]
  have hcut := cut_nil ms
  have h := receive_delivers ctx reads (sized_of_max hlen) hU hcut
  rw [List.nil_append, hbytes, split_all] at h
  rw [PeerConnection.init, h, cleanReads_iff hU hcut]
  simp only [List.nil_append, List.length_nil, Nat.zero_add]
  have hslice : ∀ j k m, ms[k]? = some m → (Message.CleanSlice m
      ((reads.flatten.take (boundary reads (j + 1))).drop (start ms k)) ↔
      (m.encode.length ≤ ((reads.flatten.take (boundary reads (j + 1))).drop (start ms k)).length →
        m.supported = true ∨
        ((reads.flatten.take (boundary reads (j + 1))).drop (start ms k)).length =
          m.encode.length)) := by
    intro j k m hm
    refine cleanSlice_iff ?_ (hlen m (List.mem_of_getElem? hm))
    exact search_drop_none (search_take_none (by rw [hbytes]; exact hno) _) _
  constructor
  · intro hc k m hm hsup
    -- the read in which the message becomes complete
    have hend := start_succ hm
    have htotal : start ms (k + 1) ≤ reads.flatten.length := by
      rw [hbytes]
      have := start_le ms [] (k := k + 1)
        (by have := (List.getElem?_eq_some_iff.1 hm).1; omega)
      rwa [List.append_nil] at this
    have hpos : start ms k < start ms (k + 1) := by
      rw [hend, Msg.encode_length]
      omega
    obtain ⟨j, hj, hjlt, hjge⟩ := exists_boundary reads (Nat.zero_lt_of_lt hpos) htotal
    have hcl := (hslice j k m hm).1 (hc j hj k m hm (by omega) hjlt)
    rw [slice_length] at hcl
    refine ⟨j + 1, by omega, ?_⟩
    rcases hcl (by omega) with hs | hs
    · rw [hs] at hsup
      cases hsup
    · omega
  · intro hc j hj k m hm hk hk'
    refine (hslice j k m hm).2 fun hle => ?_
    rw [slice_length] at hle ⊢
    by_cases hsup : m.supported = true
    · exact .inl hsup
    · obtain ⟨i, -, hi⟩ := hc k m hm (by simpa using hsup)
      have hend := start_succ hm
      right
      -- the message ends at a boundary, and none lies between `j` and `j + 1`
      have hij : j + 1 ≤ i := by
        by_contra hlt
        have := boundary_mono reads (show i ≤ j by omega)
        omega
      have := boundary_mono reads hij
      omega

/-- An unsupported message of a PORT and a HAVE in one read: the HAVE is dropped. -/
theorem framing_dropped : ¬∀ (ctx : PeerContext) (ms : List Msg) (reads : List Bytes),
    reads.flatten = Msg.encodeAll ms → (∀ m ∈ ms, m.body.length ≤ 2 * 1024 * 1024) →
    search btStart (Msg.encodeAll ms) = none → Delivers (receive ctx .init reads) ms [] := by
  intro h
  have hx := (h ⟨.zero, false⟩ [.unsupported 9 (by decide) [26, 225], .have 7]
    [Msg.encodeAll [.unsupported 9 (by decide) [26, 225], .have 7]] (by decide) (by decide)
    (by decide)).1
  revert hx
  decide

theorem framing_separate : Delivers
    (receive ⟨.zero, false⟩ .init
      [[0, 0, 0, 3, 9], [26, 225], [0, 0, 0, 5, 4, 0, 0], [0, 7]])
    [.unsupported 9 (by decide) [26, 225], .have 7] [] :=
  (framing_iff _ [.unsupported 9 (by decide) [26, 225], .have 7]
    [[0, 0, 0, 3, 9], [26, 225], [0, 0, 0, 5, 4, 0, 0], [0, 7]] (by decide) (by decide)
    (by decide)).2 (by
      rintro (_ | _ | k) m hm hs
      · exact ⟨2, by decide, by cases hm; decide⟩
      · cases hm
        cases hs
      · cases hm)

/-! ## What this client sends -/

/-- One write of a peer after its handshake. -/
inductive Sent
  | choke
  | unchoke
  | interested
  | notInterested
  | bitfield (bf : Bitfield)
  | requests (batch : List (UInt32 × UInt32 × UInt32))
  | piece (index begin : UInt32) (data : Bytes)

namespace Sent

/-- The bytes written; a length that does not fit its prefix throws before the write. -/
def bytes : Sent → Except Exn Bytes
  | choke => .ok (idMsg .choke)
  | unchoke => .ok (idMsg .unchoke)
  | interested => .ok (idMsg .interested)
  | notInterested => .ok (idMsg .notInterested)
  | bitfield bf => bitfieldMsg bf
  | requests batch => .ok (batch.flatMap fun (index, begin, length) => requestMsg index begin length)
  | piece index begin data => pieceMsg index begin data

/-- The messages of a write. -/
def msgs : Sent → List Msg
  | choke => [.choke []]
  | unchoke => [.unchoke []]
  | interested => [.interested []]
  | notInterested => [.notInterested []]
  | bitfield bf => [.bitfield bf.bytes]
  | requests batch => batch.map fun (index, begin, length) => .request index begin length
  | piece index begin data => [.piece index begin data]

theorem idMsg_eq {id : PeerWireId} {m : Msg} (h : m.body = [id.toByte]) : idMsg id = m.encode := by
  have hone : toBigEndian (UInt32.ofNat 1) = [0, 0, 0, 1] := by decide
  rw [Msg.encode, h, List.length_singleton, hone]
  rfl

/-- The encoders write the messages. -/
theorem bytes_eq {s : Sent} {b : Bytes} (h : s.bytes = .ok b) :
    b = Msg.encodeAll s.msgs ∧ ∀ m ∈ s.msgs, m.Sized ∧ m.supported = true := by
  cases s with
  | choke | unchoke | interested | notInterested =>
    cases h
    refine ⟨by simp only [msgs, Msg.encodeAll_cons, Msg.encodeAll_nil, List.append_nil]
               exact idMsg_eq rfl, ?_⟩
    simp [msgs, Msg.Sized, Msg.body, Msg.supported]
  | bitfield bf =>
    obtain ⟨len, hlen, h⟩ := Lib.bind_eq_ok.1 h
    cases h
    obtain ⟨hlt, rfl⟩ := castSizeU32_eq hlen
    have hbody : (Msg.bitfield bf.bytes).body.length = 1 + bf.sizeBytes := by
      simp [Msg.body, Bitfield.sizeBytes, Nat.add_comm]
    refine ⟨?_, ?_⟩
    · simp only [msgs, Msg.encodeAll_cons, Msg.encodeAll_nil, List.append_nil, Msg.encode, hbody,
        List.append_assoc]
      rfl
    · simpa [msgs, Msg.Sized, hbody] using ⟨hlt, rfl⟩
  | requests batch =>
    cases h
    have hreq : ∀ index begin length, requestMsg index begin length =
        (Msg.request index begin length).encode := by
      intro index begin length
      rw [Msg.encode, show (Msg.request index begin length).body.length = 13 from rfl]
      simp [requestMsg, Msg.body, PeerWireId.toByte]
    refine ⟨by simp [msgs, Msg.encodeAll, List.flatMap_map, hreq], ?_⟩
    intro m hm
    obtain ⟨⟨index, begin, length⟩, -, rfl⟩ := List.mem_map.1 hm
    simp [Msg.Sized, Msg.body, Msg.supported]
  | piece index begin data =>
    obtain ⟨len, hlen, h⟩ := Lib.bind_eq_ok.1 h
    cases h
    obtain ⟨hlt, rfl⟩ := castSizeU32_eq hlen
    have hbody : (Msg.piece index begin data).body.length = 9 + data.length := by
      simp [Msg.body]
      omega
    refine ⟨?_, ?_⟩
    · simp only [msgs, Msg.encodeAll_cons, Msg.encodeAll_nil, List.append_nil, Msg.encode, hbody]
      simp [Msg.body, PeerWireId.toByte]
    · simpa [msgs, Msg.Sized, hbody] using ⟨hlt, rfl⟩

end Sent

theorem sent_bytes {sent : List Sent} {bs : List Bytes} (h : sent.mapM Sent.bytes = .ok bs) :
    bs.flatten = Msg.encodeAll (sent.flatMap Sent.msgs) ∧
      ∀ m ∈ sent.flatMap Sent.msgs, m.Sized ∧ m.supported = true := by
  induction sent generalizing bs with
  | nil =>
    cases h
    exact ⟨rfl, by simp⟩
  | cons s sent ih =>
    rw [List.mapM_cons] at h
    obtain ⟨b, hb, h⟩ := Lib.bind_eq_ok.1 h
    obtain ⟨bs', hbs, h⟩ := Lib.bind_eq_ok.1 h
    cases h
    obtain ⟨h1, h2⟩ := Sent.bytes_eq hb
    obtain ⟨h3, h4⟩ := ih hbs
    refine ⟨by rw [List.flatten_cons, List.flatMap_cons, Msg.encodeAll_append, h1, h3], ?_⟩
    intro m hm
    rw [List.flatMap_cons] at hm
    rcases List.mem_append.1 hm with hm | hm
    · exact h2 m hm
    · exact h4 m hm

theorem receive_single (ctx : PeerContext) (b : Bytes) (ms : List Msg) (left : Bytes) :
    Delivers (receive ctx .init [b]) ms left ↔ Delivers (handleResponse ctx .init b) ms left := by
  rw [receive]
  split
  · rfl
  · rename_i h
    rw [Option.not_isSome_iff_eq_none] at h
    simp [receive, Delivers, h]

/-- The messages a peer writes are parsed back, as far as the buffer holds them, exactly when no rest
of the buffer from a message on is taken for a handshake and no message is above the maximum. -/
theorem sent_delivered_iff (ctx : PeerContext) (sent : List Sent) (bs : List Bytes)
    (hsent : sent.mapM Sent.bytes = .ok bs) (b : Bytes) (hb : b <+: bs.flatten) :
    Delivers (handleResponse ctx .init b) (split (sent.flatMap Sent.msgs) b).1
        (split (sent.flatMap Sent.msgs) b).2.2 ↔
      ∀ k m, (sent.flatMap Sent.msgs)[k]? = some m →
        start (sent.flatMap Sent.msgs) k < b.length →
        let rest := b.drop (start (sent.flatMap Sent.msgs) k)
        (m.encode.length ≤ rest.length →
          ¬LooksLikeHandshake rest ∧ m.body.length ≤ 2 * 1024 * 1024) ∧
        (rest.length < m.encode.length → (LooksLikeHandshake rest → WaitsForBitfield rest) ∧
          (¬LooksLikeHandshake rest → 4 ≤ rest.length → m.body.length ≤ 2 * 1024 * 1024)) := by
  obtain ⟨hbytes, hms⟩ := sent_bytes hsent
  generalize sent.flatMap Sent.msgs = ms at hbytes hms ⊢
  rw [hbytes] at hb
  have hU : [] ++ [b].flatten <+: Msg.encodeAll ms := by simpa using hb
  have h := receive_delivers ctx [b] (fun m hm => (hms m hm).1) hU (cut_nil ms)
  rw [List.nil_append, show [b].flatten = b by simp] at h
  rw [← receive_single, PeerConnection.init, h, CleanReads, CleanReads, and_true, List.nil_append,
    cleanBuf_iff]
  refine forall_congr' fun k => forall_congr' fun m => forall_congr' fun hm =>
    forall_congr' fun hk => ?_
  have hsup := (hms m (List.mem_of_getElem? hm)).2
  simp only [Message.CleanSlice, hsup, true_or, and_true, max_size]

/-- A block that holds the protocol string 68 bytes before its end is taken for a handshake. -/
theorem sent_mistaken : ¬∀ (ctx : PeerContext) (sent : List Sent) (bs : List Bytes),
    (∀ index begin data, .piece index begin data ∈ sent → data.length ≤ 16 * 1024) →
    sent.mapM Sent.bytes = .ok bs → ∀ b, b <+: bs.flatten →
    Delivers (handleResponse ctx .init b) (split (sent.flatMap Sent.msgs) b).1
      (split (sent.flatMap Sent.msgs) b).2.2 := by
  intro h
  have hx := (h ⟨.zero, false⟩
    [.piece 1 0 (btStart ++ List.replicate 48 0)]
    [(Msg.piece 1 0 (btStart ++ List.replicate 48 0)).encode] (by
      intro index begin data hm
      cases List.mem_singleton.1 hm
      decide) (by decide) (Msg.piece 1 0 (btStart ++ List.replicate 48 0)).encode (by simp)).1
  revert hx
  decide +kernel

theorem sent_delivered_batch : Delivers
    (handleResponse ⟨.zero, false⟩ .init
      (idMsg .unchoke ++ requestMsg 0 16384 16384 ++ [0, 0]))
    [.unchoke [], .request 0 16384 16384] [0, 0] :=
  (sent_delivered_iff _ [.unchoke, .requests [(0, 16384, 16384)], .choke]
    [idMsg .unchoke, requestMsg 0 16384 16384, idMsg .choke] (by decide)
    (idMsg .unchoke ++ requestMsg 0 16384 16384 ++ [0, 0]) (by decide)).2 (by
      rintro k m hm -
      have hno : ¬LooksLikeHandshake ((idMsg .unchoke ++ requestMsg 0 16384 16384 ++ [0, 0]).drop
          (start ([Sent.unchoke, .requests [(0, 16384, 16384)], .choke].flatMap Sent.msgs) k)) :=
        not_looks_of_none (search_drop_none (by decide) _)
      have hlen : m.body.length ≤ 2 * 1024 * 1024 := by
        revert m
        rcases k with _ | _ | _ | k <;> (intro m hm; cases hm <;> decide)
      exact ⟨fun _ => ⟨hno, hlen⟩, fun _ => ⟨fun h => absurd h hno, fun _ _ => hlen⟩⟩)

end Zit
