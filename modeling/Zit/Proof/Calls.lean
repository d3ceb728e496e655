import Zit.Connection
import Zit.Proof.GetBlock
import Zit.Proof.Requests

/-!
# The calls of a message

Nothing handles an exception between a call of `Message::parse` on its peer and `Torrent::run`.
`Harmless` is what a call needs of the state it is made in, and a call returns exactly when that
holds (`call_spec`).
-/

set_option autoImplicit false

namespace Zit

open Lib Lib.Path World

/-! ## The answer to a request -/

namespace Piece

/-- The bytes `get_block` goes for are there: on disk once the piece is written. -/
def Found (t : Torrent) (d : Disk) (p : Piece) (offset length : UInt32) : Prop :=
  if p.pieceWritten then ∀ i < (askedLength length).toNat,
    t.readByte d (t.readPos (p.fileOffset t offset).toNat i) ≠ none
  else offset.toNat + (askedLength length).toNat ≤ p.pieceSize.toNat

/-- A request is for a block of the piece. If that is done its bytes are there, and a message can
hold them. -/
structure Serves (t : Torrent) (d : Disk) (p : Piece) (offset length : UInt32) : Prop where
  aligned : offset % blockSize = 0
  inside : offset < p.pieceSize
  found : p.blocksDone.bit (offset / blockSize).toNat = true →
    Found t d p offset length ∧ 9 + (askedLength length).toNat < 2 ^ 32

variable {t : Torrent} {d : Disk} {p : Piece} {offset length : UInt32}

theorem getBlock_found (hf : p.Formed) (hl : t.Lengths) (h0 : offset % blockSize = 0)
    (hlt : offset < p.pieceSize) (hdone : p.blocksDone.bit (offset / blockSize).toNat = true) :
    wp (p.getBlock offset t length) d (fun bytes d' => d' = d ∧
      bytes.length = (askedLength length).toNat ∧ Found t d p offset length)
      fun _ _ => ¬Found t d p offset length := by
  rw [wp, getBlock_done h0 hlt hdone, Found]
  cases hw : p.pieceWritten with
  | true =>
    simp only [if_true, FileWriter.readBlock]
    obtain ⟨bytes, hlen, hbytes, hrun⟩ | ⟨i, hmissing, e, -, hrun⟩ :=
      @readLoop_cases t d hl _ _ (p.fileOffset t offset)
        (Nat.lt_succ_self (askedLength length).toNat) (askedLength length).toNat_lt []
    · rw [hrun]
      refine ⟨rfl, hlen, fun i hi hnone => ?_⟩
      rw [← hbytes i hi, List.getElem?_eq_none_iff, hlen] at hnone
      omega
    · rw [hrun]
      exact fun hall => hall i hmissing.1 hmissing.2.2
  | false =>
    simp only [Bool.false_eq_true, if_false, hf.data hw]
    by_cases hle : offset.toNat + (askedLength length).toNat ≤ p.pieceSize.toNat
    · rw [if_pos hle]
      refine ⟨rfl, ?_, hle⟩
      rw [List.length_take, List.length_drop, hf.data hw]
      omega
    · rw [if_neg hle]
      exact hle

/-- Nothing is returned for a block that is not done. -/
theorem getBlock_not_done (hf : p.Formed) (h0 : offset % blockSize = 0) (hlt : offset < p.pieceSize)
    (hdone : p.blocksDone.bit (offset / blockSize).toNat = false) :
    p.getBlock offset t length d = .ok [] d := by
  have hsize : (offset / blockSize).toNat < p.blocksDone.size := by
    rw [hf.done]
    exact Nat.lt_of_lt_of_le (block_lt (UInt32.lt_iff_toNat_lt.1 hlt)) (Bitfield.le_size_ofCount _)
  rw [getBlock, if_neg (not_not.2 h0), if_neg (UInt32.not_le.2 hlt)]
  simp only [Bitfield.get_eq, if_pos hsize, hdone, lift, bind, EStateM.bind]
  rfl

theorem getBlock_refuses (h : ¬(offset % blockSize = 0 ∧ offset < p.pieceSize)) :
    wp (p.getBlock offset t length) d (fun _ _ => False) fun _ _ => True := by
  unfold getBlock
  refine wp_ite (fun _ => trivial) fun h0 => wp_ite (fun _ => trivial) fun hlt => ?_
  exact absurd ⟨not_not.1 h0, UInt32.not_le.1 hlt⟩ h

end Piece

section
variable {sha1 : Bytes → Sha1} {t : Torrent} {w : World} {i : Nat} {p : Peer}

/-- A REQUEST of a peer that may make one is served. -/
def Answerable (t : Torrent) (w : World) (p : Peer) (index begin length : UInt32) : Prop :=
  p.amChoking = false → p.interested = true →
    ∃ piece, pieceFor t w index = some piece ∧ piece.Serves t w.disk begin length

/-- A message whose length is a prefix of four bytes. -/
theorem sized_spec (n : Nat) (f : UInt32 → Bytes) :
    wp (lift (castSizeU32 n >>= fun len => pure (f len)) : App Bytes) w
      (fun _ w' => w' = w ∧ n < 2 ^ 32) fun _ _ => ¬n < 2 ^ 32 := by
  by_cases hn : n < 2 ^ 32
  · rw [castSizeU32_of hn]
    exact ⟨rfl, hn⟩
  · rw [wp_lift]
    refine ⟨fun msg hm => ?_, fun _ _ => hn⟩
    obtain ⟨v, hv, -⟩ := bind_eq_ok.1 hm
    exact absurd (castSizeU32_eq hv).1 hn

theorem requestCall_spec (h : WellFormed sha1 t w) (hl : t.Lengths) (hp : w.peers[i]? = some p)
    (index begin length : UInt32) : wp (Peer.request t i index begin length) w
      (fun _ w' => Answerable t w p index begin length ∧ w'.peers.length = w.peers.length)
      fun _ _ => ¬Answerable t w p index begin length := by
  simp only [Peer.request, wp_bind]
  refine (wp_getPeer hp).2 ?_
  refine wp_ite (fun hc => ⟨fun hc' => by simp [hc] at hc', rfl⟩) fun hc => ?_
  refine wp_ite (fun hi => ⟨fun _ hi' => by simp [hi'] at hi, rfl⟩) fun hi => ?_
  have hmay : Answerable t w p index begin length ↔
      ∃ piece, pieceFor t w index = some piece ∧ piece.Serves t w.disk begin length :=
    ⟨fun ha => ha (by simpa using hc) (by simpa using hi), fun ha _ _ => ha⟩
  rw [hmay]
  simp only [wp_bind]
  cases hpiece : pieceFor t w index with
  | none =>
    refine wp_mono (activePiece_none h hpiece) (fun _ _ hf => hf.elim) fun _ _ _ => ?_
    intro hex
    obtain ⟨_, hsome, -⟩ := hex
    cases hsome
  | some piece =>
    refine wp_mono (activePiece_for h hpiece) (fun r w1 h1 => ?_) fun _ _ hf => hf.elim
    obtain ⟨ref, rfl, -, hget, -, hact⟩ := h1
    simp only [wp_bind]
    refine (wp_deref hget).2 ((wp_onDisk).2 ?_)
    rw [hact.disk]
    have hsome : (∃ q, some piece = some q ∧ q.Serves t w.disk begin length) ↔
        piece.Serves t w.disk begin length := by simp
    rw [hsome]
    by_cases hin : begin % Piece.blockSize = 0 ∧ begin < piece.pieceSize
    · obtain ⟨h0, hlt⟩ := hin
      have hf := h.pieceFor_formed hpiece
      cases hdone : piece.blocksDone.bit (begin / Piece.blockSize).toNat with
      | false =>
        refine wp_intro (Piece.getBlock_not_done hf h0 hlt hdone) ?_
        exact ⟨⟨h0, hlt, fun hd => absurd (hdone.symm.trans hd) Bool.false_ne_true⟩,
          congrArg List.length hact.peers⟩
      | true =>
        refine wp_mono (Piece.getBlock_found hf hl h0 hlt hdone) (fun bytes d hb => ?_)
          fun _ _ hno hs => hno (hs.found hdone).1
        obtain ⟨rfl, hlen, hfound⟩ := hb
        have hpos := Piece.askedLength_pos length
        have hne : bytes ≠ [] := List.ne_nil_of_length_pos (hlen ▸ hpos)
        rw [if_pos hne]
        simp only [wp_bind]
        refine wp_mono (sized_spec (9 + bytes.length) _) (fun msg w2 hm => ?_) fun _ _ hm hs => ?_
        · obtain ⟨rfl, hsize⟩ := hm
          refine ⟨⟨h0, hlt, fun _ => ⟨hfound, hlen ▸ hsize⟩⟩, ?_⟩
          exact (List.length_modify _ _ _).trans (congrArg List.length hact.peers)
        · exact hm (hlen ▸ (hs.found hdone).2)
    · exact wp_mono (Piece.getBlock_refuses hin) (fun _ _ hf => hf.elim)
        fun _ _ _ hs => hin ⟨hs.aligned, hs.inside⟩

/-! ## More requests -/

/-- A call of `request_next_block` for an unchoked peer has a limit and reaches no gap. -/
def Asks (t : Torrent) (w : World) (p : Peer) : Prop :=
  p.amInterested = true → (0 < pendingLimit t 0 ∧ pendingLimit t 0 < 2 ^ 16) ∧
    none ∉ (candidates t w (Torrent.relevantPieces w p.remotePieces)).take
      (pendingLimit t 0 - p.pendingRequests).toNat

/-- The peer `i` can be asked for blocks. -/
def Askable (t : Torrent) (w : World) (i : Nat) : Prop :=
  ∀ p, w.peers[i]? = some p → p.choking = false → Asks t w p

theorem askable_iff (hp : w.peers[i]? = some p) :
    Askable t w i ↔ (p.choking = false → Asks t w p) := by
  simp [Askable, hp]

theorem wp_discard {α : Type} {m : App α} {Q : Unit → World → Prop} {E : Exn → World → Prop} :
    wp (discard m) w Q E ↔ wp m w (fun _ => Q ()) E := by
  show wp ((fun _ => ()) <$> m) w Q E ↔ _
  rw [wp_map]

theorem askMore_spec (h : WellFormed sha1 t w) (hp : w.peers[i]? = some p) (now : Int) :
    wp (discard (Peer.requestNextBlock t i now)) w
      (fun _ w' => Askable t w i ∧ w'.peers.length = w.peers.length)
      fun _ _ => ¬Askable t w i := by
  rw [askable_iff hp]
  rw [wp_discard]
  by_cases hidle : p.amInterested = false ∨ p.choking = true
  · rw [wp, requestNextBlock_idle hp hidle now 0]
    refine ⟨fun hc hi => ?_, rfl⟩
    simp [hc, hi] at hidle
  · simp only [not_or, Bool.not_eq_false, Bool.not_eq_true] at hidle
    obtain ⟨hint, hchoke⟩ := hidle
    by_cases hlimit : 0 < pendingLimit t 0 ∧ pendingLimit t 0 < 2 ^ 16
    · refine wp_mono (requestNextBlock_emits h hp hint hchoke now hlimit) (fun n w' he => ?_)
        fun _ _ hgap hall => (hall hchoke hint).2 hgap
      obtain ⟨taken, -, htake, he⟩ := he
      refine ⟨fun _ _ => ⟨hlimit, by rw [htake]; simp⟩, ?_⟩
      rw [he.peers, List.length_modify]
    · exact wp_mono (requestNextBlock_throws hp hint hchoke now hlimit) (fun _ _ hf => hf.elim)
        fun _ _ _ hall => hlimit (hall hchoke hint).1

/-- What changes leave is well formed. -/
theorem WellFormed.after {α : Type} {m : App α} {Q : α → World → Prop} {E : Exn → World → Prop}
    (h : WellFormed sha1 t w) (hm : Moves (Change sha1 t .all) m w) (hs : wp m w Q E) :
    wp m w (fun a w' => Q a w' ∧ WellFormed sha1 t w') E :=
  wp_mono (wp_and hs hm) (fun _ _ h' => ⟨h'.1, h.changes h'.2⟩) fun _ _ h' => h'.1

theorem setChoking_spec (h : WellFormed sha1 t w) (hp : w.peers[i]? = some p) (choking : Bool)
    (now : Int) : wp (Peer.setChoking t i choking now) w
      (fun _ w' => (choking = false → p.choking = true → Asks t w p) ∧
        w'.peers.length = w.peers.length)
      fun _ _ => ¬(choking = false → p.choking = true → Asks t w p) := by
  simp only [Peer.setChoking, wp_bind]
  refine (wp_getPeer hp).2 (wp_ite (fun hc => ?_) fun hc => ?_)
  · simp only [Bool.and_eq_true, Bool.not_eq_true'] at hc
    have hp1 : (w.peers.modify i fun p => { p with choking })[i]? = some { p with choking } := by
      simp [hp]
    have hmoves : Moves (Change sha1 t .all) (Peer.modifyPeer i fun p => { p with choking }) w :=
      moves_modifyPeer fun _ => rfl
    refine wp_mono (askMore_spec (h.changes hmoves) hp1 now) (fun _ w' h' => ?_)
      fun _ _ h' hall => ?_
    · rw [askable_iff hp1] at h'
      exact ⟨fun _ _ => h'.1 hc.2, h'.2.trans (List.length_modify _ _ _)⟩
    · rw [askable_iff hp1] at h'
      exact h' fun _ => hall hc.2 hc.1
  · have hnot : choking = false → p.choking = true → Asks t w p := fun h1 h2 => by
      simp [h1, h2] at hc
    refine wp_ite (fun _ => ⟨hnot, List.length_modify _ _ _⟩) fun _ => ⟨hnot, rfl⟩

theorem setRemotePieces_length (i : Nat) (bf : Bitfield) :
    wp (Peer.setRemotePieces i bf) w (fun _ w' => w'.peers.length = w.peers.length)
      fun _ _ => False := by
  simp only [Peer.setRemotePieces, Peer.modifyPeer, Torrent.initClientPieces, wp_bind, wp_modify,
    wp_get]
  exact wp_ite (fun _ => List.length_modify _ _ _) fun _ => List.length_modify _ _ _

theorem addRemotePiece_length (hn : t.pieces.length < 2 ^ 32) (hp : w.peers[i]? = some p)
    (id : UInt32) : wp (Peer.addRemotePiece t i id) w
      (fun _ w' => w'.peers.length = w.peers.length) fun _ _ => False := by
  simp only [Peer.addRemotePiece, wp_bind]
  refine (wp_getPeer hp).2 (wp_ite (fun _ => ?_) fun _ => List.length_modify _ _ _)
  have hsize := Bitfield.le_size_ofCount t.pieces.length
  obtain ⟨bf, hbf, -⟩ := @Bitfield.fill_ok (.ofCount t.pieces.length) t.pieces.length 0 true
    (by omega) (by omega)
  simp only [Torrent.initClientPieces, wp_bind, wp_get]
  refine wp_ite (fun _ => ?_) fun _ => ?_
  · simp only [wp_set]
    rw [wp_lift_ok hbf]
    exact List.length_modify _ _ _
  · simp only [wp_pure]
    rw [wp_lift_ok hbf]
    exact List.length_modify _ _ _

theorem haveId_spec (h : WellFormed sha1 t w) (hn : t.pieces.length < 2 ^ 32)
    (hp : w.peers[i]? = some p) (id : UInt32) (now : Int) : wp (Peer.haveId t i id now) w
      (fun _ w' => (∀ w1, Peer.addRemotePiece t i id w = .ok () w1 → Askable t w1 i) ∧
        w'.peers.length = w.peers.length)
      fun _ _ => ¬∀ w1, Peer.addRemotePiece t i id w = .ok () w1 → Askable t w1 i := by
  obtain ⟨u, w1, hadd, hlen⟩ := ok_of_wp (addRemotePiece_length hn hp id)
  have hmoves : Moves (Change sha1 t .all) (Peer.addRemotePiece t i id) w :=
    moves_addRemotePiece i id fun _ => trivial
  have hw1 := h.changes (hmoves.ok hadd)
  have hiff : (∀ w1, Peer.addRemotePiece t i id w = .ok () w1 → Askable t w1 i) ↔
      Askable t w1 i := by
    rw [hadd]
    simp
  have hi : i < w1.peers.length := hlen ▸ (List.getElem?_eq_some_iff.1 hp).1
  rw [hiff, Peer.haveId, wp_bind, wp, hadd]
  exact wp_mono (askMore_spec hw1 (List.getElem?_eq_getElem hi) now)
    (fun _ _ h' => ⟨h'.1, h'.2.trans hlen⟩) fun _ _ h' => h'

/-! ## A block -/

/-- `set_block` before it asks for more. -/
def Peer.storeBlock (i : Nat) (pieceId offset : UInt32) (data : Bytes) (now : Int) : App Unit := do
  modifyPeer i fun p =>
    { p with pendingRequests := if p.pendingRequests > 0 then p.pendingRequests - 1
      else p.pendingRequests }
  discard (Torrent.setBlock pieceId offset data now)

/-- The block fits in its piece, if that is active. -/
def Storable (w : World) (pieceId offset : UInt32) (data : Bytes) : Prop :=
  ∀ ref piece, w.activePieces.lookup pieceId = some ref → w.heap[ref]? = some piece →
    piece.Accepts offset data

theorem torrentSetBlock_spec (h : WellFormed sha1 t w) (pieceId offset : UInt32) (data : Bytes)
    (now : Int) : wp (Torrent.setBlock pieceId offset data now) w
      (fun _ w' => Storable w pieceId offset data ∧ w'.peers = w.peers)
      fun _ _ => ¬Storable w pieceId offset data := by
  simp only [Torrent.setBlock, wp_bind, wp_get]
  cases hl : w.activePieces.lookup pieceId with
  | none =>
    refine ⟨fun ref piece hl' => ?_, rfl⟩
    rw [hl] at hl'
    cases hl'
  | some ref =>
    obtain ⟨piece, hget, -⟩ := h.active pieceId ref hl
    have hiff : Storable w pieceId offset data ↔ piece.Accepts offset data := by
      refine ⟨fun hs => hs ref piece hl hget, fun ha ref' piece' hl' hget' => ?_⟩
      obtain rfl := Option.some.inj (hl.symm.trans hl')
      obtain rfl := Option.some.inj (hget.symm.trans hget')
      exact ha
    rw [hiff]
    simp only [wp_bind]
    refine (wp_deref hget).2 ?_
    by_cases ha : piece.Accepts offset data
    · obtain ⟨⟨last, piece'⟩, hset⟩ := (h.formed ref piece hget).setBlock_returns ha now
      rw [wp_lift_ok hset]
      have hget' : (w.heap.set ref piece')[ref]? = some piece' := Heap.set_self hget piece'
      cases last with
      | false => exact ⟨ha, rfl⟩
      | true =>
        simp only [store, Torrent.pieceDone, deref, wp_bind, wp_modify, wp_get, hget', if_true,
          wp_pure]
        exact ⟨ha, trivial⟩
    · rw [wp_lift]
      exact ⟨fun r hr => absurd (Piece.setBlock_stored hr).1 ha, fun _ _ => ha⟩

theorem storeBlock_spec (h : WellFormed sha1 t w) (pieceId offset : UInt32) (data : Bytes)
    (now : Int) : wp (Peer.storeBlock i pieceId offset data now) w
      (fun _ w' => (Storable w pieceId offset data ∧ w'.peers.length = w.peers.length) ∧
        WellFormed sha1 t w')
      fun _ _ => ¬Storable w pieceId offset data := by
  have hpeers : Moves (Change sha1 t .all) (Peer.modifyPeer i fun p =>
      { p with pendingRequests := if p.pendingRequests > 0 then p.pendingRequests - 1
        else p.pendingRequests }) w := moves_modifyPeer fun _ => rfl
  have hw1 := h.changes hpeers
  simp only [Peer.storeBlock, Peer.modifyPeer, wp_bind, wp_modify, wp_discard]
  refine hw1.after (moves_setBlock _ _ _ now (fun _ => trivial) (fun _ => trivial) fun _ => trivial)
    (wp_mono (torrentSetBlock_spec hw1 pieceId offset data now) (fun _ w' h' => ?_) fun _ _ h' => h')
  exact ⟨h'.1, (congrArg List.length h'.2).trans (List.length_modify _ _ _)⟩

theorem setBlock_spec (h : WellFormed sha1 t w) (hi : i < w.peers.length) (pieceId offset : UInt32)
    (data : Bytes) (now : Int) : wp (Peer.setBlock t i pieceId offset data now) w
      (fun _ w' => (Storable w pieceId offset data ∧
          ∀ w1, Peer.storeBlock i pieceId offset data now w = .ok () w1 → Askable t w1 i) ∧
        w'.peers.length = w.peers.length)
      fun _ _ => ¬(Storable w pieceId offset data ∧
        ∀ w1, Peer.storeBlock i pieceId offset data now w = .ok () w1 → Askable t w1 i) := by
  have heq : Peer.setBlock t i pieceId offset data now = (do
      Peer.storeBlock i pieceId offset data now
      discard (Peer.requestNextBlock t i now)) := by
    rw [Peer.storeBlock, bind_assoc]
    rfl
  have hstore := storeBlock_spec (i := i) h pieceId offset data now
  rw [heq, wp_bind]
  refine wp_of (fun u w1 hok => ?_) fun e w1 herr hall => wp_error hstore herr hall.1
  obtain ⟨⟨hs, hlen⟩, hw1⟩ := wp_ok hstore hok
  have hiff : (∀ w1, Peer.storeBlock i pieceId offset data now w = .ok () w1 → Askable t w1 i) ↔
      Askable t w1 i := by
    rw [hok]
    simp
  rw [hiff]
  exact wp_mono (askMore_spec hw1 (List.getElem?_eq_getElem (hlen ▸ hi)) now)
    (fun _ _ h' => ⟨⟨hs, h'.1⟩, h'.2.trans hlen⟩) fun _ _ h' hall => h' hall.2

/-! ## Every call -/

theorem reportBitfield_spec (i : Nat) : wp (Peer.reportBitfield i) w
    (fun _ w' => ((w.clientPieces.next true).isSome = true →
        1 + w.clientPieces.sizeBytes < 2 ^ 32) ∧ w'.peers.length = w.peers.length)
    fun _ _ => ¬((w.clientPieces.next true).isSome = true →
      1 + w.clientPieces.sizeBytes < 2 ^ 32) := by
  simp only [Peer.reportBitfield, wp_bind, wp_get]
  refine wp_ite (fun hsome => ?_) fun hnone => ⟨fun hsome => absurd hsome hnone, rfl⟩
  simp only [wp_bind]
  refine wp_mono (sized_spec (1 + w.clientPieces.sizeBytes) _) (fun msg w1 h1 => ?_)
    fun _ _ h1 hall => h1 (hall hsome)
  obtain ⟨rfl, hsize⟩ := h1
  exact ⟨fun _ => hsize, List.length_modify _ _ _⟩

/-- What a call on the peer `i` needs. -/
def Harmless (t : Torrent) (i : Nat) (now : Int) (w : World) : PeerCall → Prop
  | .reportBitfield =>
    (w.clientPieces.next true).isSome = true → 1 + w.clientPieces.sizeBytes < 2 ^ 32
  | .setChoking choking =>
    ∀ p, w.peers[i]? = some p → choking = false → p.choking = true → Asks t w p
  | .have id => ∀ w1, Peer.addRemotePiece t i id w = .ok () w1 → Askable t w1 i
  | .setBlock index offset data =>
    Storable w index offset data ∧
      ∀ w1, Peer.storeBlock i index offset data now w = .ok () w1 → Askable t w1 i
  | .request index begin length =>
    ∀ p, w.peers[i]? = some p → Answerable t w p index begin length
  | _ => True

theorem call_moves (peerId : Bytes) (c : PeerCall) (now : Int) :
    Moves (Change sha1 t .all) (Peer.call t peerId i now c) w := by
  have haction (a : Action) : Moves (Change sha1 t .all) (a.run sha1 t) w :=
    action_moves a (Hazards.le_all _)
  cases c with
  | verifyInfoHash _ => exact .refl
  | setRemotePieces bf => exact haction (.setRemotePieces i bf)
  | handshake => exact moves_modifyPeer fun _ => rfl
  | reportBitfield => exact haction (.reportBitfield i)
  | setAmInterested amInterested => exact haction (.setAmInterested i amInterested)
  | setChoking choking => exact haction (.setChoking i choking now)
  | setInterested interested => exact haction (.setInterested i interested)
  | «have» id => exact haction (.have i id now)
  | setBlock index offset data => exact haction (.setBlock i index offset data now)
  | request index begin length => exact haction (.request i index begin length)
  | stop => exact .refl
  | disconnected => exact haction (.disconnect i)

/-- A call returns exactly when it is harmless, and only one of them drops a peer. -/
theorem call_spec (h : WellFormed sha1 t w) (hl : t.Lengths) (hn : t.pieces.length < 2 ^ 32)
    (hp : w.peers[i]? = some p) (peerId : Bytes) (now : Int) (c : PeerCall) :
    wp (Peer.call t peerId i now c) w
      (fun _ w' => (Harmless t i now w c ∧ (c ≠ .disconnected →
        w'.peers.length = w.peers.length)) ∧ WellFormed sha1 t w')
      fun _ _ => ¬Harmless t i now w c := by
  refine h.after (call_moves peerId c now) ?_
  have hi := (List.getElem?_eq_some_iff.1 hp).1
  cases c with
  | verifyInfoHash _ => exact ⟨trivial, fun _ => rfl⟩
  | setRemotePieces bf =>
    exact wp_mono (setRemotePieces_length i bf) (fun _ _ h' => ⟨trivial, fun _ => h'⟩)
      fun _ _ hf => hf.elim
  | handshake => exact ⟨trivial, fun _ => List.length_modify _ _ _⟩
  | reportBitfield =>
    exact wp_mono (reportBitfield_spec i) (fun _ _ h' => ⟨h'.1, fun _ => h'.2⟩) fun _ _ h' => h'
  | setAmInterested amInterested => exact ⟨trivial, fun _ => List.length_modify _ _ _⟩
  | setChoking choking =>
    have hiff : Harmless t i now w (.setChoking choking) ↔
        (choking = false → p.choking = true → Asks t w p) := by simp [Harmless, hp]
    rw [hiff]
    exact wp_mono (setChoking_spec h hp choking now) (fun _ _ h' => ⟨h'.1, fun _ => h'.2⟩)
      fun _ _ h' => h'
  | setInterested interested => exact ⟨trivial, fun _ => List.length_modify _ _ _⟩
  | «have» id =>
    exact wp_mono (haveId_spec h hn hp id now) (fun _ _ h' => ⟨h'.1, fun _ => h'.2⟩) fun _ _ h' => h'
  | setBlock index offset data =>
    exact wp_mono (setBlock_spec h hi index offset data now) (fun _ _ h' => ⟨h'.1, fun _ => h'.2⟩)
      fun _ _ h' => h'
  | request index begin length =>
    have hiff : Harmless t i now w (.request index begin length) ↔
        Answerable t w p index begin length := by simp [Harmless, hp]
    rw [hiff]
    exact wp_mono (requestCall_spec h hl hp index begin length) (fun _ _ h' => ⟨h'.1, fun _ => h'.2⟩)
      fun _ _ h' => h'
  | stop => exact ⟨trivial, fun _ => rfl⟩
  | disconnected => exact ⟨trivial, fun hne => absurd rfl hne⟩

end

end Zit
