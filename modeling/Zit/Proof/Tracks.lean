import Zit.Lib.Window
import Zit.Proof.Asked
import Zit.Proof.Calls
import Zit.Proof.Steady

/-!
# The torrent behind a download

The blocks of a torrent as the items of a `Window` whose workers are `m` seeders (`Torrent.window`).
`Tracks` says that the pieces, the peers and the record of what was written are as the state of the
window says; each thing a seeder or the file writer makes happen is a step of the window
(`Tracks.topUp`, `Tracks.store`, `Tracks.wrote`).
-/

set_option autoImplicit false

namespace Zit

open Lib World

/-- A torrent of this content that can be downloaded into `c`. -/
structure Downloadable (sha1 : Bytes → Sha1) (t : Torrent) (content : Bytes) (c : Loc) : Prop
    extends ContentOf sha1 t content where
  separate : Separate t c
  limit : 0 < t.maxPendingRequests ∧ t.maxPendingRequests < 2 ^ 16
  small : t.pieceLength.toNat ≤ 2 ^ 32 - 2 ^ 14

/-- The blocks of the torrent, asked of `m` seeders. -/
def Torrent.window (t : Torrent) (m : Nat) : Window Nat Block Nat where
  workers := Finset.range m
  items := blocksOf t
  groups := Finset.range t.pieces.length
  group b := b.1.toNat
  limit := t.maxPendingRequests.toNat

abbrev Asking := Window.State Nat Block Nat

/-- A piece is as far as the state of the window says. -/
structure PieceTracks (t : Torrent) (content : Bytes) (m : Nat) (a : Asking) (id : UInt32)
    (p : Piece) : Prop where
  done : ∀ j < p.blockCount.toNat, (p.blocksDone.bit j = true ↔ (id, j) ∈ a.done)
  asked : ∀ j < p.blockCount.toNat, (id, j) ∉ a.done →
    (p.blocksRequested.bit j = true ↔ ∃ i ∈ (t.window m).workers, (id, j) ∈ a.asked i)
  data : p.pieceWritten = false → ∀ j < p.blockCount.toNat, (id, j) ∈ a.done →
    ∀ i < Piece.blockLength p.pieceSize (Piece.blockOffset j),
      p.data[j * 16384 + i]? = (pieceData t content id)[j * 16384 + i]?
  written : p.pieceWritten = true ↔ id.toNat ∈ a.closed

/-- A seeder we want pieces from, or there is nothing to ask for any more. -/
structure PeerTracks (t : Torrent) (m : Nat) (a : Asking) (i : Nat) (p : Peer) : Prop where
  remote : ∀ k, p.remotePieces.bit k = true ↔ k < t.pieces.length
  pending : p.pendingRequests = (a.asked i).card
  awake : p.choking = false ↔ i ∈ a.awake
  interested : p.amInterested = true ∨ (t.window m).free a = ∅

structure Tracks (sha1 : Bytes → Sha1) (t : Torrent) (content : Bytes) (c : Loc) (m : Nat)
    (w : World) (a : Asking) : Prop where
  steady : Steady sha1 t c w
  sized : t.pieces.length ≤ w.clientPieces.size
  count : w.peers.length = m
  peer : ∀ i p, w.peers[i]? = some p → PeerTracks t m a i p
  piece : ∀ id, id.toNat < t.pieces.length → ∀ p, pieceFor t w id = some p →
    PieceTracks t content m a id p
  marks : ∀ x ∈ w.marks, x.data = pieceData t content x.id

/-- Every peer has been sent what `told` says, and we are as interested in it as before. -/
structure Tells (told : Nat → List Bytes) (w w' : World) : Prop where
  count : w'.peers.length = w.peers.length
  peer : ∀ k p', w'.peers[k]? = some p' → ∃ p, w.peers[k]? = some p ∧
    p'.amInterested = p.amInterested ∧ p'.sent = p.sent ++ told k

/-- The peer `i` has been asked for these blocks. -/
abbrev Sends (t : Torrent) (i : Nat) (w w' : World) (taken : List Block) : Prop :=
  Tells (fun k => if k = i then batch t taken else []) w w'

section
variable {sha1 : Bytes → Sha1} {t : Torrent} {content : Bytes} {c : Loc} {m i : Nat}
  {w w' : World} {a : Asking} {id : UInt32} {p p' : Piece} {peer : Peer}
  {b : Block}

theorem Downloadable.pieceLength_ne (hd : Downloadable sha1 t content c) : t.pieceLength ≠ 0 := by
  intro h0
  have hpos := hd.consistent.pieceLength
  rw [h0] at hpos
  exact Nat.lt_irrefl 0 hpos

/-! ## Pieces -/

namespace PieceTracks

theorem give (h : PieceTracks t content m a id p) (hsame : p.SameBlocks p') (hi : i < m)
    {taken : List Block} (hbits : ∀ j, p'.blocksRequested.bit j = true ↔
      p.blocksRequested.bit j = true ∨ (id, j) ∈ taken) :
    PieceTracks t content m (a.give i taken.toFinset) id p' := by
  have hcount : p'.blockCount = p.blockCount := by rw [Piece.blockCount, hsame.pieceSize]; rfl
  refine ⟨fun j hj => ?_, fun j hj hdone => ?_, fun hw j hj hdone => ?_, ?_⟩
  · rw [hsame.blocksDone]
    exact h.done j (hcount ▸ hj)
  · rw [hbits, h.asked j (hcount ▸ hj) hdone,
      Window.asked_give (w := t.window m) (Finset.mem_range.2 hi), List.mem_toFinset]
  · rw [hsame.data, hsame.pieceSize]
    exact h.data (hsame.pieceWritten ▸ hw) j (hcount ▸ hj) hdone
  · rw [hsame.pieceWritten]
    exact h.written

/-- Another block has been answered. -/
theorem take (h : PieceTracks t content m a id p) (hne : b.1 ≠ id) :
    PieceTracks t content m (a.take i b) id p := by
  have hother (j : Nat) : (id, j) ≠ b := fun he => hne (by rw [← he])
  refine ⟨fun j hj => ?_, fun j hj hdone => ?_, fun hw j hj hdone => ?_, h.written⟩
  · rw [h.done j hj, Window.State.take, Finset.mem_insert, or_iff_right (hother j)]
  · rw [Window.State.take, Finset.mem_insert, or_iff_right (hother j)] at hdone
    rw [h.asked j hj hdone, Window.asked_take (hother j)]
  · rw [Window.State.take, Finset.mem_insert, or_iff_right (hother j)] at hdone
    exact h.data hw j hj hdone

/-- The block has been answered, and is put into its place. -/
theorem store (h : PieceTracks t content m a b.1 p) (hf : p.Formed) (hj : b.2 < p.blockCount.toNat)
    (hbit : p.blocksDone.bit b.2 = false) {data copied : Bytes}
    (haccepts : p.Accepts (Piece.blockOffset b.2) data)
    (hindex : (Piece.blockOffset b.2 / Piece.blockSize).toNat = b.2)
    (hcopied : p.copyBlock (Piece.blockOffset b.2) data = .ok copied)
    (hlen : data.length = Piece.blockLength p.pieceSize (Piece.blockOffset b.2))
    (hdata : ∀ i < data.length, data[i]? = (pieceData t content b.1)[b.2 * 16384 + i]?)
    (now : Int) : PieceTracks t content m (a.take i b) b.1 { p with
      data := copied
      blocksDone := p.blocksDone.set (Piece.blockOffset b.2 / Piece.blockSize).toNat true
      lastBlock := now } := by
  have hsame (j : Nat) : (b.1, j) = b ↔ j = b.2 := by
    rw [Prod.ext_iff]
    exact and_iff_right rfl
  have hmem (j : Nat) : (b.1, j) ∈ (a.take i b).done ↔ j = b.2 ∨ (b.1, j) ∈ a.done := by
    rw [Window.State.take, Finset.mem_insert, hsame]
  obtain ⟨hoff, -⟩ := Piece.blockOffset_toNat hj
  obtain ⟨hin, hout⟩ := Assembled.copied_get hf haccepts (hindex.symm ▸ hbit) hcopied
  refine ⟨fun j hcount => ?_, fun j hcount hdone => ?_, fun hw j hcount hdone k hk => ?_, h.written⟩
  · show (p.blocksDone.set _ true).bit j = true ↔ _
    rw [hindex, Bitfield.bit_set, hmem]
    split_ifs with he
    · exact iff_of_true rfl (.inl he)
    · rw [or_iff_right he]
      exact h.done j hcount
  · rw [hmem, not_or] at hdone
    rw [Window.asked_take ((hsame j).not.2 hdone.1)]
    exact h.asked j hcount hdone.2
  · show copied[j * 16384 + k]? = _
    change k < Piece.blockLength p.pieceSize (Piece.blockOffset j) at hk
    by_cases he : j = b.2
    · rw [he] at hk ⊢
      rw [← hlen] at hk
      rw [← hdata k hk, ← hin k hk, hoff]
    · obtain ⟨hoffj, -⟩ := Piece.blockOffset_toNat hcount
      rw [Piece.blockLength, Piece.blockSize_toNat] at hk hlen
      rw [hoffj] at hk
      rw [hoff] at hlen
      have hsize := hf.data hw
      rw [hout (j * 16384 + k) (by omega) (by rw [hoff]; omega)]
      refine h.data hw j hcount (((hmem j).1 hdone).resolve_left he) k ?_
      rw [Piece.blockLength, Piece.blockSize_toNat, hoffj]
      exact hk

/-- Another piece has been written. -/
theorem close (h : PieceTracks t content m a id p) {k : Nat} (hne : id.toNat ≠ k) :
    PieceTracks t content m (a.close k) id p :=
  ⟨h.done, h.asked, h.data, by rw [h.written, Window.State.close, Finset.mem_insert,
    or_iff_right hne]⟩

/-- The piece has been written. -/
theorem wrote (h : PieceTracks t content m a id p)
    (hall : ∀ j < p.blockCount.toNat, p.blocksDone.bit j = true) :
    PieceTracks t content m (a.close id.toNat) id (p.setPieceWritten true) := by
  have hdone (j : Nat) (hj : j < p.blockCount.toNat) : (id, j) ∈ a.done := (h.done j hj).1 (hall j hj)
  refine ⟨fun j hj => iff_of_true ?_ (hdone j hj), fun j hj hne => absurd (hdone j hj) hne, nofun,
    iff_of_true rfl (Finset.mem_insert_self _ _)⟩
  rw [Piece.setPieceWritten, Piece.bit_foldl_set, hall j hj, Bool.or_true]

/-- The data of a piece that has all its blocks. -/
theorem data_eq (h : PieceTracks t content m a id p) (hf : p.Formed) (hw : p.pieceWritten = false)
    (hall : ∀ j < p.blockCount.toNat, p.blocksDone.bit j = true)
    (hlen : (pieceData t content id).length = p.pieceSize.toNat) :
    p.data = pieceData t content id := by
  have hdata := hf.data hw
  refine List.ext_getElem? fun k => ?_
  by_cases hk : k < p.pieceSize.toNat
  · have hj : k / 16384 < p.blockCount.toNat := by
      rw [Piece.blockCount, Piece.blockCountOf_toNat]
      omega
    have hi : k % 16384 < Piece.blockLength p.pieceSize (Piece.blockOffset (k / 16384)) := by
      rw [Piece.blockLength, (Piece.blockOffset_toNat hj).1, Piece.blockSize_toNat]
      omega
    have hget := h.data hw _ hj ((h.done _ hj).1 (hall _ hj)) _ hi
    rwa [Nat.div_add_mod'] at hget
  · rw [List.getElem?_eq_none (by omega), List.getElem?_eq_none (by omega)]

end PieceTracks

/-! ## Peers -/

namespace PeerTracks
variable {k : Nat}

theorem give (h : PeerTracks t m a i peer) (hi : i < m) {taken : List Block} (hnodup : taken.Nodup)
    (hfree : taken.toFinset ⊆ (t.window m).free a) (sent : List Bytes) :
    PeerTracks t m (a.give i taken.toFinset) i
      { peer with pendingRequests := peer.pendingRequests + taken.length, sent := sent } := by
  have hworker : i ∈ (t.window m).workers := Finset.mem_range.2 hi
  have hdisj : Disjoint (a.asked i) taken.toFinset := by
    refine Finset.disjoint_left.2 fun b hb hb' => ?_
    exact (Window.mem_free.1 (hfree hb')).2.2 i hworker hb
  refine ⟨h.remote, ?_, h.awake, h.interested.imp_right fun he => ?_⟩
  · rw [Window.State.give_self, Finset.card_union_of_disjoint hdisj,
      List.toFinset_card_of_nodup hnodup, Int.natCast_add]
    show peer.pendingRequests + _ = _
    rw [h.pending]
  · rw [Window.free_give (w := t.window m) hworker, he, Finset.empty_sdiff]

/-- Another peer is asked for more. -/
theorem give_other (h : PeerTracks t m a k peer) (hi : i < m) (hk : k ≠ i) (more : Finset Block) :
    PeerTracks t m (a.give i more) k peer := by
  have hworker : i ∈ (t.window m).workers := Finset.mem_range.2 hi
  refine ⟨h.remote, ?_, h.awake, h.interested.imp_right fun he => ?_⟩
  · rw [Window.State.give_of_ne hk]
    exact h.pending
  · rw [Window.free_give (w := t.window m) hworker, he, Finset.empty_sdiff]

theorem take (h : PeerTracks t m a i peer) (hi : i < m) (hb : b ∈ a.asked i) :
    PeerTracks t m (a.take i b) i { peer with pendingRequests :=
      if peer.pendingRequests > 0 then peer.pendingRequests - 1 else peer.pendingRequests } := by
  have hworker : i ∈ (t.window m).workers := Finset.mem_range.2 hi
  have hpos : 0 < (a.asked i).card := Finset.card_pos.2 ⟨b, hb⟩
  have hpending := h.pending
  refine ⟨h.remote, ?_, h.awake, ?_⟩
  · rw [Window.State.take_self, Finset.card_erase_of_mem hb]
    show (if peer.pendingRequests > 0 then _ else _) = _
    split_ifs <;> omega
  · rw [Window.free_take (w := t.window m) hworker hb]
    exact h.interested

/-- Another peer has answered. -/
theorem take_other (h : PeerTracks t m a k peer) (hi : i < m) (hk : k ≠ i) (hb : b ∈ a.asked i) :
    PeerTracks t m (a.take i b) k peer := by
  refine ⟨h.remote, ?_, h.awake, ?_⟩
  · rw [Window.State.take_of_ne hk]
    exact h.pending
  · rw [Window.free_take (w := t.window m) (Finset.mem_range.2 hi) hb]
    exact h.interested

end PeerTracks

/-! ## What is free -/

namespace Tracks
variable (h : Tracks sha1 t content c m w a) (hd : Downloadable sha1 t content c)
include h hd

theorem piece_of (hid : id.toNat < t.pieces.length) : ∃ p, pieceFor t w id = some p ∧
    p.id = id ∧ p.pieceSize = sizeAt t id ∧ p.Formed ∧ PieceTracks t content m a id p := by
  obtain ⟨p, hp, hpid, hsize, hformed⟩ := h.steady.pieceFor_some hd.toContentOf hid
  exact ⟨p, hp, hpid, hsize, hformed, h.piece id hid p hp⟩

/-- All blocks of a piece that is counted as received are done. -/
theorem own_done (hb : b ∈ blocksOf t) (hown : w.clientPieces.bit b.1.toNat = true) :
    b ∈ a.done := by
  obtain ⟨hid, hj⟩ := (mem_blocksOf hd.count).1 hb
  obtain ⟨p, hp, -, hsize, hformed, htracks⟩ := h.piece_of hd hid
  rw [← hsize] at hj
  exact (htracks.done b.2 hj).1
    (hformed.complete_iff_all.1 (h.steady.own_complete hown hp) b.2 hj)

/-- The blocks that can be requested of a peer are those that are free. -/
theorem free_iff (hp : w.peers[i]? = some peer) :
    some b ∈ candidates t w (Torrent.relevantPieces w peer.remotePieces) ↔
      b ∈ (t.window m).free a := by
  have hremote := (h.peer i peer hp).remote
  constructor
  · intro hb
    obtain ⟨hbit, -, q, hq, hfree, -⟩ := candidates_free hb
    have hid := (hremote _).1 hbit
    obtain ⟨p, hp, -, hsize, -, htracks⟩ := h.piece_of hd hid
    obtain rfl := Option.some.inj (hp.symm.trans hq)
    obtain ⟨hj, hreq, hdone⟩ := Piece.mem_freeBlocks.1 hfree
    have hundone : b ∉ a.done := fun hb => by
      rw [(htracks.done b.2 hj).2 hb] at hdone
      cases hdone
    refine Window.mem_free_iff.2 ⟨(mem_blocksOf hd.count).2 ⟨hid, ?_⟩, hundone, fun hasked => ?_⟩
    · rwa [← hsize]
    · rw [(htracks.asked b.2 hj hundone).2 hasked] at hreq
      cases hreq
  · intro hb
    obtain ⟨hmem, hundone, hnot⟩ := Window.mem_free_iff.1 hb
    obtain ⟨hid, hj⟩ := (mem_blocksOf hd.count).1 hmem
    obtain ⟨p, hp, -, hsize, -, htracks⟩ := h.piece_of hd hid
    have hown : w.clientPieces.bit b.1.toNat = false := by
      by_contra hown
      exact hundone (h.own_done hd hmem (by simpa using hown))
    have hrel : (Torrent.relevantPieces w peer.remotePieces).bit b.1.toNat = true := by
      rw [Torrent.relevantPieces, Bitfield.bit_sub, (hremote _).2 hid, hown,
        decide_eq_true (Nat.lt_of_lt_of_le hid h.sized)]
      rfl
    have hj' : b.2 < p.blockCount.toNat := by rwa [Piece.blockCount, hsize]
    have hfree : b.2 ∈ p.freeBlocks := by
      refine Piece.mem_freeBlocks.2 ⟨hj', ?_, ?_⟩
      · simpa using mt (htracks.asked b.2 hj' hundone).1 hnot
      · simpa using mt (htracks.done b.2 hj').1 hundone
    refine List.mem_flatMap.2 ⟨b.1.toNat, ?_, ?_⟩
    · have hlt := Bitfield.lt_size_of_bit _ hrel
      simpa using hlt
    · rw [candidatesAt, if_pos hrel, pieceAt, if_pos b.1.toNat_lt, UInt32.ofNat_toNat, hp]
      exact List.mem_map.2 ⟨b.2, hfree, rfl⟩

/-- Every piece a seeder has can be made active. -/
theorem no_gap (hp : w.peers[i]? = some peer) :
    none ∉ candidates t w (Torrent.relevantPieces w peer.remotePieces) := by
  intro hgap
  obtain ⟨k, -, hk⟩ := List.mem_flatMap.1 hgap
  rw [candidatesAt] at hk
  split at hk
  · rename_i hrel
    rw [Torrent.relevantPieces, Bitfield.bit_sub] at hrel
    simp only [Bool.and_eq_true] at hrel
    have hlt := ((h.peer i peer hp).remote k).1 hrel.1.1
    have hcount := hd.count
    have hk32 : k < 2 ^ 32 := Nat.lt_of_lt_of_le hlt hcount
    have hid : (UInt32.ofNat k).toNat < t.pieces.length := by rwa [toNat_ofNat_lt hk32]
    obtain ⟨p, hp, -⟩ := h.piece_of hd hid
    rw [pieceAt, if_pos hk32, hp] at hk
    simp at hk
  · cases hk

/-- What is taken of the candidates is as much as there is. -/
theorem tops (hp : w.peers[i]? = some peer) {n : Nat} {taken : List Block}
    (htake : (candidates t w (Torrent.relevantPieces w peer.remotePieces)).take n =
      taken.map some) :
    taken.Nodup ∧ (t.window m).Tops a n taken.toFinset := by
  have hnodup := taken_nodup htake
  have hall : ((candidates t w (Torrent.relevantPieces w peer.remotePieces)).filterMap
      id).toFinset = (t.window m).free a := by
    ext b
    rw [List.mem_toFinset, ← h.free_iff hd hp, List.mem_filterMap]
    simp
  have hcard := List.toFinset_card_of_nodup
    (candidates_nodup (t := t) w (Torrent.relevantPieces w peer.remotePieces))
  rw [hall, filterMap_candidates] at hcard
  refine ⟨hnodup, fun b hb => ?_, ?_⟩
  · rw [← h.free_iff hd hp]
    rw [List.mem_toFinset] at hb
    exact List.mem_of_mem_take (htake ▸ List.mem_map_of_mem hb)
  · rw [List.toFinset_card_of_nodup hnodup, hcard, (taken_free htake).2]

end Tracks

/-! ## Requests -/

namespace Tells
variable {told more : Nat → List Bytes} {w'' : World}

theorem sentTo (h : Tells told w w') {k : Nat} (hk : k < w.peers.length) :
    Download.sentTo w' k = Download.sentTo w k ++ told k := by
  obtain ⟨p', hp'⟩ : ∃ p', w'.peers[k]? = some p' :=
    ⟨_, List.getElem?_eq_getElem (h.count.symm ▸ hk)⟩
  obtain ⟨p, hp, -, hsent⟩ := h.peer k p' hp'
  simp only [Download.sentTo, hp, hp', Option.map_some, Option.getD_some, hsent]

theorem written (h : Tells told w w') {k : Nat} (hk : k < w.peers.length) :
    Download.written w w' k = told k := by
  rw [Download.written, h.sentTo hk, List.drop_left]

/-- A peer that does not exist is sent nothing. -/
theorem written_none (h : Tells told w w') {k : Nat} (hk : w.peers.length ≤ k) :
    Download.written w w' k = [] := by
  have hnone : Download.sentTo w' k = [] := by
    rw [Download.sentTo, List.getElem?_eq_none (h.count.symm ▸ hk)]
    rfl
  rw [Download.written, hnone, List.drop_nil]

theorem trans (h : Tells told w w') (h' : Tells more w' w'') :
    Tells (fun k => told k ++ more k) w w'' := by
  refine ⟨h'.count.trans h.count, fun k p'' hp'' => ?_⟩
  obtain ⟨p', hp', hint', hsent'⟩ := h'.peer k p'' hp''
  obtain ⟨p, hp, hint, hsent⟩ := h.peer k p' hp'
  exact ⟨p, hp, hint'.trans hint, by rw [hsent', hsent, List.append_assoc]⟩

theorem of_modify {f : Peer → Peer} (hpeers : w'.peers = w.peers.modify i f)
    (hf : ∀ p, w.peers[i]? = some p →
      (f p).amInterested = p.amInterested ∧ (f p).sent = p.sent ++ told i)
    (hother : ∀ k, k ≠ i → told k = []) : Tells told w w' := by
  refine ⟨by rw [hpeers, List.length_modify], fun k p' hp' => ?_⟩
  rw [hpeers, List.getElem?_modify] at hp'
  obtain ⟨p, hp, rfl⟩ := Option.map_eq_some_iff.1 hp'
  refine ⟨p, hp, ?_⟩
  by_cases hk : i = k
  · subst hk
    simp only [if_true]
    exact hf p hp
  · rw [if_neg hk, hother k (Ne.symm hk), List.append_nil]
    exact ⟨rfl, rfl⟩

end Tells

namespace Sends

theorem refl (t : Torrent) (i : Nat) (w : World) : Sends t i w w [] := by
  refine { count := rfl, peer := fun k p hp => ⟨p, hp, rfl, ?_⟩ }
  simp [batch]

/-- What happens before does not matter as long as nothing is sent. -/
theorem after {w'' : World} {taken : List Block} (hs : Sends t i w' w'' taken)
    (h : Sends t i w w' []) : Sends t i w w'' taken := by
  refine ⟨hs.count.trans h.count, fun k p'' hp'' => ?_⟩
  obtain ⟨p, hp, hint, hsent⟩ := (h.trans hs).peer k p'' hp''
  refine ⟨p, hp, hint, hsent.trans ?_⟩
  split_ifs <;> simp [batch]

/-- A peer that is changed and has not been sent anything. -/
theorem of_modify {f : Peer → Peer} (hpeers : w'.peers = w.peers.modify i f)
    (hf : ∀ p, (f p).amInterested = p.amInterested ∧ (f p).sent = p.sent) :
    Sends t i w w' [] :=
  Tells.of_modify hpeers (fun p _ => ⟨(hf p).1, by simp [(hf p).2, batch]⟩) fun k hk => if_neg hk

/-- What is sent is heard. -/
theorem hears {taken : List Block} (h : Sends t i w w' taken) (hi : i < w.peers.length) :
    Seeder.hears (Download.written w w' i) = taken.map (blockRequest t) := by
  rw [h.written hi, if_pos rfl, hears_batch]

theorem silent {taken : List Block} (h : Sends t i w w' taken) {k : Nat} (hk : k ≠ i) :
    Download.written w w' k = [] := by
  rcases Nat.lt_or_ge k w.peers.length with hlt | hge
  · rw [h.written hlt, if_neg hk]
  · exact h.written_none hge

end Sends

/-- What `set_block` changes besides the own bitfield and the queue. -/
theorem setBlock_leaves {ref : Nat} {offset : UInt32} {data : Bytes} {now : Int} {last : Bool}
    (hl : w.activePieces.lookup id = some ref) (hp : w.heap[ref]? = some p)
    (hset : p.setBlock offset data now = .ok (last, p')) :
    wp (Torrent.setBlock id offset data now) w (fun _ w' => ∃ own queue, w' = { w with
      heap := w.heap.set ref p', clientPieces := own, queue := queue }) fun _ _ => False := by
  simp only [Torrent.setBlock, wp_bind, wp_get, hl]
  refine (wp_deref hp).2 ?_
  rw [wp_lift_ok hset]
  have hget : (w.heap.set ref p')[ref]? = some p' := Heap.set_self hp p'
  cases last with
  | false => exact ⟨_, _, rfl⟩
  | true =>
    simp only [World.store, Torrent.pieceDone, deref, wp_bind, wp_modify, wp_get, hget, if_true,
      wp_pure]
    exact ⟨_, _, rfl⟩

namespace Tracks
variable (h : Tracks sha1 t content c m w a) (hd : Downloadable sha1 t content c)
include h hd

/-- The requests that are written are those for the blocks. -/
theorem sends {taken : List Block} (hfree : ∀ b ∈ taken, b ∈ (t.window m).free a)
    (hpeers : w'.peers = w.peers.modify i fun p =>
      { p with
        pendingRequests := p.pendingRequests + taken.length
        sent := p.sent ++ if taken = [] then [] else [taken.flatMap (requestOf t w)] }) :
    Sends t i w w' taken := by
  refine Tells.of_modify hpeers (fun p _ => ⟨rfl, ?_⟩) fun k hk => if_neg hk
  rw [if_pos rfl]
  refine congrArg (p.sent ++ ·) (batch_eq fun b hb => ?_)
  obtain ⟨hid, -⟩ := (mem_blocksOf hd.count).1 (Window.mem_free.1 (hfree b hb)).1
  obtain ⟨q, hq, -, hsize, -⟩ := h.piece_of hd hid
  exact ⟨q, hq, hsize⟩

/-- The state after a batch of requests. -/
theorem given {taken : List Block} (hi : i < m) (hnodup : taken.Nodup) (hfree : taken.toFinset ⊆ (t.window m).free a)
    (hemitted : Emitted t i peer w w' taken) (hmarked : Marked t w w' taken)
    (hchanges : Changes sha1 t .orderly w w') :
    Tracks sha1 t content c m w' (a.give i taken.toFinset) := by
  refine ⟨h.steady.changes hd.separate hd.pieceLength_ne hchanges,
    size_changes hd.consistent.pieces hchanges h.sized, ?_, fun k q hq => ?_,
    fun id hid q hq => ?_, fun x hx => ?_⟩
  · rw [hemitted.peers, List.length_modify, h.count]
  · rw [hemitted.peers, List.getElem?_modify] at hq
    obtain ⟨q', hq', rfl⟩ := Option.map_eq_some_iff.1 hq
    by_cases hk : i = k
    · subst hk
      simp only [if_true]
      exact (h.peer i q' hq').give hi hnodup hfree _
    · simp only [hk, if_false]
      exact (h.peer k q' hq').give_other hi (Ne.symm hk) _
  · obtain ⟨p, hp', -, -, -, htracks⟩ := h.piece_of hd hid
    obtain ⟨p', hp'', hsame, hbits⟩ := hmarked.pieces id p hp'
    obtain rfl := Option.some.inj (hp''.symm.trans hq)
    exact htracks.give hsame hi hbits
  · rw [hmarked.marks] at hx
    exact h.marks x hx

/-- A call of `request_next_block` for a seeder that has unchoked us. -/
theorem topUp (hs : (t.window m).Sound a) (hi : i ∈ a.awake) (now : Int) :
    wp (Peer.requestNextBlock t i now) w (fun _ w' => ∃ taken : List Block, taken.Nodup ∧
      (t.window m).Tops a ((t.window m).limit - (a.asked i).card) taken.toFinset ∧
      Tracks sha1 t content c m w' (a.give i taken.toFinset) ∧ Sends t i w w' taken)
      fun _ _ => False := by
  have him : i < m := Finset.mem_range.1 (hs.awake hi)
  obtain ⟨peer, hp⟩ : ∃ peer, w.peers[i]? = some peer := by
    rw [← h.count] at him
    exact ⟨_, List.getElem?_eq_getElem him⟩
  have hpeer := h.peer i peer hp
  have hchoke := hpeer.awake.2 hi
  by_cases hint : peer.amInterested = true
  · have hgap := h.no_gap hd hp
    have hmoves : Moves (Change sha1 t .orderly) (Peer.requestNextBlock t i now) w :=
      moves_requestNextBlock i now 0
    refine wp_mono (wp_and (requestNextBlock_asks h.steady.wellFormed hp hint hchoke now hd.limit
      hgap) hmoves) (fun _ w' h1 => ?_) fun _ _ h1 => h1.1
    obtain ⟨⟨taken, htake, hemitted, hmarked⟩, hchanges⟩ := h1
    have hn : (t.maxPendingRequests - peer.pendingRequests).toNat =
        (t.window m).limit - (a.asked i).card := by
      rw [hpeer.pending]
      show _ = t.maxPendingRequests.toNat - _
      omega
    rw [hn] at htake
    obtain ⟨hnodup, htops⟩ := h.tops hd hp htake
    exact ⟨taken, hnodup, htops, h.given hd him hnodup htops.1 hemitted hmarked hchanges,
      h.sends hd (fun b hb => htops.1 (List.mem_toFinset.2 hb)) hemitted.peers⟩
  · have hempty := hpeer.interested.resolve_left hint
    simp only [Peer.requestNextBlock, wp_bind]
    refine (wp_getPeer hp).2 ?_
    simp only [hint, Bool.not_false, if_true, wp_pure]
    refine ⟨[], List.nodup_nil, ⟨Finset.empty_subset _, ?_⟩, ?_, .refl t i w⟩
    · rw [hempty]
      simp
    · rw [List.toFinset_nil, Window.State.give_empty]
      exact h

/-! ## Answers -/

/-- A block that is asked for is one of an active piece, and is not done. -/
theorem asked_piece (hs : (t.window m).Sound a) (hi : i < m) (hb : b ∈ a.asked i) :
    ∃ ref p, w.activePieces.lookup b.1 = some ref ∧ w.heap[ref]? = some p ∧
      pieceFor t w b.1 = some p ∧ p.pieceSize = sizeAt t b.1 ∧ p.Formed ∧
      PieceTracks t content m a b.1 p ∧ b.2 < p.blockCount.toNat ∧
      p.blocksDone.bit b.2 = false := by
  have hw : i ∈ (t.window m).workers := Finset.mem_range.2 hi
  have hundone := hs.undone i hw b hb
  obtain ⟨hid, hj⟩ := (mem_blocksOf hd.count).1 (hs.asked i hw hb)
  obtain ⟨p, hp, -, hsize, hformed, htracks⟩ := h.piece_of hd hid
  have hj' : b.2 < p.blockCount.toNat := by rwa [Piece.blockCount, hsize]
  have hreq := (htracks.asked b.2 hj' hundone).2 ⟨i, hw, hb⟩
  have hbit : p.blocksDone.bit b.2 = false := by
    simpa using mt (htracks.done b.2 hj').1 hundone
  cases hl : w.activePieces.lookup b.1 with
  | some ref =>
    exact ⟨ref, p, rfl, (pieceFor_active hl).symm.trans hp, hp, hsize, hformed, htracks, hj', hbit⟩
  | none =>
    -- a piece that is not active has not been asked for
    rw [pieceFor, hl] at hp
    obtain ⟨size, -, rfl⟩ := Option.map_eq_some_iff.1 hp
    rw [Piece.create, Bitfield.bit_ofCount] at hreq
    cases hreq

/-- The block a seeder sends is put into its place. -/
theorem store (hs : (t.window m).Sound a) (hi : i < m) (hb : b ∈ a.asked i) (now : Int) :
    wp (Peer.storeBlock i b.1 (Piece.blockOffset b.2)
        (Seeder.answer t content (blockRequest t b)) now) w
      (fun _ w' => Tracks sha1 t content c m w' (a.take i b) ∧ Sends t i w w' [])
      fun _ _ => False := by
  obtain ⟨ref, p, hl, hget, hp, hsize, hformed, htracks, hj, hbit⟩ := h.asked_piece hd hs hi hb
  have hworker : i ∈ (t.window m).workers := Finset.mem_range.2 hi
  obtain ⟨hlen, hdata⟩ := answer_get hd.toContentOf hd.small (hs.asked i hworker hb)
  rw [← hsize] at hlen hdata
  rw [← hlen] at hdata
  generalize Seeder.answer t content (blockRequest t b) = data at hlen hdata ⊢
  have haccepts := hformed.accepts_block hj hlen
  obtain ⟨-, hindex⟩ := Piece.blockOffset_index hj
  obtain ⟨⟨last, p'⟩, hset⟩ := hformed.setBlock_returns haccepts now
  have hlate : ¬LateBlock w b.1 (Piece.blockOffset b.2) data now := by
    rintro ⟨ref', q, hl', hq, hcomplete, -⟩
    obtain rfl := Option.some.inj (hl.symm.trans hl')
    obtain rfl := Option.some.inj (hget.symm.trans hq)
    rw [hformed.complete_iff_all.1 hcomplete b.2 hj] at hbit
    cases hbit
  obtain ⟨copied, hcopied, rfl⟩ : ∃ copied, p.copyBlock (Piece.blockOffset b.2) data = .ok copied ∧
      p' = { p with
        data := copied
        blocksDone := p.blocksDone.set (Piece.blockOffset b.2 / Piece.blockSize).toNat true
        lastBlock := now } := by
    obtain ⟨-, ⟨hdone, -⟩ | ⟨-, hcopied⟩⟩ := Piece.setBlock_stored hset
    · rw [hindex, hbit] at hdone
      cases hdone
    · exact hcopied
  let answered (q : Peer) : Peer := { q with
    pendingRequests := if q.pendingRequests > 0 then q.pendingRequests - 1 else q.pendingRequests }
  let w1 : World := { w with peers := w.peers.modify i answered }
  have hpeers : Changes sha1 t .orderly w w1 :=
    (moves_modifyPeer fun _ => rfl : Moves _ (Peer.modifyPeer i answered) w)
  have hmoves : Moves (Change sha1 t .orderly)
      (Torrent.setBlock b.1 (Piece.blockOffset b.2) data now) w1 :=
    moves_setBlock _ _ _ now hlate (fun _ => trivial) fun _ => trivial
  simp only [Peer.storeBlock, Peer.modifyPeer, wp_bind, wp_modify, wp_discard]
  refine wp_mono (wp_and (setBlock_leaves (w := w1) hl hget hset) hmoves) (fun _ w' h1 => ?_)
    fun _ _ h1 => h1.1
  obtain ⟨⟨own, queue, rfl⟩, hchanges⟩ := h1
  replace hchanges := hpeers.trans hchanges
  refine ⟨⟨h.steady.changes hd.separate hd.pieceLength_ne hchanges,
    size_changes hd.consistent.pieces hchanges h.sized, ?_, fun k q hq => ?_,
    fun id hid q hq => ?_, h.marks⟩, .of_modify rfl fun _ => ⟨rfl, rfl⟩⟩
  · exact (List.length_modify _ _ _).trans h.count
  · change (w.peers.modify i answered)[k]? = some q at hq
    rw [List.getElem?_modify] at hq
    obtain ⟨q', hq', rfl⟩ := Option.map_eq_some_iff.1 hq
    by_cases hk : i = k
    · subst hk
      simp only [if_true]
      exact (h.peer i q' hq').take hi hb
    · simp only [hk, if_false]
      exact (h.peer k q' hq').take_other hi (Ne.symm hk) hb
  · change pieceFor t { w with heap := w.heap.set ref _ } id = some q at hq
    rw [pieceFor_set h.steady.wellFormed hl hget] at hq
    split_ifs at hq with he
    · obtain rfl := Option.some.inj hq
      subst he
      exact htracks.store hformed hj hbit haccepts hindex hcopied hlen hdata now
    · exact (h.piece id hid q hq).take (Ne.symm he)

end Tracks

/-! ## The file writer -/

/-- What is left when the next piece has been written; when it was the last one, the peers may have
been told. -/
structure Wrote (t : Torrent) (ref : Nat) (p : Piece) (w w' : World) : Prop where
  heap : w'.heap = w.heap.set ref (p.setPieceWritten true)
  active : w'.activePieces = w.activePieces
  own : w'.clientPieces = w.clientPieces
  marks : w'.marks = w.marks ++ [⟨ref, p.id, p.data, false⟩]
  peers : w'.peers = w.peers ∨ t.done w' = true ∧ w'.peers = w.peers.map fun p =>
    if p.listening then p else p.setAmInterested false false

theorem torrentComplete_std (d : Disk) : wp (TorrentDestination.torrentComplete t) d
    (fun _ _ => True) fun e _ => e.isStd = true := by
  have hchange (what : String) (f : FileSystem → Loc → Option FileSystem) (d : Disk) :
      wp (Disk.change what f) d (fun _ _ => True) fun e _ => e.isStd = true := by
    simp only [Disk.change, Disk.nextFault, wp_bind, wp_get, wp_set, wp_pure]
    cases d.faults.head?.join with
    | some k => exact rfl
    | none =>
      simp only [wp_bind, wp_get]
      cases f d.fs d.cwd with
      | none => exact rfl
      | some fs => exact trivial
  unfold TorrentDestination.torrentComplete
  split
  · simp only [SingleTorrentDestination.torrentComplete, Disk.rename, wp_bind, wp_modify]
    exact wp_mono (hchange _ _ d) (fun _ _ _ => trivial) fun _ _ he => he
  · unfold MultiTorrentDestination.torrentComplete Disk.remove
    exact hchange _ _ d

/-- Writing a piece that is right, on a disk that takes it. -/
theorem writePiece_wrote {ref : Nat} {d : Disk} (hp : w.heap[ref]? = some p)
    (hh : t.pieces[p.id.toNat]? = some (sha1 p.data)) (hd : storePiece t p w.disk = .ok () d) :
    wp (FileWriter.writePiece sha1 t ref) w (fun _ w' => Wrote t ref p w w')
      fun e w' => e.isStd = true ∧ Wrote t ref p w w' := by
  have hset : wp (do
      setWritten ref p.data false
      let w ← get
      if t.done w then
        onDisk (TorrentDestination.torrentComplete t)
        Torrent.lastPieceWritten) { w with disk := d } (fun _ w' => Wrote t ref p w w')
      fun e w' => e.isStd = true ∧ Wrote t ref p w w' := by
    simp only [setWritten, wp_bind]
    refine (wp_deref (w := { w with disk := d }) hp).2 ?_
    simp only [World.store, wp_modify, wp_get]
    refine wp_ite (fun hdone => ?_) fun _ => ⟨rfl, rfl, rfl, rfl, .inl rfl⟩
    simp only [wp_bind, wp_onDisk]
    refine wp_mono (torrentComplete_std d) (fun _ d1 _ => ?_) fun e d1 he =>
      ⟨he, rfl, rfl, rfl, rfl, .inl rfl⟩
    simp only [Torrent.lastPieceWritten, wp_bind, wp_modify, wp_onDisk, Disk.nextFault, wp_get,
      wp_set, wp_pure]
    cases d1.faults.head?.join with
    | some _ => exact ⟨rfl, rfl, rfl, rfl, rfl, .inr ⟨hdone, rfl⟩⟩
    | none => exact ⟨rfl, rfl, rfl, rfl, .inr ⟨hdone, rfl⟩⟩
  have hstore : wp (storePiece t p) w.disk
      (fun _ d => wp (do
        setWritten ref p.data false
        let w ← get
        if t.done w then
          onDisk (TorrentDestination.torrentComplete t)
          Torrent.lastPieceWritten) { w with disk := d } (fun _ w' => Wrote t ref p w w')
        fun e w' => e.isStd = true ∧ Wrote t ref p w w')
      fun e d => e.isStd = true ∧ Wrote t ref p w { w with disk := d } := wp_intro hd hset
  simp only [FileWriter.writePiece, wp_bind]
  refine (wp_deref hp).2 ?_
  simp only [hh]
  refine wp_ite (fun hne => absurd rfl hne) fun _ => ?_
  simpa only [storePiece, wp_bind, wp_onDisk] using hstore

/-- A step of the file writer that can write its piece. -/
theorem writeNextPiece_wrote {ref : Nat} {rest : List Nat} {d : Disk}
    (hq : w.queue = ref :: rest) (hp : w.heap[ref]? = some p)
    (hh : t.pieces[p.id.toNat]? = some (sha1 p.data))
    (hd : storePiece t p { w.disk with faults := [] } = .ok () d) :
    wp ((Action.writeNextPiece []).run sha1 t) w (fun _ w' => Wrote t ref p w w')
      fun _ _ => False := by
  have hpiece := writePiece_wrote (w := { w with
    disk := { w.disk with faults := [] }, queue := rest }) hp hh hd
  simp only [Action.run, FileWriter.writeNextPiece, wp_bind, wp_modify, wp_get, hq, wp_set,
    wp_tryCatch]
  refine wp_mono hpiece (fun _ w' h => ⟨h.heap, h.active, h.own, h.marks, h.peers⟩)
    fun e w' h => ?_
  rw [if_pos h.1]
  exact ⟨h.2.heap, h.2.active, h.2.own, h.2.marks, h.2.peers⟩

/-- The peers are as before, or have been told that we are not interested any more. -/
structure Parted (w w' : World) : Prop where
  count : w'.peers.length = w.peers.length
  peer : ∀ (k : Nat) (p' : Peer), w'.peers[k]? = some p' → ∃ p : Peer, w.peers[k]? = some p ∧
    (p' = p ∨ p.amInterested = true ∧
      p' = { p with amInterested := false, sent := p.sent ++ [idMsg .notInterested] })

/-- What a peer is told when the last piece has been written. -/
theorem told_peer (p : Peer) : (if p.listening then p else p.setAmInterested false false) = p ∨
    p.amInterested = true ∧ (if p.listening then p else p.setAmInterested false false) =
      { p with amInterested := false, sent := p.sent ++ [idMsg .notInterested] } := by
  obtain ⟨_, amInterested, _, _, listening, _, _, sent⟩ := p
  cases listening with
  | true => exact .inl rfl
  | false =>
    cases amInterested with
    | false => exact .inl rfl
    | true => exact .inr ⟨rfl, rfl⟩

theorem Parted.of_wrote (hpeers : w'.peers = w.peers ∨ w'.peers = w.peers.map fun p =>
    if p.listening then p else p.setAmInterested false false) : Parted w w' := by
  rcases hpeers with hsame | hmap
  · exact ⟨by rw [hsame], fun k p hp => ⟨p, hsame ▸ hp, .inl rfl⟩⟩
  · refine ⟨by rw [hmap, List.length_map], fun k p' hp' => ?_⟩
    rw [hmap, List.getElem?_map] at hp'
    obtain ⟨p, hp, rfl⟩ := Option.map_eq_some_iff.1 hp'
    exact ⟨p, hp, told_peer p⟩

/-- Nothing of it is a request. -/
theorem Parted.silent (h : Parted w w') (k : Nat) :
    Seeder.hears (Download.written w w' k) = [] := by
  rw [Download.written, Download.sentTo, Download.sentTo]
  cases hp' : w'.peers[k]? with
  | none => simp [Seeder.hears, Seeder.readRequests]
  | some p' =>
    obtain ⟨p, hp, rfl | ⟨-, rfl⟩⟩ := h.peer k p' hp'
    · simp [hp, Seeder.hears, Seeder.readRequests]
    · rw [hp, Option.map_some, Option.map_some, Option.getD_some, Option.getD_some, List.drop_left]
      decide

namespace Tracks
variable (h : Tracks sha1 t content c m w a) (hd : Downloadable sha1 t content c)
include h hd

/-- The next piece of the queue has all its blocks, and its data is right. -/
theorem queued_piece {ref : Nat} (href : ref ∈ w.queue) : ∃ p, w.heap[ref]? = some p ∧
    w.activePieces.lookup p.id = some ref ∧ p.id.toNat < t.pieces.length ∧
    p.pieceWritten = false ∧ PieceTracks t content m a p.id p ∧
    (∀ j < p.blockCount.toNat, p.blocksDone.bit j = true) ∧ p.pieceSize = sizeAt t p.id ∧
    p.data = pieceData t content p.id ∧ t.pieces[p.id.toNat]? = some (sha1 p.data) := by
  obtain ⟨p, hp, hcomplete, hw, hl, -⟩ := h.steady.kept.queued ref href
  have hid := h.steady.ranged.active p.id ref hl
  obtain ⟨q, hq, -, hsize, hformed, htracks⟩ := h.piece_of hd hid
  rw [pieceFor_active hl, hp] at hq
  obtain rfl := Option.some.inj hq
  have hall := hformed.complete_iff_all.1 hcomplete
  have hdata := htracks.data_eq hformed hw hall (by rw [hd.pieceData_length hid, hsize])
  exact ⟨p, hp, hl, hid, hw, htracks, hall, hsize, hdata, by rw [hdata]; exact hd.hash hid⟩

/-- When every piece has been received, nothing can be asked for. -/
theorem free_of_count (hcount : w.clientPieces.count = t.pieces.length) :
    (t.window m).free a = ∅ := by
  refine Finset.eq_empty_of_forall_notMem fun b hb => ?_
  obtain ⟨hmem, hundone, -⟩ := Window.mem_free_iff.1 hb
  refine hundone (h.own_done hd hmem ?_)
  refine Bitfield.bit_of_count_eq _ (fun k hk => ?_) hcount ((mem_blocksOf hd.count).1 hmem).1
  obtain ⟨id, ref, rfl, hl⟩ := h.steady.wellFormed.bits k hk
  exact h.steady.ranged.active id ref hl

/-- The file writer writes the next piece. -/
theorem wrote {ref : Nat} {rest : List Nat} (hq : w.queue = ref :: rest)
    (hdisk : w.Writable t) : ∃ k, k < t.pieces.length ∧ k ∉ a.closed ∧
      (∀ b ∈ blocksOf t, b.1.toNat = k → b ∈ a.done) ∧
      wp ((Action.writeNextPiece []).run sha1 t) w (fun _ w' =>
        Tracks sha1 t content c m w' (a.close k) ∧ Parted w w') fun _ _ => False := by
  obtain ⟨p, hp, hl, hid, hw, htracks, hall, hsize, hdata, hhash⟩ :=
    h.queued_piece hd (hq ▸ List.mem_cons_self)
  obtain ⟨d, hstore⟩ := hdisk ref rest p hq hp
  have hok : storePiece t p { w.disk with faults := [] } = .ok () d := hstore
  refine ⟨p.id.toNat, hid, fun hclosed => ?_, fun b hb hbid => ?_, ?_⟩
  · rw [htracks.written.2 hclosed] at hw
    cases hw
  · obtain ⟨-, hj⟩ := (mem_blocksOf hd.count).1 hb
    have hbid' : b.1 = p.id := UInt32.toNat.inj hbid
    rw [hbid', ← hsize] at hj
    have hmem := (htracks.done b.2 hj).1 (hall b.2 hj)
    rwa [← hbid'] at hmem
  · have hfails : ¬WriteFails sha1 t { w with disk := { w.disk with faults := [] } } := by
      rintro ⟨ref', rest', q, hq', hget, hfail⟩
      obtain ⟨rfl, -⟩ := List.cons.inj (hq.symm.trans hq')
      obtain rfl := Option.some.inj (hp.symm.trans hget)
      rcases hfail with hnone | ⟨-, e, d', herr⟩
      · rw [hhash] at hnone
        cases hnone
      · rw [hok] at herr
        cases herr
    have hmoves : Moves (Change sha1 t .orderly) ((Action.writeNextPiece []).run sha1 t) w :=
      action_moves _ ⟨False.elim, fun _ => trivial, False.elim, fun _ => trivial, hfails⟩
    refine wp_mono (wp_and (writeNextPiece_wrote hq hp hhash hok) hmoves) (fun _ w' h1 => ?_)
      fun _ _ h1 => h1.1
    obtain ⟨hwrote, hchanges⟩ := h1
    have hsteady := h.steady.changes hd.separate hd.pieceLength_ne hchanges
    refine ⟨⟨hsteady, ?_, ?_, fun i q hget => ?_, fun id hid' q hget => ?_, fun x hx => ?_⟩,
      .of_wrote (hwrote.peers.imp_right And.right)⟩
    · rw [hwrote.own]
      exact h.sized
    · rcases hwrote.peers with hsame | ⟨-, hmap⟩
      · rw [hsame, h.count]
      · rw [hmap, List.length_map, h.count]
    · rcases hwrote.peers with hsame | ⟨hdone, hmap⟩
      · rw [hsame] at hget
        have hold := h.peer i q hget
        exact ⟨hold.remote, hold.pending, hold.awake, hold.interested⟩
      · have hcount : w.clientPieces.count = t.pieces.length := by
          simp only [Torrent.done, Bool.and_eq_true, beq_iff_eq] at hdone
          rw [← hwrote.own]
          exact hdone.1.1
        rw [hmap, List.getElem?_map] at hget
        obtain ⟨q', hq', rfl⟩ := Option.map_eq_some_iff.1 hget
        have hold := h.peer i q' hq'
        rcases told_peer q' with heq | ⟨-, heq⟩
        · rw [heq]
          exact ⟨hold.remote, hold.pending, hold.awake, hold.interested⟩
        · rw [heq]
          exact ⟨hold.remote, hold.pending, hold.awake, .inr (h.free_of_count hd hcount)⟩
    · have hfor : pieceFor t w' id = pieceFor t { w with
          heap := w.heap.set ref (p.setPieceWritten true) } id := by
        rw [pieceFor, pieceFor, hwrote.active, hwrote.heap]
      rw [hfor, pieceFor_set h.steady.wellFormed hl hp] at hget
      split_ifs at hget with he
      · obtain rfl := Option.some.inj hget
        subst he
        exact htracks.wrote hall
      · exact (h.piece id hid' q hget).close fun hk => he (UInt32.toNat.inj hk)
    · rw [hwrote.marks] at hx
      rcases List.mem_append.1 hx with hx | hx
      · exact h.marks x hx
      · rw [List.mem_singleton.1 hx]
        exact hdata

end Tracks

end

end Zit
