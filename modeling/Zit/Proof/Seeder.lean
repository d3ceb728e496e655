import Zit.Download
import Zit.Lib.Chunks
import Zit.Proof.Accounting
import Zit.Proof.Answers
import Zit.Proof.Frame
import Zit.Proof.Requests

/-!
# Seeders of a content

The blocks of a torrent and the request for each (`blockRequest`): it is what a seeder reads when
the request has been written (`hears_batch`), and the answer to it is the block (`answer_get`), with
the length that is asked for.
-/

set_option autoImplicit false

namespace Zit

open Lib

namespace Piece

/-- The offset of a block gives its index back. -/
theorem blockOffset_index {size : UInt32} {j : Nat} (hj : j < (blockCountOf size).toNat) :
    blockOffset j % blockSize = 0 ∧ (blockOffset j / blockSize).toNat = j := by
  obtain ⟨hoff, -⟩ := blockOffset_toNat hj
  constructor
  · refine UInt32.toNat.inj ?_
    rw [UInt32.toNat_mod, hoff, blockSize_toNat, Nat.mul_mod_left]
    rfl
  · rw [UInt32.toNat_div, hoff, blockSize_toNat, Nat.mul_div_cancel _ (by decide)]

/-- A block of the right length is accepted. -/
theorem Formed.accepts_block {p : Piece} (h : p.Formed) {j : Nat} (hj : j < p.blockCount.toNat)
    {data : Bytes} (hlen : data.length = blockLength p.pieceSize (blockOffset j)) :
    p.Accepts (blockOffset j) data := by
  obtain ⟨hoff, hlt⟩ := blockOffset_toNat hj
  obtain ⟨halign, hindex⟩ := blockOffset_index hj
  rw [blockLength] at hlen
  refine ⟨halign, by omega, by omega, ?_⟩
  rw [hindex, h.done]
  exact Nat.lt_of_lt_of_le hj (Bitfield.le_size_ofCount _)

end Piece

/-- The torrent is one of this content. -/
structure ContentOf (sha1 : Bytes → Sha1) (t : Torrent) (content : Bytes) : Prop where
  consistent : Consistent t content.length
  hashes : t.pieces = (chunks t.pieceLength.toNat content).map sha1
  count : t.pieces.length ≤ 2 ^ 32

/-- `piece_length` of a piece. -/
def sizeAt (t : Torrent) (id : UInt32) : UInt32 := (t.pieceLengthAt id).toOption.getD 0

/-- The content of a piece. -/
def pieceData (t : Torrent) (content : Bytes) (id : UInt32) : Bytes :=
  (content.drop (id.toNat * t.pieceLength.toNat)).take t.pieceLength.toNat

/-- All blocks of all pieces. -/
def blocksOf (t : Torrent) : Finset Block :=
  (Finset.range t.pieces.length).biUnion fun k =>
    (Finset.range (Piece.blockCountOf (sizeAt t (UInt32.ofNat k))).toNat).image (UInt32.ofNat k, ·)

/-- The request for a block. -/
def blockRequest (t : Torrent) (b : Block) : BlockRequest :=
  ⟨b.1, Piece.blockOffset b.2,
    Peer.requestLength (.create b.1 (sizeAt t b.1)) (Piece.blockOffset b.2)⟩

section
variable {sha1 : Bytes → Sha1} {t : Torrent} {content : Bytes} {id : UInt32} {b : Block}

/-! ## The pieces of a content -/

namespace ContentOf
variable (h : ContentOf sha1 t content)
include h

theorem size_ok (hid : id.toNat < t.pieces.length) : t.pieceLengthAt id = .ok (sizeAt t id) ∧
    0 < (sizeAt t id).toNat ∧ (sizeAt t id).toNat ≤ t.pieceLength.toNat := by
  obtain ⟨size, hsize, hpos, hle, -⟩ := h.consistent.pieceLengthAt h.count hid
  rw [UInt32.ofNat_toNat] at hsize
  have heq : sizeAt t id = size := by
    rw [sizeAt, hsize]
    rfl
  rw [heq]
  exact ⟨hsize, hpos, hle⟩

theorem pieceData_length (hid : id.toNat < t.pieces.length) :
    (pieceData t content id).length = (sizeAt t id).toNat := by
  obtain ⟨size, hsize, hpos, hle, hfull, hlast⟩ := h.consistent.pieceLengthAt h.count hid
  obtain ⟨full, rest, hcount, hlength, -, -⟩ := h.consistent.split
  rw [UInt32.ofNat_toNat] at hsize
  have heq : sizeAt t id = size := by
    rw [sizeAt, hsize]
    rfl
  rw [pieceData, List.length_take, List.length_drop, heq]
  by_cases hi : id.toNat + 1 = t.pieces.length
  · have := hlast hi
    omega
  · have hmul : (id.toNat + 1) * t.pieceLength.toNat ≤ full * t.pieceLength.toNat :=
      Nat.mul_le_mul_right _ (by omega)
    rw [Nat.succ_mul] at hmul
    rw [hfull (by omega)]
    omega

theorem hash (hid : id.toNat < t.pieces.length) :
    t.pieces[id.toNat]? = some (sha1 (pieceData t content id)) := by
  have hlt : id.toNat < (chunks t.pieceLength.toNat content).length := by
    have := hid
    rwa [h.hashes, List.length_map] at this
  rw [h.hashes, List.getElem?_map, chunks_getElem? hlt]
  rfl

end ContentOf

theorem mem_blocksOf (hcount : t.pieces.length ≤ 2 ^ 32) : b ∈ blocksOf t ↔
    b.1.toNat < t.pieces.length ∧ b.2 < (Piece.blockCountOf (sizeAt t b.1)).toNat := by
  obtain ⟨id, j⟩ := b
  simp only [blocksOf, Finset.mem_biUnion, Finset.mem_range, Finset.mem_image, Prod.mk.injEq]
  constructor
  · rintro ⟨k, hk, l, hl, rfl, rfl⟩
    exact ⟨by rwa [UInt32.toNat_ofNat_of_lt' (show k < 2 ^ 32 by omega)], hl⟩
  · rintro ⟨hid, hj⟩
    exact ⟨id.toNat, hid, j, by rwa [UInt32.ofNat_toNat], UInt32.ofNat_toNat, rfl⟩

theorem blockRequest_inj (hcount : t.pieces.length ≤ 2 ^ 32) {c : Block} (hb : b ∈ blocksOf t)
    (hc : c ∈ blocksOf t) (h : blockRequest t b = blockRequest t c) : b = c := by
  obtain ⟨hid, hoff, -⟩ := BlockRequest.mk.inj h
  have hb' := ((mem_blocksOf hcount).1 hb).2
  have hc' := ((mem_blocksOf hcount).1 hc).2
  rw [← hid] at hc'
  exact Prod.ext hid (Piece.blockOffset_inj hb' hc' hoff)

/-! ## Answers -/

section
variable (h : ContentOf sha1 t content) (hsmall : t.pieceLength.toNat ≤ 2 ^ 32 - 2 ^ 14)
include h hsmall

theorem request_length (hb : b ∈ blocksOf t) : (blockRequest t b).length.toNat =
    Piece.blockLength (sizeAt t b.1) (Piece.blockOffset b.2) := by
  obtain ⟨hid, hj⟩ := (mem_blocksOf h.count).1 hb
  have hle := (h.size_ok hid).2.2
  have hfit : b.2 + 1 < 2 ^ 18 := Piece.block_fits (Nat.le_trans hle hsmall) hj
  obtain ⟨p, hp⟩ : ∃ p, p = Piece.create b.1 (sizeAt t b.1) := ⟨_, rfl⟩
  have hsize : p.pieceSize = sizeAt t b.1 := by rw [hp, Piece.create]
  have hj' : b.2 < p.blockCount.toNat := by rwa [Piece.blockCount, hsize]
  rw [blockRequest, ← hp, (Piece.requestLength_eq_iff hj').2 hfit, hsize]

/-- The answer is the block, in its length. -/
theorem answer_get (hb : b ∈ blocksOf t) :
    (Seeder.answer t content (blockRequest t b)).length =
      Piece.blockLength (sizeAt t b.1) (Piece.blockOffset b.2) ∧
    ∀ i < Piece.blockLength (sizeAt t b.1) (Piece.blockOffset b.2),
      (Seeder.answer t content (blockRequest t b))[i]? =
        (pieceData t content b.1)[b.2 * 16384 + i]? := by
  obtain ⟨hid, hj⟩ := (mem_blocksOf h.count).1 hb
  obtain ⟨hoff, hlt⟩ := Piece.blockOffset_toNat hj
  have hlen := request_length h hsmall hb
  have hdata := h.pieceData_length hid
  rw [pieceData, List.length_take, List.length_drop] at hdata
  have hblock : Piece.blockLength (sizeAt t b.1) (Piece.blockOffset b.2) =
      min 16384 ((sizeAt t b.1).toNat - b.2 * 16384) := by
    rw [Piece.blockLength, hoff, Piece.blockSize_toNat]
  have hstart : (blockRequest t b).index.toNat * t.pieceLength.toNat +
      (blockRequest t b).begin.toNat = b.1.toNat * t.pieceLength.toNat + b.2 * 16384 := by
    rw [blockRequest, hoff]
  unfold Seeder.answer
  rw [hstart, hlen]
  refine ⟨?_, fun i hi => ?_⟩
  · rw [List.length_take, List.length_drop]
    omega
  · have hin : b.2 * 16384 + i < t.pieceLength.toNat := by
      have hle := (h.size_ok hid).2.2
      have hshort := Nat.lt_of_lt_of_le hi (hblock ▸ Nat.min_le_right ..)
      exact Nat.lt_of_lt_of_le (Nat.add_lt_of_lt_sub' hshort) hle
    rw [List.getElem?_take_of_lt hi, List.getElem?_drop, pieceData, List.getElem?_take_of_lt hin,
      List.getElem?_drop, Nat.add_assoc]

end

/-! ## What a seeder reads -/

theorem requestMsg_encode (index begin length : UInt32) :
    requestMsg index begin length = (Msg.request index begin length).encode := by
  rw [Msg.encode, show (Msg.request index begin length).body.length = 13 from rfl]
  simp [requestMsg, Msg.body, PeerWireId.toByte]

theorem readRequests_cons (turns : Nat) (r : BlockRequest) (rest : Bytes) :
    Seeder.readRequests (turns + 1) (requestMsg r.index r.begin r.length ++ rest) =
      r :: Seeder.readRequests turns rest := by
  rw [requestMsg_encode]
  have hsmall : (Msg.request r.index r.begin r.length).body.length ≤
      maxIncomingDataSize.toNat := by
    rw [show (Msg.request r.index r.begin r.length).body.length = 13 from rfl]
    decide
  have hparse := Message.parsePrefixed_complete hsmall rest
  have hdrop := @List.drop_left _ (Msg.request r.index r.begin r.length).encode rest
  rw [Seeder.readRequests, hparse]
  simp only [Msg.supported, if_true, Msg.frame, hdrop]
  rw [if_neg (by simp)]
  rfl

theorem Seeder.hears_nil : Seeder.hears [] = [] := rfl

theorem readRequests_nil (turns : Nat) : Seeder.readRequests turns [] = [] := by
  cases turns <;> rfl

theorem readRequests_batch (rs : List BlockRequest) {turns : Nat} (h : rs.length ≤ turns) :
    Seeder.readRequests turns (rs.flatMap fun r => requestMsg r.index r.begin r.length) = rs := by
  induction rs generalizing turns with
  | nil => exact readRequests_nil turns
  | cons r rs ih =>
    obtain ⟨turns, rfl⟩ : ∃ n, turns = n + 1 := ⟨turns - 1, by
      rw [List.length_cons] at h
      omega⟩
    rw [List.flatMap_cons, readRequests_cons, ih (by simpa using h)]

theorem batch_length (rs : List BlockRequest) :
    (rs.flatMap fun r => requestMsg r.index r.begin r.length).length = 17 * rs.length := by
  induction rs with
  | nil => rfl
  | cons r rs ih =>
    rw [List.flatMap_cons, List.length_append, ih, List.length_cons]
    simp [requestMsg, toBigEndian]
    omega

/-- The requests for these blocks, as `request_next_block` writes them. -/
def batch (t : Torrent) (taken : List Block) : List Bytes :=
  if taken = [] then []
  else [(taken.map (blockRequest t)).flatMap fun r => requestMsg r.index r.begin r.length]

theorem batch_eq {w : World} {taken : List Block}
    (h : ∀ b ∈ taken, ∃ p, pieceFor t w b.1 = some p ∧ p.pieceSize = sizeAt t b.1) :
    (if taken = [] then [] else [taken.flatMap (requestOf t w)]) = batch t taken := by
  have hflat : taken.flatMap (requestOf t w) =
      (taken.map (blockRequest t)).flatMap fun r => requestMsg r.index r.begin r.length := by
    rw [List.flatMap_map]
    refine List.flatMap_congr fun b hb => ?_
    obtain ⟨p, hp, hsize⟩ := h b hb
    have hlen : Peer.requestLength p (Piece.blockOffset b.2) =
        Peer.requestLength (.create b.1 (sizeAt t b.1)) (Piece.blockOffset b.2) := by
      rw [Peer.requestLength, Peer.requestLength, hsize, Piece.create]
    rw [requestOf, hp, Option.elim_some, hlen, blockRequest]
  rw [batch, hflat]

theorem batch_flatten (t : Torrent) (taken : List Block) : (batch t taken).flatten =
    (taken.map (blockRequest t)).flatMap fun r => requestMsg r.index r.begin r.length := by
  rw [batch]
  split_ifs with hnil
  · rw [hnil]
    rfl
  · simp

/-- A batch of requests is read as it was written. -/
theorem hears_batch (t : Torrent) (taken : List Block) :
    Seeder.hears (batch t taken) = taken.map (blockRequest t) := by
  rw [Seeder.hears, batch_flatten]
  refine readRequests_batch _ ?_
  rw [batch_length]
  omega

end

end Zit
