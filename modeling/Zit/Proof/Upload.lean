import Zit.Exchange
import Zit.Proof.Calls
import Zit.Proof.Download
import Zit.Proof.Stream

/-!
# A torrent that serves its content

A torrent with every piece and the content on its disk (`Serving`) has one peer, which is interested,
asks for blocks and at the end is not interested any more (`Follows`). However these messages come
in, it unchokes the peer and sends each block it is asked for, in that order (`Serving.heard`).
-/

set_option autoImplicit false

namespace Zit

open Lib World

/-! ## Torrents of one content -/

/-- The torrents have the same pieces. -/
structure SamePieces (t s : Torrent) : Prop where
  pieceLength : s.pieceLength = t.pieceLength
  pieces : s.pieces = t.pieces
  length : s.length = t.length

namespace SamePieces
variable {sha1 : Bytes → Sha1} {t s : Torrent} {content : Bytes}

theorem of_content (ht : ContentOf sha1 t content) (hs : ContentOf sha1 s content)
    (hlen : s.pieceLength = t.pieceLength) : SamePieces t s where
  pieceLength := hlen
  pieces := by rw [hs.hashes, ht.hashes, hlen]
  length := by rw [hs.consistent.length_ok, ht.consistent.length_ok]

theorem sizeAt (h : SamePieces t s) (id : UInt32) : sizeAt s id = sizeAt t id := by
  rw [Zit.sizeAt, Zit.sizeAt, Torrent.pieceLengthAt, Torrent.pieceLengthAt, h.pieceLength, h.pieces,
    h.length]

theorem blocksOf (h : SamePieces t s) : blocksOf s = blocksOf t := by
  simp only [Zit.blocksOf, h.pieces, h.sizeAt]

theorem blockRequest (h : SamePieces t s) (b : Block) : blockRequest s b = blockRequest t b := by
  rw [Zit.blockRequest, Zit.blockRequest, h.sizeAt]

theorem answer (h : SamePieces t s) (r : BlockRequest) :
    Seeder.answer s content r = Seeder.answer t content r := by
  rw [Seeder.answer, Seeder.answer, h.pieceLength]

end SamePieces

/-! ## Blocks on disk -/

/-- Every piece has been written, and the content is on disk. -/
structure Serving (t : Torrent) (content : Bytes) (w : World) : Prop where
  piece : ∀ id : UInt32, id.toNat < t.pieces.length → ∃ ref p, Written w id ref p ∧ p.id = id ∧
    p.pieceSize = sizeAt t id ∧ ∀ j < p.blockCount.toNat, p.blocksDone.bit j = true
  disk : ∀ pos < content.length, t.readByte w.disk pos = content[pos]?

/-- A torrent whose content can be read block by block. -/
structure Uploadable (sha1 : Bytes → Sha1) (t : Torrent) (content : Bytes) : Prop
    extends ContentOf sha1 t content where
  small : t.pieceLength.toNat ≤ 2 ^ 32 - 2 ^ 14
  short : content.length ≤ 2 ^ 32
  lengths : t.Lengths

section
variable {sha1 : Bytes → Sha1} {t : Torrent} {content : Bytes} {w w' : World} {p : Piece} {b : Block}

/-- The bytes at consecutive positions. -/
theorem readBlock_content (hl : t.Lengths) {d : Disk} (hmax : content.length ≤ 2 ^ 32)
    (hdisk : ∀ pos < content.length, t.readByte d pos = content[pos]?) {offset length : UInt32}
    (hin : offset.toNat + length.toNat ≤ content.length) :
    FileWriter.readBlock t offset length d =
      .ok ((content.drop offset.toNat).take length.toNat) d := by
  have hfound (j : Nat) (hj : offset.toNat + j < content.length) :
      t.readByte d (offset.toNat + j) = some content[offset.toNat + j] := by
    rw [hdisk _ hj, List.getElem?_eq_getElem hj]
  have hpos (i : Nat) (hi : i < length.toNat) :
      t.readPos offset.toNat i = offset.toNat + i := by
    refine Torrent.readPos_below (d := d) (fun j hj => ?_) (by omega)
    rw [hfound j (by omega)]
    exact Option.some_ne_none _
  obtain ⟨bytes, hlen, hbytes, hrun⟩ | ⟨i, ⟨hi, -, hnone⟩, -⟩ :=
    @readLoop_cases t d hl _ _ offset (Nat.lt_succ_self length.toNat) length.toNat_lt []
  · rw [FileWriter.readBlock, hrun, List.nil_append]
    congr 1
    refine List.ext_getElem? fun i => ?_
    by_cases hi : i < length.toNat
    · rw [hbytes i hi, hpos i hi, hdisk _ (by omega), List.getElem?_take_of_lt hi,
        List.getElem?_drop]
    · rw [List.getElem?_eq_none (by omega), List.getElem?_eq_none]
      rw [List.length_take]
      omega
  · rw [hpos i hi, hfound i (by omega)] at hnone
    cases hnone

namespace Serving

/-- The block of a request is the answer to it. -/
theorem getBlock (h : Serving t content w) (hd : Uploadable sha1 t content) (hb : b ∈ blocksOf t)
    (hw : p.pieceWritten = true) (hid : p.id = b.1) (hsize : p.pieceSize = sizeAt t b.1)
    (hall : ∀ j < p.blockCount.toNat, p.blocksDone.bit j = true) :
    p.getBlock (Piece.blockOffset b.2) t (blockRequest t b).length w.disk =
      .ok (Seeder.answer t content (blockRequest t b)) w.disk := by
  obtain ⟨-, hj⟩ := (mem_blocksOf hd.count).1 hb
  rw [← hsize] at hj
  obtain ⟨hoff, hlt⟩ := Piece.blockOffset_toNat hj
  obtain ⟨halign, hindex⟩ := Piece.blockOffset_index hj
  have hask := request_length hd.toContentOf hd.small hb
  have hlen := (answer_get hd.toContentOf hd.small hb).1
  rw [← hsize] at hask hlen
  -- the request is for something, so `get_block` goes for as much
  have hpos : 0 < (blockRequest t b).length.toNat := by
    rw [hask, Piece.blockLength, Piece.blockSize_toNat]
    omega
  have hasked : Piece.askedLength (blockRequest t b).length = (blockRequest t b).length := by
    rw [Piece.askedLength, if_pos]
    intro h0
    rw [h0] at hpos
    exact Nat.lt_irrefl 0 hpos
  have hstart : (blockRequest t b).index.toNat * t.pieceLength.toNat +
      (blockRequest t b).begin.toNat = t.pieceLength.toNat * b.1.toNat +
        (Piece.blockOffset b.2).toNat := by
    rw [blockRequest, Nat.mul_comm]
  unfold Seeder.answer at hlen ⊢
  rw [hstart] at hlen ⊢
  rw [← hask, List.length_take, List.length_drop] at hlen
  have hshort := hd.short
  have hcpos : (p.fileOffset t (Piece.blockOffset b.2)).toNat =
      t.pieceLength.toNat * b.1.toNat + (Piece.blockOffset b.2).toNat := by
    rw [Piece.fileOffset, hid, UInt32.toNat_add, UInt32.toNat_mul]
    omega
  rw [Piece.getBlock_done halign (UInt32.lt_iff_toNat_lt.2 (hoff ▸ hlt)) (by rw [hindex]; exact hall _ hj),
    if_pos hw, hasked, readBlock_content hd.lengths hshort h.disk (by omega), hcpos]

end Serving

end

/-! ## The messages of a download -/

/-- The request for a block, and the answer to it. -/
def askMsg (t : Torrent) (b : Block) : Msg :=
  .request b.1 (Piece.blockOffset b.2) (blockRequest t b).length

def blockMsg (t : Torrent) (content : Bytes) (b : Block) : Msg :=
  .piece b.1 (Piece.blockOffset b.2) (Seeder.answer t content (blockRequest t b))

/-- Where the one that downloads stands with a seeder: it has not said that it is interested, it is,
or it is not any more. -/
inductive Standing
  | silent
  | interested
  | parted

/-- After a message. -/
def Standing.hear (s : Standing) : Msg → Standing
  | .interested _ => .interested
  | .notInterested _ => .parted
  | _ => s

/-- How much may still be written besides requests. -/
def Standing.spare : Standing → Nat
  | .silent => 10
  | .interested => 5
  | .parted => 0

/-- From one standing to another with these messages, which ask for these blocks. -/
inductive Follows (t : Torrent) : Standing → List Msg → List Block → Standing → Prop
  | nil (s : Standing) : Follows t s [] [] s
  | interested {ms : List Msg} {bs : List Block} {s : Standing}
      (h : Follows t .interested ms bs s) : Follows t .silent (.interested [] :: ms) bs s
  | ask {ms : List Msg} {bs : List Block} {s : Standing} {b : Block} (hb : b ∈ blocksOf t)
      (h : Follows t .interested ms bs s) : Follows t .interested (askMsg t b :: ms) (b :: bs) s
  | part {ms : List Msg} {bs : List Block} {s : Standing} (h : Follows t .parted ms bs s) :
      Follows t .interested (.notInterested [] :: ms) bs s

/-- What a seeder writes when it has read a message. -/
def reply (t : Torrent) (content : Bytes) : Msg → List Msg
  | .interested _ => [.unchoke []]
  | .request index begin length =>
    [.piece index begin (Seeder.answer t content ⟨index, begin, length⟩)]
  | _ => []

theorem reply_ask (t : Torrent) (content : Bytes) (b : Block) :
    reply t content (askMsg t b) = [blockMsg t content b] := by
  simp only [askMsg, reply, blockMsg, blockRequest]

theorem SamePieces.reply {t s : Torrent} (h : SamePieces t s) (content : Bytes) :
    reply s content = Zit.reply t content := by
  funext m
  cases m with
  | request index begin length => simp only [Zit.reply, h.answer]
  | _ => rfl

/-- The peer of a seeder stands so. -/
structure Stands (s : Standing) (q : Peer) : Prop where
  interested : q.interested = true ↔ s = .interested
  choking : q.amChoking = true ↔ s = .silent

section
variable {sha1 : Bytes → Sha1} {t : Torrent} {content : Bytes} {b : Block}
  (hd : Uploadable sha1 t content) (hb : b ∈ blocksOf t)
include hd hb

theorem answer_length_le : (Seeder.answer t content (blockRequest t b)).length ≤ 16384 := by
  rw [(answer_get hd.toContentOf hd.small hb).1, Piece.blockLength, Piece.blockSize_toNat]
  exact Nat.min_le_left _ _

theorem blockMsg_plain (hno : search btStart content = none) : (blockMsg t content b).Plain := by
  obtain ⟨-, hj⟩ := (mem_blocksOf hd.count).1 hb
  refine Msg.plain_piece (Piece.blockOffset_index hj).1 (answer_length_le hd hb) ?_
  exact search_take_none (search_drop_none hno _) _

theorem blockMsg_length_le : (blockMsg t content b).encode.length ≤ 16397 := by
  have := answer_length_le hd hb
  rw [Msg.encode_length, blockMsg, Msg.body]
  simp only [List.length_cons, List.length_append, toBigEndian_length]
  omega

end

namespace Follows
variable {t : Torrent} {content : Bytes} {s s1 s2 : Standing} {ms ms1 ms2 : List Msg}
  {bs bs1 bs2 : List Block}

theorem append (h1 : Follows t s ms1 bs1 s1) (h2 : Follows t s1 ms2 bs2 s2) :
    Follows t s (ms1 ++ ms2) (bs1 ++ bs2) s2 := by
  induction h1 with
  | nil _ => exact h2
  | interested _ ih => exact .interested (ih h2)
  | ask hb _ ih => exact .ask hb (ih h2)
  | part _ ih => exact .part (ih h2)

/-- Every part of the messages follows. -/
theorem split (h : Follows t s (ms1 ++ ms2) bs s2) :
    ∃ bs1 bs2 s1, bs = bs1 ++ bs2 ∧ Follows t s ms1 bs1 s1 ∧ Follows t s1 ms2 bs2 s2 := by
  induction ms1 generalizing s bs with
  | nil => exact ⟨[], bs, s, rfl, .nil s, h⟩
  | cons m ms1 ih =>
    cases h with
    | interested h =>
      obtain ⟨bs1, bs2, s1, rfl, h1, h2⟩ := ih h
      exact ⟨bs1, bs2, s1, rfl, .interested h1, h2⟩
    | @ask _ _ _ b hb h =>
      obtain ⟨bs1, bs2, s1, rfl, h1, h2⟩ := ih h
      exact ⟨b :: bs1, bs2, s1, rfl, .ask hb h1, h2⟩
    | part h =>
      obtain ⟨bs1, bs2, s1, rfl, h1, h2⟩ := ih h
      exact ⟨bs1, bs2, s1, rfl, .part h1, h2⟩

theorem standing (h : Follows t s ms bs s2) : s2 = ms.foldl Standing.hear s := by
  induction h with
  | nil _ => rfl
  | interested _ ih => exact ih
  | ask _ _ ih => exact ih
  | part _ ih => exact ih

/-- Another torrent with the same pieces has the same requests. -/
theorem same {t' : Torrent} (hsame : SamePieces t t') (h : Follows t s ms bs s2) :
    Follows t' s ms bs s2 := by
  induction h with
  | nil s => exact .nil s
  | interested _ ih => exact .interested ih
  | @ask _ _ _ b hb _ ih =>
    rw [askMsg, ← hsame.blockRequest]
    exact .ask (hsame.blocksOf ▸ hb) ih
  | part _ ih => exact .part ih

theorem requests (h : ∀ b ∈ bs, b ∈ blocksOf t) :
    Follows t .interested (bs.map (askMsg t)) bs .interested := by
  induction bs with
  | nil => exact .nil _
  | cons b bs ih =>
    exact .ask (h b List.mem_cons_self) (ih fun c hc => h c (List.mem_cons_of_mem _ hc))

theorem mem (h : Follows t s ms bs s2) : ∀ b ∈ bs, b ∈ blocksOf t := by
  induction h with
  | nil _ => exact fun _ hb => absurd hb List.not_mem_nil
  | interested _ ih => exact ih
  | ask hb _ ih => exact List.forall_mem_cons.2 ⟨hb, ih⟩
  | part _ ih => exact ih

/-- From then on a seeder sends the blocks in the order in which they are asked for. -/
theorem blocks (content : Bytes) (h : Follows t s ms bs s2) (hs : s ≠ .silent) :
    s2 ≠ .silent ∧ ms.flatMap (reply t content) = bs.map (blockMsg t content) := by
  induction h with
  | nil _ => exact ⟨hs, rfl⟩
  | interested _ _ => exact absurd rfl hs
  | ask _ _ ih =>
    obtain ⟨hs2, heq⟩ := ih (by simp)
    exact ⟨hs2, by rw [List.flatMap_cons, reply_ask, heq, List.map_cons, List.singleton_append]⟩
  | part _ ih =>
    obtain ⟨hs2, heq⟩ := ih (by simp)
    refine ⟨hs2, ?_⟩
    rw [List.flatMap_cons, heq]
    rfl

/-- A seeder unchokes, and sends the blocks. -/
theorem replies (content : Bytes) (h : Follows t .silent ms bs s2) :
    (ms = [] ∧ bs = [] ∧ s2 = .silent) ∨ s2 ≠ .silent ∧
      ms.flatMap (reply t content) = .unchoke [] :: bs.map (blockMsg t content) := by
  cases h with
  | nil _ => exact .inl ⟨rfl, rfl, rfl⟩
  | interested h =>
    obtain ⟨hs2, heq⟩ := h.blocks content (by simp)
    exact .inr ⟨hs2, by rw [List.flatMap_cons, heq, reply, List.singleton_append]⟩

theorem plain (h : Follows t s ms bs s2) : ∀ m ∈ ms, m.Plain := by
  induction h with
  | nil _ => exact fun _ hm => absurd hm List.not_mem_nil
  | interested _ ih => exact List.forall_mem_cons.2 ⟨Msg.plain_of_short rfl (by decide), ih⟩
  | ask _ _ ih => exact List.forall_mem_cons.2 ⟨Msg.plain_of_short rfl (by simp [askMsg, Msg.body]), ih⟩
  | part _ ih => exact List.forall_mem_cons.2 ⟨Msg.plain_of_short rfl (by decide), ih⟩

/-- A request has 17 bytes. -/
theorem encode_length_le (h : Follows t s ms bs s2) :
    (Msg.encodeAll ms).length ≤ s.spare + 17 * bs.length := by
  induction h with
  | nil _ => exact Nat.zero_le _
  | interested _ ih =>
    rw [Msg.encodeAll_cons, List.length_append, show (Msg.interested []).encode.length = 5 from rfl]
    simp only [Standing.spare] at ih ⊢
    omega
  | @ask _ _ _ b _ _ ih =>
    rw [Msg.encodeAll_cons, List.length_append, show (askMsg t b).encode.length = 17 from rfl,
      List.length_cons]
    omega
  | part _ ih =>
    rw [Msg.encodeAll_cons, List.length_append,
      show (Msg.notInterested []).encode.length = 5 from rfl]
    simp only [Standing.spare] at ih ⊢
    omega

variable {sha1 : Bytes → Sha1} (hd : Uploadable sha1 t content)
include hd

/-- The replies have no protocol string in them when the content has none. -/
theorem replies_plain (h : Follows t .silent ms bs s2) (hno : search btStart content = none) :
    ∀ m ∈ ms.flatMap (reply t content), m.Plain := by
  obtain ⟨rfl, -⟩ | ⟨-, heq⟩ := h.replies content
  · exact fun _ hm => absurd hm List.not_mem_nil
  · rw [heq]
    refine List.forall_mem_cons.2 ⟨Msg.plain_of_short rfl (by decide), fun m hm => ?_⟩
    obtain ⟨b, hb, rfl⟩ := List.mem_map.1 hm
    exact blockMsg_plain hd (h.mem b hb) hno

theorem replies_length_le (h : Follows t .silent ms bs s2) :
    (Msg.encodeAll (ms.flatMap (reply t content))).length ≤ 5 + 16397 * bs.length := by
  have hblocks (l : List Block) (hl : ∀ b ∈ l, b ∈ blocksOf t) :
      (Msg.encodeAll (l.map (blockMsg t content))).length ≤ 16397 * l.length := by
    induction l with
    | nil => exact Nat.zero_le _
    | cons b l ih =>
      have hone := blockMsg_length_le hd (hl b List.mem_cons_self)
      have hrest := ih fun c hc => hl c (List.mem_cons_of_mem _ hc)
      rw [List.map_cons, Msg.encodeAll_cons, List.length_append, List.length_cons]
      omega
  obtain ⟨rfl, -⟩ | ⟨-, heq⟩ := h.replies content
  · exact Nat.zero_le _
  · rw [heq, Msg.encodeAll_cons, List.length_append,
      show (Msg.unchoke []).encode.length = 5 from rfl]
    exact Nat.add_le_add_left (hblocks bs h.mem) 5

end Follows

/-! ## What a seeder does -/

section
variable {sha1 : Bytes → Sha1} {t : Torrent} {content : Bytes} {w w' : World} {q : Peer}
  {s s' : Standing} {ms : List Msg} {bs : List Block} {peerId : Bytes} {now : Int} {b : Block}

theorem modifyPeer_only (hpeers : w.peers = [q]) (f : Peer → Peer) :
    Peer.modifyPeer 0 f w = .ok ⟨⟩ { w with peers := [f q] } := by
  rw [Peer.modifyPeer, modify_run, hpeers]
  rfl

theorem handle_one {i : Nat} {m : Msg} {c : PeerCall} (hm : m.calls = [c])
    (hcall : Peer.call t peerId i now c w = .ok ⟨⟩ w') :
    Peer.handle t peerId i now m w = .ok ⟨⟩ w' := by
  rw [Peer.handle, hm, List.forM_cons, run_bind hcall]
  rfl

theorem pieceMsg_encode {index begin : UInt32} {data : Bytes} (h : 9 + data.length < 2 ^ 32) :
    pieceMsg index begin data = .ok (Msg.piece index begin data).encode := by
  have hok : pieceMsg index begin data = .ok (toBigEndian (UInt32.ofNat (9 + data.length)) ++
      [PeerWireId.piece.toByte] ++ toBigEndian index ++ toBigEndian begin ++ data) := by
    rw [pieceMsg, castSizeU32_of h]
    rfl
  have heq := (Sent.bytes_eq (s := .piece index begin data) hok).1
  rw [Sent.msgs, Msg.encodeAll_cons, Msg.encodeAll_nil, List.append_nil] at heq
  rw [hok, heq]

namespace Serving

/-- A request is answered. -/
theorem request (h : Serving t content w) (hd : Uploadable sha1 t content) (hpeers : w.peers = [q])
    (hs : Stands .interested q) (hb : b ∈ blocksOf t) :
    Peer.handle t peerId 0 now (askMsg t b) w =
      .ok ⟨⟩ { w with peers := [q.write (blockMsg t content b).encode] } := by
  obtain ⟨hid, hj⟩ := (mem_blocksOf hd.count).1 hb
  obtain ⟨ref, p, ⟨hl, hp, hw⟩, hpid, hsize, hall⟩ := h.piece b.1 hid
  have hget := h.getBlock hd hb hw hpid hsize hall
  have hlen := (answer_get hd.toContentOf hd.small hb).1
  have hoff := Piece.blockOffset_toNat hj
  rw [Piece.blockLength, Piece.blockSize_toNat] at hlen
  have hne : Seeder.answer t content (blockRequest t b) ≠ [] :=
    List.ne_nil_of_length_pos (by omega)
  have hmsg : pieceMsg b.1 (Piece.blockOffset b.2) (Seeder.answer t content (blockRequest t b)) =
      .ok (blockMsg t content b).encode := pieceMsg_encode (by omega)
  have hactive : t.activePiece b.1 true w = .ok (some ref) w := by
    rw [Torrent.activePiece, run_bind (get_run w)]
    simp only [hl]
    rfl
  have hrun : wp (Peer.request t 0 b.1 (Piece.blockOffset b.2) (blockRequest t b).length) w
      (fun _ w' => w' = { w with peers := [q.write (blockMsg t content b).encode] })
      fun _ _ => False := by
    simp only [Peer.request, wp_bind]
    refine (wp_getPeer (by rw [hpeers]; rfl)).2 ?_
    rw [if_neg (by simp [hs.choking]), if_neg (by simp [hs.interested]), wp_bind]
    refine wp_intro hactive ?_
    simp only [wp_bind, wp_deref hp, wp_onDisk]
    refine wp_intro hget ?_
    rw [if_pos hne, hmsg, wp_bind]
    exact wp_intro rfl (wp_intro (modifyPeer_only hpeers _) rfl)
  obtain ⟨_, w', hok, rfl⟩ := ok_of_wp hrun
  exact handle_one (m := askMsg t b) rfl hok

/-- A seeder reads a message, and writes the reply. -/
theorem hears (h : Serving t content w) (hd : Uploadable sha1 t content) {m : Msg}
    (hf : Follows t s [m] bs s') (hpeers : w.peers = [q]) (hs : Stands s q) (peerId : Bytes)
    (now : Int) :
    ∃ q', Peer.handle t peerId 0 now m w = .ok ⟨⟩ { w with peers := [q'] } ∧ Stands s' q' ∧
      q'.sent.flatten = q.sent.flatten ++ Msg.encodeAll (reply t content m) := by
  cases hf with
  | interested hf =>
    cases hf
    refine ⟨_, handle_one (m := .interested []) rfl (modifyPeer_only hpeers _), ?_⟩
    have hint : q.interested = false := by
      rw [Bool.eq_false_iff, ne_eq, hs.interested]
      exact Standing.noConfusion
    simp only [hint, hs.choking.2 rfl, Peer.setAmChoking, Peer.write, Bool.not_false, Bool.not_true,
      Bool.and_self, Bool.false_eq_true, if_true, if_false]
    refine ⟨⟨iff_of_true rfl rfl, iff_of_false Bool.false_ne_true Standing.noConfusion⟩, ?_⟩
    rw [Sent.idMsg_eq (m := .unchoke []) rfl]
    simp [reply, Msg.encodeAll_cons]
  | @ask _ _ _ b hb hf =>
    cases hf
    refine ⟨_, h.request hd hpeers hs hb, ⟨hs.interested, hs.choking⟩, ?_⟩
    simp [reply_ask, Peer.write, Msg.encodeAll_cons]
  | part hf =>
    cases hf
    refine ⟨_, handle_one (m := .notInterested []) rfl (modifyPeer_only hpeers _), ?_⟩
    simp only [Bool.and_false, Bool.false_eq_true, if_false]
    refine ⟨⟨iff_of_false Bool.false_ne_true Standing.noConfusion, ?_⟩, ?_⟩
    · exact hs.choking.trans (iff_of_false Standing.noConfusion Standing.noConfusion)
    · rw [reply, Msg.encodeAll_nil, List.append_nil] <;> simp

/-- A seeder reads messages, and writes the replies. -/
theorem heard (h : Serving t content w) (hd : Uploadable sha1 t content)
    (hf : Follows t s ms bs s') (hpeers : w.peers = [q]) (hs : Stands s q) (peerId : Bytes)
    (now : Int) :
    ∃ q', forM ms (Peer.handle t peerId 0 now) w = .ok ⟨⟩ { w with peers := [q'] } ∧
      Stands s' q' ∧ q'.sent.flatten =
        q.sent.flatten ++ Msg.encodeAll (ms.flatMap (reply t content)) := by
  induction ms generalizing s bs w q with
  | nil =>
    cases hf
    refine ⟨q, ?_, hs, by rw [List.flatMap_nil, Msg.encodeAll_nil, List.append_nil]⟩
    rw [← hpeers]
    rfl
  | cons m ms ih =>
    change Follows t s ([m] ++ ms) bs s' at hf
    obtain ⟨bs1, bs2, s1, -, h1, h2⟩ := hf.split
    obtain ⟨q1, hone, hs1, hsent1⟩ := h.hears hd h1 hpeers hs peerId now
    obtain ⟨q', hrun, hs', hsent⟩ := ih (w := { w with peers := [q1] }) ⟨h.piece, h.disk⟩ h2 rfl hs1
    refine ⟨q', ?_, hs', ?_⟩
    · rw [List.forM_cons, run_bind hone]
      exact hrun
    · rw [hsent, hsent1, List.append_assoc, ← Msg.encodeAll_append, List.flatMap_cons]

/-- A torrent that was constructed with all its content, when the one that downloads has connected and
both have shown their pieces. -/
theorem greeted {own : Bitfield} (hc : Constructed sha1 t w) (hd : ContentOf sha1 t content)
    (hown : ∀ k < t.pieces.length, w.clientPieces.bit k = true)
    (hdisk : ∀ pos < content.length, t.readByte w.disk pos = content[pos]?)
    (hr : Run (Returns sha1 t) w (Zit.greeted own) w') :
    Serving t content w' ∧ ∃ q, w'.peers = [q] ∧ Stands .silent q := by
  have hfresh := Fresh.constructed hc
  have hsteady := Steady.constructed hc
  have hpeers := hfresh.peers
  have hlen : w.peers.length = 0 := by rw [hpeers, List.length_nil]
  obtain _ | ⟨h1, _ | ⟨h2, _ | ⟨h3, _ | _⟩⟩⟩ := hr
  rename_i w1 w2
  have hw1 : w1 = withLast w { listening := true } := by
    cases h1
    rfl
  rw [hw1, ← hlen] at h2
  obtain ⟨told, rfl, -⟩ := reportBitfield_last h2
  rw [← hlen] at h3
  rw [setRemotePieces_last h3]
  refine ⟨⟨fun id hid => ?_, hdisk⟩, _, by rw [hpeers]; rfl, ?_⟩
  · obtain ⟨p, hp, hpid, hsize, hformed⟩ := hsteady.pieceFor_some hd hid
    have hbit := hown id.toNat hid
    have hall := hformed.complete_iff_all.1 (hsteady.own_complete hbit hp)
    obtain ⟨k, ref, q, hk, hl, hq, -⟩ := hsteady.tracked.kept _ hbit
    obtain rfl := UInt32.toNat.inj hk
    rw [pieceFor_active hl, hq] at hp
    obtain rfl := Option.some.inj hp
    exact ⟨ref, q, ⟨hl, hq, hfresh.written ref q hq⟩, hpid, hsize, hall⟩
  · exact ⟨iff_of_false Bool.false_ne_true Standing.noConfusion, iff_of_true rfl rfl⟩

end Serving

end

end Zit
