import Zit.Peer
import Zit.Proof.Assembly

/-!
# Requests and their answers

`request_next_block` asks for `Peer.requestLength` bytes at an offset of `next_offset`, and a remote
peer that answers sends as many to `set_block`. The length is that of the block as long as the sum
of the offset and the block size fits in 32 bits (`requestLength_eq_iff`), and then the two sides
agree on every run of requests and answers (`requests_agree_iff`).
-/

set_option autoImplicit false

namespace Zit

open Lib

/-! ## The length of a request -/

namespace Piece

variable {p p' : Piece} {j : Nat}

/-- The end of every block but the last of the type fits in 32 bits. -/
theorem blockEnd_toNat (hj : j < p.blockCount.toNat) :
    (blockOffset j + blockSize).toNat = if j + 1 < 2 ^ 18 then (j + 1) * 16384 else 0 := by
  have hsize := p.pieceSize.toNat_lt
  obtain ⟨hoff, hlt⟩ := @blockOffset_toNat p.pieceSize j hj
  rw [UInt32.toNat_add, hoff, blockSize_toNat]
  split <;> omega

theorem requestLength_toNat (hj : j < p.blockCount.toNat) :
    (Peer.requestLength p (blockOffset j)).toNat =
      if j + 1 < 2 ^ 18 then blockLength p.pieceSize (blockOffset j) else 16384 := by
  obtain ⟨hoff, hlt⟩ := @blockOffset_toNat p.pieceSize j hj
  unfold Peer.requestLength blockLength
  simp only [gt_iff_lt, UInt32.lt_iff_toNat_lt, blockEnd_toNat hj, hoff, blockSize_toNat]
  by_cases hfit : j + 1 < 2 ^ 18
  · rw [if_pos hfit, if_pos hfit]
    split
    · rw [UInt32.toNat_mod, blockSize_toNat]
      omega
    · rw [blockSize_toNat]
      omega
  · rw [if_neg hfit, if_neg hfit, if_neg (by omega), blockSize_toNat]

theorem requestLength_eq_iff (hj : j < p.blockCount.toNat) :
    (Peer.requestLength p (blockOffset j)).toNat = blockLength p.pieceSize (blockOffset j) ↔
      j + 1 < 2 ^ 18 := by
  have hsize := p.pieceSize.toNat_lt
  obtain ⟨hoff, hlt⟩ := @blockOffset_toNat p.pieceSize j hj
  rw [requestLength_toNat hj]
  by_cases hfit : j + 1 < 2 ^ 18
  · rw [if_pos hfit]
    exact iff_of_true rfl hfit
  · rw [if_neg hfit, blockLength, hoff, blockSize_toNat]
    omega

theorem blockLength_pos (hj : j < p.blockCount.toNat) :
    0 < blockLength p.pieceSize (blockOffset j) := by
  obtain ⟨hoff, hlt⟩ := @blockOffset_toNat p.pieceSize j hj
  rw [blockLength, hoff, blockSize_toNat]
  omega

/-- In a piece that leaves the last block of the type free, every block end fits. -/
theorem block_fits {size : UInt32} (h : size.toNat ≤ 2 ^ 32 - 2 ^ 14)
    (hj : j < (blockCountOf size).toNat) : j + 1 < 2 ^ 18 := by
  rw [blockCountOf_toNat] at hj
  omega

/-- What `next_offset` hands out is the offset of a block. -/
theorem Formed.nextOffset_block (h : p.Formed) {mark : Bool} {now : Int} {offset : UInt32}
    (hn : p.nextOffset mark now = .ok (some offset, p')) :
    ∃ j < p.blockCount.toNat, offset = blockOffset j := by
  rcases h.nextOffset_first mark now with ⟨hno, -⟩ | ⟨next, hlt, -, -, -, hsome⟩
  · rw [hno] at hn
    cases hn
  · obtain ⟨hoffset, -⟩ := Prod.mk.inj (Except.ok.inj (hsome.symm.trans hn))
    exact ⟨next, hlt, (Option.some.inj hoffset).symm⟩

end Piece

/-! ## Runs -/

/-- Blocks come as answers: as many bytes as were asked for, at an offset to ask for. -/
def PieceOp.Answered (p : Piece) : PieceOp → Prop
  | .setBlock offset data _ => offset % Piece.blockSize = 0 ∧ offset < p.pieceSize ∧
    data.length = (Peer.requestLength p offset).toNat
  | _ => True

namespace Assembly

/-- A block of the run was the one `set_block` reported to be the last. -/
def Reported (id size : UInt32) (ops : List PieceOp) : Prop :=
  ∃ pre offset data now post t piece, ops = pre ++ .setBlock offset data now :: post ∧
    Run (Step PieceOp.Answered) (new id size) pre t ∧
    t.piece.setBlock offset data now = .ok (true, piece)

/-- The two sides agree after these calls. -/
structure Agrees (id size : UInt32) (ops : List PieceOp) (s : Assembly) : Prop where
  length : ∀ mark now offset piece, s.piece.nextOffset mark now = .ok (some offset, piece) →
    (Peer.requestLength piece offset).toNat = min (2 ^ 14) (size.toNat - offset.toNat) ∧
      0 < (Peer.requestLength piece offset).toNat
  accepted : ∀ mark now offset piece, s.piece.nextOffset mark now = .ok (some offset, piece) →
    ∀ ops' s', Run (Step PieceOp.Answered) (s.after (.nextOffset mark now)) ops' s' →
      ∀ data now', data.length = (Peer.requestLength piece offset).toNat →
        ∃ last piece', s'.piece.setBlock offset data now' = .ok (last, piece')
  completed : size ≠ 0 → (∃ piece, s.piece.nextOffset false 0 = .ok (none, piece)) →
    (∀ o ∈ s.requested, s.Has o) → Reported id size ops

end Assembly

namespace Assembled

variable {s s' : Assembly} {id size : UInt32} {ops : List PieceOp}

theorem after_pieceSize (s : Assembly) (op : PieceOp) :
    (s.after op).piece.pieceSize = s.piece.pieceSize := by
  cases op with
  | nextOffset mark now =>
    cases hn : s.piece.nextOffset mark now with
    | error e => simp only [Assembly.after, hn]
    | ok r =>
      simp only [Assembly.after, hn]
      exact (Piece.nextOffset_ok hn).pieceSize
  | retryBlocks now => exact (s.piece.retryBlocks_same now).pieceSize
  | setBlock offset data now =>
    cases hb : s.piece.setBlock offset data now with
    | error e => simp only [Assembly.after, hb]
    | ok r =>
      simp only [Assembly.after, hb]
      exact (Piece.setBlock_ok hb).2.1
  | reset => rfl

theorem run_pieceSize {allowed : Piece → PieceOp → Prop}
    (hr : Run (Assembly.Step allowed) s ops s') : s'.piece.pieceSize = s.piece.pieceSize := by
  refine hr.inv (I := fun t => t.piece.pieceSize = s.piece.pieceSize) (fun t op t' ht hs => ?_) rfl
  rw [hs.2, after_pieceSize, ht]

/-- An answer is as long as its block. -/
theorem answered_scheduled {p : Piece} (hsize : p.pieceSize.toNat ≤ 2 ^ 32 - 2 ^ 14)
    {offset : UInt32} {data : Bytes} {now : Int}
    (h : (PieceOp.setBlock offset data now).Answered p) :
    (PieceOp.setBlock offset data now).Scheduled p := by
  obtain ⟨hmod, hlt, hlen⟩ := h
  have hj := Piece.block_lt (UInt32.lt_iff_toNat_lt.1 hlt)
  have heq := (Piece.requestLength_eq_iff hj).2 (Piece.block_fits hsize hj)
  rw [← (Piece.eq_blockOffset hmod).1] at heq
  exact ⟨hmod, hlt, hlen.trans heq⟩

theorem answered_whole {p : Piece} (hsize : p.pieceSize.toNat ≤ 2 ^ 32 - 2 ^ 14) {op : PieceOp}
    (h : op.Answered p) : op.Whole p := by
  cases op with
  | setBlock offset data now => exact (answered_scheduled hsize h).whole
  | _ => trivial

section
variable (hsize : size.toNat ≤ 2 ^ 32 - 2 ^ 14)
include hsize

theorem answered (h : Assembled s) (hp : s.piece.pieceSize = size)
    (hr : Run (Assembly.Step PieceOp.Answered) s ops s') :
    Assembled s' ∧ s'.piece.pieceSize = size := by
  refine hr.inv (I := fun t => Assembled t ∧ t.piece.pieceSize = size) ?_ ⟨h, hp⟩
  rintro t op t' ⟨ht, hpt⟩ ⟨hop, rfl⟩
  exact ⟨ht.after (answered_whole (hpt ▸ hsize) hop), (after_pieceSize t op).trans hpt⟩

/-- The length asked for is that of the block. -/
theorem length (h : Assembled s) (hp : s.piece.pieceSize = size) {mark : Bool} {now : Int}
    {offset : UInt32} {piece : Piece}
    (hn : s.piece.nextOffset mark now = .ok (some offset, piece)) :
    (offset % Piece.blockSize = 0 ∧ offset < size) ∧
      (Peer.requestLength piece offset).toNat = Piece.blockLength size offset ∧
      0 < (Peer.requestLength piece offset).toNat := by
  have hpiece := (Piece.nextOffset_ok hn).pieceSize.trans hp
  obtain ⟨j, hj, rfl⟩ := h.formed.nextOffset_block hn
  have hj' : j < piece.blockCount.toNat := by rwa [Piece.blockCount, hpiece, ← hp]
  have heq := (Piece.requestLength_eq_iff hj').2 (Piece.block_fits hsize (by rwa [← hp]))
  refine ⟨hp ▸ offset_of_block hj, hpiece ▸ heq, ?_⟩
  rw [heq]
  exact Piece.blockLength_pos hj'

/-- Such an answer is accepted whenever it comes. -/
theorem accepted (h : Assembled s) (hp : s.piece.pieceSize = size) {mark : Bool} {now now' : Int}
    {offset : UInt32} {piece : Piece} {data : Bytes}
    (hn : s.piece.nextOffset mark now = .ok (some offset, piece))
    (hr : Run (Assembly.Step PieceOp.Answered) (s.after (.nextOffset mark now)) ops s')
    (hlen : data.length = (Peer.requestLength piece offset).toNat) :
    ∃ last piece', s'.piece.setBlock offset data now' = .ok (last, piece') := by
  obtain ⟨⟨hmod, hlt⟩, heq, -⟩ := length hsize h hp hn
  obtain ⟨h', hp'⟩ := answered hsize (h.nextOffset mark now) ((after_pieceSize s _).trans hp) hr
  obtain ⟨last, piece', hb, -⟩ := @block s' h' offset data now'
    ⟨hmod, hp' ▸ hlt, by rw [hp', hlen, heq]⟩
  exact ⟨last, piece', hb⟩

omit hsize in
/-- Once all blocks are done, `set_block` has said so of the last one. -/
theorem reported {id : UInt32} (hne : size ≠ 0)
    (hr : Run (Assembly.Step PieceOp.Answered) (.new id size) ops s)
    (hc : s.piece.complete = true) : Assembly.Reported id size ops := by
  induction ops using List.reverseRecOn generalizing s with
  | nil =>
    cases hr
    rw [show (Assembly.new id size).piece = .create id size from rfl,
      Piece.create_incomplete hne] at hc
    cases hc
  | append_singleton ops op ih =>
    obtain ⟨t, ht, hop, rfl⟩ := hr.of_concat
    -- a call that leaves the bits alone reports nothing, an earlier one has
    have hearlier : t.piece.complete = true → Assembly.Reported id size (ops ++ [op]) := by
      intro hct
      obtain ⟨pre, offset, data, now, post, u, piece, rfl, hu, hb⟩ := ih ht hct
      exact ⟨pre, offset, data, now, post ++ [op], u, piece, by simp, hu, hb⟩
    cases op with
    | nextOffset mark now =>
      refine hearlier ?_
      cases hn : t.piece.nextOffset mark now with
      | error e => simpa only [Assembly.after, hn] using hc
      | ok r =>
        simp only [Assembly.after, hn] at hc
        rwa [(Piece.nextOffset_ok hn).complete] at hc
    | retryBlocks now =>
      exact hearlier ((t.piece.retryBlocks_same now).complete ▸ hc)
    | setBlock offset data now =>
      cases hb : t.piece.setBlock offset data now with
      | error e => exact hearlier (by simpa only [Assembly.after, hb] using hc)
      | ok r =>
        obtain ⟨last, piece⟩ := r
        simp only [Assembly.after, hb, (Piece.setBlock_ok hb).2.2.2] at hc
        exact ⟨ops, offset, data, now, [], t, piece, rfl, ht, hc ▸ hb⟩
    | reset =>
      have hsize : (t.after .reset).piece.pieceSize = size :=
        (after_pieceSize t _).trans (run_pieceSize ht)
      have hreset := (reset t).complete_iff_has.1 hc 0 (by
        rw [Piece.blockCount, hsize]
        exact Piece.blockCountOf_pos hne)
      obtain ⟨b, hb, -⟩ := hreset
      cases hb

end

/-- Nothing is left to ask for and everything asked for is there: all blocks are done. -/
theorem complete_of_answered (h : Assembled s) {piece : Piece}
    (hn : s.piece.nextOffset false 0 = .ok (none, piece)) (hall : ∀ o ∈ s.requested, s.Has o) :
    s.piece.complete = true := by
  rcases h.formed.nextOffset_first false 0 with ⟨-, hbits⟩ | ⟨next, -, -, -, -, hsome⟩
  · rw [h.complete_iff_has]
    intro j hj
    rcases hbits j hj with hreq | hdone
    · exact hall _ (h.requested j hreq).2
    · exact (h.done j hj).1 hdone
  · rw [hsome] at hn
    cases hn

/-- The first `k` blocks can be asked for one after the other. -/
theorem marks (id size : UInt32) {k : Nat} (hk : k ≤ (Piece.blockCountOf size).toNat) :
    ∃ ops s, Run (Assembly.Step PieceOp.Answered) (.new id size) ops s ∧ Assembled s ∧
      s.piece.pieceSize = size ∧ (∀ j, s.piece.blocksDone.bit j = false) ∧
      ∀ j, s.piece.blocksRequested.bit j = decide (j < k) := by
  induction k with
  | zero =>
    refine ⟨[], _, .nil _, .new id size, rfl, fun j => Bitfield.bit_ofCount _ j, fun j => ?_⟩
    exact (Bitfield.bit_ofCount _ j).trans (by simp)
  | succ k ih =>
    obtain ⟨ops, s, hr, h, hp, hdone, hreq⟩ := ih (by omega)
    have hcount : k < s.piece.blockCount.toNat := by
      rw [Piece.blockCount, hp]
      omega
    have hfree : ¬(s.piece.blocksRequested.bit k = true ∨ s.piece.blocksDone.bit k = true) := by
      simp [hdone, hreq]
    have hmark : PieceOp.Answered s.piece (.nextOffset true 0) := trivial
    refine ⟨ops ++ [.nextOffset true 0], _, hr.append (.single ⟨hmark, rfl⟩),
      h.nextOffset true 0, (after_pieceSize s _).trans hp, ?_⟩
    rcases h.formed.nextOffset_first true 0 with ⟨-, hbits⟩ | ⟨next, -, hnext, -, hbefore, hsome⟩
    · exact absurd (hbits k hcount) hfree
    · have hle : ¬k < next := fun hlt => hfree (hbefore k hlt)
      rw [hreq, decide_eq_false_iff_not] at hnext
      obtain rfl : next = k := by omega
      simp only [Assembly.after, hsome, if_true]
      refine ⟨hdone, fun j => ?_⟩
      rw [Bitfield.bit_set, hreq]
      by_cases hj : j = next
      · simp [hj]
      · simp only [if_neg hj, decide_eq_decide]
        omega

/-- The last block of the type is asked for in full whatever the size. -/
theorem wraps {size : UInt32} (id : UInt32) (h : 2 ^ 32 - 2 ^ 14 < size.toNat) :
    ∃ ops s, Run (Assembly.Step PieceOp.Answered) (.new id size) ops s ∧
      ¬s.Agrees id size ops := by
  have hsize := size.toNat_lt
  have hcount : (Piece.blockCountOf size).toNat = 2 ^ 18 := by
    rw [Piece.blockCountOf_toNat]
    omega
  obtain ⟨ops, s, hr, h', hp, hdone, hreq⟩ := marks id size (k := 2 ^ 18 - 1) (by omega)
  refine ⟨ops, s, hr, fun hagrees => ?_⟩
  have hj : 2 ^ 18 - 1 < s.piece.blockCount.toNat := by
    rw [Piece.blockCount, hp, hcount]
    decide
  rcases h'.formed.nextOffset_first false 0 with ⟨-, hbits⟩ | ⟨next, hlt, hnext, -, -, hsome⟩
  · have hfree := hbits _ hj
    simp [hdone, hreq] at hfree
  · rw [hreq, decide_eq_false_iff_not] at hnext
    rw [Piece.blockCount, hp, hcount] at hlt
    obtain rfl : next = 2 ^ 18 - 1 := by omega
    have hlength := (hagrees.length _ _ _ _ hsome).1
    have hne := (Piece.requestLength_eq_iff hj).not.2 (by decide)
    rw [hp, Piece.blockLength, Piece.blockSize_toNat] at hne
    exact hne hlength

end Assembled

/-! ## What the two sides agree on -/

/-- What is asked for is the block, its answer is accepted whenever it comes, and the last one is
reported, for the sizes that leave the last block of the type free. -/
theorem requests_agree_iff (size : UInt32) :
    (∀ id ops s, Run (Assembly.Step PieceOp.Answered) (.new id size) ops s →
      s.Agrees id size ops) ↔ size.toNat ≤ 2 ^ 32 - 2 ^ 14 := by
  constructor
  · intro hall
    by_contra hsize
    obtain ⟨ops, s, hr, hnot⟩ := Assembled.wraps 0 (Nat.lt_of_not_le hsize)
    exact hnot (hall 0 ops s hr)
  · intro hsize id ops s hr
    obtain ⟨h, hp⟩ := Assembled.answered hsize (.new id size) rfl hr
    refine ⟨fun mark now offset piece hn => ?_, fun mark now offset piece hn ops' s' hr' data now'
      hlen => h.accepted hsize hp hn hr' hlen, fun hne hn hall => ?_⟩
    · exact (h.length hsize hp hn).2
    · obtain ⟨piece, hn⟩ := hn
      exact Assembled.reported hne hr (h.complete_of_answered hn hall)

/-- In a piece of `2 ^ 32 - 1` bytes the last block is asked for with one byte too many. -/
theorem requests_wrapped : ¬∀ ops s,
    Run (Assembly.Step PieceOp.Answered) (.new 0 4294967295) ops s → s.Agrees 0 4294967295 ops := by
  intro hall
  obtain ⟨ops, s, hr, hnot⟩ := @Assembled.wraps 4294967295 0 (by decide)
  exact hnot (hall ops s hr)

end Zit
