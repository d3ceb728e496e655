import Mathlib.Order.Bounds.Defs
import Zit.Lib.Run
import Zit.Proof.Piece

/-!
# How a piece is put together

The calls of a piece in any order (`PieceOp`), with a record of the blocks it has taken and of the
offsets it has handed out (`Assembly`). `Assembled` ties the bits of the piece to this record, and
its data to the first copy of each block, as long as no block is stored that is shorter than it
should be; every call keeps it (`Assembled.after`).
-/

set_option autoImplicit false

namespace Zit

open Lib

namespace Piece

/-- The condition under which `retry_blocks` forgets the requests. -/
def fires (p : Piece) (now : Int) : Bool :=
  !p.pieceWritten && max p.lastBlock p.lastRequest != timeMin &&
    decide (now - max p.lastBlock p.lastRequest > retryAfter) && (p.blocksRequested.next true).isSome

def blockOffset (j : Nat) : UInt32 := UInt32.ofNat j * blockSize

/-- The bytes of the block at an offset of a piece of this size. -/
def blockLength (size offset : UInt32) : Nat := min blockSize.toNat (size.toNat - offset.toNat)

theorem retryBlocks_eq (p : Piece) (now : Int) : p.retryBlocks now =
    if p.fires now then ((p.blocksRequested.sub p.blocksDone).count,
      { p with blocksRequested := .ofCount p.blockCount.toNat }) else (0, p) := by
  unfold retryBlocks fires
  by_cases hw : p.pieceWritten = true
  · simp [hw]
  · by_cases ht : max p.lastBlock p.lastRequest = timeMin <;> simp [hw, ht]

section
variable {size offset : UInt32} {j k : Nat}

theorem blockSize_toNat : blockSize.toNat = 16384 := by decide

theorem blockOffset_toNat (h : j < (blockCountOf size).toNat) :
    (blockOffset j).toNat = j * 16384 ∧ j * 16384 < size.toNat := by
  have hsize := size.toNat_lt
  rw [blockCountOf_toNat] at h
  rw [blockOffset, UInt32.toNat_mul, blockSize_toNat, UInt32.toNat_ofNat']
  omega

theorem blockOffset_inj (hj : j < (blockCountOf size).toNat) (hk : k < (blockCountOf size).toNat)
    (h : blockOffset j = blockOffset k) : j = k := by
  have := (blockOffset_toNat hj).1
  have := (blockOffset_toNat hk).1
  rw [h] at *
  omega

/-- A position in a block is one in the piece. -/
theorem add_lt_of_lt_min {m n i : Nat} (h : i < min 16384 (m - n)) : n + i < m := by omega

/-- An aligned offset is the one of its block. -/
theorem eq_blockOffset (h : offset % blockSize = 0) :
    offset = blockOffset (offset / blockSize).toNat ∧
      offset.toNat = (offset / blockSize).toNat * 16384 := by
  have hmod : offset.toNat % 16384 = 0 := by
    rw [← blockSize_toNat, ← UInt32.toNat_mod, h]
    rfl
  have hlt := offset.toNat_lt
  have hdiv : (offset / blockSize).toNat = offset.toNat / 16384 := by
    rw [UInt32.toNat_div, blockSize_toNat]
  refine ⟨UInt32.toNat.inj ?_, by omega⟩
  rw [blockOffset, UInt32.toNat_mul, blockSize_toNat, UInt32.toNat_ofNat']
  omega

end

end Piece

/-! ## Calls -/

inductive PieceOp
  | nextOffset (mark : Bool) (now : Int)
  | retryBlocks (now : Int)
  | setBlock (offset : UInt32) (data : Bytes) (now : Int)
  | reset

/-- A piece with the blocks `set_block` has taken since it was constructed or reset, and the offsets
`next_offset` has marked since then or since the last `retry_blocks` that fired. -/
structure Assembly where
  piece : Piece
  blocks : List (UInt32 × Bytes) := []
  requested : List UInt32 := []

namespace Assembly

def new (id size : UInt32) : Assembly := { piece := .create id size }

variable (s : Assembly)

/-- The state after a call; a call that throws changes nothing. -/
def after : PieceOp → Assembly
  | .nextOffset mark now =>
    match s.piece.nextOffset mark now with
    | .ok (offset, piece) =>
      { s with piece, requested := if mark then s.requested ++ offset.toList else s.requested }
    | .error _ => s
  | .retryBlocks now =>
    { s with
      piece := (s.piece.retryBlocks now).2
      requested := if s.piece.fires now then [] else s.requested }
  | .setBlock offset data now =>
    match s.piece.setBlock offset data now with
    | .ok (_, piece) => { s with piece, blocks := s.blocks ++ [(offset, data)] }
    | .error _ => s
  | .reset => { piece := s.piece.reset }

/-- A call that is `allowed` for the piece. -/
def Step (allowed : Piece → PieceOp → Prop) (s : Assembly) (op : PieceOp) (s' : Assembly) : Prop :=
  allowed s.piece op ∧ s' = s.after op

/-- The first copy of the block at an offset. -/
def first (offset : UInt32) : Option Bytes := (s.blocks.find? (·.1 == offset)).map (·.2)

/-- The block at the offset has been received. -/
def Has (offset : UInt32) : Prop := ∃ b ∈ s.blocks, b.1 = offset

end Assembly

/-- A block that is not done yet is not stored shorter than it is. -/
def PieceOp.Whole (p : Piece) : PieceOp → Prop
  | .setBlock offset data _ => offset % Piece.blockSize = 0 → offset < p.pieceSize →
    p.blocksDone.bit (offset / Piece.blockSize).toNat = false →
      Piece.blockLength p.pieceSize offset ≤ data.length
  | _ => True

instance (p : Piece) : (op : PieceOp) → Decidable (op.Whole p)
  | .setBlock offset data _ => inferInstanceAs (Decidable (offset % Piece.blockSize = 0 →
    offset < p.pieceSize → p.blocksDone.bit (offset / Piece.blockSize).toNat = false →
      Piece.blockLength p.pieceSize offset ≤ data.length))
  | .nextOffset _ _ | .retryBlocks _ | .reset => .isTrue trivial

/-! ## What the bits stand for -/

structure Assembled (s : Assembly) : Prop where
  formed : s.piece.Formed
  unwritten : s.piece.pieceWritten = false
  done : ∀ j < s.piece.blockCount.toNat,
    s.piece.blocksDone.bit j = true ↔ s.Has (Piece.blockOffset j)
  data : ∀ j < s.piece.blockCount.toNat, ∀ d, s.first (Piece.blockOffset j) = some d →
    d.length = Piece.blockLength s.piece.pieceSize (Piece.blockOffset j) ∧
      ∀ i < d.length, s.piece.data[j * 16384 + i]? = d[i]?
  requested : ∀ j, s.piece.blocksRequested.bit j = true →
    j < s.piece.blockCount.toNat ∧ Piece.blockOffset j ∈ s.requested
  marked : ∀ offset ∈ s.requested, ∃ j < s.piece.blockCount.toNat,
    offset = Piece.blockOffset j ∧ s.piece.blocksRequested.bit j = true
  nodup : s.requested.Nodup

namespace Assembly

variable {s : Assembly} {offset o : UInt32} {d : Bytes}

theorem has_iff_first : s.Has offset ↔ ∃ d, s.first offset = some d := by
  unfold Has first
  constructor
  · intro h
    obtain ⟨b, hb, ho⟩ := h
    cases hf : s.blocks.find? (·.1 == offset) with
    | none => exact absurd (by simpa using ho) (List.find?_eq_none.1 hf b hb)
    | some c => exact ⟨c.2, rfl⟩
  · intro h
    obtain ⟨d, hd⟩ := h
    obtain ⟨c, hc, -⟩ := Option.map_eq_some_iff.1 hd
    exact ⟨c, List.mem_of_find?_eq_some hc, by simpa using List.find?_some hc⟩

theorem has_append {piece : Piece} :
    ({ s with piece, blocks := s.blocks ++ [(o, d)] } : Assembly).Has offset ↔
      s.Has offset ∨ o = offset := by
  simp only [Has, List.mem_append, List.mem_singleton]
  constructor
  · rintro ⟨b, hb | rfl, h⟩
    · exact .inl ⟨b, hb, h⟩
    · exact .inr h
  · intro h
    rcases h with ⟨b, hb, h⟩ | h
    · exact ⟨b, .inl hb, h⟩
    · exact ⟨_, .inr rfl, h⟩

/-- A later copy does not count. -/
theorem first_append {piece : Piece} (h : s.Has offset ∨ o ≠ offset) :
    ({ s with piece, blocks := s.blocks ++ [(o, d)] } : Assembly).first offset = s.first offset := by
  simp only [first, List.find?_append]
  cases hf : s.blocks.find? (·.1 == offset) with
  | some c => rfl
  | none =>
    have hne : o ≠ offset := by
      rcases h with h | h
      · obtain ⟨d, hd⟩ := has_iff_first.1 h
        rw [first, hf] at hd
        cases hd
      · exact h
    simp [hne]

theorem first_append_self {piece : Piece} (h : ¬s.Has offset) :
    ({ s with piece, blocks := s.blocks ++ [(offset, d)] } : Assembly).first offset = some d := by
  simp only [first, List.find?_append]
  cases hf : s.blocks.find? (·.1 == offset) with
  | some c => exact absurd (has_iff_first.2 ⟨c.2, by rw [first, hf]; rfl⟩) h
  | none => simp

end Assembly

namespace Assembled

variable {s : Assembly}

/-- A piece nothing has happened to. -/
theorem fresh {p : Piece} (hf : p.Formed) (hw : p.pieceWritten = false)
    (hd : ∀ j, p.blocksDone.bit j = false) (hr : ∀ j, p.blocksRequested.bit j = false) :
    Assembled { piece := p } := by
  refine ⟨hf, hw, fun j _ => ?_, fun j _ d h => ?_, fun j h => ?_, fun o h => ?_, List.nodup_nil⟩
  · rw [hd]
    exact ⟨nofun, fun ⟨_, hb, _⟩ => by cases hb⟩
  · cases h
  · rw [hr] at h
    cases h
  · cases h

theorem new (id size : UInt32) : Assembled (.new id size) :=
  fresh (.create id size) rfl (fun j => Bitfield.bit_ofCount _ j) fun j => Bitfield.bit_ofCount _ j

theorem reset (s : Assembly) : Assembled (s.after .reset) :=
  fresh (.reset s.piece) rfl (fun j => Bitfield.bit_ofCount _ j) fun j => Bitfield.bit_ofCount _ j

theorem nextOffset (h : Assembled s) (mark : Bool) (now : Int) :
    Assembled (s.after (.nextOffset mark now)) := by
  rcases h.formed.nextOffset_first mark now with ⟨hno, -⟩ | ⟨next, hlt, hreq, -, -, hsome⟩
  · have hsame : s.after (.nextOffset mark now) = s := by
      simp only [Assembly.after, hno, Option.toList_none, List.append_nil, ite_self]
    rwa [hsame]
  · simp only [Assembly.after, hsome, Option.toList_some]
    cases mark with
    | false => exact h
    | true =>
      have hmark : Piece.blockOffset next ∉ s.requested := by
        intro hmem
        obtain ⟨j, hj, he, hbit⟩ := h.marked _ hmem
        rw [← Piece.blockOffset_inj hlt hj he, hreq] at hbit
        cases hbit
      have hformed := h.formed.same (Piece.nextOffset_ok hsome)
      refine ⟨hformed, h.unwritten, h.done, h.data, fun j hj => ?_, fun o ho => ?_, ?_⟩
      · simp only [if_true, Bitfield.bit_set] at hj ⊢
        by_cases he : j = next
        · exact ⟨he ▸ hlt, by rw [he]; exact List.mem_append_right _ (List.mem_singleton.2 rfl)⟩
        · rw [if_neg he] at hj
          exact ⟨(h.requested j hj).1, List.mem_append_left _ (h.requested j hj).2⟩
      · simp only [if_true, Bitfield.bit_set] at ho ⊢
        rcases List.mem_append.1 ho with ho | ho
        · obtain ⟨j, hj, rfl, hbit⟩ := h.marked o ho
          refine ⟨j, hj, rfl, ?_⟩
          split
          · rfl
          · exact hbit
        · exact ⟨next, hlt, List.mem_singleton.1 ho, if_pos rfl⟩
      · simp only [if_true]
        refine List.nodup_append.2 ⟨h.nodup, List.nodup_singleton _, fun a ha b hb he => ?_⟩
        rw [he, List.mem_singleton.1 hb] at ha
        exact hmark ha

theorem retryBlocks (h : Assembled s) (now : Int) : Assembled (s.after (.retryBlocks now)) := by
  have hformed := h.formed.same (s.piece.retryBlocks_same now)
  simp only [Assembly.after, Piece.retryBlocks_eq] at hformed ⊢
  by_cases hf : s.piece.fires now = true
  · simp only [if_pos hf] at hformed ⊢
    refine ⟨hformed, h.unwritten, h.done, h.data, fun j hj => ?_, nofun, List.nodup_nil⟩
    rw [Bitfield.bit_ofCount] at hj
    cases hj
  · simp only [if_neg hf] at hformed ⊢
    exact h

/-- What a copied block is, inside and outside its range. -/
theorem copied_get {p : Piece} (hf : p.Formed) {offset : UInt32} {data copied : Bytes}
    (ha : p.Accepts offset data) (hbit : p.blocksDone.bit (offset / Piece.blockSize).toNat = false)
    (hc : p.copyBlock offset data = .ok copied) :
    (∀ i < data.length, copied[offset.toNat + i]? = data[i]?) ∧
      ∀ i < p.data.length, i < offset.toNat ∨ offset.toNat + data.length ≤ i →
        copied[i]? = p.data[i]? := by
  rw [hf.copyBlock_returns ha hbit, Except.ok.injEq] at hc
  by_cases hd : data = []
  · rw [if_pos hd] at hc
    rw [hd, ← hc]
    exact ⟨nofun, fun _ _ _ => rfl⟩
  · rw [if_neg hd] at hc
    rw [← hc]
    exact ⟨fun i hi => overwrite_get_in 0 _ _ _ hi, fun i hi h => overwrite_get_out 0 _ _ _ hi h⟩

/-- The block of an offset is the only one it can be taken for. -/
theorem block_eq {offset : UInt32} (halign : offset % Piece.blockSize = 0) {j : Nat}
    (hj : j < s.piece.blockCount.toNat) (he : offset = Piece.blockOffset j) :
    (offset / Piece.blockSize).toNat = j := by
  have hpos := (Piece.eq_blockOffset halign).2
  have hoffset := (Piece.blockOffset_toNat hj).1
  rw [← he] at hoffset
  omega

/-- A block that is there already. -/
theorem setBlock_again (h : Assembled s) {offset : UInt32} {data : Bytes} {now : Int}
    (hformed : Piece.Formed { s.piece with lastBlock := now })
    (halign : offset % Piece.blockSize = 0)
    (hbit : s.piece.blocksDone.bit (offset / Piece.blockSize).toNat = true) :
    Assembled { s with
      piece := { s.piece with lastBlock := now }, blocks := s.blocks ++ [(offset, data)] } := by
  have hold : ∀ j < s.piece.blockCount.toNat,
      s.Has (Piece.blockOffset j) ∨ offset ≠ Piece.blockOffset j := by
    intro j hj
    by_cases he : offset = Piece.blockOffset j
    · rw [block_eq halign hj he] at hbit
      exact .inl ((h.done j hj).1 hbit)
    · exact .inr he
  refine ⟨hformed, h.unwritten, fun j hj => ?_, fun j hj d hd => ?_, h.requested, h.marked, h.nodup⟩
  · refine (h.done j hj).trans ⟨fun hh => Assembly.has_append.2 (.inl hh), fun hh => ?_⟩
    rcases Assembly.has_append.1 hh with hh | he
    · exact hh
    · exact (hold j hj).resolve_right fun hne => hne he
  · rw [Assembly.first_append (hold j hj)] at hd
    exact h.data j hj d hd

/-- The blocks that are there, after a new one has been copied. -/
theorem data_copied (h : Assembled s) {offset : UInt32} {data copied : Bytes} {piece : Piece}
    (ha : s.piece.Accepts offset data)
    (hbit : s.piece.blocksDone.bit (offset / Piece.blockSize).toNat = false)
    (hc : s.piece.copyBlock offset data = .ok copied)
    (hwhole : offset < s.piece.pieceSize →
      Piece.blockLength s.piece.pieceSize offset ≤ data.length)
    {j : Nat} (hj : j < s.piece.blockCount.toNat) {d : Bytes}
    (hd : ({ s with piece, blocks := s.blocks ++ [(offset, data)] } : Assembly).first
      (Piece.blockOffset j) = some d) :
    d.length = Piece.blockLength s.piece.pieceSize (Piece.blockOffset j) ∧
      ∀ i < d.length, copied[j * 16384 + i]? = d[i]? := by
  obtain ⟨hoff, hpos⟩ := Piece.eq_blockOffset ha.aligned
  obtain ⟨hget, hkeep⟩ := copied_get h.formed ha hbit hc
  obtain ⟨hoffset, hin⟩ := Piece.blockOffset_toNat hj
  have hsmall := ha.small
  have hfits := ha.fits
  rw [Piece.blockSize_toNat] at hsmall
  by_cases hj0 : offset = Piece.blockOffset j
  · have hnot : ¬s.Has offset := by
      rw [hj0]
      intro hh
      rw [block_eq ha.aligned hj hj0, (h.done j hj).2 hh] at hbit
      cases hbit
    rw [← hj0, Assembly.first_append_self hnot, Option.some.injEq] at hd
    subst hd
    have hfull := hwhole (UInt32.lt_iff_toNat_lt.2 (by rw [hj0, hoffset]; exact hin))
    rw [← hj0]
    unfold Piece.blockLength at hfull ⊢
    rw [Piece.blockSize_toNat] at hfull ⊢
    refine ⟨?_, fun i hi => ?_⟩
    · show data.length = min 16384 (s.piece.pieceSize.toNat - offset.toNat)
      omega
    · rw [← hget i hi, hj0, hoffset]
  · rw [Assembly.first_append (.inr hj0)] at hd
    obtain ⟨hdlen, hdata⟩ := h.data j hj d hd
    refine ⟨hdlen, fun i hi => ?_⟩
    have hne : (offset / Piece.blockSize).toNat ≠ j := by
      intro he
      rw [he] at hoff
      exact hj0 hoff
    rw [Piece.blockLength, Piece.blockSize_toNat, hoffset] at hdlen
    have hlt : j * 16384 + i < s.piece.data.length := by
      rw [h.formed.data h.unwritten]
      exact Piece.add_lt_of_lt_min (hdlen ▸ hi)
    have hout : j * 16384 + i < offset.toNat ∨ offset.toNat + data.length ≤ j * 16384 + i := by
      omega
    rw [← hdata i hi]
    exact hkeep _ hlt hout

theorem setBlock (h : Assembled s) {offset : UInt32} {data : Bytes} {now : Int} {last : Bool}
    {piece : Piece} (hb : s.piece.setBlock offset data now = .ok (last, piece))
    (hwhole : (PieceOp.setBlock offset data now).Whole s.piece) :
    Assembled { s with piece, blocks := s.blocks ++ [(offset, data)] } := by
  have hformed := h.formed.block hb
  obtain ⟨ha, hcases⟩ := Piece.setBlock_stored hb
  rcases hcases with ⟨hbit, rfl⟩ | ⟨hbit, copied, hc, rfl⟩
  · exact h.setBlock_again hformed ha.aligned hbit
  refine ⟨hformed, h.unwritten, fun j hj => ?_, fun j hj d hd => ?_, h.requested, h.marked, h.nodup⟩
  · show (s.piece.blocksDone.set _ true).bit j = true ↔ _
    rw [Bitfield.bit_set, Assembly.has_append]
    by_cases hj0 : j = (offset / Piece.blockSize).toNat
    · rw [if_pos hj0]
      exact iff_of_true rfl (.inr (by rw [hj0]; exact (Piece.eq_blockOffset ha.aligned).1))
    · rw [if_neg hj0]
      refine (h.done j hj).trans ⟨.inl, fun hh => hh.resolve_right fun he => hj0 ?_⟩
      exact (block_eq ha.aligned hj he).symm
  · exact h.data_copied ha hbit hc (fun hlt => hwhole ha.aligned hlt hbit) hj hd

/-- Every call keeps it, as long as no block is stored short. -/
theorem after (h : Assembled s) {op : PieceOp} (hop : op.Whole s.piece) :
    Assembled (s.after op) := by
  cases op with
  | nextOffset mark now => exact h.nextOffset mark now
  | retryBlocks now => exact h.retryBlocks now
  | setBlock offset data now =>
    cases hb : s.piece.setBlock offset data now with
    | error e =>
      rw [Assembly.after, hb]
      exact h
    | ok r =>
      rw [Assembly.after, hb]
      exact h.setBlock hb hop
  | reset => exact reset s

theorem run {id size : UInt32} {ops : List PieceOp}
    (hr : Run (Assembly.Step fun p op => op.Whole p) (.new id size) ops s) : Assembled s :=
  hr.inv (fun _ _ _ h hs => by rw [hs.2]; exact h.after hs.1) (.new id size)

/-- A block is done when no bit is missing below the number of blocks. -/
theorem complete_iff_has (h : Assembled s) : s.piece.complete = true ↔
    ∀ j < s.piece.blockCount.toNat, s.Has (Piece.blockOffset j) := by
  have hsize : s.piece.blockCount.toNat ≤ s.piece.blocksDone.size := by
    rw [h.formed.done]
    exact Bitfield.le_size_ofCount _
  rw [Piece.complete_iff]
  constructor
  · exact fun hall j hj => (h.done j hj).1 (hall j (by omega) hj)
  · exact fun hall j _ hj => (h.done j hj).2 (hall j hj)

end Assembled

/-! ## Complete pieces -/

/-- Every byte of the piece has been received, and the data has it. -/
def Assembly.Received (s : Assembly) : Prop :=
  ∀ i < s.piece.pieceSize.toNat, ∃ b ∈ s.blocks, b.1.toNat ≤ i ∧ i < b.1.toNat + b.2.length ∧
    s.piece.data[i]? = b.2[i - b.1.toNat]?

theorem Assembly.mem_of_first {s : Assembly} {o : UInt32} {d : Bytes} (h : s.first o = some d) :
    (o, d) ∈ s.blocks := by
  obtain ⟨c, hc, rfl⟩ := Option.map_eq_some_iff.1 h
  have ho : c.1 = o := by simpa using List.find?_some hc
  rw [← ho]
  exact List.mem_of_find?_eq_some hc

theorem Assembled.received {s : Assembly} (h : Assembled s) (hc : s.piece.complete = true) :
    s.Received := by
  intro i hi
  have hj : i / 16384 < s.piece.blockCount.toNat := by
    rw [Piece.blockCount, Piece.blockCountOf_toNat]
    omega
  obtain ⟨d, hd⟩ := Assembly.has_iff_first.1 (h.complete_iff_has.1 hc _ hj)
  obtain ⟨hlen, hdata⟩ := h.data _ hj d hd
  have hoff := (@Piece.blockOffset_toNat s.piece.pieceSize _ hj).1
  rw [Piece.blockLength, Piece.blockSize_toNat, hoff] at hlen
  refine ⟨_, Assembly.mem_of_first hd, ?_, ?_, ?_⟩
  · show (Piece.blockOffset _).toNat ≤ i
    omega
  · show i < (Piece.blockOffset _).toNat + d.length
    omega
  · show _ = d[i - (Piece.blockOffset _).toNat]?
    rw [hoff, ← hdata (i - i / 16384 * 16384) (by omega)]
    congr 1
    omega

/-- When no block is stored short, a piece that `set_block` reports complete has been received. -/
theorem reported_received {s : Assembly} {id size : UInt32} {ops : List PieceOp}
    (hr : Run (Assembly.Step fun p op => op.Whole p) (.new id size) ops s) {offset : UInt32}
    {data : Bytes} {now : Int} (hw : (PieceOp.setBlock offset data now).Whole s.piece)
    {piece : Piece} (hb : s.piece.setBlock offset data now = .ok (true, piece)) :
    (s.after (.setBlock offset data now)).Received := by
  have h := (Assembled.run hr).after hw
  have hpiece : (s.after (.setBlock offset data now)).piece = piece := by
    rw [Assembly.after, hb]
  refine h.received ?_
  rw [hpiece]
  exact (Piece.setBlock_ok hb).2.2.2

theorem reported_received_two :
    (∃ piece, (Piece.create 0 2).setBlock 0 [7, 8] 5 = .ok (true, piece)) ∧
      ((Assembly.new 0 2).after (.setBlock 0 [7, 8] 5)).Received := by
  have hb : ∃ piece, (Piece.create 0 2).setBlock 0 [7, 8] 5 = .ok (true, piece) := ⟨_, rfl⟩
  refine ⟨hb, ?_⟩
  obtain ⟨piece, hb⟩ := hb
  exact reported_received (s := .new 0 2) (.nil _) (by decide) hb

/-- One byte makes a piece of two complete. -/
theorem reported_short : ¬∀ (id size : UInt32) (ops : List PieceOp) (s : Assembly),
    Run (Assembly.Step fun _ _ => True) (.new id size) ops s →
    ∀ (offset : UInt32) (data : Bytes) (now : Int) (piece : Piece),
      s.piece.setBlock offset data now = .ok (true, piece) →
      (s.after (.setBlock offset data now)).Received := by
  intro hall
  have h := hall 0 2 [] _ (.nil _) 0 [7] 5 _ rfl
  obtain ⟨b, hb, -, hlt, -⟩ := h 1 (by decide)
  have hmem : b = (0, [7]) := List.mem_singleton.1 hb
  rw [hmem] at hlt
  exact absurd hlt (by decide)

/-! ## Scheduling -/

/-- The calls of a download: whole blocks at their offsets. -/
def PieceOp.Scheduled (p : Piece) : PieceOp → Prop
  | .nextOffset mark _ => mark = true
  | .retryBlocks _ => True
  | .setBlock offset data _ => offset % Piece.blockSize = 0 ∧ offset < p.pieceSize ∧
    data.length = Piece.blockLength p.pieceSize offset
  | .reset => False

theorem PieceOp.Scheduled.whole {p : Piece} {op : PieceOp} (h : op.Scheduled p) : op.Whole p := by
  cases op with
  | setBlock offset data now => exact fun _ _ _ => Nat.le_of_eq h.2.2.symm
  | _ => trivial

namespace Assembly

instance (s : Assembly) (o : UInt32) : Decidable (s.Has o) :=
  inferInstanceAs (Decidable (∃ b ∈ s.blocks, b.1 = o))

/-- The offset of a block that has neither been handed out nor received. -/
def Open (s : Assembly) (o : UInt32) : Prop :=
  o % Piece.blockSize = 0 ∧ o < s.piece.pieceSize ∧ o ∉ s.requested ∧ ¬s.Has o

/-- All blocks have been received. -/
def HasAll (s : Assembly) : Prop :=
  ∀ o, o % Piece.blockSize = 0 → o < s.piece.pieceSize → s.Has o

/-- The data is, block by block, the first copy of each block. -/
structure Joined (s : Assembly) : Prop where
  length : s.piece.data.length = s.piece.pieceSize.toNat
  block : ∀ o, o % Piece.blockSize = 0 → o < s.piece.pieceSize → ∃ d, s.first o = some d ∧
    (s.piece.data.drop o.toNat).take Piece.blockSize.toNat = d

/-- What the next call does. -/
structure Schedules (s : Assembly) : Prop where
  next : ∀ now, ∃ r piece, s.piece.nextOffset true now = .ok (r, piece) ∧
    (∀ o, r = some o → IsLeast {o | s.Open o} o) ∧ (r = none → ∀ o, ¬s.Open o)
  once : s.requested.Nodup
  block : ∀ offset data now, (PieceOp.setBlock offset data now).Scheduled s.piece →
    ∃ last piece, s.piece.setBlock offset data now = .ok (last, piece) ∧
      (last = true ↔ (s.after (.setBlock offset data now)).HasAll) ∧
      (last = true → (s.after (.setBlock offset data now)).Joined)
  retry : ∀ now, s.piece.fires now = true →
    (s.piece.retryBlocks now).1 = s.requested.countP (fun o => decide ¬s.Has o) ∧
      (s.piece.retryBlocks now).2.blocksDone = s.piece.blocksDone ∧
      (s.piece.retryBlocks now).2.data = s.piece.data

end Assembly

namespace Assembled

variable {s : Assembly}

/-- The offsets of a piece are those of its blocks. -/
theorem block_of_offset {o : UInt32} (hmod : o % Piece.blockSize = 0) (hlt : o < s.piece.pieceSize) :
    ∃ j < s.piece.blockCount.toNat, o = Piece.blockOffset j :=
  ⟨_, Piece.block_lt (UInt32.lt_iff_toNat_lt.1 hlt), (Piece.eq_blockOffset hmod).1⟩

theorem offset_of_block {j : Nat} (hj : j < s.piece.blockCount.toNat) :
    Piece.blockOffset j % Piece.blockSize = 0 ∧ Piece.blockOffset j < s.piece.pieceSize := by
  obtain ⟨hoff, hlt⟩ := @Piece.blockOffset_toNat s.piece.pieceSize _ hj
  refine ⟨UInt32.toNat.inj ?_, UInt32.lt_iff_toNat_lt.2 (by omega)⟩
  rw [UInt32.toNat_mod, hoff, Piece.blockSize_toNat, Nat.mul_mod_left]
  rfl

theorem open_iff (h : Assembled s) {o : UInt32} : s.Open o ↔
    ∃ j < s.piece.blockCount.toNat, o = Piece.blockOffset j ∧
      s.piece.blocksRequested.bit j = false ∧ s.piece.blocksDone.bit j = false := by
  constructor
  · intro hin
    obtain ⟨hmod, hlt, hreq, hhas⟩ := hin
    obtain ⟨j, hj, rfl⟩ := block_of_offset hmod hlt
    refine ⟨j, hj, rfl, ?_, ?_⟩
    · exact Bool.eq_false_iff.2 fun hbit => hreq (h.requested j hbit).2
    · exact Bool.eq_false_iff.2 fun hbit => hhas ((h.done j hj).1 hbit)
  · intro hin
    obtain ⟨j, hj, rfl, hreq, hdone⟩ := hin
    refine ⟨(offset_of_block hj).1, (offset_of_block hj).2, fun hmem => ?_, fun hhas => ?_⟩
    · obtain ⟨k, hk, he, hbit⟩ := h.marked _ hmem
      rw [← Piece.blockOffset_inj hj hk he, hreq] at hbit
      cases hbit
    · rw [(h.done j hj).2 hhas] at hdone
      cases hdone

theorem hasAll_iff (h : Assembled s) : s.HasAll ↔ s.piece.complete = true := by
  rw [h.complete_iff_has]
  constructor
  · exact fun hall j hj => hall _ (offset_of_block hj).1 (offset_of_block hj).2
  · intro hall o hmod hlt
    obtain ⟨j, hj, rfl⟩ := block_of_offset hmod hlt
    exact hall j hj

theorem joined (h : Assembled s) (hall : s.HasAll) : s.Joined := by
  have hdata := h.formed.data h.unwritten
  refine ⟨hdata, fun o hmod hlt => ?_⟩
  obtain ⟨d, hd⟩ := Assembly.has_iff_first.1 (hall o hmod hlt)
  obtain ⟨j, hj, rfl⟩ := block_of_offset hmod hlt
  obtain ⟨hlen, hget⟩ := h.data j hj d hd
  have hoff := (@Piece.blockOffset_toNat s.piece.pieceSize _ hj).1
  rw [Piece.blockLength, Piece.blockSize_toNat, hoff] at hlen
  refine ⟨d, hd, List.ext_getElem? fun i => ?_⟩
  rw [Piece.blockSize_toNat, hoff]
  by_cases hi : i < d.length
  · rw [List.getElem?_take_of_lt (by omega), List.getElem?_drop, hget i hi]
  · rw [List.getElem?_eq_none (by rw [List.length_take, List.length_drop]; omega),
      List.getElem?_eq_none (by omega)]

theorem next (h : Assembled s) (now : Int) :
    ∃ r piece, s.piece.nextOffset true now = .ok (r, piece) ∧
      (∀ o, r = some o → IsLeast {o | s.Open o} o) ∧ (r = none → ∀ o, ¬s.Open o) := by
  obtain ⟨hno, hall⟩ | ⟨next, hlt, hreq, hdone, hbefore, hsome⟩ := h.formed.nextOffset_first true now
  · refine ⟨none, _, hno, nofun, fun _ o ho => ?_⟩
    obtain ⟨j, hj, -, hreq, hdone⟩ := h.open_iff.1 ho
    have := hall j hj
    simp [hreq, hdone] at this
  · refine ⟨_, _, hsome, fun o ho => ?_, nofun⟩
    rw [← Option.some.inj ho]
    refine ⟨h.open_iff.2 ⟨next, hlt, rfl, hreq, hdone⟩, fun o' ho' => ?_⟩
    obtain ⟨j, hj, rfl, hreq', hdone'⟩ := h.open_iff.1 ho'
    have hle : next ≤ j := by
      by_contra hc
      have := hbefore j (by omega)
      simp [hreq', hdone'] at this
    have h1 := (@Piece.blockOffset_toNat s.piece.pieceSize _ hlt).1
    have h2 := (@Piece.blockOffset_toNat s.piece.pieceSize _ hj).1
    rw [UInt32.le_iff_toNat_le, h2]
    show (Piece.blockOffset next).toNat ≤ _
    omega

/-- The bits that are requested and not done are the offsets handed out and not received. -/
theorem count_requested (h : Assembled s) :
    (s.piece.blocksRequested.sub s.piece.blocksDone).count =
      s.requested.countP fun o => decide ¬s.Has o := by
  have hindex : ∀ j < s.piece.blockCount.toNat,
      (Piece.blockOffset j / Piece.blockSize).toNat = j := by
    intro j hj
    rw [UInt32.toNat_div, (@Piece.blockOffset_toNat s.piece.pieceSize _ hj).1,
      Piece.blockSize_toNat]
    omega
  have hnodup : ((s.requested.filter fun o => decide ¬s.Has o).map
      fun o => (o / Piece.blockSize).toNat).Nodup := by
    refine (h.nodup.filter _).map_on fun o ho o' ho' he => ?_
    obtain ⟨j, hj, rfl, -⟩ := h.marked o (List.mem_of_mem_filter ho)
    obtain ⟨k, hk, rfl, -⟩ := h.marked o' (List.mem_of_mem_filter ho')
    rw [hindex j hj, hindex k hk] at he
    rw [he]
  have hset : ((Finset.range (s.piece.blocksRequested.sub s.piece.blocksDone).size).filter
      fun i => (s.piece.blocksRequested.sub s.piece.blocksDone).bit i = true) =
        ((s.requested.filter fun o => decide ¬s.Has o).map
          fun o => (o / Piece.blockSize).toNat).toFinset := by
    ext i
    rw [Finset.mem_filter, Finset.mem_range, List.mem_toFinset, List.mem_map]
    constructor
    · intro hin
      obtain ⟨-, hbit⟩ := hin
      simp only [Bitfield.bit_sub, Bool.and_eq_true, Bool.not_eq_true'] at hbit
      obtain ⟨hi, hmem⟩ := h.requested i hbit.1.1
      refine ⟨_, List.mem_filter.2 ⟨hmem, decide_eq_true fun hhas => ?_⟩, hindex i hi⟩
      rw [(h.done i hi).2 hhas] at hbit
      cases hbit.1.2
    · intro hin
      obtain ⟨o, ho, rfl⟩ := hin
      obtain ⟨hmem, hhas⟩ := List.mem_filter.1 ho
      obtain ⟨j, hj, rfl, hreq⟩ := h.marked o hmem
      have hdone : s.piece.blocksDone.bit j = false :=
        Bool.eq_false_iff.2 fun hd => of_decide_eq_true hhas ((h.done j hj).1 hd)
      have hsize : j < s.piece.blocksDone.size := by
        rw [h.formed.done]
        exact Nat.lt_of_lt_of_le hj (Bitfield.le_size_ofCount _)
      have hbit : (s.piece.blocksRequested.sub s.piece.blocksDone).bit j = true := by
        rw [Bitfield.bit_sub, hreq, hdone, decide_eq_true hsize]
        rfl
      rw [hindex j hj]
      exact ⟨Bitfield.lt_size_of_bit _ hbit, hbit⟩
  rw [Bitfield.count_eq, hset, List.toFinset_card_of_nodup hnodup, List.length_map,
    List.countP_eq_length_filter]

theorem block (h : Assembled s) {offset : UInt32} {data : Bytes} {now : Int}
    (hop : (PieceOp.setBlock offset data now).Scheduled s.piece) :
    ∃ last piece, s.piece.setBlock offset data now = .ok (last, piece) ∧
      (last = true ↔ (s.after (.setBlock offset data now)).HasAll) ∧
      (last = true → (s.after (.setBlock offset data now)).Joined) := by
  obtain ⟨hmod, hlt, hlen⟩ := hop
  have hlt' := UInt32.lt_iff_toNat_lt.1 hlt
  have haccepts : s.piece.Accepts offset data := by
    rw [Piece.blockLength] at hlen
    refine ⟨hmod, by omega, by omega, ?_⟩
    rw [h.formed.done]
    exact Nat.lt_of_lt_of_le (Piece.block_lt hlt') (Bitfield.le_size_ofCount _)
  obtain ⟨⟨last, piece⟩, hb⟩ := h.formed.setBlock_returns haccepts now
  have h' := @Assembled.after s h (.setBlock offset data now)
    (PieceOp.Scheduled.whole ⟨hmod, hlt, hlen⟩)
  have hpiece : (s.after (.setBlock offset data now)).piece = piece := by
    rw [Assembly.after, hb]
  have hlast : last = true ↔ (s.after (.setBlock offset data now)).HasAll := by
    rw [h'.hasAll_iff, hpiece, (Piece.setBlock_ok hb).2.2.2]
  exact ⟨last, piece, hb, hlast, fun hl => h'.joined (hlast.1 hl)⟩

end Assembled

/-- A piece hands out its blocks in order, each once until the requests are forgotten, and is
complete with the first copy of each, in whatever order they arrive. -/
theorem scheduled_run {s : Assembly} {id size : UInt32} {ops : List PieceOp}
    (hr : Run (Assembly.Step fun p op => op.Scheduled p) (.new id size) ops s) : s.Schedules := by
  have h : Assembled s := .run (hr.mono fun _ _ _ hs => ⟨hs.1.whole, hs.2⟩)
  refine ⟨h.next, h.nodup, fun _ _ _ hop => h.block hop, fun now hf => ?_⟩
  rw [Piece.retryBlocks_eq, if_pos hf]
  exact ⟨h.count_requested, rfl, rfl⟩

theorem scheduled_run_two : ∃ s, Run (Assembly.Step fun p op => op.Scheduled p) (.new 0 2)
    [.nextOffset true 5, .setBlock 0 [7, 8] 6, .setBlock 0 [9, 9] 7] s ∧ s.requested = [0] ∧
    s.piece.data = [7, 8] ∧ s.Schedules := by
  have hr : Run (Assembly.Step fun p op => op.Scheduled p) (.new 0 2)
      [.nextOffset true 5, .setBlock 0 [7, 8] 6, .setBlock 0 [9, 9] 7] _ :=
    .cons ⟨rfl, rfl⟩ (.cons ⟨⟨rfl, by decide, rfl⟩, rfl⟩ (.cons ⟨⟨rfl, by decide, rfl⟩, rfl⟩ (.nil _)))
  exact ⟨_, hr, by decide, by decide, scheduled_run hr⟩

end Zit
