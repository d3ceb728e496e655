import Zit.Lib.Fallible
import Zit.Piece
import Zit.Proof.Bitfield

/-!
# What the functions of a piece keep

No function changes the id and the size. A piece is complete when every block has its bit
(`complete_iff`); `set_block` says so of the piece it leaves (`setBlock_ok`) and
`set_piece_written` makes it so (`setPieceWritten_complete`).
-/

set_option autoImplicit false

namespace Zit.Piece

open Lib

variable {p p' : Piece}

theorem complete_iff : p.complete = true ↔
    ∀ j < p.blocksDone.size, j < p.blockCount.toNat → p.blocksDone.bit j = true := by
  unfold complete
  constructor
  · intro h j hj hlt
    have hne : p.blocksDone.bit j ≠ false := by
      cases hn : p.blocksDone.next false with
      | none => exact p.blocksDone.next_none hn (Nat.zero_le j) hj
      | some next =>
        simp only [hn, decide_eq_true_eq] at h
        exact (p.blocksDone.next_some hn).2.2.2 j (Nat.zero_le j) (by omega)
    simpa using hne
  · intro h
    cases hn : p.blocksDone.next false with
    | none => rfl
    | some next =>
      obtain ⟨-, hsize, hbit, -⟩ := p.blocksDone.next_some hn
      simp only [decide_eq_true_eq]
      by_contra hc
      rw [h next hsize (by omega)] at hbit
      cases hbit

theorem bit_foldl_set (l : List Nat) (bf : Bitfield) (j : Nat) :
    (l.foldl (fun bf i => bf.set i true) bf).bit j = (decide (j ∈ l) || bf.bit j) := by
  induction l generalizing bf with
  | nil => simp
  | cons i l ih =>
    rw [List.foldl_cons, ih, Bitfield.bit_set]
    by_cases hij : j = i <;> simp [hij]

theorem setPieceWritten_complete (b : Bool) : (p.setPieceWritten b).complete = true := by
  rw [complete_iff]
  intro j _ hlt
  change j < p.blockCount.toNat at hlt
  show ((List.range p.blockCount.toNat).foldl _ p.blocksDone).bit j = true
  rw [bit_foldl_set, decide_eq_true (List.mem_range.2 hlt), Bool.true_or]

/-- What a call that only makes or forgets requests keeps. -/
structure SameBlocks (p p' : Piece) : Prop where
  id : p'.id = p.id
  pieceSize : p'.pieceSize = p.pieceSize
  blocksDone : p'.blocksDone = p.blocksDone
  data : p'.data = p.data
  pieceWritten : p'.pieceWritten = p.pieceWritten
  requested : p.blocksRequested.size = (Bitfield.ofCount p.blockCount.toNat).size →
    p'.blocksRequested.size = p.blocksRequested.size

theorem SameBlocks.refl (p : Piece) : SameBlocks p p := ⟨rfl, rfl, rfl, rfl, rfl, fun _ => rfl⟩

theorem SameBlocks.trans {p'' : Piece} (h : SameBlocks p p') (h' : SameBlocks p' p'') :
    SameBlocks p p'' := by
  refine ⟨h'.id.trans h.id, h'.pieceSize.trans h.pieceSize, h'.blocksDone.trans h.blocksDone,
    h'.data.trans h.data, h'.pieceWritten.trans h.pieceWritten, fun hsize => ?_⟩
  have hcount : p'.blockCount = p.blockCount := by rw [blockCount, blockCount, h.pieceSize]
  have hsize' := h.requested hsize
  exact (h'.requested (hsize'.trans (by rw [hcount]; exact hsize))).trans hsize'

theorem SameBlocks.complete (h : SameBlocks p p') : p'.complete = p.complete := by
  unfold Piece.complete blockCount
  rw [h.blocksDone, h.pieceSize]

/-- A bit that is set where there is one does not change the size. -/
theorem size_set_of_lt {bf : Bitfield} {i : Nat} (h : i < bf.size) (b : Bool) :
    (bf.set i b).size = bf.size := by
  have hmod := bf.size_mod
  rw [Bitfield.size_set]
  omega

theorem nextOffset_ok {mark : Bool} {now : Int} {r : Option UInt32}
    (h : p.nextOffset mark now = .ok (r, p')) : SameBlocks p p' := by
  unfold nextOffset at h
  split at h
  · cases h
    exact .refl p
  · rename_i next hn
    split at h
    · cases h
      exact .refl p
    · obtain ⟨_, -, h⟩ := bind_eq_ok.1 h
      cases pure_eq_ok.1 h
      split
      · refine ⟨rfl, rfl, rfl, rfl, rfl, fun _ => size_set_of_lt ?_ true⟩
        have hlt := (Bitfield.next_some _ hn).2.1
        rw [Bitfield.size_add] at hlt
        omega
      · exact .refl p

theorem retryBlocks_same (p : Piece) (now : Int) : SameBlocks p (p.retryBlocks now).2 := by
  unfold retryBlocks
  split
  · exact .refl p
  · dsimp only
    split
    · exact .refl p
    · split
      · exact ⟨rfl, rfl, rfl, rfl, rfl, fun h => h.symm⟩
      · exact .refl p

theorem setBlock_ok {offset : UInt32} {data : Bytes} {now : Int} {last : Bool}
    (h : p.setBlock offset data now = .ok (last, p')) :
    p'.id = p.id ∧ p'.pieceSize = p.pieceSize ∧ p'.pieceWritten = p.pieceWritten ∧
      p'.complete = last := by
  unfold setBlock at h
  split at h
  · cases h
  split at h
  · cases h
  split at h
  · cases h
  obtain ⟨done, -, h⟩ := bind_eq_ok.1 h
  dsimp only at h
  split at h
  · cases pure_eq_ok.1 h
    exact ⟨rfl, rfl, rfl, rfl⟩
  · obtain ⟨_, -, h⟩ := bind_eq_ok.1 h
    obtain ⟨_, -, h⟩ := bind_eq_ok.1 h
    cases pure_eq_ok.1 h
    exact ⟨rfl, rfl, rfl, rfl⟩

theorem blockCountOf_toNat (size : UInt32) :
    (blockCountOf size).toNat = (size.toNat + 16383) / 16384 := by
  have hblock : blockSize = 16384 := by decide
  have hlt := size.toNat_lt
  unfold blockCountOf
  rw [hblock, UInt32.toNat_add, UInt32.toNat_div]
  split
  · rename_i hmod
    have hne : size.toNat % 16384 ≠ 0 := fun h0 => hmod (UInt32.toNat.inj (by simpa using h0))
    simp
    omega
  · rename_i hmod
    have hzero : (size % 16384).toNat = 0 := by rw [not_not.1 hmod]; rfl
    rw [UInt32.toNat_mod] at hzero
    simp at hzero ⊢
    omega

/-- A piece of some size has a block. -/
theorem blockCountOf_pos {size : UInt32} (h : size ≠ 0) : 0 < (blockCountOf size).toNat := by
  have hsize : size.toNat ≠ 0 := fun h0 => h (UInt32.toNat.inj h0)
  rw [blockCountOf_toNat]
  omega

/-- A new piece of some size lacks its first block. -/
theorem create_incomplete {id size : UInt32} (h : size ≠ 0) :
    (create id size).complete = false := by
  by_contra hc
  have hpos := blockCountOf_pos h
  have hlt : 0 < (create id size).blocksDone.size :=
    Nat.lt_of_lt_of_le hpos (Bitfield.le_size_ofCount _)
  have hbit := complete_iff.1 (by simpa using hc) 0 hlt hpos
  exact Bool.false_ne_true ((Bitfield.bit_ofCount _ 0).symm.trans hbit)

/-! ## Well-formed pieces -/

section
variable {offset : UInt32} {data : Bytes} {now : Int}

/-- A bit for each block in both bitfields, the data until the piece is written, and all blocks
afterwards. -/
structure Formed (p : Piece) : Prop where
  requested : p.blocksRequested.size = (Bitfield.ofCount p.blockCount.toNat).size
  done : p.blocksDone.size = (Bitfield.ofCount p.blockCount.toNat).size
  data : p.pieceWritten = false → p.data.length = p.pieceSize.toNat
  full : p.pieceWritten = true → p.complete = true

/-! ## Blocks -/

/-- An offset in a piece is in one of its blocks. -/
theorem block_lt {size : UInt32} (h : offset.toNat < size.toNat) :
    (offset / blockSize).toNat < (blockCountOf size).toNat := by
  rw [blockCountOf_toNat, UInt32.toNat_div, show blockSize.toNat = 16384 by decide]
  omega

theorem copyBlock_length {copied : Bytes} (h : p.copyBlock offset data = .ok copied) :
    copied.length = p.data.length := by
  unfold copyBlock at h
  split at h
  · cases h
    rfl
  · split at h
    · rename_i hle
      cases h
      rw [overwrite_length]
      omega
    · cases h

/-- A block that the checks of `set_block` let through. -/
structure Accepts (p : Piece) (offset : UInt32) (data : Bytes) : Prop where
  aligned : offset % blockSize = 0
  small : data.length ≤ blockSize.toNat
  fits : data.length + offset.toNat ≤ p.pieceSize.toNat
  stored : (offset / blockSize).toNat < p.blocksDone.size

/-- What `set_block` leaves: a block is stored when it is not done yet. -/
theorem setBlock_stored {last : Bool} (h : p.setBlock offset data now = .ok (last, p')) :
    p.Accepts offset data ∧
      (p.blocksDone.bit (offset / blockSize).toNat = true ∧ p' = { p with lastBlock := now } ∨
        p.blocksDone.bit (offset / blockSize).toNat = false ∧
          ∃ copied, p.copyBlock offset data = .ok copied ∧ p' = { p with
            data := copied
            blocksDone := p.blocksDone.set (offset / blockSize).toNat true
            lastBlock := now }) := by
  unfold setBlock at h
  split at h
  · cases h
  rename_i haligned
  split at h
  · cases h
  split at h
  · cases h
  obtain ⟨done, hdone, h⟩ := bind_eq_ok.1 h
  rw [Bitfield.get_eq] at hdone
  split at hdone
  · rename_i hlt
    cases hdone
    refine ⟨⟨not_not.1 haligned, by omega, by omega, hlt⟩, ?_⟩
    dsimp only at h
    split at h
    · rename_i hbit
      cases pure_eq_ok.1 h
      exact .inl ⟨hbit, rfl⟩
    · rename_i hbit
      obtain ⟨_, -, h⟩ := bind_eq_ok.1 h
      obtain ⟨copied, hcopied, h⟩ := bind_eq_ok.1 h
      cases pure_eq_ok.1 h
      exact .inr ⟨by simpa using hbit, copied, hcopied, rfl⟩
  · cases hdone

theorem size_foldl_set {l : List Nat} {bf : Bitfield} (h : ∀ i ∈ l, i < bf.size) :
    (l.foldl (fun bf i => bf.set i true) bf).size = bf.size := by
  induction l generalizing bf with
  | nil => rfl
  | cons i l ih =>
    have hset := size_set_of_lt (h i List.mem_cons_self) true
    rw [List.foldl_cons, ih, hset]
    intro k hk
    rw [hset]
    exact h k (List.mem_cons_of_mem _ hk)

/-! ## What keeps a piece well formed -/

namespace Formed

theorem create (id size : UInt32) : (create id size).Formed :=
  ⟨rfl, rfl, fun _ => List.length_replicate, fun h => by cases h⟩

theorem reset (p : Piece) : p.reset.Formed :=
  ⟨rfl, rfl, fun _ => List.length_replicate, fun h => by cases h⟩

theorem written (h : p.Formed) : (p.setPieceWritten true).Formed := by
  refine ⟨h.requested, ?_, nofun, fun _ => setPieceWritten_complete true⟩
  have hin : ∀ i ∈ List.range p.blockCount.toNat, i < p.blocksDone.size := by
    intro i hi
    rw [h.done]
    exact Nat.lt_of_lt_of_le (List.mem_range.1 hi) (Bitfield.le_size_ofCount _)
  exact (size_foldl_set hin).trans h.done

theorem same (h : p.Formed) (hs : SameBlocks p p') : p'.Formed := by
  have hcount : p'.blockCount = p.blockCount := by rw [blockCount, hs.pieceSize, blockCount]
  refine ⟨?_, ?_, fun hw => ?_, fun hw => ?_⟩
  · rw [hs.requested h.requested, hcount, h.requested]
  · rw [hs.blocksDone, hcount, h.done]
  · rw [hs.data, hs.pieceSize]
    exact h.data (hs.pieceWritten ▸ hw)
  · rw [hs.complete]
    exact h.full (hs.pieceWritten ▸ hw)

theorem block (h : p.Formed) {last : Bool} (hb : p.setBlock offset data now = .ok (last, p')) :
    p'.Formed := by
  obtain ⟨ha, ⟨-, rfl⟩ | ⟨-, copied, hcopied, rfl⟩⟩ := setBlock_stored hb
  · exact ⟨h.requested, h.done, h.data, h.full⟩
  · have hset := size_set_of_lt ha.stored true
    refine ⟨h.requested, hset.trans h.done, fun hw => (copyBlock_length hcopied).trans (h.data hw),
      fun hw => ?_⟩
    rw [complete_iff]
    intro j hj hcount
    show (p.blocksDone.set (offset / blockSize).toNat true).bit j = true
    rw [Bitfield.bit_set]
    split
    · rfl
    · exact complete_iff.1 (h.full hw) j (Nat.lt_of_lt_of_eq hj hset) hcount

/-- A block that is not done has room in the data. -/
theorem copyBlock_returns (h : p.Formed) (ha : p.Accepts offset data)
    (hbit : p.blocksDone.bit (offset / blockSize).toNat = false) :
    p.copyBlock offset data =
      .ok (if data = [] then p.data else overwrite 0 p.data offset.toNat data) := by
  unfold copyBlock
  by_cases hd : data = []
  · rw [if_pos hd, if_pos hd]
  · have hpos := List.length_pos_iff.2 hd
    have hfits := ha.fits
    have hw : p.pieceWritten = false := by
      by_contra hw
      have hcount := @block_lt offset p.pieceSize (by omega)
      rw [complete_iff.1 (h.full (by simpa using hw)) _ ha.stored hcount] at hbit
      cases hbit
    rw [if_neg hd, if_neg hd, if_pos (by rw [h.data hw]; omega)]

/-- Such a block is stored. -/
theorem setBlock_returns (h : p.Formed) (ha : p.Accepts offset data) (now : Int) :
    ∃ r, p.setBlock offset data now = .ok r := by
  have hreq : (offset / blockSize).toNat < p.blocksRequested.size := by
    rw [h.requested, ← h.done]
    exact ha.stored
  have hsmall := ha.small
  have hfits := ha.fits
  unfold setBlock
  rw [if_neg (not_not.2 ha.aligned), if_neg (by omega), if_neg (by omega)]
  simp only [Bitfield.get_eq, if_pos ha.stored, if_pos hreq, bind, Except.bind]
  cases hbit : p.blocksDone.bit (offset / blockSize).toNat with
  | true => exact ⟨_, rfl⟩
  | false =>
    simp only [h.copyBlock_returns ha hbit]
    exact ⟨_, rfl⟩

/-- `next_offset` finds the first block that is neither requested nor done, and marks it. -/
theorem nextOffset_first (h : p.Formed) (mark : Bool) (now : Int) :
    (p.nextOffset mark now = .ok (none, p) ∧ ∀ j < p.blockCount.toNat,
        p.blocksRequested.bit j = true ∨ p.blocksDone.bit j = true) ∨
      ∃ next < p.blockCount.toNat, p.blocksRequested.bit next = false ∧
        p.blocksDone.bit next = false ∧
        (∀ j < next, p.blocksRequested.bit j = true ∨ p.blocksDone.bit j = true) ∧
        p.nextOffset mark now = .ok (some (UInt32.ofNat next * blockSize), if mark then
          { p with blocksRequested := p.blocksRequested.set next true, lastRequest := now } else p) := by
  have hsame : p.blocksRequested.size = p.blocksDone.size := h.requested.trans h.done.symm
  have hbit : ∀ j, (p.blocksRequested.add p.blocksDone).bit j ≠ false →
      p.blocksRequested.bit j = true ∨ p.blocksDone.bit j = true := by
    intro j hj
    rwa [Bitfield.bit_add _ _ hsame, Bool.ne_false_iff, Bool.or_eq_true] at hj
  have hsize : p.blockCount.toNat ≤ (p.blocksRequested.add p.blocksDone).size := by
    rw [Bitfield.size_add, h.requested, h.done, Nat.min_self]
    exact Bitfield.le_size_ofCount _
  cases hn : (p.blocksRequested.add p.blocksDone).next false with
  | none =>
    refine .inl ⟨by rw [nextOffset, hn], fun j hj => hbit j ?_⟩
    exact Bitfield.next_none _ hn (Nat.zero_le j) (by omega)
  | some next =>
    obtain ⟨-, hlt, hno, hleast⟩ := Bitfield.next_some _ hn
    have hcount := p.blockCount.toNat_lt
    have hne : p.blockCount.toNat ≠ 0 := by
      intro h0
      rw [Bitfield.size_add, h.requested, h.done, Nat.min_self, h0] at hlt
      exact absurd hlt (Nat.not_lt_zero next)
    have hsub : (p.blockCount - 1).toNat = p.blockCount.toNat - 1 :=
      UInt32.toNat_sub_of_le _ _ (UInt32.le_iff_toNat_le.2 (Nat.one_le_iff_ne_zero.2 hne))
    by_cases hlast : next < p.blockCount.toNat
    · rw [Bitfield.bit_add _ _ hsame, Bool.or_eq_false_iff] at hno
      refine .inr ⟨next, hlast, hno.1, hno.2, fun j hj => hbit j (hleast j (Nat.zero_le j) hj), ?_⟩
      simp only [nextOffset, hn, if_neg (show ¬next > (p.blockCount - 1).toNat by omega),
        castSizeU32_of (show next < 2 ^ 32 by omega)]
      rfl
    · refine .inl ⟨?_, fun j hj => hbit j (hleast j (Nat.zero_le j) (by omega))⟩
      simp only [nextOffset, hn, if_pos (show next > (p.blockCount - 1).toNat by omega)]

end Formed

end

end Zit.Piece
