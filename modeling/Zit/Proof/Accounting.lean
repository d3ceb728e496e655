import Mathlib.Algebra.Order.BigOperators.Group.Finset
import Zit.Proof.ReadBack

/-!
# What has been downloaded

`downloaded()` sums the sizes of the active pieces that are written. For metadata whose number of
pieces fits its length (`Consistent`) the sizes of the pieces tile the length (`sum_lenAt`), and
every written piece is one of them, so `left()` is the length of the pieces that are not written
(`accounting_exact`).
-/

set_option autoImplicit false

namespace Zit

open Lib Lib.Path World

/-- The number of pieces is the length divided by the piece length, rounded up. -/
structure Consistent (t : Torrent) (length : Int) : Prop where
  pieceLength : 0 < t.pieceLength.toNat
  length_ok : t.length = .ok length
  pieces : 0 < t.pieces.length
  count : (t.pieces.length : Int) =
    (length + (t.pieceLength.toNat - 1 : Nat)) / t.pieceLength.toNat

/-- `piece_length` of the piece at an index. -/
def lenAt (t : Torrent) (i : Nat) : Nat :=
  ((t.pieceLengthAt (UInt32.ofNat i)).toOption.getD 0).toNat

theorem toNat_ofNat_lt {n : Nat} (h : n < 2 ^ 32) : (UInt32.ofNat n).toNat = n :=
  UInt32.toNat_ofNat_of_lt' h

section
variable {t : Torrent} {length : Int}

/-! ## The sizes of the pieces -/

/-- All pieces but the last are full, and the last one has the rest, which is not empty. -/
theorem Consistent.split (h : Consistent t length) : ∃ full rest : Nat,
    t.pieces.length = full + 1 ∧ length = (full * t.pieceLength.toNat + rest : Nat) ∧ 0 < rest ∧
      rest ≤ t.pieceLength.toNat := by
  have hP := h.pieceLength
  obtain ⟨full, hfull⟩ : ∃ full, t.pieces.length = full + 1 := ⟨t.pieces.length - 1, by
    have := h.pieces
    omega⟩
  have hP' : (0 : Int) < (t.pieceLength.toNat : Int) := by omega
  have hcount := h.count
  have hle := Int.ediv_mul_le (length + (t.pieceLength.toNat - 1 : Nat)) (Int.ne_of_gt hP')
  have hlt := Int.lt_ediv_add_one_mul_self (length + (t.pieceLength.toNat - 1 : Nat)) hP'
  rw [← hcount, hfull] at hle hlt
  have hprod : ((full + 1 : Nat) : Int) * t.pieceLength.toNat =
      (full * t.pieceLength.toNat : Nat) + t.pieceLength.toNat := by
    rw [Int.natCast_add, Int.natCast_mul, Int.add_mul]
    simp
  have hprod' : (((full + 1 : Nat) : Int) + 1) * t.pieceLength.toNat =
      (full * t.pieceLength.toNat : Nat) + t.pieceLength.toNat + t.pieceLength.toNat := by
    rw [Int.add_mul, hprod, Int.one_mul]
  rw [hprod] at hle
  rw [hprod'] at hlt
  refine ⟨full, (length - (full * t.pieceLength.toNat : Nat)).toNat, hfull, ?_, ?_, ?_⟩ <;> omega

/-- `piece_length` of each piece. -/
theorem Consistent.pieceLengthAt (h : Consistent t length) (hn : t.pieces.length ≤ 2 ^ 32) {i : Nat}
    (hi : i < t.pieces.length) : ∃ size : UInt32, t.pieceLengthAt (UInt32.ofNat i) = .ok size ∧
      0 < size.toNat ∧ size.toNat ≤ t.pieceLength.toNat ∧
        (i + 1 < t.pieces.length → size = t.pieceLength) ∧
        (i + 1 = t.pieces.length → length = (i * t.pieceLength.toNat + size.toNat : Nat)) := by
  obtain ⟨full, rest, hfull, hlength, hpos, hrest⟩ := h.split
  have hP := h.pieceLength
  have hlt := t.pieceLength.toNat_lt
  have hid : (UInt32.ofNat i).toNat = i := toNat_ofNat_lt (by omega)
  unfold Torrent.pieceLengthAt
  rw [hid]
  by_cases hlast : i + 1 = t.pieces.length
  · have hifull : i = full := by omega
    have hne : t.pieceLength ≠ 0 := fun h0 => by simp [h0] at hP
    have hmod : length.tmod t.pieceLength.toNat = (rest % t.pieceLength.toNat : Nat) := by
      rw [hlength, Int.tmod_eq_emod_of_nonneg (by omega), ← Int.natCast_mod, Nat.mul_comm,
        Nat.mul_add_mod]
    have hsmall : rest % t.pieceLength.toNat < 2 ^ 32 :=
      Nat.lt_trans (Nat.mod_lt _ hP) (by omega)
    rw [if_pos hlast, h.length_ok]
    simp only [bind, Except.bind, if_neg hne, hmod, castU32_of hsmall]
    by_cases hfit : rest = t.pieceLength.toNat
    · have hzero : UInt32.ofNat (rest % t.pieceLength.toNat) = 0 := by
        rw [hfit, Nat.mod_self]
        rfl
      refine ⟨t.pieceLength, by rw [hzero]; rfl, hP, Nat.le_refl _, fun _ => rfl, fun _ => ?_⟩
      rw [hlength, hifull, hfit]
    · have hself : rest % t.pieceLength.toNat = rest := Nat.mod_eq_of_lt (by omega)
      have hto : (UInt32.ofNat rest).toNat = rest := toNat_ofNat_lt (by omega)
      have hnz : UInt32.ofNat rest ≠ 0 := fun h0 => by
        rw [h0] at hto
        simp at hto
        omega
      rw [hself]
      refine ⟨UInt32.ofNat rest, by rw [if_pos hnz]; rfl, by omega, by omega, fun _ => by omega,
        fun _ => ?_⟩
      rw [hlength, hifull, hto]
  · rw [if_neg hlast]
    exact ⟨t.pieceLength, rfl, hP, Nat.le_refl _, fun _ => rfl, fun h => absurd h hlast⟩

theorem Consistent.lenAt_eq (h : Consistent t length) (hn : t.pieces.length ≤ 2 ^ 32) {i : Nat}
    (hi : i < t.pieces.length) :
    t.pieceLengthAt (UInt32.ofNat i) = .ok (UInt32.ofNat (lenAt t i)) ∧ 0 < lenAt t i ∧
      lenAt t i ≤ t.pieceLength.toNat := by
  obtain ⟨size, hsize, hpos, hle, -, -⟩ := h.pieceLengthAt hn hi
  have hlen : lenAt t i = size.toNat := by
    rw [lenAt, hsize]
    rfl
  rw [hlen, UInt32.ofNat_toNat]
  exact ⟨hsize, hpos, hle⟩

/-- The pieces tile the length. -/
theorem Consistent.sum_lenAt (h : Consistent t length) (hn : t.pieces.length ≤ 2 ^ 32) :
    ((∑ i ∈ Finset.range t.pieces.length, lenAt t i : Nat) : Int) = length := by
  obtain ⟨full, rest, hfull, -, -, -⟩ := h.split
  have hlen : ∀ i, ∀ size, t.pieceLengthAt (UInt32.ofNat i) = .ok size →
      lenAt t i = size.toNat := fun i size hs => by
    rw [lenAt, hs]
    rfl
  have hall : ∀ i ∈ Finset.range full, lenAt t i = t.pieceLength.toNat := by
    intro i hi
    rw [Finset.mem_range] at hi
    obtain ⟨size, hs, -, -, hsame, -⟩ := h.pieceLengthAt hn (i := i) (by omega)
    rw [hlen i size hs, hsame (by omega)]
  obtain ⟨size, hs, -, -, -, hlast⟩ := h.pieceLengthAt hn (i := full) (by omega)
  rw [hfull, Finset.sum_range_succ, Finset.sum_const_nat hall, Finset.card_range,
    hlen full size hs, hlast (by omega)]

end

/-! ## The pieces that are written -/

/-- The active piece at the index is written. -/
def writtenAt (w : World) (i : Nat) : Bool :=
  (w.activePieces.lookup (UInt32.ofNat i)).any (w.isWritten ·)

section
variable {sha1 : Bytes → Sha1} {t : Torrent} {length : Int} {w : World}

theorem writtenAt_iff {i : Nat} (hi : i < 2 ^ 32) :
    writtenAt w i = true ↔ ∃ id ref p, id.toNat = i ∧ Written w id ref p := by
  unfold writtenAt
  rw [Option.any_eq_true]
  constructor
  · intro h
    obtain ⟨ref, hl, hw⟩ := h
    cases hp : w.heap[ref]? with
    | none =>
      rw [isWritten, hp] at hw
      cases hw
    | some p =>
      rw [isWritten, hp] at hw
      exact ⟨_, ref, p, toNat_ofNat_lt hi, hl, hp, hw⟩
  · intro h
    obtain ⟨id, ref, p, rfl, hl, hp, hw⟩ := h
    rw [UInt32.ofNat_toNat]
    exact ⟨ref, hl, by rw [isWritten, hp]; exact hw⟩

/-- A written piece is one of the torrent, with the size `piece_length` gives. -/
theorem Written.counted (hs : Sound sha1 t w) (hr : Recorded t w) {id : UInt32} {ref : Nat}
    {p : Piece} (hw : Written w id ref p) :
    id.toNat < t.pieces.length ∧ Torrent.downloadedPiece w ref = lenAt t id.toNat := by
  obtain ⟨hl, hp, hwr⟩ := hw
  have hid := hs.active_id hl hp
  obtain ⟨m, hm, -, hmid⟩ := hs.written ref p hp hwr
  have hmark := (List.getElem?_eq_some_iff.1 (hs.marks m hm)).1
  refine ⟨by rwa [← hid, ← hmid], ?_⟩
  have hsize := hr.sizes ref p hp
  rw [hid] at hsize
  rw [Torrent.downloadedPiece, hp, lenAt, UInt32.ofNat_toNat, hsize]
  exact if_pos hwr

theorem sum_entries (h : Consistent t length) (hn : t.pieces.length ≤ 2 ^ 32) (hs : Sound sha1 t w)
    (hr : Recorded t w) : (w.activePieces.entries.map fun e => Torrent.downloadedPiece w e.2).sum =
      ∑ i ∈ (Finset.range t.pieces.length).filter (writtenAt w · = true), lenAt t i := by
  have hnodup : w.activePieces.entries.Nodup := w.activePieces.nodupKeys.nodup
  have hwritten : ∀ e ∈ w.activePieces.entries, Torrent.downloadedPiece w e.2 ≠ 0 →
      ∃ p, Written w e.1 e.2 p := by
    intro e he hne
    have hl : w.activePieces.lookup e.1 = some e.2 := AList.mem_lookup_iff.2 he
    rw [Torrent.downloadedPiece] at hne
    cases hp : w.heap[e.2]? with
    | none => simp [hp] at hne
    | some p =>
      by_cases hw : p.pieceWritten = true
      · exact ⟨p, hl, hp, hw⟩
      · simp [hp, hw] at hne
  rw [← List.sum_toFinset _ hnodup, ← Finset.sum_filter_ne_zero]
  refine Finset.sum_nbij (fun e => e.1.toNat) (fun e he => ?_) (fun e he e' he' heq => ?_)
    (fun i hi => ?_) fun e he => ?_
  · obtain ⟨hmem, hne⟩ := Finset.mem_filter.1 he
    obtain ⟨p, hw⟩ := hwritten e (List.mem_toFinset.1 hmem) hne
    have hlt := (hw.counted hs hr).1
    exact Finset.mem_filter.2 ⟨Finset.mem_range.2 hlt,
      (writtenAt_iff (by omega)).2 ⟨e.1, e.2, p, rfl, hw⟩⟩
  · have hmem := List.mem_toFinset.1 (Finset.mem_filter.1 (Finset.mem_coe.1 he)).1
    have hmem' := List.mem_toFinset.1 (Finset.mem_filter.1 (Finset.mem_coe.1 he')).1
    have hid : e.1 = e'.1 := UInt32.toNat.inj heq
    have h1 : w.activePieces.lookup e.1 = some e.2 := AList.mem_lookup_iff.2 hmem
    have h2 : w.activePieces.lookup e'.1 = some e'.2 := AList.mem_lookup_iff.2 hmem'
    rw [hid, h2, Option.some.injEq] at h1
    exact Sigma.ext hid (heq_of_eq h1.symm)
  · obtain ⟨hlt, hw⟩ := Finset.mem_filter.1 (Finset.mem_coe.1 hi)
    rw [Finset.mem_range] at hlt
    obtain ⟨id, ref, p, rfl, hwr⟩ := (writtenAt_iff (by omega)).1 hw
    refine ⟨⟨id, ref⟩, Finset.mem_coe.2 (Finset.mem_filter.2 ⟨?_, ?_⟩), rfl⟩
    · exact List.mem_toFinset.2 (AList.mem_lookup_iff.1 hwr.1)
    · rw [(hwr.counted hs hr).2]
      exact Nat.pos_iff_ne_zero.1 (h.lenAt_eq hn hlt).2.1
  · obtain ⟨hmem, hne⟩ := Finset.mem_filter.1 he
    obtain ⟨p, hw⟩ := hwritten e (List.mem_toFinset.1 hmem) hne
    exact (hw.counted hs hr).2

/-- The sum does not overflow while it stays within the length. -/
theorem downloadedFrom_ok (pieces : List (Sigma fun _ : UInt32 => Nat)) {sum : Int} (h0 : 0 ≤ sum)
    (hmax : sum + (pieces.map fun e => Torrent.downloadedPiece w e.2).sum < 2 ^ 63) :
    Torrent.downloadedFrom w sum pieces =
      .ok (sum + (pieces.map fun e => Torrent.downloadedPiece w e.2).sum) := by
  induction pieces generalizing sum with
  | nil =>
    simp only [List.map_nil, List.sum_nil, Int.natCast_zero, Int.add_zero]
    rfl
  | cons e pieces ih =>
    rw [List.map_cons, List.sum_cons] at hmax ⊢
    rw [Torrent.downloadedFrom, Torrent.int64_of ⟨by omega, by omega⟩]
    simp only [bind, Except.bind]
    rw [ih (by omega) (by omega), Int.natCast_add, Int.add_assoc]

/-- So many pieces cannot be longer. -/
theorem Consistent.length_lt (h : Consistent t length) (hn : t.pieces.length ≤ 5000000) :
    length < 2 ^ 63 := by
  obtain ⟨full, rest, hfull, hlength, -, hrest⟩ := h.split
  have hP := t.pieceLength.toNat_lt
  have hmul : full * t.pieceLength.toNat ≤ 5000000 * 2 ^ 32 := Nat.mul_le_mul (by omega) (by omega)
  omega

/-- `downloaded()` and `left()` in a state whose written pieces are those of the torrent. -/
theorem left_ok (h : Consistent t length) (hn : t.pieces.length ≤ 5000000) (hs : Sound sha1 t w)
    (hr : Recorded t w) : ∃ downloaded left : Nat, Torrent.downloaded w = .ok downloaded ∧
      Torrent.left t w = .ok left ∧ (downloaded + left : Int) = length ∧
      (left = 0 ↔ ∀ i < t.pieces.length, writtenAt w i = true) := by
  have htotal := h.sum_lenAt (by omega)
  have hlt := h.length_lt hn
  have hsplit := Finset.sum_filter_add_sum_filter_not (Finset.range t.pieces.length)
    (fun i => writtenAt w i = true) (lenAt t)
  have hentries := sum_entries h (by omega) hs hr
  have hdown : Torrent.downloaded w = .ok _ := downloadedFrom_ok _ (Int.le_refl 0) (by omega)
  rw [Int.zero_add, hentries] at hdown
  refine ⟨_, ∑ i ∈ (Finset.range t.pieces.length).filter (¬writtenAt w · = true), lenAt t i, hdown,
    ?_, by omega, ?_⟩
  · rw [Torrent.left, h.length_ok, hdown]
    simp only [bind, Except.bind]
    rw [Torrent.int64_of ⟨by omega, by omega⟩]
    congr 1
    omega
  · rw [Finset.sum_eq_zero_iff]
    constructor
    · intro hall i hi
      by_contra hw
      have := hall i (Finset.mem_filter.2 ⟨Finset.mem_range.2 hi, hw⟩)
      have := (h.lenAt_eq (by omega) hi).2.1
      omega
    · intro hall i hi
      obtain ⟨hmem, hw⟩ := Finset.mem_filter.1 hi
      exact absurd (hall i (Finset.mem_range.1 hmem)) hw

theorem Constructed.pieces_le (hc : Constructed sha1 t w) : t.pieces.length ≤ 5000000 := by
  obtain ⟨_, _, _, t0, _, _, ht0, ho, -⟩ := constructed_found hc
  have hp := congrArg (fun t => t.pieces.length) ho.rest
  dsimp only at hp
  rw [hp]
  exact Torrent.ofContent_pieces ht0

/-- The sizes of the pieces tile the length, and in every state `downloaded()` and `left()` add up
to it, with nothing left exactly when every piece is written. -/
theorem accounting_exact {w0 : World} {as : List Action} (hc : Constructed sha1 t w0)
    (ht : Consistent t length) (hr : Run (Step sha1 t) w0 as w) :
    (∀ i < t.pieces.length,
      t.pieceLengthAt (UInt32.ofNat i) = .ok (UInt32.ofNat (lenAt t i)) ∧
        1 ≤ lenAt t i ∧ lenAt t i ≤ t.pieceLength.toNat) ∧
    ((∑ i ∈ Finset.range t.pieces.length, lenAt t i : Nat) : Int) = length ∧
    ∃ downloaded left : Int, Torrent.downloaded w = .ok downloaded ∧ Torrent.left t w = .ok left ∧
      0 ≤ left ∧ left ≤ length ∧ downloaded + left = length ∧
      (left = 0 ↔ ∀ i < t.pieces.length, ∃ id ref p, id.toNat = i ∧ Written w id ref p) := by
  have hn := hc.pieces_le
  have h0 : Sound sha1 t w0 ∧ Recorded t w0 :=
    constructed_inv (I := fun w => Sound sha1 t w ∧ Recorded t w)
      (fun cwd fs => ⟨Sound.start cwd fs, Recorded.start cwd fs⟩)
      (fun _ _ _ h hf => ⟨h.1.found hf, h.2.found hf⟩) hc
  have h : Sound sha1 t w ∧ Recorded t w := chain_inv (I := fun w => Sound sha1 t w ∧ Recorded t w)
    (fun _ _ h hc => ⟨h.1.change hc, h.2.change hc⟩) (run_changes (run_all hr)) h0
  obtain ⟨downloaded, left, hd, hl, hsum, hzero⟩ := left_ok ht hn h.1 h.2
  refine ⟨fun i hi => ht.lenAt_eq (by omega) hi, ht.sum_lenAt (by omega), downloaded, left, hd, hl,
    by omega, by omega, hsum, ?_⟩
  rw [Int.natCast_eq_zero, hzero]
  exact forall_congr' fun i => imp_congr_right fun hi => writtenAt_iff (by omega)

end

/-- One byte is downloaded and written. -/
theorem accounting_exact_oneByte : ∃ t w0 w, Constructed Torrent.oneByteSha1 t w0 ∧
    Consistent t 1 ∧ Run (Step Torrent.oneByteSha1 t) w0 oneByteRun w ∧
    (∑ i ∈ Finset.range t.pieces.length, lenAt t i : Nat) = (1 : Int) ∧
    ∃ downloaded left : Int, Torrent.downloaded w = .ok downloaded ∧ Torrent.left t w = .ok left ∧
      downloaded + left = 1 := by
  have hcheck : checkNew Torrent.oneByteSha1 Torrent.oneByteConfig [] Torrent.oneByteFile [0] ⟨∅⟩
      (fun t w0 => decide (t.pieceLength.toNat = 1) && decide (t.length = .ok 1) &&
        decide (t.pieces.length = 1) &&
        (Action.runAll (fun _ _ => true) Torrent.oneByteSha1 t oneByteRun w0).isSome) = true := by
    decide +kernel
  obtain ⟨t, w0, hc, h⟩ := checkNew_true hcheck
  simp only [Bool.and_eq_true, decide_eq_true_eq, Option.isSome_iff_exists] at h
  obtain ⟨⟨⟨hP, hlen⟩, hn⟩, w, hr⟩ := h
  have hrun := (run_of_runAll hr).mono fun _ _ _ h => h.2
  have ht : Consistent t 1 := ⟨by omega, hlen, by omega, by rw [hP, hn]; rfl⟩
  obtain ⟨-, hsum, downloaded, left, hd, hl, -, -, hadd, -⟩ := accounting_exact hc ht hrun
  exact ⟨t, w0, w, hc, ht, hrun, hsum, downloaded, left, hd, hl, hadd⟩

end Zit
