import Zit.Lib.Fallible
import Zit.Session

/-!
# Where the bytes of a piece are

`home t cwd id i` is the file and the position in it of byte `i` of piece `id`, as the writer
computes it; `fileAtPos_fileOf` and `fileOf_within` connect it to `file_at_pos`. The five places
that multiply an id with the piece length are exact below 4 GiB only (`positions_exact`), and below
4 GiB no two bytes have the same home (`home_inj`).
-/

set_option autoImplicit false

namespace Zit

open Lib Lib.Path

namespace Torrent

/-! ## The file at a position -/

/-- The file that holds the byte at `pos`, with the offset in it; the files begin at `cpos`. -/
def fileOf (pos : Int) : Int → List FileInfo → Option (FileInfo × Int)
  | _, [] => none
  | cpos, fi :: files =>
    if pos < cpos + fi.length then some (fi, pos - cpos) else fileOf pos (cpos + fi.length) files

theorem int64_ok {v r : Int} (h : int64 v = .ok r) : r = v ∧ -2 ^ 63 ≤ v ∧ v < 2 ^ 63 := by
  unfold int64 at h
  split at h
  · rename_i hv
    exact ⟨(Except.ok.inj h).symm, hv⟩
  · cases h

theorem int64_of {v : Int} (h : -2 ^ 63 ≤ v ∧ v < 2 ^ 63) : int64 v = .ok v := if_pos h

theorem fileAtPosFrom_fileOf {pos cpos : Int} {files : List FileInfo} {fi : FileInfo}
    {off left : Int} (h : fileAtPosFrom pos cpos files = .ok (some (fi, off, left))) :
    fileOf pos cpos files = some (fi, off) ∧ left = fi.length - off := by
  induction files generalizing cpos with
  | nil => cases h
  | cons f files ih =>
    unfold fileAtPosFrom at h
    obtain ⟨bound, hb, h⟩ := bind_eq_ok.1 h
    obtain ⟨rfl, -⟩ := int64_ok hb
    unfold fileOf
    split at h
    · rename_i hlt
      obtain ⟨o, ho, h⟩ := bind_eq_ok.1 h
      obtain ⟨l, hl, h⟩ := bind_eq_ok.1 h
      have he := pure_eq_ok.1 h
      simp only [Option.some.injEq, Prod.mk.injEq] at he
      obtain ⟨rfl, rfl, rfl⟩ := he
      rw [if_pos hlt, (int64_ok ho).1, (int64_ok hl).1]
      exact ⟨rfl, by omega⟩
    · rename_i hlt
      rw [if_neg hlt]
      exact ih h

/-- The bytes behind a position, up to the end of its file, are in the same file. -/
theorem fileOf_within {pos cpos : Int} {files : List FileInfo} {fi : FileInfo} {off : Int}
    (h : fileOf pos cpos files = some (fi, off)) {j : Int} (hj : 0 ≤ j)
    (hlt : j < fi.length - off) : fileOf (pos + j) cpos files = some (fi, off + j) := by
  induction files generalizing cpos with
  | nil => cases h
  | cons f files ih =>
    unfold fileOf at h ⊢
    split at h
    · simp only [Option.some.injEq, Prod.mk.injEq] at h
      obtain ⟨rfl, rfl⟩ := h
      rw [if_pos (by omega), show pos + j - cpos = pos - cpos + j by omega]
    · rename_i hge
      rw [if_neg (by omega)]
      exact ih h

/-- Where the file with index `k` begins. -/
def startOf (cpos : Int) (files : List FileInfo) (k : Nat) : Int :=
  cpos + ((files.take k).map (·.length)).sum

theorem fileOf_some {pos cpos : Int} {files : List FileInfo} {fi : FileInfo} {off : Int}
    (h : fileOf pos cpos files = some (fi, off)) (hc : cpos ≤ pos) :
    ∃ k, files[k]? = some fi ∧ pos = startOf cpos files k + off ∧ 0 ≤ off ∧ off < fi.length := by
  induction files generalizing cpos with
  | nil => cases h
  | cons f files ih =>
    unfold fileOf at h
    split at h
    · simp only [Option.some.injEq, Prod.mk.injEq] at h
      obtain ⟨rfl, rfl⟩ := h
      exact ⟨0, rfl, by simp [startOf], by omega, by omega⟩
    · obtain ⟨k, hk, hpos, hoff⟩ := ih h (by omega)
      refine ⟨k + 1, by simpa using hk, ?_, hoff⟩
      simp only [startOf, List.take_succ_cons, List.map_cons, List.sum_cons] at hpos ⊢
      omega

variable (t : Torrent)

theorem fileAtPos_multi (h : t.isSingleFile = false) {pos : Int} {fi : FileInfo}
    {off left : Int} (hf : t.fileAtPos pos = .ok (fi, off, left)) :
    fileOf pos 0 t.files = some (fi, off) ∧ left = fi.length - off := by
  unfold fileAtPos at hf
  rw [h] at hf
  simp only [Bool.false_eq_true, if_false] at hf
  obtain ⟨r, hr, hf⟩ := bind_eq_ok.1 hf
  cases r with
  | none =>
    obtain ⟨_, -, hf⟩ := bind_eq_ok.1 hf
    cases hf
  | some found =>
    obtain rfl := pure_eq_ok.1 hf
    exact fileAtPosFrom_fileOf hr

theorem fileAtPos_single (h : t.isSingleFile = true) {pos : Int} {fi : FileInfo}
    {off left : Int} (hf : t.fileAtPos pos = .ok (fi, off, left)) :
    fi.path = t.tmpfile ∧ off = pos := by
  unfold fileAtPos at hf
  rw [if_pos h] at hf
  obtain ⟨length, -, hf⟩ := bind_eq_ok.1 hf
  obtain ⟨left', -, hf⟩ := bind_eq_ok.1 hf
  have he := pure_eq_ok.1 hf
  simp only [Prod.mk.injEq] at he
  obtain ⟨rfl, rfl, -⟩ := he
  exact ⟨rfl, rfl⟩

/-! ## Homes -/

/-- The first byte of a piece, as `writePiece` computes it. -/
def pieceStart (id : UInt32) : Nat := (id * t.pieceLength).toNat

/-- The file and the position in it where byte `i` of piece `id` is written. -/
def home (cwd : Loc) (id : UInt32) (i : Nat) : Option (Loc × Nat) :=
  if t.isSingleFile then some (locate cwd t.tmpfile, t.pieceStart id + i)
  else (fileOf (t.pieceStart id + i) 0 t.files).map fun f =>
    (locate cwd (join t.name f.1.path), f.2.toNat)

/-- The files that hold bytes are different files. -/
def DistinctFiles (cwd : Loc) : Prop :=
  ∀ (j k : Nat) (f g : FileInfo), t.files[j]? = some f → t.files[k]? = some g → 0 < f.length →
    0 < g.length → locate cwd (join t.name f.path) = locate cwd (join t.name g.path) → j = k

/-- Every piece begins below 4 GiB. -/
def PiecesBelow : Prop :=
  ∀ id : UInt32, id.toNat < t.pieces.length → id.toNat * t.pieceLength.toNat < 2 ^ 32

theorem pieceStart_eq {id : UInt32} (h : id.toNat * t.pieceLength.toNat < 2 ^ 32) :
    t.pieceStart id = id.toNat * t.pieceLength.toNat := by
  rw [pieceStart, UInt32.toNat_mul, Nat.mod_eq_of_lt h]

theorem pieceLengthAt_le {id size : UInt32} (h : t.pieceLengthAt id = .ok size) :
    size.toNat ≤ t.pieceLength.toNat := by
  unfold pieceLengthAt at h
  split at h
  · obtain ⟨length, -, h⟩ := bind_eq_ok.1 h
    split at h
    · cases h
    · rename_i hp
      obtain ⟨mod, hm, h⟩ := bind_eq_ok.1 h
      obtain rfl := pure_eq_ok.1 h
      obtain ⟨-, -, hv⟩ := castU32_ok hm
      have hpos : (0 : Int) < t.pieceLength.toNat := by
        have : t.pieceLength.toNat ≠ 0 := fun h0 => hp (UInt32.toNat.inj h0)
        omega
      have := Int.tmod_lt_of_pos length hpos
      split
      · omega
      · exact Nat.le_refl _
  · rw [Except.ok.inj h]

/-- Pieces that begin below 4 GiB do not overlap. -/
theorem pieceStart_inj {a b : UInt32} (ha : a.toNat * t.pieceLength.toNat < 2 ^ 32)
    (hb : b.toNat * t.pieceLength.toNat < 2 ^ 32) {i j : Nat} (hi : i < t.pieceLength.toNat)
    (hj : j < t.pieceLength.toNat) (h : t.pieceStart a + i = t.pieceStart b + j) :
    a = b ∧ i = j := by
  rw [t.pieceStart_eq ha, t.pieceStart_eq hb] at h
  have hab : a.toNat = b.toNat := by
    rcases Nat.lt_trichotomy a.toNat b.toNat with hlt | heq | hlt
    · have := Nat.mul_le_mul_right t.pieceLength.toNat (Nat.succ_le_of_lt hlt)
      rw [Nat.succ_mul] at this
      omega
    · exact heq
    · have := Nat.mul_le_mul_right t.pieceLength.toNat (Nat.succ_le_of_lt hlt)
      rw [Nat.succ_mul] at this
      omega
  refine ⟨UInt32.toNat.inj hab, ?_⟩
  rw [hab] at h
  omega

/-- With different files, a home belongs to one position of the torrent. -/
theorem home_start_inj {cwd : Loc} (hd : t.DistinctFiles cwd) {a b : UInt32} {i j : Nat}
    {x : Loc × Nat} (hx : t.home cwd a i = some x) (hy : t.home cwd b j = some x) :
    t.pieceStart a + i = t.pieceStart b + j := by
  unfold home at hx hy
  cases hs : t.isSingleFile with
  | true =>
    rw [hs] at hx hy
    have := Option.some.inj (hx.trans hy.symm)
    simpa using this
  | false =>
    rw [hs] at hx hy
    simp only [Bool.false_eq_true, if_false, Option.map_eq_some_iff] at hx hy
    obtain ⟨⟨f, o⟩, hf, rfl⟩ := hx
    obtain ⟨⟨g, o'⟩, hg, he⟩ := hy
    simp only [Prod.mk.injEq] at he
    obtain ⟨k, hk, hpos, hlo, hhi⟩ := fileOf_some hf (by omega)
    obtain ⟨k', hk', hpos', hlo', hhi'⟩ := fileOf_some hg (by omega)
    obtain rfl := hd k' k g f hk' hk (by omega) (by omega) he.1
    omega

/-- Below 4 GiB, and with different files, no two bytes have the same home. -/
theorem home_inj {cwd : Loc} (hd : t.DistinctFiles cwd) (hp : t.PiecesBelow) {a b : UInt32}
    (ha : a.toNat < t.pieces.length) (hb : b.toNat < t.pieces.length) {i j : Nat}
    (hi : i < t.pieceLength.toNat) (hj : j < t.pieceLength.toNat) {x : Loc × Nat}
    (hx : t.home cwd a i = some x) (hy : t.home cwd b j = some x) : a = b ∧ i = j :=
  t.pieceStart_inj (hp a ha) (hp b hb) hi hj (t.home_start_inj hd hx hy)

end Torrent

/-! ## The five products -/

/-- Each place that computes the position of a piece has the exact one. -/
structure Exact (t : Torrent) (piece : Piece) (offset : UInt32) : Prop where
  writeSingle : (SingleTorrentDestination.offset t piece).toNat =
    piece.id.toNat * t.pieceLength.toNat
  writeMulti : ∀ done, MultiTorrentDestination.pos t piece done =
    piece.id.toNat * t.pieceLength.toNat + done
  verifySingle : (t.verifyOffset piece.id).toNat = piece.id.toNat * t.pieceLength.toNat
  verifyMulti : t.verifyPos piece.id = piece.id.toNat * t.pieceLength.toNat
  readBlock : (piece.fileOffset t offset).toNat =
    piece.id.toNat * t.pieceLength.toNat + offset.toNat

theorem exact_iff (t : Torrent) (piece : Piece) (offset : UInt32) :
    Exact t piece offset ↔ piece.id.toNat * t.pieceLength.toNat + offset.toNat < 2 ^ 32 := by
  constructor
  · intro h
    rw [← h.readBlock]
    exact UInt32.toNat_lt _
  · intro h
    have hmul : (piece.id * t.pieceLength).toNat = piece.id.toNat * t.pieceLength.toNat := by
      rw [UInt32.toNat_mul, Nat.mod_eq_of_lt (by omega)]
    refine ⟨hmul, fun done => ?_, hmul, ?_, ?_⟩
    · rw [MultiTorrentDestination.pos, hmul]
      push_cast
      rfl
    · rw [Torrent.verifyPos, hmul]
      push_cast
      rfl
    · rw [Piece.fileOffset, UInt32.toNat_add, UInt32.mul_comm, hmul, Nat.mod_eq_of_lt h]

/-- The position of a byte is exact below 4 GiB and only there, and different pieces that begin
there have no byte at the same position. -/
theorem positions_exact (t : Torrent) :
    (∀ piece offset, Exact t piece offset ↔
      piece.id.toNat * t.pieceLength.toNat + offset.toNat < 2 ^ 32) ∧
    ∀ a b : Piece, Exact t a 0 → Exact t b 0 → a.id ≠ b.id → ∀ i < t.pieceLength.toNat,
      ∀ j < t.pieceLength.toNat, t.pieceStart a.id + i ≠ t.pieceStart b.id + j := by
  refine ⟨exact_iff t, fun a b ha hb hne i hi j hj h => hne ?_⟩
  have ha' := (exact_iff t a 0).1 ha
  have hb' := (exact_iff t b 0).1 hb
  exact (t.pieceStart_inj ha' hb' hi hj h).1

/-- A torrent of three pieces, two of 2 GiB and one of one byte. -/
def largeFile : Bytes :=
  ascii "d8:announce1:a4:infod6:lengthi4294967297e4:name1:n12:piece lengthi2147483648e6:pieces60:".toList
    ++ List.replicate 60 0 ++ ascii "ee".toList

/-- Its last piece is stored over the first one. -/
theorem positions_wrap : ¬∀ (sha1 : Bytes → Sha1) (config : Config) (dataDir : Path)
    (content : Bytes) (t : Torrent), Torrent.ofContent sha1 config dataDir content = .ok t →
      ∀ (piece : Piece) (offset : UInt32), piece.id.toNat < t.pieces.length →
        t.pieceLengthAt piece.id = .ok piece.pieceSize → offset < piece.pieceSize →
          Exact t piece offset := by
  intro hall
  let sha1 : Bytes → Sha1 := fun _ => .zero
  have hcheck : (Torrent.ofContent sha1 ⟨6881, 6881, 10, true⟩ [] largeFile).map (fun t =>
      (t.pieceLength, t.pieces.length, t.pieceLengthAt 2)) = .ok (2147483648, 3, .ok 1) := by
    decide +kernel
  obtain ⟨t, ht, h⟩ := map_eq_ok.1 hcheck
  simp only [Prod.mk.injEq] at h
  obtain ⟨hlen, hcount, hsize⟩ := h
  have hexact := hall _ _ _ _ t ht (Piece.create 2 1) 0 (by rw [hcount]; decide) hsize (by decide)
  rw [exact_iff, hlen] at hexact
  exact absurd hexact (by decide)

end Zit
