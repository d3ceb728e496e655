import Zit.Proof.Accounting
import Zit.Proof.Contain
import Zit.Proof.Split

/-!
# What a constructed torrent promises about sizes

`Sizes` is what the info dictionary of a `.torrent` file says: a piece length, a number of hashes
and the length of each file. The constructor takes them as they are. What the rest of the client
relies on (`Torrent.Usable`) holds of the torrent exactly when the lengths fill the pieces
(`usable_iff`).
-/

set_option autoImplicit false

namespace Zit

open Lib World

namespace Torrent

/-- The length of one file. -/
def LengthEntry (e : Element) (n : Int) : Prop :=
  ∃ dict i, e = .dict dict ∧ dict.lookup (ascii "length".toList) = some (.int i) ∧ i.toInt = n

/-- The lengths in the info dictionary: the one of a single file unless it is zero, else a list. -/
inductive LengthsAt (info : List (Bytes × Element)) : List Int → Prop
  | single {i : Int64} (h : info.lookup (ascii "length".toList) = some (.int i)) (hne : i.toInt ≠ 0) :
      LengthsAt info [i.toInt]
  | files {es : List Element} {lengths : List Int}
      (hzero : ∀ e, info.lookup (ascii "length".toList) = some e → e.toInt = .ok 0)
      (h : info.lookup (ascii "files".toList) = some (.list es))
      (he : List.Forall₂ LengthEntry es lengths) : LengthsAt info lengths

/-- What a `.torrent` file says about sizes. -/
structure Sizes (content : Bytes) (pieceLength : Int) (hashes : Nat) (lengths : List Int) :
    Prop where
  read : ∃ root info i pieces, Bencode.decode content = .ok (.dict root) ∧
    root.lookup (ascii "info".toList) = some (.dict info) ∧
    info.lookup (ascii "piece length".toList) = some (.int i) ∧ i.toInt = pieceLength ∧
    info.lookup (ascii "pieces".toList) = some (.str pieces) ∧ pieces.length / 20 = hashes ∧
    LengthsAt info lengths

/-- The lengths fill all pieces but the last, and at least one byte of it. -/
structure Fitting (pieceLength : Int) (hashes : Nat) (lengths : List Int) : Prop where
  positive : 1 ≤ pieceLength
  nonneg : ∀ n ∈ lengths, 0 ≤ n
  above : ((hashes : Int) - 1) * pieceLength < lengths.sum
  below : lengths.sum ≤ hashes * pieceLength

/-- What the functions of a torrent and its pieces rely on. -/
structure Usable (t : Torrent) : Prop where
  pieceLength : 0 < t.pieceLength.toNat
  lengths : 0 ≤ t.mLength ∧ ∀ fi ∈ t.files, 0 ≤ fi.length
  count : ∃ length, t.length = .ok length ∧
    (t.pieces.length : Int) = (length + (t.pieceLength.toNat - 1 : Nat)) / t.pieceLength.toNat
  tiles : ∃ length, t.length = .ok length ∧ (∀ id : UInt32, id.toNat < t.pieces.length →
      ∃ size, t.pieceLengthAt id = .ok size) ∧
    ((∑ i ∈ Finset.range t.pieces.length, lenAt t i : Nat) : Int) = length

/-! ## The lengths that are read -/

/-- The length of each file of the torrent. -/
def lengths (t : Torrent) : List Int :=
  if t.isSingleFile then [t.mLength] else t.files.map (·.length)

theorem beDictToFileInfo_length {e : Element} {fi : FileInfo} (h : beDictToFileInfo e = .ok fi) :
    LengthEntry e fi.length := by
  unfold beDictToFileInfo at h
  obtain ⟨dict, hd, h⟩ := bind_eq_ok.1 h
  iterate 4 obtain ⟨_, -, h⟩ := bind_eq_ok.1 h
  obtain ⟨le, hle, h⟩ := bind_eq_ok.1 h
  obtain ⟨length, hint, h⟩ := bind_eq_ok.1 h
  obtain rfl := pure_eq_ok.1 h
  obtain rfl := toDict_ok hd
  obtain ⟨i, rfl, rfl⟩ := toInt_ok hint
  exact ⟨dict, i, rfl, dictAt_ok hle, rfl⟩

theorem mode_kind {info : List (Bytes × Element)} {mLength : Int} {files : List FileInfo}
    (h : mode info = .ok (mLength, files)) :
    dictGet info "length" Element.toInt 0 = .ok mLength ∧ (mLength ≠ 0 → files = []) ∧
      (mLength = 0 → files ≠ []) := by
  have hfiles := mode_files h
  unfold mode at h
  obtain ⟨n, hn, h⟩ := bind_eq_ok.1 h
  split at h
  · cases h
  rename_i hdual
  obtain ⟨fs, -, h⟩ := bind_eq_ok.1 h
  split at h
  · cases h
  rename_i hnone
  have he := pure_eq_ok.1 h
  rw [Prod.mk.injEq] at he
  obtain ⟨rfl, rfl⟩ := he
  refine ⟨hn, fun hne => ?_, fun hz hf => hnone ⟨hz, hf⟩⟩
  have hhas : dictHas info "files" = false := by
    by_contra hc
    exact hdual ⟨by simpa using hc, hne⟩
  rw [dictGet, hhas] at hfiles
  exact (Except.ok.inj hfiles).symm

theorem mode_lengths {info : List (Bytes × Element)} {mLength : Int} {files : List FileInfo}
    (h : mode info = .ok (mLength, files)) :
    LengthsAt info (if mLength != 0 then [mLength] else files.map (·.length)) := by
  obtain ⟨hlength, -, hsome⟩ := mode_kind h
  by_cases hz : mLength = 0
  · subst hz
    rcases dictGet_ok (mode_files h) with ⟨-, hf⟩ | ⟨e, he, hf⟩
    · exact absurd hf (hsome rfl)
    · obtain ⟨es, hes, hmap⟩ := bind_eq_ok.1 hf
      obtain rfl := toList_ok hes
      refine .files (fun e' he' => ?_) he ?_
      · rcases dictGet_ok hlength with ⟨hnone, -⟩ | ⟨e'', he'', hint⟩
        · rw [hnone] at he'
          cases he'
        · rw [he', Option.some.injEq] at he''
          rw [he'', hint]
      · rw [if_neg (by simp), List.forall₂_map_right_iff]
        exact (mapM_eq_ok hmap).imp fun _ _ hfi => beDictToFileInfo_length hfi
  · rw [if_pos (by simpa using hz)]
    rcases dictGet_ok hlength with ⟨-, h0⟩ | ⟨e, he, hint⟩
    · exact absurd h0 hz
    · obtain ⟨i, rfl, rfl⟩ := toInt_ok hint
      exact .single he hz

section
variable {sha1 : Bytes → Sha1} {config : Config} {dataDir : Lib.Path} {content : Bytes} {t : Torrent}

/-- The constructor takes the sizes of the file as they are. -/
theorem ofContent_sizes (h : ofContent sha1 config dataDir content = .ok t) :
    Sizes content t.pieceLength.toNat t.pieces.length t.lengths := by
  obtain ⟨root, info, hr⟩ := ofContent_ok h
  obtain ⟨pieces, hp, hlen⟩ := hr.pieces
  obtain ⟨i, hi, hcast⟩ := hr.pieceLength
  exact ⟨root, info, i, pieces, hr.decoded, hr.infoAt, hi, (castU32_ok hcast).2.2.symm, hp, hlen.symm,
    mode_lengths hr.mode⟩

/-! ## From the lengths to the pieces -/

theorem length_sum {length : Int} (h : t.length = .ok length) : length = t.lengths.sum := by
  unfold Torrent.length at h
  unfold lengths
  split at h
  · rename_i hs
    obtain rfl := Except.ok.inj h
    rw [if_pos hs, List.sum_singleton]
  · rename_i hs
    rw [if_neg hs, filesLength_ok h, Int.zero_add]

theorem length_of (h0 : ∀ n ∈ t.lengths, 0 ≤ n) (hmax : t.lengths.sum < 2 ^ 63) :
    t.length = .ok t.lengths.sum := by
  unfold Torrent.length
  unfold lengths at h0 hmax ⊢
  by_cases hs : t.isSingleFile = true
  · rw [if_pos hs, if_pos hs, List.sum_singleton]
  · rw [if_neg hs] at h0 hmax ⊢
    rw [if_neg hs, filesLength_of (Int.le_refl 0) (fun fi hfi => h0 _ (List.mem_map_of_mem hfi))
      (by omega), Int.zero_add]

/-- Only one kind of length is there. -/
theorem nonneg_iff (hmode : t.mLength ≠ 0 → t.files = []) :
    (∀ n ∈ t.lengths, 0 ≤ n) ↔ 0 ≤ t.mLength ∧ ∀ fi ∈ t.files, 0 ≤ fi.length := by
  by_cases hz : t.mLength = 0
  · simp [lengths, isSingleFile, hz]
  · simp [lengths, isSingleFile, hz, hmode hz]

/-- Rounded up, a quotient is the number of pieces that are filled, the last one maybe in part. -/
theorem eq_ceil_iff {n length P : Int} (hP : 0 < P) :
    n = (length + (P - 1)) / P ↔ (n - 1) * P < length ∧ length ≤ n * P := by
  rw [eq_comm, Int.ediv_eq_iff_of_pos hP, Int.sub_mul]
  constructor <;> rintro ⟨h1, h2⟩ <;> constructor <;> omega

theorem usable_of_fitting (h : ofContent sha1 config dataDir content = .ok t)
    (hf : Fitting t.pieceLength.toNat t.pieces.length t.lengths) : t.Usable := by
  obtain ⟨root, info, hr⟩ := ofContent_ok h
  have hn := ofContent_pieces h
  have hP : 0 < t.pieceLength.toNat := by
    have := hf.positive
    omega
  have hmul : t.pieces.length * t.pieceLength.toNat ≤ 5000000 * 2 ^ 32 :=
    Nat.mul_le_mul hn (Nat.le_of_lt t.pieceLength.toNat_lt)
  have hmax : t.lengths.sum < 2 ^ 63 := by
    have := hf.below
    omega
  have hlength := length_of hf.nonneg hmax
  have hcount : (t.pieces.length : Int) =
      (t.lengths.sum + (t.pieceLength.toNat - 1 : Nat)) / t.pieceLength.toNat := by
    rw [Int.natCast_sub hP]
    exact (eq_ceil_iff (by omega)).2 ⟨hf.above, hf.below⟩
  refine ⟨hP, (nonneg_iff (mode_kind hr.mode).2.1).1 hf.nonneg, ⟨_, hlength, hcount⟩, _, hlength, ?_⟩
  by_cases hzero : t.pieces.length = 0
  · have h0 : 0 ≤ t.lengths.sum := List.sum_nonneg hf.nonneg
    have hbelow := hf.below
    rw [hzero] at hbelow ⊢
    rw [Int.natCast_zero, Int.zero_mul] at hbelow
    refine ⟨fun id hid => absurd hid (Nat.not_lt_zero _), ?_⟩
    rw [Finset.range_zero, Finset.sum_empty]
    exact Int.le_antisymm h0 hbelow
  · have hc : Consistent t t.lengths.sum := ⟨hP, hlength, Nat.pos_of_ne_zero hzero, hcount⟩
    refine ⟨fun id hid => ⟨UInt32.ofNat (lenAt t id.toNat), ?_⟩, hc.sum_lenAt (by omega)⟩
    have hat := (hc.lenAt_eq (by omega) hid).1
    rwa [UInt32.ofNat_toNat] at hat

theorem fitting_of_usable (h : ofContent sha1 config dataDir content = .ok t) (hu : t.Usable) :
    Fitting t.pieceLength.toNat t.pieces.length t.lengths := by
  obtain ⟨root, info, hr⟩ := ofContent_ok h
  have hP := hu.pieceLength
  obtain ⟨length, hlength, hcount⟩ := hu.count
  rw [length_sum hlength, Int.natCast_sub hP] at hcount
  obtain ⟨habove, hbelow⟩ := (eq_ceil_iff (by omega)).1 hcount
  exact ⟨by omega, (nonneg_iff (mode_kind hr.mode).2.1).2 hu.lengths, habove, hbelow⟩

theorem verifyExistingFile_opened (t0 : Torrent) (order : List Nat) (w : World) :
    wp (t0.verifyExistingFile sha1 order) w (fun t _ => Opened t0 t) fun _ _ => True := by
  simp only [verifyExistingFile, wp_bind, wp_onDisk, Disk.wp_existsPath]
  refine wp_mono (existingTmpfile_spec t0 w.disk) (fun p d' h => ?_) fun _ _ _ => trivial
  have hopen : Opened t0 { t0 with tmpfile := p } := ⟨h.2, rfl⟩
  refine wp_ite (fun _ => ?_) fun _ => hopen
  -- both kinds check all pieces and then return the torrent or throw
  refine wp_ite (fun _ => ?_) fun _ => ?_
  all_goals
    simp only [wp_bind]
    refine wp_of (fun _ w' _ => wp_of (fun n w'' _ => ?_) fun _ _ _ => trivial) fun _ _ _ => trivial
    exact wp_ite (fun _ => trivial) fun _ => hopen

/-- Looking for existing files changes nothing but the name of the working file. -/
theorem construct_opened {existing : List Sha1} {order : List Nat} {w w' : World}
    (h : construct sha1 config dataDir content existing order w = .ok t w') :
    ∃ t0, ofContent sha1 config dataDir content = .ok t0 ∧ Opened t0 t := by
  have hspec : wp (construct sha1 config dataDir content existing order) w
      (fun t _ => ∃ t0, ofContent sha1 config dataDir content = .ok t0 ∧ Opened t0 t)
      fun _ _ => True := by
    simp only [construct, wp_bind]
    refine (wp_lift _).2 ⟨fun t0 ht0 => ?_, fun _ _ => trivial⟩
    have hend : ∀ t w, Opened t0 t →
        wp (if t.infoHash ∈ existing then throw (.runtimeError "Torrent already exists")
          else pure t : App Torrent) w (fun t _ => ∃ t0,
          ofContent sha1 config dataDir content = .ok t0 ∧ Opened t0 t) fun _ _ => True :=
      fun t w ho => wp_ite (fun _ => trivial) fun _ => ⟨t0, ht0, ho⟩
    split
    · simp only [wp_bind]
      exact wp_mono (verifyExistingFile_opened t0 order w) (fun t w ho => hend t w ho)
        fun _ _ _ => trivial
    · exact hend t0 _ ⟨.inl rfl, rfl⟩
  exact wp_ok hspec h

end

/-- What the client relies on holds of a new torrent exactly when the lengths in its file fill the
pieces. -/
theorem usable_iff {sha1 : Bytes → Sha1} {config : Config} {dataDir : Lib.Path} {content : Bytes}
    {existing : List Sha1} {order : List Nat} {w w' : World} {t : Torrent}
    (h : construct sha1 config dataDir content existing order w = .ok t w') :
    ∃ pieceLength hashes lengths, Sizes content pieceLength hashes lengths ∧
      (t.Usable ↔ Fitting pieceLength hashes lengths) := by
  obtain ⟨t0, ht0, ho⟩ := construct_opened h
  have hiff : t0.Usable ↔ Fitting t0.pieceLength.toNat t0.pieces.length t0.lengths :=
    ⟨fitting_of_usable ht0, usable_of_fitting ht0⟩
  refine ⟨_, _, _, ofContent_sizes ht0, Iff.trans ?_ hiff⟩
  rw [ho.rest]
  exact ⟨fun hu => ⟨hu.pieceLength, hu.lengths, hu.count, hu.tiles⟩, fun hu =>
    ⟨hu.pieceLength, hu.lengths, hu.count, hu.tiles⟩⟩

theorem usable_iff_oneByte : ∃ t w pieceLength hashes lengths,
    construct oneByteSha1 oneByteConfig [] oneByteFile [] [0] (World.start [] ⟨∅⟩) = .ok t w ∧
      Sizes oneByteFile pieceLength hashes lengths ∧
      (t.Usable ↔ Fitting pieceLength hashes lengths) := by
  have hcheck : wp (construct oneByteSha1 oneByteConfig [] oneByteFile [] [0])
      (World.start [] ⟨∅⟩) (fun _ _ => True) fun _ _ => False := by
    decide +kernel
  obtain ⟨t, w, hc, -⟩ := ok_of_wp hcheck
  obtain ⟨pieceLength, hashes, lengths, hs, hiff⟩ := usable_iff hc
  exact ⟨t, w, pieceLength, hashes, lengths, hc, hs, hiff⟩

/-- A `.torrent` file of one byte in pieces of no byte. -/
def zeroFile : Bytes :=
  ascii "d8:announce1:a4:infod6:lengthi1e4:name1:n12:piece lengthi0e6:pieces20:".toList ++
    List.replicate 20 0 ++ ascii "ee".toList

/-- It is accepted. -/
theorem usable_zero : ¬∀ sha1 config dataDir content existing order w t w',
    construct sha1 config dataDir content existing order w = .ok t w' → t.Usable := by
  intro hall
  have hcheck : wp (construct oneByteSha1 oneByteConfig [] zeroFile [] [0]) (World.start [] ⟨∅⟩)
      (fun t _ => t.pieceLength.toNat = 0) fun _ _ => False := by
    decide +kernel
  obtain ⟨t, w, hc, hzero⟩ := ok_of_wp hcheck
  exact absurd (hall _ _ _ _ _ _ _ t w hc).pieceLength (by omega)

end Torrent

end Zit
