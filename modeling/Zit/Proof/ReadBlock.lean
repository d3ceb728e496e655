import Zit.Proof.ReadBack

/-!
# Reading a block

`read_block` goes on from file to file. `fileAtPos_cases` says what `file_at_pos` does at each
position, and `readLoop_turn` what a turn of the loop does with it. In a single file a position at
the end leaves nothing to read, and the turn is repeated for ever; `read_ends_iff` is the exact
condition under which the loop ends.
-/

set_option autoImplicit false

namespace Zit

open Lib Lib.Path Torrent

/-- The files `read_block` may open. -/
def Torrent.readFiles (t : Torrent) : List FileInfo :=
  if t.isSingleFile then [⟨t.mLength, t.tmpfile, t.md5sum⟩] else t.files

/-- The files on disk have their expected sizes. -/
def FilesWhole (t : Torrent) (d : Disk) : Prop :=
  ∀ fi ∈ t.readFiles, ∃ size : Nat, (size : Int) = fi.length ∧
    d.fs.fileSize d.cwd (join (FileWriter.base t) fi.path) = some size

/-- With some number of turns the loop is over: it has returned `length` bytes, or it has thrown. -/
def Ends (t : Torrent) (d : Disk) (offset length : UInt32) : Prop :=
  ∃ turns, wp (FileWriter.readLoop t turns length.toNat offset []) d
    (fun data _ => data.length = length.toNat) fun e _ => e.isStd = true

/-- A single file that ends below 4 GiB does not end within the `n` bytes from `pos` on or right
before them; and no file that is reached overflows. -/
structure ReadEnds (t : Torrent) (pos n : Nat) : Prop where
  single : t.isSingleFile = true → (pos : Int) ≤ t.mLength → t.mLength < pos + n →
    2 ^ 32 ≤ t.mLength
  multi : t.isSingleFile = false → 0 < n → ∀ k < t.files.length, startOf 0 t.files k < 2 ^ 32 →
    startOf 0 t.files k < pos + n → startOf 0 t.files (k + 1) < 2 ^ 63

/-! ## The file at a position -/

section
variable {t : Torrent} {d : Disk}

/-- The file with index `k` holds the position, and nothing overflows. -/
structure Holds (files : List FileInfo) (cpos pos : Int) (k : Nat) (fi : FileInfo)
    (off left : Int) : Prop where
  file : files[k]? = some fi
  off_eq : off = pos - startOf cpos files k
  left_eq : left = startOf cpos files (k + 1) - pos
  off_nonneg : 0 ≤ off
  left_pos : 0 < left
  small : startOf cpos files (k + 1) < 2 ^ 63

theorem startOf_zero (cpos : Int) (files : List FileInfo) : startOf cpos files 0 = cpos := by
  simp [startOf]

theorem startOf_cons (cpos : Int) (f : FileInfo) (files : List FileInfo) (k : Nat) :
    startOf cpos (f :: files) (k + 1) = startOf (cpos + f.length) files k := by
  simp only [startOf, List.take_succ_cons, List.map_cons, List.sum_cons]
  omega

/-- Files do not begin before the ones in front of them. -/
theorem startOf_mono {files : List FileInfo} (h : ∀ fi ∈ files, 0 ≤ fi.length) (cpos : Int)
    {j k : Nat} (hjk : j ≤ k) : startOf cpos files j ≤ startOf cpos files k := by
  induction files generalizing cpos j k with
  | nil => simp [startOf]
  | cons f files ih =>
    have hf := h f List.mem_cons_self
    have hfiles : ∀ fi ∈ files, 0 ≤ fi.length := fun fi hfi => h fi (List.mem_cons_of_mem _ hfi)
    cases k with
    | zero =>
      obtain rfl : j = 0 := by omega
      exact Int.le_refl _
    | succ k =>
      rw [startOf_cons]
      cases j with
      | zero =>
        have := ih hfiles (cpos + f.length) (Nat.zero_le k)
        rw [startOf_zero] at this ⊢
        omega
      | succ j =>
        rw [startOf_cons]
        exact ih hfiles _ (by omega)

/-- The three ends of the scan: a file, past the last file, and a sum that overflows. -/
theorem fileAtPosFrom_cases {pos : Int} {files : List FileInfo}
    (h : ∀ fi ∈ files, 0 ≤ fi.length) {cpos : Int} (h0 : 0 ≤ cpos) (hpos : cpos ≤ pos)
    (hmax : pos < 2 ^ 32) :
    (∃ k fi off left, fileAtPosFrom pos cpos files = .ok (some (fi, off, left)) ∧
      Holds files cpos pos k fi off left) ∨
    (fileAtPosFrom pos cpos files = .ok none ∧ startOf cpos files files.length ≤ pos) ∨
    ∃ k < files.length, ∃ e, fileAtPosFrom pos cpos files = .error e ∧ e.isStd = false ∧
      startOf cpos files k ≤ pos ∧ 2 ^ 63 ≤ startOf cpos files (k + 1) := by
  induction files generalizing cpos with
  | nil => exact .inr (.inl ⟨rfl, by simpa [startOf] using hpos⟩)
  | cons f files ih =>
    have hf := h f List.mem_cons_self
    have hfiles : ∀ fi ∈ files, 0 ≤ fi.length := fun fi hfi => h fi (List.mem_cons_of_mem _ hfi)
    have hnext := startOf_cons cpos f files 0
    rw [startOf_zero] at hnext
    unfold fileAtPosFrom
    by_cases hov : cpos + f.length < 2 ^ 63
    · rw [int64_of ⟨by omega, hov⟩]
      simp only [bind, Except.bind]
      by_cases hlt : pos < cpos + f.length
      · rw [if_pos hlt, int64_of ⟨by omega, by omega⟩]
        simp only
        rw [int64_of ⟨by omega, by omega⟩]
        refine .inl ⟨0, f, _, _, rfl, rfl, ?_, ?_, by omega, by omega, ?_⟩
        · rw [startOf_zero]
        · rw [hnext]
        · rw [hnext]
          exact hov
      · rw [if_neg hlt]
        rcases ih hfiles (show 0 ≤ cpos + f.length by omega) (by omega) with
          ⟨k, fi, off, left, hscan, hh⟩ | ⟨hscan, hend⟩ | ⟨k, hk, e, hscan, he, hle, hlarge⟩
        · refine .inl ⟨k + 1, fi, off, left, hscan, by simpa using hh.file, ?_, ?_, hh.off_nonneg,
            hh.left_pos, ?_⟩
          · rw [startOf_cons]
            exact hh.off_eq
          · rw [startOf_cons]
            exact hh.left_eq
          · rw [startOf_cons]
            exact hh.small
        · refine .inr (.inl ⟨hscan, ?_⟩)
          rw [List.length_cons, startOf_cons]
          exact hend
        · refine .inr (.inr ⟨k + 1, by simpa using hk, e, hscan, he, ?_, ?_⟩)
          · rw [startOf_cons]
            exact hle
          · rw [startOf_cons]
            exact hlarge
    · refine .inr (.inr ⟨0, by simp, .undefined "signed overflow", ?_, rfl, ?_, ?_⟩)
      · rw [int64, if_neg (by omega)]
        rfl
      · rw [startOf_zero]
        exact hpos
      · rw [hnext]
        omega

/-- Where no sum has overflowed, the length is their sum. -/
theorem filesLength_of_none {pos : Int} {files : List FileInfo} {cpos : Int}
    (h : fileAtPosFrom pos cpos files = .ok none) : ∃ length, filesLength cpos files = .ok length := by
  induction files generalizing cpos with
  | nil => exact ⟨cpos, rfl⟩
  | cons f files ih =>
    unfold fileAtPosFrom at h
    obtain ⟨bound, hb, h⟩ := bind_eq_ok.1 h
    split at h
    · obtain ⟨off, -, h⟩ := bind_eq_ok.1 h
      obtain ⟨left, -, h⟩ := bind_eq_ok.1 h
      cases pure_eq_ok.1 h
    · rw [filesLength, hb]
      exact ih h

/-- `file_at_pos` for several files. -/
theorem fileAtPos_cases (hs : t.isSingleFile = false) (h : ∀ fi ∈ t.files, 0 ≤ fi.length)
    {pos : Nat} (hmax : pos < 2 ^ 32) :
    (∃ k fi off left, t.fileAtPos pos = .ok (fi, off, left) ∧
      Holds t.files 0 pos k fi off left) ∨
    (∃ e, t.fileAtPos pos = .error e ∧ e.isStd = true ∧
      startOf 0 t.files t.files.length ≤ pos) ∨
    ∃ k < t.files.length, ∃ e, t.fileAtPos pos = .error e ∧ e.isStd = false ∧
      startOf 0 t.files k ≤ pos ∧ 2 ^ 63 ≤ startOf 0 t.files (k + 1) := by
  unfold fileAtPos
  rw [hs]
  simp only [Bool.false_eq_true, if_false]
  rcases fileAtPosFrom_cases h (Int.le_refl 0) (Int.natCast_nonneg pos) (by omega) with
    ⟨k, fi, off, left, hscan, hh⟩ | ⟨hscan, hend⟩ | ⟨k, hk, e, hscan, he, hle, hlarge⟩
  · rw [hscan]
    exact .inl ⟨k, fi, off, left, rfl, hh⟩
  · obtain ⟨length, hlength⟩ := filesLength_of_none hscan
    have hlen : t.length = .ok length := by
      rw [Torrent.length, hs]
      exact hlength
    rw [hscan]
    simp only [bind, Except.bind, hlen]
    exact .inr (.inl ⟨_, rfl, rfl, hend⟩)
  · rw [hscan]
    exact .inr (.inr ⟨k, hk, e, rfl, he, hle, hlarge⟩)

/-- `file_at_pos` for a single file, also at its end and behind it. -/
theorem fileAtPos_of_single (hs : t.isSingleFile = true) (h0 : 0 ≤ t.mLength)
    (hmax : t.mLength < 2 ^ 63) {pos : Nat} (hpos : pos < 2 ^ 32) :
    t.fileAtPos pos = .ok (⟨t.mLength, t.tmpfile, t.md5sum⟩, pos, t.mLength - pos) := by
  unfold fileAtPos Torrent.length
  rw [if_pos hs, if_pos hs]
  simp only [bind, Except.bind]
  rw [int64_of ⟨by omega, by omega⟩]
  rfl

/-! ## The loop -/

/-- What is within a file is read. -/
theorem read_within {path : Path} {size off n : Nat}
    (h : d.fs.fileSize d.cwd path = some size) (hle : off + n ≤ size) :
    ∃ data, Disk.read path off n d = .ok data d ∧ data.length = n := by
  simp only [FileSystem.fileSize, Option.bind_eq_some_iff, Option.map_eq_some_iff] at h
  obtain ⟨l, hl, content, hc, rfl⟩ := h
  have hread : d.fs.read d.cwd path off n = some ((content.drop off).take n) := by
    simp only [FileSystem.read, hl, hc, Option.bind_eq_bind, Option.bind_some]
    exact if_pos (.inr hle)
  refine ⟨_, ?_, (FileSystem.read_eq hread).1⟩
  simp only [Disk.read, bind, EStateM.bind, get_run, hread]
  rfl

theorem readLoop_none (turns : Nat) (cpos : UInt32) (data : Bytes) :
    FileWriter.readLoop t (turns + 1) (0 : Nat) cpos data d = .ok data d := rfl

/-- A turn at a position that is in a file, or at the end of one. -/
theorem readLoop_turn (hw : FilesWhole t d) {cpos : UInt32} {fi : FileInfo} {off left : Nat}
    (hat : t.fileAtPos cpos.toNat = .ok (fi, off, left)) (hfi : fi ∈ t.readFiles)
    (hlen : (off + left : Int) = fi.length) {n : Nat} (hn : 0 < n) (hmax : n < 2 ^ 32)
    (turns : Nat) (data : Bytes) : ∃ bytes : Bytes, bytes.length = min n left ∧
      FileWriter.readLoop t (turns + 1) n cpos data d =
        FileWriter.readLoop t turns (n - min n left : Nat) (cpos + UInt32.ofNat (min n left))
          (data ++ bytes) d := by
  obtain ⟨size, hsize, hfile⟩ := hw fi hfi
  have hto : (UInt32.ofNat (min n left)).toNat = min n left :=
    UInt32.toNat_ofNat_of_lt' (show min n left < 2 ^ 32 by omega)
  obtain ⟨bytes, hread, hbytes⟩ := @read_within d _ _ off (min n left) hfile (by omega)
  refine ⟨bytes, hbytes, ?_⟩
  have hpath : FileWriter.readPath t cpos.toNat =
      .ok (join (FileWriter.base t) fi.path, (off : Int), (left : Int)) := by
    rw [FileWriter.readPath, hat]
    rfl
  have hcast : castU32 (min (n : Int) (left : Int)) = .ok (UInt32.ofNat (min n left)) := by
    rw [show min (n : Int) (left : Int) = ((min n left : Nat) : Int) by omega]
    exact castU32_of (by omega)
  have hrest : (n : Int) - ((UInt32.ofNat (min n left)).toNat : Int) =
      ((n - min n left : Nat) : Int) := by
    rw [hto]
    omega
  rw [FileWriter.readLoop, if_pos (by omega)]
  simp only [bind, EStateM.bind, hpath, hcast, lift, Int.toNat_natCast, hto, hread]
  rw [← hrest, hto]

/-- A turn at a position that `file_at_pos` throws for. -/
theorem readLoop_throws {cpos : UInt32} {e : Exn} (hat : t.fileAtPos cpos.toNat = .error e) {n : Nat}
    (hn : 0 < n) (turns : Nat) (data : Bytes) :
    FileWriter.readLoop t (turns + 1) n cpos data d = .error e d := by
  rw [FileWriter.readLoop, if_pos (by omega)]
  simp only [FileWriter.readPath, hat, bind, Except.bind, EStateM.bind, lift]

/-! ## When it ends -/

theorem FilesWhole.single (hw : FilesWhole t d) (hs : t.isSingleFile = true) : 0 ≤ t.mLength := by
  have hmem : (⟨t.mLength, t.tmpfile, t.md5sum⟩ : FileInfo) ∈ t.readFiles := by
    rw [readFiles, if_pos hs]
    exact List.mem_singleton_self _
  obtain ⟨size, hsize, -⟩ := hw _ hmem
  dsimp only at hsize
  omega

theorem readFiles_multi (hs : t.isSingleFile = false) : t.readFiles = t.files := by
  rw [readFiles, hs]
  rfl

theorem FilesWhole.multi (hw : FilesWhole t d) (hs : t.isSingleFile = false) :
    ∀ fi ∈ t.files, 0 ≤ fi.length := by
  intro fi hfi
  obtain ⟨size, hsize, -⟩ := hw fi (readFiles_multi hs ▸ hfi)
  omega

/-- The position behind what a turn reads. -/
theorem toNat_advance (cpos : UInt32) (len : Nat) :
    (cpos + UInt32.ofNat len).toNat = (cpos.toNat + len) % 2 ^ 32 := by
  rw [UInt32.toNat_add, UInt32.toNat_ofNat']
  omega

theorem castU32_neg {value : Int} (h : value < 0) :
    castU32 value = .error (.outOfRange "out of range") := by
  simp only [castU32, numericCast, IntTy.u32, IntTy.i64, IntTy.max, IntTy.wrap, Bool.false_eq_true,
    if_false]
  rw [if_pos (Or.inl h)]
  rfl

/-- A position of a single file: behind the end, at the end, or in the file. -/
theorem single_turn (hs : t.isSingleFile = true) (hr : t.mLength < 2 ^ 63) (hw : FilesWhole t d)
    (cpos : UInt32) {n : Nat} (hn : 0 < n) (hmax : n < 2 ^ 32) (turns : Nat) (data : Bytes) :
    (t.mLength < cpos.toNat ∧ ∃ e, e.isStd = true ∧
      FileWriter.readLoop t (turns + 1) n cpos data d = .error e d) ∨
    ∃ left : Nat, (left : Int) = t.mLength - cpos.toNat ∧ ∃ bytes : Bytes,
      bytes.length = min n left ∧
      FileWriter.readLoop t (turns + 1) n cpos data d =
        FileWriter.readLoop t turns (n - min n left : Nat) (cpos + UInt32.ofNat (min n left))
          (data ++ bytes) d := by
  have h0 := hw.single hs
  have hat := fileAtPos_of_single hs h0 hr cpos.toNat_lt
  by_cases hlt : t.mLength < cpos.toNat
  · refine .inl ⟨hlt, .outOfRange "out of range", rfl, ?_⟩
    have hcast : castU32 (min (n : Int) (t.mLength - cpos.toNat)) =
        .error (.outOfRange "out of range") := by
      exact castU32_neg (by omega)
    rw [FileWriter.readLoop, if_pos (by omega)]
    simp only [FileWriter.readPath, hat, bind, Except.bind, EStateM.bind, lift, pure, Except.pure,
      hcast]
  · obtain ⟨left, hleft⟩ := Int.eq_ofNat_of_zero_le (show 0 ≤ t.mLength - cpos.toNat by omega)
    have hmem : (⟨t.mLength, t.tmpfile, t.md5sum⟩ : FileInfo) ∈ t.readFiles := by
      rw [readFiles, if_pos hs]
      exact List.mem_singleton_self _
    refine .inr ⟨left, hleft.symm, ?_⟩
    rw [hleft] at hat
    exact readLoop_turn hw hat hmem (by dsimp only; omega) hn hmax turns data

/-- A position of several files: in a file, behind the last one, or in one that overflows. -/
theorem multi_turn (hs : t.isSingleFile = false) (hw : FilesWhole t d) (cpos : UInt32) {n : Nat}
    (hn : 0 < n) (hmax : n < 2 ^ 32) (turns : Nat) (data : Bytes) :
    (∃ e, FileWriter.readLoop t (turns + 1) n cpos data d = .error e d ∧
      ((e.isStd = true ∧ startOf 0 t.files t.files.length ≤ cpos.toNat) ∨
        e.isStd = false ∧ ∃ k < t.files.length, startOf 0 t.files k ≤ cpos.toNat ∧
          2 ^ 63 ≤ startOf 0 t.files (k + 1))) ∨
    ∃ k fi, ∃ left : Nat, Holds t.files 0 cpos.toNat k fi (cpos.toNat - startOf 0 t.files k) left ∧
      ∃ bytes : Bytes, bytes.length = min n left ∧
        FileWriter.readLoop t (turns + 1) n cpos data d =
          FileWriter.readLoop t turns (n - min n left : Nat) (cpos + UInt32.ofNat (min n left))
            (data ++ bytes) d := by
  rcases fileAtPos_cases hs (hw.multi hs) cpos.toNat_lt with
    ⟨k, fi, off, left, hat, hh⟩ | ⟨e, hat, he, hend⟩ | ⟨k, hk, e, hat, he, hle, hlarge⟩
  · obtain ⟨left, rfl⟩ := Int.eq_ofNat_of_zero_le (Int.le_of_lt hh.left_pos)
    obtain ⟨off, rfl⟩ := Int.eq_ofNat_of_zero_le hh.off_nonneg
    have hsucc : startOf 0 t.files (k + 1) = startOf 0 t.files k + fi.length := by
      obtain ⟨hk, rfl⟩ := List.getElem?_eq_some_iff.1 hh.file
      simp only [startOf, List.take_add_one, List.getElem?_eq_getElem hk, Option.toList_some,
        List.map_append, List.map_cons, List.map_nil, List.sum_append, List.sum_singleton]
      omega
    have hoff := hh.off_eq
    have hleft := hh.left_eq
    refine .inr ⟨k, fi, left, hoff ▸ hh, readLoop_turn hw hat ?_ (by omega) hn hmax turns data⟩
    rw [readFiles_multi hs]
    exact List.mem_of_getElem? hh.file
  · exact .inl ⟨e, readLoop_throws hat hn turns data, .inl ⟨he, hend⟩⟩
  · exact .inl ⟨e, readLoop_throws hat hn turns data, .inr ⟨he, k, hk, hle, hlarge⟩⟩

/-- Every turn reads a byte or more, so there are no more turns than bytes. -/
theorem readLoop_ends (hr : t.mLength < 2 ^ 63) (hw : FilesWhole t d) {turns n : Nat}
    {cpos : UInt32} (hturns : n < turns) (hmax : n < 2 ^ 32) (hc : ReadEnds t cpos.toNat n)
    (data : Bytes) : wp (FileWriter.readLoop t turns n cpos data) d
      (fun r d' => d' = d ∧ r.length = data.length + n) fun e d' => d' = d ∧ e.isStd = true := by
  induction turns generalizing n cpos data with
  | zero => omega
  | succ turns ih =>
    have hcpos := cpos.toNat_lt
    by_cases hn : n = 0
    · subst hn
      exact wp_intro (readLoop_none turns cpos data) ⟨rfl, rfl⟩
    have hstep : ∀ (left : Nat) (bytes : Bytes), 0 < left → bytes.length = min n left →
        ReadEnds t (cpos + UInt32.ofNat (min n left)).toNat (n - min n left) →
        wp (FileWriter.readLoop t turns (n - min n left : Nat) (cpos + UInt32.ofNat (min n left))
          (data ++ bytes)) d (fun r d' => d' = d ∧ r.length = data.length + n)
          fun e d' => d' = d ∧ e.isStd = true := by
      intro left bytes hpos hbytes hc'
      refine wp_mono (ih (by omega) (by omega) hc' (data ++ bytes)) (fun r d' h => ⟨h.1, ?_⟩)
        fun _ _ h => h
      have hlen := h.2
      rw [List.length_append, hbytes] at hlen
      omega
    cases hs : t.isSingleFile with
    | true =>
      rcases single_turn hs hr hw cpos (show 0 < n by omega) hmax turns data with
        ⟨-, e, he, hturn⟩ | ⟨left, hleft, bytes, hbytes, hturn⟩
      · rw [wp, hturn]
        exact ⟨rfl, he⟩
      · have hend := hc.single hs
        rw [wp, hturn]
        refine hstep left bytes (by omega) hbytes ⟨fun _ h1 h2 => ?_, fun h => ?_⟩
        · rw [toNat_advance] at h1 h2
          omega
        · rw [hs] at h
          cases h
    | false =>
      have hover := hc.multi hs (by omega)
      rcases multi_turn hs hw cpos (show 0 < n by omega) hmax turns data with
        ⟨e, hturn, ⟨he, -⟩ | ⟨-, k, hk, hle, hlarge⟩⟩ | ⟨k, fi, left, hh, bytes, hbytes, hturn⟩
      · rw [wp, hturn]
        exact ⟨rfl, he⟩
      · have := hover k hk (by omega) (by omega)
        omega
      · have hpos := hh.left_pos
        have hleft := hh.left_eq
        have hsmall := hh.small
        rw [wp, hturn]
        refine hstep left bytes (by omega) hbytes ⟨fun h => ?_, fun _ hn' j hj h1 h2 => ?_⟩
        · rw [hs] at h
          cases h
        · rw [toNat_advance] at h2
          by_cases hjk : j ≤ k
          · have := startOf_mono (hw.multi hs) 0 (show j + 1 ≤ k + 1 by omega)
            omega
          · have := startOf_mono (hw.multi hs) 0 (show k + 1 ≤ j by omega)
            exact hover j hj h1 (by omega)

/-- A loop that is over has met no end of a single file and no overflow. -/
theorem readEnds_of (hr : t.mLength < 2 ^ 63) (hw : FilesWhole t d) {turns n : Nat}
    {cpos : UInt32} {data : Bytes} {Q : Bytes → Disk → Prop} (hmax : n < 2 ^ 32)
    (h : wp (FileWriter.readLoop t turns n cpos data) d Q fun e _ => e.isStd = true) :
    ReadEnds t cpos.toNat n := by
  induction turns generalizing n cpos data with
  | zero => cases h
  | succ turns ih =>
    have hcpos := cpos.toNat_lt
    by_cases hn : n = 0
    · subst hn
      exact ⟨fun _ h1 h2 => by omega, fun _ h => by omega⟩
    cases hs : t.isSingleFile with
    | true =>
      refine ⟨fun _ h1 h2 => ?_, fun h => ?_⟩
      · rcases single_turn hs hr hw cpos (show 0 < n by omega) hmax turns data with
          ⟨hlt, -⟩ | ⟨left, hleft, bytes, -, hturn⟩
        · omega
        · rw [wp, hturn] at h
          have hnext := (ih (by omega) h).single hs
          rw [toNat_advance] at hnext
          omega
      · rw [hs] at h
        cases h
    | false =>
      refine ⟨fun h => ?_, fun _ _ j hj h1 h2 => ?_⟩
      · rw [hs] at h
        cases h
      · rcases multi_turn hs hw cpos (show 0 < n by omega) hmax turns data with
          ⟨e, hturn, ⟨-, hend⟩ | ⟨he, -⟩⟩ | ⟨k, fi, left, hh, bytes, -, hturn⟩
        · have := startOf_mono (hw.multi hs) 0 (show j + 1 ≤ t.files.length by omega)
          omega
        · have hstd := wp_error h hturn
          rw [he] at hstd
          cases hstd
        · rw [wp, hturn] at h
          have hleft := hh.left_eq
          have hsmall := hh.small
          by_cases hjk : j ≤ k
          · have := startOf_mono (hw.multi hs) 0 (show j + 1 ≤ k + 1 by omega)
            omega
          · have hle := startOf_mono (hw.multi hs) 0 (show k + 1 ≤ j by omega)
            have hnext := (ih (by omega) h).multi hs
            rw [toNat_advance] at hnext
            exact hnext (by omega) j hj h1 (by omega)

/-- The loop of `read_block` ends exactly when it meets neither the end of a single file nor an
overflow. `m_length` is an `int64_t`. -/
theorem read_ends_iff (hr : t.mLength < 2 ^ 63) (hw : FilesWhole t d) (offset length : UInt32) :
    Ends t d offset length ↔ ReadEnds t offset.toNat length.toNat := by
  constructor
  · intro hin
    obtain ⟨turns, h⟩ := hin
    exact readEnds_of hr hw length.toNat_lt h
  · intro hc
    refine ⟨length.toNat + 1, ?_⟩
    refine wp_mono (readLoop_ends hr hw (by omega) length.toNat_lt hc []) (fun r _ h => ?_)
      fun _ _ h => h.2
    have hlen := h.2
    rwa [List.length_nil, Nat.zero_add] at hlen

end

/-- A torrent of one byte whose file is there. -/
theorem whole_oneByte : ∃ t w, Constructed Torrent.oneByteSha1 t w ∧ t.isSingleFile = true ∧
    t.mLength = 1 ∧ FilesWhole t w.disk := by
  have hcheck : checkNew Torrent.oneByteSha1 Torrent.oneByteConfig [] Torrent.oneByteFile [0]
      wholeFile (fun t w => decide (t.isSingleFile = true ∧ t.mLength = 1 ∧
        w.disk.fs.fileSize w.disk.cwd (join (FileWriter.base t) t.tmpfile) = some 1)) = true := by
    decide +kernel
  obtain ⟨t, w, hc, h⟩ := checkNew_true hcheck
  obtain ⟨hs, hlen, hsize⟩ := of_decide_eq_true h
  refine ⟨t, w, hc, hs, hlen, fun fi hfi => ?_⟩
  rw [readFiles, if_pos hs, List.mem_singleton] at hfi
  rw [hfi, hlen]
  exact ⟨1, rfl, hsize⟩

theorem read_ends_iff_oneByte : ∃ t w, Constructed Torrent.oneByteSha1 t w ∧
    FilesWhole t w.disk ∧ Ends t w.disk 0 1 := by
  obtain ⟨t, w, hc, hs, hlen, hw⟩ := whole_oneByte
  refine ⟨t, w, hc, hw, (read_ends_iff (by omega) hw 0 1).2 ⟨fun _ _ hlt => ?_, fun hm => ?_⟩⟩
  · rw [hlen] at hlt
    exact absurd hlt (by decide)
  · rw [hs] at hm
    cases hm

/-- Two bytes are read from a file of one byte for ever. -/
theorem read_spins : ¬∀ (sha1 : Bytes → Sha1) (t : Torrent) (w : World) (offset length : UInt32),
    Constructed sha1 t w → FilesWhole t w.disk → Ends t w.disk offset length := by
  intro hall
  obtain ⟨t, w, hc, hs, hlen, hw⟩ := whole_oneByte
  obtain ⟨turns, hend⟩ := hall _ t w 0 2 hc hw
  have hle := (readEnds_of (by omega) hw (UInt32.toNat_lt 2) hend).single hs
    (by rw [hlen]; decide) (by rw [hlen]; decide)
  rw [hlen] at hle
  exact absurd hle (by decide)

end Zit
