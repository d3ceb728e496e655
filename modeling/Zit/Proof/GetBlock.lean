import Zit.Proof.Contain
import Zit.Proof.Formed
import Zit.Proof.ReadBlock

/-!
# The bytes of a request

`read_block` byte for byte: where each byte is read (`readPos`) and which byte is found there
(`readByte`). The loop returns these bytes, or fails at the first one that is not there
(`readLoop_cases`). `get_block` checks the offset of a request but not its length;
`getBlock_within_iff` is the exact condition under which it stays in the piece.
-/

set_option autoImplicit false

namespace Zit

open Lib Lib.Path World

/-! ## Where each byte is read -/

namespace Torrent

variable (t : Torrent)

/-- The byte at a position of the torrent, in the file `read_block` opens for it. -/
def readByte (d : Disk) (pos : Nat) : Option UInt8 :=
  match t.fileAtPos pos with
  | .ok (fi, off, left) =>
    if 0 < left then d.fs.pathByte d.cwd (join (FileWriter.base t) fi.path) off.toNat else none
  | .error _ => none

/-- At this position the loop neither reads nor throws. -/
def Stuck (d : Disk) (pos : Nat) : Prop :=
  match t.fileAtPos pos with
  | .ok (fi, _, left) =>
    left = 0 ∧ (d.fs.fileSize d.cwd (join (FileWriter.base t) fi.path)).isSome = true
  | .error e => e.isStd = false

/-- The position after a byte. Where a file ends it is a 32-bit value again. -/
def nextPos (pos : Nat) : Nat :=
  match t.fileAtPos pos with
  | .ok (_, _, left) => if 1 < left then pos + 1 else (pos + 1) % 2 ^ 32
  | .error _ => pos

/-- The position of byte `i` of a block that begins at `pos`. -/
def readPos (pos i : Nat) : Nat := (nextPos t)^[i] pos

/-- Lengths are `int64_t` values. -/
structure Lengths : Prop where
  single : t.mLength < 2 ^ 63
  multi : ∀ fi ∈ t.files, fi.length < 2 ^ 63

theorem toInt_lt {e : Element} {v : Int} (h : e.toInt = .ok v) : v < 2 ^ 63 := by
  cases e with
  | int i =>
    rw [← Except.ok.inj h]
    exact i.toInt_lt
  | _ => cases h

theorem mode_length {info : List (Bytes × Element)} {mLength : Int} {files : List FileInfo}
    (h : mode info = .ok (mLength, files)) : mLength < 2 ^ 63 := by
  unfold mode at h
  obtain ⟨v, hv, h⟩ := bind_eq_ok.1 h
  have hlt : v < 2 ^ 63 := by
    rcases dictGet_ok hv with ⟨-, rfl⟩ | ⟨e, -, he⟩
    · decide
    · exact toInt_lt he
  split at h
  · cases h
  · obtain ⟨fs, -, h⟩ := bind_eq_ok.1 h
    split at h
    · cases h
    · have he := pure_eq_ok.1 h
      simp only [Prod.mk.injEq] at he
      rwa [← he.1]

theorem fileInfo_length {e : Element} {fi : FileInfo} (h : beDictToFileInfo e = .ok fi) :
    fi.length < 2 ^ 63 := by
  unfold beDictToFileInfo at h
  iterate 5 obtain ⟨_, -, h⟩ := bind_eq_ok.1 h
  obtain ⟨_, -, h⟩ := bind_eq_ok.1 h
  obtain ⟨length, hlength, h⟩ := bind_eq_ok.1 h
  obtain rfl := pure_eq_ok.1 h
  exact toInt_lt hlength

theorem files_length {es : List Element} {files : List FileInfo}
    (h : List.Forall₂ (fun e fi => beDictToFileInfo e = .ok fi) es files) :
    ∀ fi ∈ files, fi.length < 2 ^ 63 := by
  induction h with
  | nil => exact nofun
  | cons he _ ih => exact List.forall_mem_cons.2 ⟨fileInfo_length he, ih⟩

variable {t}

theorem lengths_of_ofContent {sha1 : Bytes → Sha1} {config : Config} {dataDir : Path}
    {content : Bytes} (h : ofContent sha1 config dataDir content = .ok t) : t.Lengths := by
  obtain ⟨root, info, hr⟩ := ofContent_ok h
  refine ⟨mode_length hr.mode, fun fi hfi => ?_⟩
  rcases dictGet_ok (mode_files hr.mode) with ⟨-, hfiles⟩ | ⟨e, -, hfiles⟩
  · rw [hfiles] at hfi
    cases hfi
  · obtain ⟨es, -, hmap⟩ := bind_eq_ok.1 hfiles
    exact files_length (mapM_eq_ok hmap) fi hfi

theorem lengths_of_constructed {sha1 : Bytes → Sha1} {w : World} (hc : Constructed sha1 t w) :
    t.Lengths := by
  obtain ⟨_, _, _, t0, _, _, ht0, ho, -⟩ := constructed_found hc
  have h := lengths_of_ofContent ht0
  rw [ho.rest]
  exact ⟨h.single, h.multi⟩

/-! ## Positions within a file -/

theorem fileAtPosFrom_within {pos cpos : Int} {files : List FileInfo}
    (hfiles : ∀ fi ∈ files, fi.length < 2 ^ 63) (hc : cpos ≤ pos) {fi : FileInfo}
    {off left : Int} (h : fileAtPosFrom pos cpos files = .ok (some (fi, off, left))) {j : Nat}
    (hj : (j : Int) < left) :
    0 ≤ off ∧ fileAtPosFrom (pos + j) cpos files = .ok (some (fi, off + j, left - j)) := by
  induction files generalizing cpos with
  | nil => cases h
  | cons f files ih =>
    have hf := hfiles f List.mem_cons_self
    unfold fileAtPosFrom at h ⊢
    obtain ⟨bound, hb, h⟩ := bind_eq_ok.1 h
    obtain ⟨rfl, hlo, hhi⟩ := int64_ok hb
    rw [hb]
    simp only [bind, Except.bind]
    split at h
    · obtain ⟨o, ho, h⟩ := bind_eq_ok.1 h
      obtain ⟨l, hl, h⟩ := bind_eq_ok.1 h
      obtain ⟨rfl, hol, hoh⟩ := int64_ok ho
      obtain ⟨rfl, hll, hlh⟩ := int64_ok hl
      have he := pure_eq_ok.1 h
      simp only [Option.some.injEq, Prod.mk.injEq] at he
      obtain ⟨rfl, rfl, rfl⟩ := he
      refine ⟨by omega, ?_⟩
      rw [if_pos (by omega), int64_of ⟨by omega, by omega⟩]
      simp only
      rw [int64_of ⟨by omega, by omega⟩]
      simp only [pure, Except.pure, Except.ok.injEq, Option.some.injEq, Prod.mk.injEq, true_and]
      omega
    · rename_i hge
      rw [if_neg (by omega)]
      exact ih (fun fi hfi => hfiles fi (List.mem_cons_of_mem _ hfi)) (by omega) h

/-- The bytes left in a file are all in it. -/
theorem fileAtPos_within (hl : t.Lengths) {pos : Nat} {fi : FileInfo} {off left : Int}
    (h : t.fileAtPos pos = .ok (fi, off, left)) {j : Nat} (hj : (j : Int) < left) :
    0 ≤ off ∧ t.fileAtPos (pos + j : Nat) = .ok (fi, off + j, left - j) := by
  unfold fileAtPos at h ⊢
  split at h
  · rename_i hs
    rw [if_pos hs]
    obtain ⟨length, hlen, h⟩ := bind_eq_ok.1 h
    obtain ⟨l, hl', h⟩ := bind_eq_ok.1 h
    obtain ⟨rfl, hlo, hhi⟩ := int64_ok hl'
    have he := pure_eq_ok.1 h
    simp only [Prod.mk.injEq] at he
    obtain ⟨rfl, rfl, rfl⟩ := he
    rw [hlen]
    simp only [bind, Except.bind]
    rw [int64_of ⟨by omega, by omega⟩]
    refine ⟨Int.natCast_nonneg pos, ?_⟩
    simp only [pure, Except.pure, Except.ok.injEq, Prod.mk.injEq, true_and]
    omega
  · rename_i hs
    rw [if_neg hs]
    obtain ⟨r, hr, h⟩ := bind_eq_ok.1 h
    cases r with
    | none =>
      obtain ⟨_, -, h⟩ := bind_eq_ok.1 h
      cases h
    | some found =>
      obtain rfl := pure_eq_ok.1 h
      obtain ⟨hoff, hw⟩ := fileAtPosFrom_within hl.multi (Int.natCast_nonneg pos) hr hj
      rw [Int.natCast_add, hw]
      exact ⟨hoff, rfl⟩

theorem readPos_add (pos i j : Nat) : t.readPos pos (i + j) = t.readPos (t.readPos pos i) j := by
  rw [readPos, Nat.add_comm, Function.iterate_add_apply]
  rfl

/-- In a file the positions follow each other; behind its last byte 32 bits count. -/
theorem readPos_within (hl : t.Lengths) {pos : Nat} {fi : FileInfo} {off left : Int}
    (h : t.fileAtPos pos = .ok (fi, off, left)) {j : Nat} :
    ((j : Int) < left → t.readPos pos j = pos + j) ∧
      ((j : Int) = left → 0 < left → t.readPos pos j = (pos + j) % 2 ^ 32) := by
  induction j with
  | zero => exact ⟨fun _ => rfl, fun h0 hpos => by omega⟩
  | succ j ih =>
    have hstep (hj : (j : Int) < left) : t.readPos pos (j + 1) =
        if 1 < left - j then pos + j + 1 else (pos + j + 1) % 2 ^ 32 := by
      have hnext := ih.1 hj
      rw [readPos] at hnext ⊢
      rw [Function.iterate_succ_apply', hnext, nextPos, (fileAtPos_within hl h hj).2]
    refine ⟨fun hj => ?_, fun hj _ => ?_⟩
    · rw [hstep (by omega), if_pos (by omega)]
      rfl
    · rw [hstep (by omega), if_neg (by omega)]
      rfl

/-- Below 4 GiB the bytes that are there follow each other. -/
theorem readPos_below {d : Disk} {pos i : Nat} (h : ∀ j < i, t.readByte d (pos + j) ≠ none)
    (hlt : pos + i < 2 ^ 32) : t.readPos pos i = pos + i := by
  induction i with
  | zero => rfl
  | succ i ih =>
    have hprev := ih (fun j hj => h j (by omega)) (by omega)
    have hbyte := h i (by omega)
    rw [readPos] at hprev ⊢
    rw [Function.iterate_succ_apply', hprev]
    rw [readByte] at hbyte
    unfold nextPos
    cases hat : t.fileAtPos (pos + i : Nat) with
    | error e =>
      rw [hat] at hbyte
      exact absurd rfl hbyte
    | ok found =>
      simp only
      split
      · omega
      · omega

theorem readByte_within (hl : t.Lengths) {d : Disk} {pos : Nat} {fi : FileInfo} {off left : Int}
    (h : t.fileAtPos pos = .ok (fi, off, left)) {j : Nat} (hj : (j : Int) < left) :
    t.readByte d (pos + j) =
      d.fs.pathByte d.cwd (join (FileWriter.base t) fi.path) (off.toNat + j) := by
  obtain ⟨hoff, hw⟩ := fileAtPos_within hl h hj
  rw [readByte, hw]
  simp only
  rw [if_pos (by omega)]
  congr 1
  omega

theorem not_stuck_within (hl : t.Lengths) {d : Disk} {pos : Nat} {fi : FileInfo} {off left : Int}
    (h : t.fileAtPos pos = .ok (fi, off, left)) {j : Nat} (hj : (j : Int) < left) :
    ¬t.Stuck d (pos + j) := by
  rw [Stuck, (fileAtPos_within hl h hj).2]
  intro hin
  obtain ⟨hzero, -⟩ := hin
  omega

end Torrent

/-! ## The loop -/

/-- The first of `n` bytes that is not there is byte `i`. -/
def FirstMissing (t : Torrent) (d : Disk) (pos n i : Nat) : Prop :=
  i < n ∧ (∀ j < i, t.readByte d (t.readPos pos j) ≠ none) ∧ t.readByte d (t.readPos pos i) = none

section
variable {t : Torrent} {d : Disk}

/-- A range of a file is read, or a byte of it is not there. -/
theorem read_cases (path : Path) (off : Nat) {n : Nat} (hn : 0 < n) :
    (∃ data, Disk.read path off n d = .ok data d ∧ data.length = n ∧
      ∀ i < n, d.fs.pathByte d.cwd path (off + i) = data[i]?) ∨
    ∃ i < n, d.fs.pathByte d.cwd path (off + i) = none ∧
      (∀ j < i, d.fs.pathByte d.cwd path (off + j) ≠ none) ∧
      ∃ e, e.isStd = true ∧ Disk.read path off n d = .error e d := by
  simp only [Disk.read, bind, EStateM.bind, get_run]
  cases h : d.fs.read d.cwd path off n with
  | some data =>
    exact .inl ⟨data, rfl, (FileSystem.read_eq h).1, fun i hi => FileSystem.pathByte_of_read h hi⟩
  | none =>
    obtain ⟨i, hi, hnone, hbefore⟩ := FileSystem.pathByte_none_of_read hn h
    exact .inr ⟨i, hi, hnone, hbefore, _, rfl, rfl⟩

/-- A turn at a position in a file. -/
theorem readLoop_chunk (hl : t.Lengths) {cpos : UInt32} {fi : FileInfo} {off left : Int}
    (hat : t.fileAtPos cpos.toNat = .ok (fi, off, left)) (d : Disk) {len : Nat} (hlen : 0 < len)
    {n : Nat} (hmin : (len : Int) = min (n : Int) left) (hmax : n < 2 ^ 32) (turns : Nat) (data : Bytes) :
    (∃ bytes : Bytes, bytes.length = len ∧
      (∀ i < len, bytes[i]? = t.readByte d (t.readPos cpos.toNat i)) ∧
      FileWriter.readLoop t (turns + 1) n cpos data d =
        FileWriter.readLoop t turns (n - len : Nat) (cpos + UInt32.ofNat len) (data ++ bytes) d) ∨
    ∃ i, FirstMissing t d cpos.toNat len i ∧ ¬t.Stuck d (t.readPos cpos.toNat i) ∧
      ∃ e, e.isStd = true ∧ FileWriter.readLoop t (turns + 1) n cpos data d = .error e d := by
  have hpos (i : Nat) (hi : i < len) : t.readPos cpos.toNat i = cpos.toNat + i :=
    (Torrent.readPos_within hl hat).1 (by omega)
  have hbyte (i : Nat) (hi : i < len) := Torrent.readByte_within hl (d := d) hat (j := i) (by omega)
  have hto : (UInt32.ofNat len).toNat = len :=
    UInt32.toNat_ofNat_of_lt' (show len < 2 ^ 32 by omega)
  have hpath : FileWriter.readPath t cpos.toNat =
      .ok (join (FileWriter.base t) fi.path, off, left) := by
    rw [FileWriter.readPath, hat]
    rfl
  have hcast : castU32 (min (n : Int) left) = .ok (UInt32.ofNat len) := by
    rw [← hmin]
    exact castU32_of (by omega)
  rcases read_cases (d := d) (join (FileWriter.base t) fi.path) off.toNat hlen with
    ⟨bytes, hread, hbytes, hall⟩ | ⟨i, hi, hnone, hbefore, e, he, hread⟩
  · refine .inl ⟨bytes, hbytes, fun i hi => ?_, ?_⟩
    · rw [hpos i hi, hbyte i hi, hall i hi]
    · rw [FileWriter.readLoop, if_pos (by omega)]
      simp only [bind, EStateM.bind, hpath, hcast, lift, hto, hread]
      rw [show ((n - len : Nat) : Int) = n - len by omega]
  · refine .inr ⟨i, ⟨hi, fun j hj => ?_, ?_⟩, ?_, e, he, ?_⟩
    · rw [hpos j (by omega), hbyte j (by omega)]
      exact hbefore j hj
    · rw [hpos i hi, hbyte i hi, hnone]
    · rw [hpos i hi]
      exact Torrent.not_stuck_within hl hat (by omega)
    · rw [FileWriter.readLoop, if_pos (by omega)]
      simp only [bind, EStateM.bind, hpath, hcast, lift, hto, hread]

/-- Reading nothing needs the file only. -/
theorem read_nothing (path : Path) (off : Nat) :
    if (d.fs.fileSize d.cwd path).isSome = true then Disk.read path off 0 d = .ok [] d
    else ∃ e, e.isStd = true ∧ Disk.read path off 0 d = .error e d := by
  simp only [Disk.read, bind, EStateM.bind, get_run,
    FileSystem.read, FileSystem.fileSize]
  cases hl : d.fs.resolve d.cwd path with
  | none => exact ⟨_, rfl, rfl⟩
  | some l =>
    cases hc : d.fs.content l with
    | none =>
      simp only [Option.bind_some, hc, Option.map_none, Option.isSome_none, Bool.false_eq_true,
        if_false]
      exact ⟨_, rfl, rfl⟩
    | some content =>
      simp only [Option.bind_some, hc, Option.map_some, Option.isSome_some, if_true, true_or]
      rfl

/-- At the end of a file the same turn is repeated. -/
theorem readLoop_repeats {cpos : UInt32} {fi : FileInfo} {off : Int}
    (hat : t.fileAtPos cpos.toNat = .ok (fi, off, 0)) {n : Nat} (hn : 0 < n)
    (hfile : (d.fs.fileSize d.cwd (join (FileWriter.base t) fi.path)).isSome = true) (turns : Nat)
    (data : Bytes) : FileWriter.readLoop t turns n cpos data d = .error .diverged d := by
  have hpath : FileWriter.readPath t cpos.toNat =
      .ok (join (FileWriter.base t) fi.path, off, 0) := by
    rw [FileWriter.readPath, hat]
    rfl
  have hcast : castU32 (min (n : Int) 0) = .ok 0 := by
    rw [show min (n : Int) 0 = ((0 : Nat) : Int) by omega]
    exact castU32_of (by decide)
  have hread := read_nothing (d := d) (join (FileWriter.base t) fi.path) off.toNat
  rw [if_pos hfile] at hread
  induction turns with
  | zero => rfl
  | succ turns ih =>
    rw [FileWriter.readLoop, if_pos (by omega)]
    simp only [bind, EStateM.bind, hpath, hcast, lift, UInt32.toNat_zero, hread, List.append_nil,
      UInt32.add_zero]
    rw [show (n : Int) - ((0 : Nat) : Int) = n by omega]
    exact ih

/-- A turn at a position that is in no file. -/
theorem readLoop_outside {cpos : UInt32} (hout : ∀ fi off left,
      t.fileAtPos cpos.toNat = .ok (fi, off, left) → left ≤ 0) {n : Nat} (hn : 0 < n)
    (turns : Nat) (data : Bytes) : t.readByte d cpos.toNat = none ∧
      ∃ e, (e.isStd = false ↔ t.Stuck d cpos.toNat) ∧
        FileWriter.readLoop t (turns + 1) n cpos data d = .error e d := by
  cases hat : t.fileAtPos cpos.toNat with
  | error e =>
    rw [Torrent.readByte, Torrent.Stuck, hat]
    exact ⟨rfl, e, Iff.rfl, readLoop_throws hat hn turns data⟩
  | ok found =>
    obtain ⟨fi, off, left⟩ := found
    have hle := hout fi off left hat
    have hpath : FileWriter.readPath t cpos.toNat =
        .ok (join (FileWriter.base t) fi.path, off, left) := by
      rw [FileWriter.readPath, hat]
      rfl
    rw [Torrent.readByte, Torrent.Stuck, hat]
    refine ⟨if_neg (by omega), ?_⟩
    by_cases hneg : left < 0
    · have hcast : castU32 (min (n : Int) left) = .error (.outOfRange "out of range") :=
        castU32_neg (by omega)
      refine ⟨.outOfRange "out of range", ⟨fun h => (by cases h), fun h => (by omega)⟩, ?_⟩
      rw [FileWriter.readLoop, if_pos (by omega)]
      simp only [bind, EStateM.bind, hpath, hcast, lift]
    · obtain rfl : left = 0 := by omega
      by_cases hfile : (d.fs.fileSize d.cwd (join (FileWriter.base t) fi.path)).isSome = true
      · exact ⟨.diverged, ⟨fun _ => ⟨rfl, hfile⟩, fun _ => rfl⟩,
          readLoop_repeats hat hn hfile (turns + 1) data⟩
      · have hread := read_nothing (d := d) (join (FileWriter.base t) fi.path) off.toNat
        rw [if_neg hfile] at hread
        obtain ⟨e, he, hread⟩ := hread
        have hcast : castU32 (min (n : Int) 0) = .ok 0 := by
          rw [show min (n : Int) 0 = ((0 : Nat) : Int) by omega]
          exact castU32_of (by decide)
        refine ⟨e, ⟨fun h => ?_, fun h => absurd h.2 hfile⟩, ?_⟩
        · rw [he] at h
          cases h
        · rw [FileWriter.readLoop, if_pos (by omega)]
          simp only [bind, EStateM.bind, hpath, hcast, lift, UInt32.toNat_zero, hread]

/-- The loop returns the bytes at the positions, or fails at the first byte that is not there. -/
theorem readLoop_cases (hl : t.Lengths) {turns n : Nat} {cpos : UInt32} (hturns : n < turns)
    (hmax : n < 2 ^ 32) (data : Bytes) :
    (∃ bytes : Bytes, bytes.length = n ∧
      (∀ i < n, bytes[i]? = t.readByte d (t.readPos cpos.toNat i)) ∧
      FileWriter.readLoop t turns n cpos data d = .ok (data ++ bytes) d) ∨
    ∃ i, FirstMissing t d cpos.toNat n i ∧
      ∃ e, (e.isStd = false ↔ t.Stuck d (t.readPos cpos.toNat i)) ∧
        FileWriter.readLoop t turns n cpos data d = .error e d := by
  induction turns generalizing n cpos data with
  | zero => omega
  | succ turns ih =>
    by_cases hn : n = 0
    · subst hn
      exact .inl ⟨[], rfl, nofun, by rw [List.append_nil]; exact readLoop_none turns cpos data⟩
    by_cases hin : ∃ fi off left, t.fileAtPos cpos.toNat = .ok (fi, off, left) ∧ 0 < left
    · obtain ⟨fi, off, left, hat, hpos⟩ := hin
      obtain ⟨len, hlen⟩ := Int.eq_ofNat_of_zero_le (show 0 ≤ min (n : Int) left by omega)
      rcases readLoop_chunk hl hat d (show 0 < len by omega) hlen.symm hmax turns data with
        ⟨bytes, hlength, hbytes, hturn⟩ | ⟨i, hmissing, hstuck, e, he, hturn⟩
      · have hnext (i : Nat) (hi : i < n - len) :
            t.readPos (cpos + UInt32.ofNat len).toNat i = t.readPos cpos.toNat (len + i) := by
          have hend := (Torrent.readPos_within hl hat (j := len)).2 (by omega) hpos
          rw [t.readPos_add, hend, toNat_advance]
        rw [hturn]
        have hrun := @ih (n - len) (cpos + UInt32.ofNat len) (by omega) (by omega) (data ++ bytes)
        rcases hrun with
          ⟨bytes', hlength', hbytes', hrest⟩ | ⟨i, ⟨hi, hbefore, hnone⟩, e, he, hrest⟩
        · refine .inl ⟨bytes ++ bytes', by rw [List.length_append]; omega, fun i hi => ?_, ?_⟩
          · by_cases hlt : i < len
            · rw [List.getElem?_append_left (by omega), hbytes i hlt]
            · rw [List.getElem?_append_right (by omega), hlength, hbytes' _ (by omega),
                hnext _ (by omega), Nat.add_sub_cancel' (by omega)]
          · rw [hrest, List.append_assoc]
        · refine .inr ⟨len + i, ⟨by omega, fun j hj => ?_, ?_⟩, e, ?_, hrest⟩
          · by_cases hlt : j < len
            · rw [← hbytes j hlt, List.getElem?_eq_getElem (by omega)]
              exact Option.some_ne_none _
            · have := hbefore (j - len) (by omega)
              rwa [hnext _ (by omega), Nat.add_sub_cancel' (by omega)] at this
          · rw [← hnext i hi, hnone]
          · rw [he, hnext i hi]
      · refine .inr ⟨i, ⟨by have := hmissing.1; omega, hmissing.2⟩, e, ⟨fun h => ?_, fun h => ?_⟩,
          hturn⟩
        · rw [he] at h
          cases h
        · exact absurd h hstuck
    · obtain ⟨hnone, e, he, hturn⟩ := readLoop_outside (d := d)
        (fun fi off left hat => by
          by_contra hpos
          exact hin ⟨fi, off, left, hat, by omega⟩) (show 0 < n by omega) turns data
      exact .inr ⟨0, ⟨by omega, nofun, hnone⟩, e, he, hturn⟩

end

/-! ## The block -/

namespace Piece

/-- How many bytes `get_block` goes for. -/
def askedLength (length : UInt32) : UInt32 := if length ≠ 0 then length else blockSize

/-- How many bytes a request is for: without a length a block, cut at the end of the piece. -/
def wantedLength (p : Piece) (offset length : UInt32) : Nat :=
  if length ≠ 0 then length.toNat else min blockSize.toNat (p.pieceSize.toNat - offset.toNat)

/-- A byte of the piece: of a block that is done, or on disk once the piece is written. -/
def byteAt (t : Torrent) (d : Disk) (p : Piece) (i : Nat) : Option UInt8 :=
  if p.pieceWritten then t.readByte d (p.id.toNat * t.pieceLength.toNat + i)
  else if p.blocksDone.bit (i / blockSize.toNat) then p.data[i]? else none

/-- `get_block` throws, or it returns nothing or the bytes of the piece the request is for. -/
def Within (t : Torrent) (d : Disk) (p : Piece) (offset length : UInt32) : Prop :=
  wp (p.getBlock offset t length) d
    (fun bytes _ => bytes = [] ∨ bytes.length = p.wantedLength offset length ∧
      offset.toNat + bytes.length ≤ p.pieceSize.toNat ∧
      ∀ i < bytes.length, bytes[i]? = p.byteAt t d (offset.toNat + i)) fun e _ => e.isStd = true

/-- A block that is done is asked for with a length that ends in the piece, and all blocks it meets
are done; of a written piece all bytes are on disk, and also at the positions where they are read,
or the first one that is not there makes `file_at_pos` or the stream throw. -/
def Stays (t : Torrent) (d : Disk) (p : Piece) (offset length : UInt32) : Prop :=
  offset % blockSize = 0 → offset < p.pieceSize →
    p.blocksDone.bit (offset / blockSize).toNat = true →
    if p.pieceWritten then
      offset.toNat + (askedLength length).toNat ≤ p.pieceSize.toNat ∧
        (∀ i < (askedLength length).toNat, ∃ b,
          t.readByte d (t.readPos (p.fileOffset t offset).toNat i) = some b ∧
          t.readByte d (p.id.toNat * t.pieceLength.toNat + (offset.toNat + i)) = some b) ∨
      ∃ i, FirstMissing t d (p.fileOffset t offset).toNat (askedLength length).toNat i ∧
        ¬t.Stuck d (t.readPos (p.fileOffset t offset).toNat i)
    else offset.toNat + (askedLength length).toNat ≤ p.pieceSize.toNat ∧
      ∀ i < (askedLength length).toNat,
        p.blocksDone.bit ((offset.toNat + i) / blockSize.toNat) = true

section
variable {t : Torrent} {d : Disk} {p : Piece} {offset length : UInt32}

theorem askedLength_pos (length : UInt32) : 0 < (askedLength length).toNat := by
  unfold askedLength
  split
  · rename_i h
    exact Nat.pos_of_ne_zero fun h0 => h (UInt32.toNat.inj h0)
  · decide

/-- Where the length ends in the piece, it is what the request is for. -/
theorem wantedLength_eq : p.wantedLength offset length = (askedLength length).toNat ↔
    length ≠ 0 ∨ offset.toNat + (askedLength length).toNat ≤ p.pieceSize.toNat := by
  have hpos : 0 < blockSize.toNat := by decide
  unfold wantedLength askedLength
  by_cases h : length ≠ 0
  · rw [if_pos h, if_pos h]
    exact ⟨fun _ => .inl h, fun _ => rfl⟩
  · rw [if_neg h, if_neg h]
    constructor
    · intro heq
      exact .inr (by omega)
    · intro h
      rcases h with hne | hle
      · exact absurd hne h
      · omega

/-- What is returned is as long as `get_block` goes for. -/
theorem within_returned {bytes : Bytes} (hlen : bytes.length = (askedLength length).toNat) :
    (bytes = [] ∨ bytes.length = p.wantedLength offset length ∧
      offset.toNat + bytes.length ≤ p.pieceSize.toNat ∧
      ∀ i < bytes.length, bytes[i]? = p.byteAt t d (offset.toNat + i)) ↔
    offset.toNat + (askedLength length).toNat ≤ p.pieceSize.toNat ∧
      ∀ i < (askedLength length).toNat, bytes[i]? = p.byteAt t d (offset.toNat + i) := by
  have hpos := askedLength_pos length
  rw [hlen]
  constructor
  · intro h
    rcases h with rfl | ⟨-, hle, hall⟩
    · rw [← hlen] at hpos
      exact absurd hpos (Nat.lt_irrefl 0)
    · exact ⟨hle, hall⟩
  · intro hin
    obtain ⟨hle, hall⟩ := hin
    exact .inr ⟨(wantedLength_eq.2 (.inr hle)).symm, hle, hall⟩

/-- `get_block` for a block that is done. -/
theorem getBlock_done (h0 : offset % blockSize = 0) (hlt : offset < p.pieceSize)
    (hdone : p.blocksDone.bit (offset / blockSize).toNat = true) : p.getBlock offset t length d =
      if p.pieceWritten then
        FileWriter.readBlock t (p.fileOffset t offset) (askedLength length) d
      else if offset.toNat + (askedLength length).toNat ≤ p.data.length then
        .ok ((p.data.drop offset.toNat).take (askedLength length).toNat) d
      else .error (.undefined "iterator past the end of m_data") d := by
  rw [getBlock, if_neg (not_not.2 h0), if_neg (UInt32.not_le.2 hlt)]
  simp only [Bitfield.get_eq, if_pos (Bitfield.lt_size_of_bit _ hdone), hdone, lift, bind,
    EStateM.bind, not_true_eq_false, if_false]
  rw [← askedLength]
  split
  · rfl
  · split <;> rfl

/-- Otherwise it throws or returns nothing. -/
theorem within_other (h : ¬(offset % blockSize = 0 ∧ offset < p.pieceSize ∧
    p.blocksDone.bit (offset / blockSize).toNat = true)) : Within t d p offset length := by
  unfold Within getBlock
  refine wp_ite (fun _ => rfl) fun h0 => wp_ite (fun _ => rfl) fun hlt => ?_
  rw [UInt32.not_le] at hlt
  have hbit : ¬p.blocksDone.bit (offset / blockSize).toNat = true := fun hbit =>
    h ⟨not_not.1 h0, hlt, hbit⟩
  simp only [wp_bind, wp_lift, Bitfield.get_eq]
  refine ⟨fun done hd => ?_, fun e he => ?_⟩
  · split at hd
    · rw [← Except.ok.inj hd, if_pos hbit]
      exact .inl rfl
    · cases hd
  · split at he
    · cases he
    · rw [← Except.error.inj he]
      rfl

/-- The branch for the memory. -/
theorem within_memory (hf : p.Formed) (hw : p.pieceWritten = false)
    (h0 : offset % blockSize = 0) (hlt : offset < p.pieceSize)
    (hdone : p.blocksDone.bit (offset / blockSize).toNat = true) :
    Within t d p offset length ↔
      offset.toNat + (askedLength length).toNat ≤ p.pieceSize.toNat ∧
        ∀ i < (askedLength length).toNat,
          p.blocksDone.bit ((offset.toNat + i) / blockSize.toNat) = true := by
  have hdata := hf.data hw
  rw [Within, wp, getBlock_done h0 hlt hdone, hw, hdata]
  simp only [Bool.false_eq_true, if_false]
  by_cases hle : offset.toNat + (askedLength length).toNat ≤ p.pieceSize.toNat
  · rw [if_pos hle]
    refine (within_returned (by rw [List.length_take, List.length_drop]; omega)).trans ?_
    refine and_congr_right fun _ => forall_congr' fun i => imp_congr_right fun hi => ?_
    obtain ⟨b, hsome⟩ : ∃ b, p.data[offset.toNat + i]? = some b :=
      ⟨_, List.getElem?_eq_getElem (by omega)⟩
    rw [List.getElem?_take_of_lt hi, List.getElem?_drop, byteAt, hw, hsome]
    simp
  · rw [if_neg hle]
    exact ⟨fun h => (by cases h), fun h => absurd h.1 hle⟩

/-- The branch for the disk. -/
theorem within_disk (hl : t.Lengths) (hw : p.pieceWritten = true)
    (h0 : offset % blockSize = 0) (hlt : offset < p.pieceSize)
    (hdone : p.blocksDone.bit (offset / blockSize).toNat = true) :
    Within t d p offset length ↔
      offset.toNat + (askedLength length).toNat ≤ p.pieceSize.toNat ∧
        (∀ i < (askedLength length).toNat, ∃ b,
          t.readByte d (t.readPos (p.fileOffset t offset).toNat i) = some b ∧
          t.readByte d (p.id.toNat * t.pieceLength.toNat + (offset.toNat + i)) = some b) ∨
      ∃ i, FirstMissing t d (p.fileOffset t offset).toNat (askedLength length).toNat i ∧
        ¬t.Stuck d (t.readPos (p.fileOffset t offset).toNat i) := by
  have hbyte (i : Nat) : p.byteAt t d i =
      t.readByte d (p.id.toNat * t.pieceLength.toNat + i) := by rw [byteAt, if_pos hw]
  rw [Within, wp, getBlock_done h0 hlt hdone, if_pos hw, FileWriter.readBlock]
  have hcases := @readLoop_cases t d hl _ _ (p.fileOffset t offset)
    (Nat.lt_succ_self (askedLength length).toNat) (askedLength length).toNat_lt []
  rcases hcases with
    ⟨bytes, hlen, hbytes, hrun⟩ | ⟨i, hmissing, e, he, hrun⟩
  · rw [hrun]
    refine (within_returned hlen).trans ⟨fun h => .inl ⟨h.1, fun i hi => ?_⟩, ?_⟩
    · obtain ⟨b, hsome⟩ : ∃ b, bytes[i]? = some b := ⟨_, List.getElem?_eq_getElem (by omega)⟩
      refine ⟨b, (hbytes i hi).symm.trans hsome, ?_⟩
      rw [← hbyte, ← h.2 i hi]
      exact hsome
    · intro h
      rcases h with ⟨hle, hall⟩ | ⟨i, hmissing, -⟩
      · refine ⟨hle, fun i hi => ?_⟩
        obtain ⟨b, hread, hhome⟩ := hall i hi
        rw [hbyte, hhome, ← hread]
        exact hbytes i hi
      · have hnone := (hbytes i hmissing.1).trans hmissing.2.2
        rw [List.getElem?_eq_none_iff, hlen] at hnone
        exact absurd hmissing.1 (Nat.not_lt.2 hnone)
  · rw [hrun]
    have hiff : e.isStd = true ↔ ¬t.Stuck d (t.readPos (p.fileOffset t offset).toNat i) := by
      rw [← he, Bool.not_eq_false]
    refine hiff.trans ⟨fun h => .inr ⟨i, hmissing, h⟩, ?_⟩
    intro h
    rcases h with ⟨-, hall⟩ | ⟨j, hj, hstuck⟩
    · obtain ⟨b, hread, -⟩ := hall i hmissing.1
      rw [hmissing.2.2] at hread
      cases hread
    · rcases Nat.lt_trichotomy i j with hlt' | rfl | hlt'
      · exact absurd hmissing.2.2 (hj.2.1 i hlt')
      · exact hstuck
      · exact absurd hj.2.2 (hmissing.2.1 j hlt')

end

end Piece

/-- In every state that is reached, a request stays in its piece exactly when `Stays` holds. -/
theorem getBlock_within_iff {sha1 : Bytes → Sha1} {t : Torrent} {w0 w : World} {as : List Action}
    (hc : Constructed sha1 t w0) (hr : Run (Step sha1 t) w0 as w) {ref : Nat} {p : Piece}
    (hp : w.heap[ref]? = some p) (offset length : UInt32) :
    p.Within t w.disk offset length ↔ p.Stays t w.disk offset length := by
  have hf := ((WellFormed.of_constructed hc).changes (run_changes (run_all hr))).formed ref p hp
  unfold Piece.Stays
  by_cases h : offset % Piece.blockSize = 0 ∧ offset < p.pieceSize ∧
      p.blocksDone.bit (offset / Piece.blockSize).toNat = true
  · obtain ⟨h0, hlt, hdone⟩ := h
    simp only [h0, hlt, hdone, forall_const]
    cases hw : p.pieceWritten with
    | true => exact Piece.within_disk (Torrent.lengths_of_constructed hc) hw h0 hlt hdone
    | false => exact Piece.within_memory hf hw h0 hlt hdone
  · exact ⟨fun _ h0 hlt hdone => absurd ⟨h0, hlt, hdone⟩ h, fun _ => Piece.within_other h⟩

/-- A piece of one byte that is received, and the request for it. -/
def requestRun : List Action :=
  [.connect false, .setRemotePieces 0 ⟨[0x80]⟩, .setAmInterested 0 true, .setChoking 0 false 5,
    .setBlock 0 0 0 [120] 7]

theorem getBlock_within_iff_oneByte : ∃ t w0 w p, Constructed Torrent.oneByteSha1 t w0 ∧
    Run (Step Torrent.oneByteSha1 t) w0 requestRun w ∧ w.heap[0]? = some p ∧
    p.Within t w.disk 0 1 := by
  have hcheck : checkNew Torrent.oneByteSha1 Torrent.oneByteConfig [] Torrent.oneByteFile [0] ⟨∅⟩
      (fun t w0 =>
        (Action.runAll (fun _ _ => true) Torrent.oneByteSha1 t requestRun w0).any fun w =>
          w.heap[0]?.any fun p => !p.pieceWritten && decide (p.pieceSize = 1) &&
            p.blocksDone.bit 0) = true := by
    decide +kernel
  obtain ⟨t, w0, hc, h⟩ := checkNew_true hcheck
  simp only [Bool.and_eq_true, Option.any_eq_true, decide_eq_true_eq, Bool.not_eq_true'] at h
  obtain ⟨w, hr, p, hp, ⟨hw, hsize⟩, hdone⟩ := h
  have hrun := (run_of_runAll hr).mono fun _ _ _ h => h.2
  refine ⟨t, w0, w, p, hc, hrun, hp, (getBlock_within_iff hc hrun hp 0 1).2 fun _ _ _ => ?_⟩
  rw [if_neg (by rw [hw]; exact Bool.false_ne_true), hsize]
  refine ⟨by decide, fun i hi => ?_⟩
  obtain rfl : i = 0 := Nat.lt_one_iff.1 hi
  exact hdone

/-- The whole block of that piece, without a length. -/
theorem getBlock_beyond : ¬∀ (sha1 : Bytes → Sha1) (t : Torrent) (w0 w : World) (as : List Action)
    (ref : Nat) (p : Piece) (offset length : UInt32), Constructed sha1 t w0 →
      Run (Step sha1 t) w0 as w → w.heap[ref]? = some p → p.Within t w.disk offset length := by
  intro hall
  have hcheck : checkNew Torrent.oneByteSha1 Torrent.oneByteConfig [] Torrent.oneByteFile [0] ⟨∅⟩
      (fun t w0 =>
        (Action.runAll (fun _ _ => true) Torrent.oneByteSha1 t requestRun w0).any fun w =>
          w.heap[0]?.any fun p => match p.getBlock 0 t 0 w.disk with
            | .ok _ _ => false
            | .error e _ => !e.isStd) = true := by
    decide +kernel
  obtain ⟨t, w0, hc, h⟩ := checkNew_true hcheck
  simp only [Option.any_eq_true] at h
  obtain ⟨w, hr, p, hp, h⟩ := h
  have hw := hall _ t w0 w _ 0 p 0 0 hc ((run_of_runAll hr).mono fun _ _ _ h => h.2) hp
  unfold Piece.Within wp at hw
  split at h
  · cases h
  · rename_i e d he
    rw [he] at hw
    simp only at hw
    rw [hw] at h
    cases h

end Zit
