import Zit.Proof.Orderly
import Zit.Proof.Split

/-!
# What the start-up check finds

The check of a piece reads the bytes from `pieceStart` on, a piece length or less. `Runs` says when
it ends without an exception, `Hits` when it finds the piece; the two loops meet them
(`verifyPieceSingleFile_exact`, `verifyPieceMultiFile_exact`), and checking all pieces in any order
finds exactly those that are hit (`verifyPieces_exact`). So the check is exact when it runs and reads
the bytes of the piece, or others that make no difference (`verify_exact_iff`).
-/

set_option autoImplicit false

namespace Zit

open Lib Lib.Path World FileSystem

namespace Torrent

variable (sha1 : Bytes → Sha1) (t : Torrent) (fs : FileSystem) (cwd : Loc)

/-! ## The bytes on disk -/

/-- The byte at a position of the torrent, when it is on disk. -/
def diskByte (pos : Nat) : Option UInt8 :=
  if t.isSingleFile then fs.pathByte cwd t.tmpfile pos
  else (fileOf pos 0 t.files).bind fun f => fs.pathByte cwd (join t.name f.1.path) f.2.toNat

/-- The data is on disk from `start` on. -/
def HoldsData (start : Nat) (data : Bytes) : Prop :=
  ∀ j < data.length, t.diskByte fs cwd (start + j) = data[j]?

/-- These bytes are all on disk and have the hash. -/
def Hits (hash : Sha1) (start size : Nat) : Prop :=
  ∃ data, data.length = size ∧ t.HoldsData fs cwd start data ∧ sha1 data = hash

/-- All bytes of the piece are on disk and have its hash. -/
def OnDiskRight (index : Nat) (hash : Sha1) : Prop :=
  ∃ size, t.pieceLengthAt (UInt32.ofNat index) = .ok size ∧
    t.Hits sha1 fs cwd hash (index * t.pieceLength.toNat) size.toNat

/-- The first byte of a range that is not on disk. -/
structure FirstAbsent (start size pos : Nat) : Prop where
  ge : start ≤ pos
  lt : pos < start + size
  absent : t.diskByte fs cwd pos = none
  before : ∀ k, start ≤ k → k < pos → t.diskByte fs cwd k ≠ none

/-! ## The check of a piece -/

/-- The length of a single file on disk, the total length of several. -/
def IsBound (bound : Nat) : Prop :=
  if t.isSingleFile then fs.fileSize cwd t.tmpfile = some bound ∧ bound < 2 ^ 64
  else t.length = .ok (bound : Int)

/-- How many bytes are read for a piece. -/
def checkedLength (bound : Nat) (id : UInt32) : Nat :=
  min t.pieceLength.toNat (bound - t.pieceStart id)

/-- The check reads these bytes, and they have the hash. -/
def CheckHits (bound index : Nat) (hash : Sha1) : Prop :=
  t.Hits sha1 fs cwd hash (t.pieceStart (UInt32.ofNat index))
    (t.checkedLength bound (UInt32.ofNat index))

/-- The check ends without an exception: a single file reaches to the piece and less than 4 GiB
beyond its start, and the first file that is too short is missing. -/
structure Runs (bound index : Nat) (hash : Sha1) : Prop where
  id : index < 2 ^ 32
  tail : t.isSingleFile = true → t.pieceStart (UInt32.ofNat index) ≤ bound ∧
    bound - t.pieceStart (UInt32.ofNat index) < 2 ^ 32
  short : t.isSingleFile = false → ∀ pos, t.FirstAbsent fs cwd (t.pieceStart (UInt32.ofNat index))
    (t.checkedLength bound (UInt32.ofNat index)) pos → ∀ f, fileOf pos 0 t.files = some f →
      fs.existsPath cwd (join t.name f.1.path) = false
  sized : t.CheckHits sha1 fs cwd bound index hash →
    ∃ size, t.pieceLengthAt (UInt32.ofNat index) = .ok size

variable {sha1 t fs cwd}

theorem HoldsData.nil (start : Nat) : t.HoldsData fs cwd start [] :=
  fun j hj => absurd hj (Nat.not_lt_zero j)

theorem HoldsData.append {start : Nat} {data bytes : Bytes} (h : t.HoldsData fs cwd start data)
    (h' : t.HoldsData fs cwd (start + data.length) bytes) :
    t.HoldsData fs cwd start (data ++ bytes) := by
  intro j hj
  by_cases hlt : j < data.length
  · rw [h j hlt, List.getElem?_append_left hlt]
  · rw [List.length_append] at hj
    have hb := h' (j - data.length) (by omega)
    rw [show start + data.length + (j - data.length) = start + j by omega] at hb
    rw [hb, List.getElem?_append_right (by omega)]

theorem HoldsData.unique {start : Nat} {data data' : Bytes} (h : t.HoldsData fs cwd start data)
    (h' : t.HoldsData fs cwd start data') (hlen : data.length = data'.length) : data = data' := by
  apply List.ext_getElem?
  intro j
  by_cases hj : j < data.length
  · rw [← h j hj, ← h' j (hlen ▸ hj)]
  · rw [List.getElem?_eq_none (by omega), List.getElem?_eq_none (by omega)]

theorem HoldsData.hits_iff {start : Nat} {data : Bytes} (h : t.HoldsData fs cwd start data)
    {hash : Sha1} : t.Hits sha1 fs cwd hash start data.length ↔ sha1 data = hash := by
  constructor
  · intro hh
    obtain ⟨data', hlen, hdata, hsha⟩ := hh
    rw [h.unique hdata hlen.symm, hsha]
  · exact fun hsha => ⟨data, rfl, h, hsha⟩

/-- What is on disk has no byte that is absent. -/
theorem HoldsData.not_absent {start pos : Nat} {data : Bytes}
    (h : t.HoldsData fs cwd start data) : ¬t.FirstAbsent fs cwd start data.length pos := by
  intro ha
  have hge := ha.ge
  have hlt := ha.lt
  have hbyte := h (pos - start) (by omega)
  rw [show start + (pos - start) = pos by omega, ha.absent,
    List.getElem?_eq_getElem (by omega)] at hbyte
  cases hbyte

theorem FirstAbsent.not_hits {start size pos : Nat} (h : t.FirstAbsent fs cwd start size pos)
    {hash : Sha1} : ¬t.Hits sha1 fs cwd hash start size := by
  intro hh
  obtain ⟨data, rfl, hdata, -⟩ := hh
  exact hdata.not_absent h

theorem FirstAbsent.unique {start size pos pos' : Nat} (h : t.FirstAbsent fs cwd start size pos)
    (h' : t.FirstAbsent fs cwd start size pos') : pos = pos' := by
  rcases Nat.lt_trichotomy pos pos' with hlt | heq | hlt
  · exact absurd h.absent (h'.before pos h.ge hlt)
  · exact heq
  · exact absurd h'.absent (h.before pos' h'.ge hlt)

end Torrent

/-- The piece `id` has become active and written. -/
structure Adds (id : UInt32) (w w' : World) : Prop where
  bits : w'.clientPieces = w.clientPieces.set id.toNat true
  active : w'.activePieces = w.activePieces.insert id w.heap.length
  heap : ∃ p, w'.heap = w.heap ++ [p] ∧ p.pieceWritten = true
  fs : w'.disk.fs = w.disk.fs
  cwd : w'.disk.cwd = w.disk.cwd

/-- What a check that runs does: the piece is added when it is hit. -/
structure Judged (sha1 : Bytes → Sha1) (t : Torrent) (bound index : Nat) (hash : Sha1) (w : World)
    (found : Bool) (w' : World) : Prop where
  runs : t.Runs sha1 w.disk.fs w.disk.cwd bound index hash
  hit : found = true ↔ t.CheckHits sha1 w.disk.fs w.disk.cwd bound index hash
  adds : found = true → Adds (UInt32.ofNat index) w w'
  same : found = false → w' = w

section
variable {sha1 : Bytes → Sha1} {t : Torrent} {w : World} {bound index : Nat} {hash : Sha1}

theorem toNat_min (a b : UInt32) : (min a b).toNat = min a.toNat b.toNat := by
  have hmin : min a b = if a ≤ b then a else b := rfl
  rw [hmin]
  split
  · rename_i h
    rw [UInt32.le_iff_toNat_le] at h
    omega
  · rename_i h
    rw [UInt32.le_iff_toNat_le] at h
    omega

/-- The end of both checks: `data` is what has been read, and its places are recorded. -/
theorem judge_spec {data : Bytes} {record : DiskM Unit}
    (hrecord : ∀ d, wp record d (fun _ d' => d'.fs = d.fs ∧ d'.cwd = d.cwd) fun _ _ => False)
    (hnew : w.activePieces.lookup (UInt32.ofNat index) = none) (hindex : index < 2 ^ 32)
    (htail : t.isSingleFile = true → t.pieceStart (UInt32.ofNat index) ≤ bound ∧
      bound - t.pieceStart (UInt32.ofNat index) < 2 ^ 32)
    (hdata : t.HoldsData w.disk.fs w.disk.cwd (t.pieceStart (UInt32.ofNat index)) data)
    (hlen : data.length = t.checkedLength bound (UInt32.ofNat index)) :
    wp (if hash = sha1 data then do
          t.foundPiece (UInt32.ofNat index) data
          onDisk record
          return true
        else return false) w (Judged sha1 t bound index hash w)
      fun _ _ => ¬t.Runs sha1 w.disk.fs w.disk.cwd bound index hash := by
  have hiff : t.CheckHits sha1 w.disk.fs w.disk.cwd bound index hash ↔ sha1 data = hash := by
    unfold Torrent.CheckHits
    rw [← hlen]
    exact hdata.hits_iff
  have hshort : ∀ pos, ¬t.FirstAbsent w.disk.fs w.disk.cwd (t.pieceStart (UInt32.ofNat index))
      (t.checkedLength bound (UInt32.ofNat index)) pos := by
    intro pos
    rw [← hlen]
    exact hdata.not_absent
  refine wp_ite (fun heq => ?_) fun hne => ?_
  · have hhit := hiff.2 heq.symm
    simp only [wp_bind]
    refine wp_mono (foundPiece_spec hnew) (fun _ w1 h1 => ?_) fun _ _ hno hr => ?_
    · obtain ⟨size, hsize, rfl⟩ := h1
      simp only [wp_onDisk]
      refine wp_mono (hrecord _) (fun _ d1 h1 => ?_) fun _ _ hf => hf.elim
      refine ⟨⟨hindex, htail, fun _ pos ha => absurd ha (hshort pos), fun _ => ⟨size, hsize⟩⟩,
        ⟨fun _ => hhit, fun _ => rfl⟩, fun _ => ?_, fun h => by cases h⟩
      exact ⟨rfl, rfl, ⟨_, rfl, rfl⟩, h1.1, h1.2⟩
    · obtain ⟨size, hsize⟩ := hr.sized hhit
      exact hno size hsize
  · have hmiss : ¬t.CheckHits sha1 w.disk.fs w.disk.cwd bound index hash := fun hh =>
      hne (hiff.1 hh).symm
    refine ⟨⟨hindex, htail, fun _ pos ha => absurd ha (hshort pos), fun hh => absurd hh hmiss⟩,
      ⟨fun h => (by cases h), fun hh => absurd hh hmiss⟩, fun h => (by cases h), fun _ => rfl⟩

theorem verifyPieceSingleFile_exact (hs : t.isSingleFile = true)
    (hbound : t.IsBound w.disk.fs w.disk.cwd bound)
    (hnew : ∀ id : UInt32, id.toNat = index → w.activePieces.lookup id = none) :
    wp (t.verifyPieceSingleFile sha1 bound index hash) w (Judged sha1 t bound index hash w)
      fun _ _ => ¬t.Runs sha1 w.disk.fs w.disk.cwd bound index hash := by
  rw [Torrent.IsBound, if_pos hs] at hbound
  obtain ⟨hsize, hmax⟩ := hbound
  obtain ⟨l, hl, hmap⟩ := Option.bind_eq_some_iff.1 hsize
  obtain ⟨c, hc, rfl⟩ := Option.map_eq_some_iff.1 hmap
  simp only [Torrent.verifyPieceSingleFile, wp_bind]
  by_cases hindex : index < 2 ^ 32
  swap
  · refine (wp_lift _).2 ⟨fun id hid => ?_, fun _ _ hr => hindex hr.id⟩
    have := castU32_ok hid
    omega
  have hid : (UInt32.ofNat index).toNat = index := by
    rw [UInt32.toNat_ofNat']
    omega
  rw [castU32_of hindex]
  refine (wp_lift _).2 ⟨fun id hid' => ?_, nofun⟩
  obtain rfl := Except.ok.inj hid'
  have hoff : (t.verifyOffset (UInt32.ofNat index)).toNat = t.pieceStart (UInt32.ofNat index) := rfl
  have hmax' : t.pieceStart (UInt32.ofNat index) < 2 ^ 32 := UInt32.toNat_lt _
  simp only [wp_onDisk]
  refine wp_intro (Disk.openFile_ok hl hc) ?_
  rw [hoff]
  refine (wp_lift _).2 ⟨fun tail htail => ?_, fun e he hr => ?_⟩
  · obtain ⟨hlt, rfl⟩ := castSizeU32_eq htail
    have hle : t.pieceStart (UInt32.ofNat index) ≤ c.length := by omega
    have hmod : (c.length + (2 ^ 64 - t.pieceStart (UInt32.ofNat index))) % 2 ^ 64 =
        c.length - t.pieceStart (UInt32.ofNat index) := by omega
    rw [hmod] at hlt ⊢
    have hlen : (min t.pieceLength (UInt32.ofNat
        (c.length - t.pieceStart (UInt32.ofNat index)))).toNat =
          t.checkedLength c.length (UInt32.ofNat index) := by
      rw [toNat_min, UInt32.toNat_ofNat', Nat.mod_eq_of_lt hlt]
      rfl
    rw [hlen]
    have hin : t.pieceStart (UInt32.ofNat index) + t.checkedLength c.length (UInt32.ofNat index) ≤
        c.length := by
      unfold Torrent.checkedLength
      omega
    refine wp_intro (Disk.read_ok hl hc hin) ?_
    refine judge_spec (fun d => ?_) (hnew _ hid) hindex (fun _ => ⟨hle, hlt⟩) ?_ ?_
    · exact ⟨rfl, rfl⟩
    · intro j hj
      rw [List.length_take, List.length_drop] at hj
      rw [Torrent.diskByte, if_pos hs, pathByte_content hl hc, List.getElem?_take_of_lt (by omega),
        List.getElem?_drop]
    · rw [List.length_take, List.length_drop]
      omega
  · obtain ⟨hle, hlt⟩ := hr.tail hs
    have hmod : (c.length + (2 ^ 64 - t.pieceStart (UInt32.ofNat index))) % 2 ^ 64 =
        c.length - t.pieceStart (UInt32.ofNat index) := by omega
    rw [hmod, castSizeU32_of hlt] at he
    cases he

/-! ## Several files -/

/-- The first byte that is not there is one of this file. -/
def AbsentIn (t : Torrent) (d : Disk) (bound : Nat) (id : UInt32) (there : Bool) : Prop :=
  ∃ pos f, t.FirstAbsent d.fs d.cwd (t.pieceStart id) (t.checkedLength bound id) pos ∧
    Torrent.fileOf pos 0 t.files = some f ∧
      d.fs.existsPath d.cwd (join t.name f.1.path) = there

/-- The bytes from a position on, up to the end of its file, are in that file. -/
theorem fileOf_bytes (hs : t.isSingleFile = false) {pos : Nat} {fi : FileInfo} {off left : Int}
    (hat : t.fileAtPos pos = .ok (fi, off, left)) {fs : FileSystem} {cwd : Loc} {j : Nat}
    (hj : (j : Int) < left) :
    Torrent.fileOf (pos + j : Nat) 0 t.files = some (fi, off + j) ∧
      t.diskByte fs cwd (pos + j) = fs.pathByte cwd (join t.name fi.path) (off.toNat + j) := by
  obtain ⟨hof, hleft⟩ := t.fileAtPos_multi hs hat
  obtain ⟨hoff, -⟩ := fileAtPos_left hs (by omega) hat
  have hin := Torrent.fileOf_within hof (j := j) (by omega) (by omega)
  have hnat : ((pos + j : Nat) : Int) = pos + j := by omega
  rw [Torrent.diskByte, hs, if_neg Bool.false_ne_true, hnat, hin, Option.bind_some]
  refine ⟨rfl, ?_⟩
  congr 1
  omega

/-- Where a read fails the first byte that is not there is one of the file, when everything before
it has been read. -/
theorem absentIn_of_read (hs : t.isSingleFile = false) {d : Disk} {id : UInt32} {data : Bytes}
    (hdata : t.HoldsData d.fs d.cwd (t.pieceStart id) data) {fi : FileInfo} {off left : Int}
    (hat : t.fileAtPos ((t.pieceStart id + data.length : Nat) : Int) = .ok (fi, off, left))
    {i : Nat} (hi : (i : Int) < left) (hin : data.length + i < t.checkedLength bound id)
    (hnone : d.fs.pathByte d.cwd (join t.name fi.path) (off.toNat + i) = none)
    (hbefore : ∀ j < i, d.fs.pathByte d.cwd (join t.name fi.path) (off.toNat + j) ≠ none) :
    AbsentIn t d bound id (d.fs.existsPath d.cwd (join t.name fi.path)) := by
  refine ⟨t.pieceStart id + data.length + i, _, ⟨by omega, by omega, ?_, fun k hk hlt => ?_⟩,
    (@fileOf_bytes t hs _ _ _ _ hat d.fs d.cwd _ hi).1, rfl⟩
  · rw [(fileOf_bytes hs hat hi).2, hnone]
  · by_cases hk' : k < t.pieceStart id + data.length
    · have hd := hdata (k - t.pieceStart id) (by omega)
      rw [show t.pieceStart id + (k - t.pieceStart id) = k by omega,
        List.getElem?_eq_getElem (by omega)] at hd
      rw [hd]
      exact Option.some_ne_none _
    · obtain ⟨j, rfl⟩ := Nat.exists_eq_add_of_le (Nat.le_of_not_lt hk')
      rw [(fileOf_bytes hs hat (j := j) (by omega)).2]
      exact hbefore _ (by omega)

/-- The loop, by induction on the turns; `data` is what the earlier ones read. -/
theorem verifyLoop_exact (hs : t.isSingleFile = false) (hlen : ∀ fi ∈ t.files, 0 ≤ fi.length)
    (ht : t.length = .ok (bound : Int)) (id : UInt32) {d : Disk} (turns : Nat) (data : Bytes)
    (chunks : List Torrent.Chunk) (hturns : t.pieceLength.toNat - data.length < turns)
    (hle : data.length ≤ t.checkedLength bound id)
    (hdata : t.HoldsData d.fs d.cwd (t.pieceStart id) data) :
    wp (t.verifyLoop bound turns (t.pieceStart id + data.length)
        (t.pieceLength.toNat - data.length) data chunks) d
      (fun r d' => d' = d ∧ match r with
        | some x => x.1.length = t.checkedLength bound id ∧
            t.HoldsData d.fs d.cwd (t.pieceStart id) x.1
        | none => AbsentIn t d bound id false)
      fun _ _ => AbsentIn t d bound id true := by
  induction turns generalizing data chunks with
  | zero => omega
  | succ turns ih =>
    unfold Torrent.verifyLoop
    refine wp_ite (fun hmore => ?_) fun hend => ⟨rfl, ?_, hdata⟩
    swap
    · show data.length = _
      unfold Torrent.checkedLength at hle ⊢
      omega
    have hfiles : Torrent.filesLength 0 t.files = .ok (bound : Int) := by
      rw [Torrent.length, hs] at ht
      exact ht
    have hpos : 0 ≤ (t.pieceStart id + data.length : Int) := by omega
    obtain ⟨⟨fi, off, left⟩, hat⟩ := Torrent.fileAtPos_found hs hfiles hlen hpos hmore.2
    obtain ⟨hof, hlefteq⟩ := t.fileAtPos_multi hs hat
    obtain ⟨hoff, hleft⟩ := fileAtPos_left hs (by omega) hat
    have hat' : t.fileAtPos ((t.pieceStart id + data.length : Nat) : Int) = .ok (fi, off, left) := by
      rwa [Int.natCast_add]
    obtain ⟨len, hmin⟩ : ∃ len : Nat, (len : Int) = min left (t.pieceLength.toNat - data.length) :=
      ⟨(min left (t.pieceLength.toNat - data.length)).toNat, by omega⟩
    have hlt : data.length + len ≤ t.checkedLength bound id := by
      have := Torrent.fileOf_end hof hfiles hlen
      unfold Torrent.checkedLength
      omega
    simp only [wp_bind, wp_lift, hat]
    refine ⟨fun x hx => ?_, fun e he => by cases he⟩
    obtain rfl := Except.ok.inj hx
    simp only [Disk.wp_existsPath]
    cases hex : d.fs.existsPath d.cwd (join t.name fi.path) with
    | false =>
      refine ⟨rfl, ?_⟩
      have habsent : AbsentIn t d bound id _ :=
        absentIn_of_read hs hdata hat' (i := 0) (by omega) (by omega)
          (pathByte_none_of_missing hex _) fun j hj => absurd hj (Nat.not_lt_zero j)
      rwa [hex] at habsent
    | true =>
      simp only [not_true_eq_false, if_false, wp_bind, Disk.read, wp_get]
      rw [← hmin, Int.toNat_natCast]
      cases hread : d.fs.read d.cwd (join t.name fi.path) off.toNat len with
      | none =>
        obtain ⟨i, hi, hnone, hbefore⟩ := pathByte_none_of_read (by omega) hread
        have habsent : AbsentIn t d bound id _ :=
          absentIn_of_read hs hdata hat' (by omega) (by omega) hnone hbefore
        rwa [hex] at habsent
      | some bytes =>
        have hbytes := (read_eq hread).1
        have happend : t.HoldsData d.fs d.cwd (t.pieceStart id) (data ++ bytes) := by
          refine hdata.append fun j hj => ?_
          rw [(fileOf_bytes hs hat' (by omega)).2]
          exact pathByte_of_read hread (by omega)
        have hnext := @ih (data ++ bytes)
          (chunks ++ [⟨data.length, bytes.length, join t.name fi.path, off.toNat⟩])
          (by rw [List.length_append]; omega) (by rw [List.length_append]; omega) happend
        rw [List.length_append, hbytes] at hnext
        simp only [wp_pure]
        rw [hbytes]
        rwa [Int.natCast_add, ← Int.add_assoc, ← Int.sub_sub] at hnext

theorem verifyPieceMultiFile_exact (hs : t.isSingleFile = false)
    (hlen : ∀ fi ∈ t.files, 0 ≤ fi.length) (hbound : t.IsBound w.disk.fs w.disk.cwd bound)
    (hnew : ∀ id : UInt32, id.toNat = index → w.activePieces.lookup id = none) :
    wp (t.verifyPieceMultiFile sha1 bound index hash) w (Judged sha1 t bound index hash w)
      fun _ _ => ¬t.Runs sha1 w.disk.fs w.disk.cwd bound index hash := by
  rw [Torrent.IsBound, hs, if_neg Bool.false_ne_true] at hbound
  have hmulti : t.isSingleFile = true → t.pieceStart (UInt32.ofNat index) ≤ bound ∧
      bound - t.pieceStart (UInt32.ofNat index) < 2 ^ 32 := by
    rw [hs]
    exact nofun
  simp only [Torrent.verifyPieceMultiFile, wp_bind]
  by_cases hindex : index < 2 ^ 32
  swap
  · refine (wp_lift _).2 ⟨fun id hid => ?_, fun _ _ hr => hindex hr.id⟩
    have := castU32_ok hid
    omega
  have hid : (UInt32.ofNat index).toNat = index := by
    rw [UInt32.toNat_ofNat']
    omega
  rw [castU32_of hindex]
  refine (wp_lift _).2 ⟨fun id hid' => ?_, nofun⟩
  obtain rfl := Except.ok.inj hid'
  simp only [wp_onDisk]
  have hloop := verifyLoop_exact hs hlen hbound (UInt32.ofNat index) (d := w.disk)
    (t.pieceLength.toNat + 1) [] []
    (by rw [List.length_nil, Nat.sub_zero]; exact Nat.lt_succ_self _) (Nat.zero_le _) (.nil _)
  simp only [List.length_nil, Int.natCast_zero, Int.add_zero, Int.sub_zero] at hloop
  refine wp_mono hloop (fun r d0 h0 => ?_) fun _ _ hthere hr => ?_
  · obtain ⟨rfl, hr⟩ := h0
    match r, hr with
    | some (data, chunks), hr =>
      refine judge_spec (fun d => ?_) (hnew _ hid) hindex hmulti hr.2 hr.1
      refine wp_mono (placeChunks_spec _ chunks d) (fun _ d' h => ?_) fun _ _ hf => hf
      rw [h]
      exact ⟨rfl, rfl⟩
    | none, hr =>
      obtain ⟨pos, f, ha, hf, hmissing⟩ := hr
      have hmiss : ¬t.CheckHits sha1 w.disk.fs w.disk.cwd bound index hash := ha.not_hits
      refine ⟨⟨hindex, hmulti, fun _ pos' ha' f' hf' => ?_, fun hh => absurd hh hmiss⟩,
        ⟨fun h => (by cases h), fun hh => absurd hh hmiss⟩, fun h => (by cases h), fun _ => rfl⟩
      rw [ha'.unique ha, hf, Option.some_inj] at hf'
      rw [← hf', hmissing]
  · obtain ⟨pos, f, ha, hf, hthere⟩ := hthere
    rw [hr.short hs pos ha f hf] at hthere
    cases hthere

/-! ## All pieces -/

/-- The pieces in `S`, and no others, are active and written and have their bits. -/
structure Exactly (S : Nat → Prop) (w : World) : Prop where
  bits : ∀ i, w.clientPieces.bit i = true ↔ S i
  written : ∀ i, S i → ∃ id ref p, id.toNat = i ∧ Written w id ref p
  active : ∀ id ref, w.activePieces.lookup id = some ref → S id.toNat

theorem Exactly.mono {S S' : Nat → Prop} (h : Exactly S w) (hS : ∀ i, S i ↔ S' i) :
    Exactly S' w :=
  ⟨fun i => (h.bits i).trans (hS i), fun i hi => h.written i ((hS i).2 hi),
    fun id ref hl => (hS _).1 (h.active id ref hl)⟩

theorem Exactly.adds {S : Nat → Prop} {w' : World} {id : UInt32} (h : Exactly S w)
    (ha : Adds id w w') : Exactly (fun i => S i ∨ i = id.toNat) w' := by
  obtain ⟨p, hheap, hp⟩ := ha.heap
  refine ⟨fun i => ?_, fun i hi => ?_, fun k ref hl => ?_⟩
  · rw [ha.bits]
    by_cases hi : i = id.toNat
    · rw [hi, Bitfield.bit_set_self]
      simp
    · rw [Bitfield.bit_set_ne _ _ hi, h.bits]
      simp [hi]
  · by_cases hid : i = id.toNat
    · refine ⟨id, w.heap.length, p, hid.symm, ?_, ?_, hp⟩
      · rw [ha.active, AList.lookup_insert]
      · rw [hheap, List.getElem?_concat_length]
    · obtain ⟨k, ref, q, hk, hl, hq, hw⟩ := h.written i (hi.resolve_right hid)
      have hne : k ≠ id := fun he => hid (by rw [← hk, he])
      refine ⟨k, ref, q, hk, by rw [ha.active, AList.lookup_insert_ne hne, hl], ?_, hw⟩
      rw [hheap]
      exact Heap.append_old hq _
  · rw [ha.active] at hl
    rcases Heap.insert_some hl with ⟨rfl, -⟩ | ⟨-, hl⟩
    · exact .inr rfl
    · exact .inl (h.active k ref hl)

/-- A piece that is not among them is not active. -/
theorem Exactly.fresh {S : Nat → Prop} (h : Exactly S w) {index : Nat} (hnot : ¬S index)
    {id : UInt32} (hid : id.toNat = index) : w.activePieces.lookup id = none := by
  cases hl : w.activePieces.lookup id with
  | none => rfl
  | some ref => exact absurd (hid ▸ h.active id ref hl) hnot

/-- The state after the check of one piece. -/
theorem Exactly.judged {S : Nat → Prop} (h : Exactly S w) {found : Bool} {w' : World}
    (hj : Judged sha1 t bound index hash w found w') :
    w'.disk.fs = w.disk.fs ∧ w'.disk.cwd = w.disk.cwd ∧ Exactly (fun i =>
      S i ∨ i = index ∧ t.CheckHits sha1 w.disk.fs w.disk.cwd bound index hash) w' := by
  have hto : (UInt32.ofNat index).toNat = index := by
    rw [UInt32.toNat_ofNat']
    exact Nat.mod_eq_of_lt hj.runs.id
  cases found with
  | true =>
    have ha := hj.adds rfl
    refine ⟨ha.fs, ha.cwd, (h.adds ha).mono fun i => ?_⟩
    rw [hto]
    simp [hj.hit.1 rfl]
  | false =>
    have hno : ¬t.CheckHits sha1 w.disk.fs w.disk.cwd bound index hash :=
      fun hc => Bool.false_ne_true (hj.hit.2 hc)
    rw [hj.same rfl]
    exact ⟨rfl, rfl, h.mono fun i => by simp [hno]⟩

/-- The pieces of `order`, checked one after the other, by induction on it. -/
theorem verifyPieces_exact {fs : FileSystem} {cwd : Loc} {verify : Nat → Sha1 → App Bool}
    (hverify : ∀ index hash w, w.disk.fs = fs → w.disk.cwd = cwd →
      (∀ id : UInt32, id.toNat = index → w.activePieces.lookup id = none) →
      wp (verify index hash) w (Judged sha1 t bound index hash w)
        fun _ _ => ¬t.Runs sha1 fs cwd bound index hash)
    {order : List Nat} (hnodup : order.Nodup) {S : Nat → Prop} (hfs : w.disk.fs = fs)
    (hcwd : w.disk.cwd = cwd) (h : Exactly S w) (hnew : ∀ i ∈ order, ¬S i) :
    wp (t.verifyPieces verify order) w
      (fun n w' => (∀ i ∈ order, ∀ hash, t.pieces[i]? = some hash →
          t.Runs sha1 fs cwd bound i hash) ∧
        Exactly (fun i => S i ∨ i ∈ order ∧ ∃ hash, t.pieces[i]? = some hash ∧
          t.CheckHits sha1 fs cwd bound i hash) w' ∧
        ((∀ i ∈ order, ∃ hash, t.pieces[i]? = some hash ∧
          t.CheckHits sha1 fs cwd bound i hash) → n = order.length))
      fun _ _ => ∃ i ∈ order, ∃ hash, t.pieces[i]? = some hash ∧
        ¬t.Runs sha1 fs cwd bound i hash := by
  induction order generalizing w S with
  | nil => exact ⟨nofun, h.mono fun i => by simp, fun _ => rfl⟩
  | cons index order ih =>
    obtain ⟨hnot, hnodup⟩ := List.nodup_cons.1 hnodup
    have hrest : ∀ i ∈ order, ¬S i := fun i hi => hnew i (List.mem_cons_of_mem _ hi)
    unfold Torrent.verifyPieces
    cases hh : t.pieces[index]? with
    | none =>
      refine wp_mono (ih hnodup hfs hcwd h hrest) (fun _ w' h' => ⟨?_,
        h'.2.1.mono fun i => ?_, fun hall => ?_⟩) fun _ _ hex => ?_
      · exact List.forall_mem_cons.2 ⟨fun hash hhash => by simp [hh] at hhash, h'.1⟩
      · by_cases hi : i = index
        · simp [hi, hh]
        · simp [hi]
      · obtain ⟨hash, hhash, -⟩ := hall index List.mem_cons_self
        simp [hh] at hhash
      · obtain ⟨i, hi, hex⟩ := hex
        exact ⟨i, List.mem_cons_of_mem _ hi, hex⟩
    | some hash =>
      have hfresh : ∀ id : UInt32, id.toNat = index → w.activePieces.lookup id = none :=
        fun id => h.fresh (hnew index List.mem_cons_self)
      simp only [wp_bind, wp_tryCatch, wp_throw]
      refine wp_mono (hverify index hash w hfs hcwd hfresh) (fun found w1 h1 => ?_)
        fun _ _ hno => ⟨index, List.mem_cons_self, hash, hh, hno⟩
      have hhit := h1.hit
      have hruns := h1.runs
      obtain ⟨hfs1, hcwd1, hex1⟩ := h.judged h1
      rw [hfs, hcwd] at hhit hruns hex1
      rw [hfs] at hfs1
      rw [hcwd] at hcwd1
      refine wp_mono (ih hnodup hfs1 hcwd1 hex1 fun i hi hS => ?_) (fun _ w2 h2 => ?_)
        fun _ _ hex => ?_
      · rcases hS with hS | ⟨rfl, -⟩
        · exact hrest i hi hS
        · exact hnot hi
      · refine ⟨?_, h2.2.1.mono fun i => ?_, fun hall => ?_⟩
        · refine List.forall_mem_cons.2 ⟨fun hash' hhash' => ?_, h2.1⟩
          rw [hh, Option.some_inj] at hhash'
          rwa [← hhash']
        · by_cases hi : i = index
          · simp [hi, hh, hnot]
          · simp [hi]
        · obtain ⟨hash', hhash', hc⟩ := hall index List.mem_cons_self
          rw [hh, Option.some_inj] at hhash'
          rw [hhit.2 (hhash' ▸ hc), h2.2.2 fun i hi => hall i (List.mem_cons_of_mem _ hi)]
          rfl
      · obtain ⟨i, hi, hex⟩ := hex
        exact ⟨i, List.mem_cons_of_mem _ hi, hex⟩

end

/-! ## The check of a torrent -/

namespace Torrent

variable (sha1 : Bytes → Sha1) (t : Torrent) (fs : FileSystem) (cwd : Loc)

/-- The check of all pieces in `verify_existing_file`. -/
def checkPieces (order : List Nat) : App Nat :=
  if t.isSingleFile then do
    let fileLength ← onDisk (Disk.fileSize t.tmpfile)
    t.verifyPieces (t.verifyPieceSingleFile sha1 fileLength) order
  else do
    let globalLen ← lift t.length
    t.verifyPieces (t.verifyPieceMultiFile sha1 globalLen) order

theorem verifyExistingFile_eq (order : List Nat) : t.verifyExistingFile sha1 order = (do
    let nameExists ← onDisk (Disk.existsPath t.name)
    let tmpfile ← onDisk t.existingTmpfile
    if ← onDisk (Disk.existsPath tmpfile) then
      let numPieces ← { t with tmpfile }.checkPieces sha1 order
      if (t.isSingleFile && nameExists) ∧ numPieces ≠ t.pieces.length then
        throw (.runtimeError "Filename exists but does not match all pieces")
      else return { t with tmpfile }
    else return { t with tmpfile }) := by
  unfold verifyExistingFile
  refine bind_congr fun nameExists => bind_congr fun tmpfile => bind_congr fun there => ?_
  cases there with
  | false => rfl
  | true =>
    show _ = ({ t with tmpfile }.checkPieces sha1 order >>= _)
    have hs : { t with tmpfile }.isSingleFile = t.isSingleFile := rfl
    unfold checkPieces
    rw [hs]
    cases t.isSingleFile with
    | true => simp only [if_true, bind_assoc]
    | false => simp only [Bool.false_eq_true, if_false, bind_assoc]; rfl

/-- No exception leaves the check of a piece, and after it exactly the pieces are active and
written, with their bits, whose bytes are on disk and have their hash. -/
def VerifiesExactly (order : List Nat) : Prop :=
  ∃ n w, t.checkPieces sha1 order (World.start cwd fs) = .ok n w ∧
    ∀ i hash, t.pieces[i]? = some hash →
      ((w.clientPieces.bit i = true ∧ ∃ id ref p, id.toNat = i ∧ Written w id ref p) ↔
        t.OnDiskRight sha1 fs cwd i hash)

/-- The check runs, and when it does not read the bytes of the piece this makes no difference. -/
structure Checkable (bound i : Nat) (hash : Sha1) : Prop where
  runs : t.Runs sha1 fs cwd bound i hash
  other : (t.pieceStart (UInt32.ofNat i) ≠ i * t.pieceLength.toNat ∨
      ∀ size, t.pieceLengthAt (UInt32.ofNat i) = .ok size →
        size.toNat ≠ t.checkedLength bound (UInt32.ofNat i)) →
    (t.CheckHits sha1 fs cwd bound i hash ↔ t.OnDiskRight sha1 fs cwd i hash)

variable {sha1 t fs cwd}

theorem Checkable.hits_iff {bound i : Nat} {hash : Sha1}
    (h : t.Checkable sha1 fs cwd bound i hash) :
    t.CheckHits sha1 fs cwd bound i hash ↔ t.OnDiskRight sha1 fs cwd i hash := by
  by_cases hsame : t.pieceStart (UInt32.ofNat i) = i * t.pieceLength.toNat ∧
      ∃ size, t.pieceLengthAt (UInt32.ofNat i) = .ok size ∧
        size.toNat = t.checkedLength bound (UInt32.ofNat i)
  · obtain ⟨hstart, size, hsize, hlen⟩ := hsame
    rw [CheckHits, hstart, ← hlen]
    constructor
    · exact fun hh => ⟨size, hsize, hh⟩
    · intro hh
      obtain ⟨size', hsize', hh⟩ := hh
      rw [hsize, Except.ok.injEq] at hsize'
      rwa [hsize']
  · apply h.other
    by_cases hstart : t.pieceStart (UInt32.ofNat i) = i * t.pieceLength.toNat
    · exact .inr fun size hsize hlen => hsame ⟨hstart, size, hsize, hlen⟩
    · exact .inl hstart

/-- What the check of all pieces does, in any order. -/
theorem checkPieces_exact {order : List Nat} {bound : Nat}
    (hperm : order.Perm (List.range t.pieces.length)) (hlen : ∀ fi ∈ t.files, 0 ≤ fi.length)
    (hbound : t.IsBound fs cwd bound) :
    wp (t.checkPieces sha1 order) (World.start cwd fs)
      (fun n w => (∀ i hash, t.pieces[i]? = some hash → t.Runs sha1 fs cwd bound i hash) ∧
        Exactly (fun i => ∃ hash, t.pieces[i]? = some hash ∧
          t.CheckHits sha1 fs cwd bound i hash) w ∧
        ((∀ i hash, t.pieces[i]? = some hash → t.CheckHits sha1 fs cwd bound i hash) →
          n = t.pieces.length))
      fun _ _ => ∃ i hash, t.pieces[i]? = some hash ∧ ¬t.Runs sha1 fs cwd bound i hash := by
  have hnodup : order.Nodup := hperm.nodup_iff.2 List.nodup_range
  have hmem : ∀ i hash, t.pieces[i]? = some hash → i ∈ order := by
    intro i hash hi
    rw [hperm.mem_iff, List.mem_range]
    exact (List.getElem?_eq_some_iff.1 hi).1
  have hstart : Exactly (fun _ => False) (World.start cwd fs) :=
    ⟨fun i => ⟨nofun, False.elim⟩, nofun, fun id ref hl => by cases hl⟩
  have hall {verify : Nat → Sha1 → App Bool}
      (hverify : ∀ index hash w, w.disk.fs = fs → w.disk.cwd = cwd →
        (∀ id : UInt32, id.toNat = index → w.activePieces.lookup id = none) →
        wp (verify index hash) w (Judged sha1 t bound index hash w)
          fun _ _ => ¬t.Runs sha1 fs cwd bound index hash) :
      wp (t.verifyPieces verify order) (World.start cwd fs)
        (fun n w => (∀ i hash, t.pieces[i]? = some hash → t.Runs sha1 fs cwd bound i hash) ∧
          Exactly (fun i => ∃ hash, t.pieces[i]? = some hash ∧
            t.CheckHits sha1 fs cwd bound i hash) w ∧
          ((∀ i hash, t.pieces[i]? = some hash → t.CheckHits sha1 fs cwd bound i hash) →
            n = t.pieces.length))
        fun _ _ => ∃ i hash, t.pieces[i]? = some hash ∧ ¬t.Runs sha1 fs cwd bound i hash := by
    have h := verifyPieces_exact hverify hnodup (w := World.start cwd fs) rfl rfl hstart
      fun _ _ => id
    refine wp_mono h (fun _ w hw => ⟨fun i hash hi => hw.1 i (hmem i hash hi) hash hi,
      hw.2.1.mono fun i => ⟨fun hi => (hi.resolve_left id).2, fun hi => .inr ?_⟩, fun hhits => ?_⟩)
      fun _ _ hex => ?_
    · obtain ⟨hash, hhash, hhit⟩ := hi
      exact ⟨hmem i hash hhash, hash, hhash, hhit⟩
    · rw [hw.2.2 fun i hi => ?_, hperm.length_eq, List.length_range]
      have hlt := List.mem_range.1 (hperm.mem_iff.1 hi)
      exact ⟨_, List.getElem?_eq_getElem hlt, hhits i _ (List.getElem?_eq_getElem hlt)⟩
    · obtain ⟨i, -, hex⟩ := hex
      exact ⟨i, hex⟩
  unfold checkPieces
  split
  · rename_i hs
    rw [wp_bind, wp_onDisk]
    have hb := hbound
    rw [IsBound, if_pos hs] at hb
    have hsize : Disk.fileSize t.tmpfile (World.start cwd fs).disk =
        .ok bound (World.start cwd fs).disk := by
      simp only [Disk.fileSize, bind, EStateM.bind, get_run,
        World.start, hb.1]
      rfl
    refine wp_intro hsize (hall fun index hash w hfs hcwd hnew => ?_)
    subst hfs hcwd
    exact verifyPieceSingleFile_exact hs hbound hnew
  · rename_i hs
    have hs : t.isSingleFile = false := by simpa using hs
    have hb := hbound
    rw [IsBound, hs, if_neg Bool.false_ne_true] at hb
    rw [wp_bind, hb]
    refine wp_intro rfl (hall fun index hash w hfs hcwd hnew => ?_)
    subst hfs hcwd
    exact verifyPieceMultiFile_exact hs hlen hbound hnew

/-- The start-up check is exact when it runs and reads the bytes of each piece, or others that have
the hash just when the bytes of the piece do. -/
theorem verify_exact_iff {order : List Nat} {bound : Nat}
    (hperm : order.Perm (List.range t.pieces.length)) (hlen : ∀ fi ∈ t.files, 0 ≤ fi.length)
    (hbound : t.IsBound fs cwd bound) : t.VerifiesExactly sha1 fs cwd order ↔
      ∀ i hash, t.pieces[i]? = some hash → t.Checkable sha1 fs cwd bound i hash := by
  have hspec := @checkPieces_exact sha1 _ _ _ _ _ hperm hlen hbound
  have hdone {w : World} (hex : Exactly (fun i => ∃ hash, t.pieces[i]? = some hash ∧
      t.CheckHits sha1 fs cwd bound i hash) w) {i : Nat} {hash : Sha1}
      (hi : t.pieces[i]? = some hash) :
      (w.clientPieces.bit i = true ∧ ∃ id ref p, id.toNat = i ∧ Written w id ref p) ↔
        t.CheckHits sha1 fs cwd bound i hash := by
    have hits : (∃ hash', t.pieces[i]? = some hash' ∧ t.CheckHits sha1 fs cwd bound i hash') ↔
        t.CheckHits sha1 fs cwd bound i hash := by simp [hi]
    rw [hex.bits, ← hits]
    exact ⟨fun h => h.1, fun h => ⟨h, hex.written i h⟩⟩
  constructor
  · intro h i hash hi
    obtain ⟨n, w, hok, hexact⟩ := h
    obtain ⟨hruns, hex, -⟩ := wp_ok hspec hok
    refine ⟨hruns i hash hi, fun _ => ?_⟩
    rw [← hdone hex hi]
    exact hexact i hash hi
  · intro h
    have hreturns : wp (t.checkPieces sha1 order) (World.start cwd fs)
        (fun _ w => Exactly (fun i => ∃ hash, t.pieces[i]? = some hash ∧
          t.CheckHits sha1 fs cwd bound i hash) w) fun _ _ => False := by
      refine wp_mono hspec (fun _ _ hw => hw.2.1) fun _ _ hex => ?_
      obtain ⟨i, hash, hi, hno⟩ := hex
      exact hno (h i hash hi).runs
    obtain ⟨n, w, hok, hex⟩ := ok_of_wp hreturns
    exact ⟨n, w, hok, fun i hash hi => (hdone hex hi).trans (h i hash hi).hits_iff⟩

/-- A torrent of the one byte `x`, which is on disk. -/
def oneByteOnDisk : Torrent :=
  { torrentOf [110] [110] [] with mLength := 1, pieceLength := 1, pieces := [oneByteSha1 [120]] }

theorem verify_exact_iff_oneByte : oneByteOnDisk.VerifiesExactly oneByteSha1
    (FileSystem.put ⟨∅⟩ [[110]] (.file [120])) [] [0] := by
  have hbound : oneByteOnDisk.IsBound (FileSystem.put ⟨∅⟩ [[110]] (.file [120])) [] 1 := by
    have hs : oneByteOnDisk.isSingleFile = true := rfl
    rw [IsBound, if_pos hs]
    exact ⟨by decide, by decide⟩
  have hlengths : ∀ fi ∈ oneByteOnDisk.files, 0 ≤ fi.length := fun fi hfi => by cases hfi
  refine (verify_exact_iff (List.Perm.refl _) hlengths hbound).2 fun i hash hi => ?_
  have hlt : i < 1 := (List.getElem?_eq_some_iff.1 hi).1
  obtain rfl : i = 0 := by omega
  have hsize : oneByteOnDisk.pieceLengthAt (UInt32.ofNat 0) = .ok 1 := by decide
  refine ⟨⟨by decide, fun _ => by decide, nofun, fun _ => ⟨1, hsize⟩⟩, fun hother => ?_⟩
  rcases hother with hstart | hlength
  · exact absurd (by decide) hstart
  · exact absurd (by decide) (hlength 1 hsize)

/-- A torrent of two pieces of one byte each. -/
def twoPieces : Bytes := ascii
  "d8:announce1:a4:infod6:lengthi2e4:name1:n12:piece lengthi1e6:pieces40:".toList
    ++ List.replicate 40 0 ++ ascii "ee".toList

/-- A temporary file that ends before the last piece begins ends the program. -/
theorem verify_truncated : ¬∀ (sha1 : Bytes → Sha1) (config : Config) (dataDir : Path)
    (content : Bytes) (t : Torrent) (fs : FileSystem) (cwd : Loc) (order : List Nat) (bound : Nat),
    ofContent sha1 config dataDir content = .ok t → order.Perm (List.range t.pieces.length) →
      t.IsBound fs cwd bound → t.VerifiesExactly sha1 fs cwd order := by
  intro hall
  let sha1 : Bytes → Sha1 := fun _ => ⟨List.replicate 20 1, rfl⟩
  let fs : FileSystem := FileSystem.put ⟨∅⟩ [[110] ++ tmpfileExtension] (.file [])
  have hcheck : (ofContent sha1 ⟨6881, 6881, 10, true⟩ [] twoPieces).map (fun t =>
      (t.pieces.length, t.isSingleFile, fs.fileSize [] t.tmpfile,
        decide (wp (t.checkPieces sha1 [0, 1]) (World.start [] fs) (fun _ _ => False)
          fun _ _ => True))) = .ok (2, true, some 0, true) := by
    decide +kernel
  obtain ⟨t, ht, h⟩ := map_eq_ok.1 hcheck
  simp only [Prod.mk.injEq] at h
  obtain ⟨hcount, hs, hsize, herror⟩ := h
  obtain ⟨n, w, hok, -⟩ := hall _ _ _ _ t fs [] [0, 1] 0 ht (by rw [hcount]; decide)
    (by rw [IsBound, if_pos hs]; exact ⟨hsize, by decide⟩)
  exact wp_ok (of_decide_eq_true herror) hok

end Torrent

end Zit
