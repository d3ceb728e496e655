import Zit.Proof.Position

/-!
# What the file writer does to the disk

One specification for each operation: `Disk.Same` for those that only create or extend files,
`Attempt` for an attempt to write a piece, failed or not, and `Stored` for one that returned. They
say which bytes may change (`Attempt.kept`), what has been recorded (`Attempt.placed`) and where the
bytes of a written piece are (`Stored.bytes`, `Stored.covered`).
-/

set_option autoImplicit false

namespace Zit

open Lib Lib.Path FileSystem

/-! ## Operations -/

namespace Disk

/-- The working directory and the record are untouched. -/
structure Quiet (d d' : Disk) : Prop where
  cwd : d'.cwd = d.cwd
  placed : d'.placed = d.placed
  renamed : d'.renamed = d.renamed

/-- Besides, nothing disappears. -/
structure Same (d d' : Disk) : Prop extends Quiet d d' where
  grows : d.fs.Grows d'.fs

theorem Quiet.refl (d : Disk) : Quiet d d := ⟨rfl, rfl, rfl⟩

theorem Quiet.trans {d d' d'' : Disk} (h : Quiet d d') (h' : Quiet d' d'') : Quiet d d'' :=
  ⟨h'.cwd.trans h.cwd, h'.placed.trans h.placed, h'.renamed.trans h.renamed⟩

theorem Same.refl (d : Disk) : Same d d := ⟨.refl d, .refl d.fs⟩

theorem Same.trans {d d' d'' : Disk} (h : Same d d') (h' : Same d' d'') : Same d d'' :=
  ⟨h.toQuiet.trans h'.toQuiet, h.grows.trans h'.grows⟩

theorem Quiet.same {d d' : Disk} (h : Quiet d d') (hfs : d'.fs = d.fs) : Same d d' :=
  ⟨h, hfs ▸ .refl d.fs⟩

variable {d : Disk}

@[simp] theorem wp_nextFault {Q : Option Nat → Disk → Prop} {E : Exn → Disk → Prop} :
    wp nextFault d Q E ↔ Q d.faults.head?.join { d with faults := d.faults.tail } := Iff.rfl

@[simp] theorem wp_existsPath {p : Path} {Q : Bool → Disk → Prop} {E : Exn → Disk → Prop} :
    wp (existsPath p) d Q E ↔ Q (d.fs.existsPath d.cwd p) d := Iff.rfl

@[simp] theorem wp_place {id : UInt32} {off len pos : Nat} {p : Path} {Q : Unit → Disk → Prop}
    {E : Exn → Disk → Prop} : wp (place id off len p pos) d Q E ↔
      Q () { d with placed := d.placed ++ [⟨id, off, len, locate d.cwd p, pos⟩] } := Iff.rfl

theorem change_spec (what : String) (f : FileSystem → Loc → Option FileSystem) :
    wp (change what f) d (fun _ d' => Quiet d d' ∧ f d.fs d.cwd = some d'.fs)
      (fun _ d' => Quiet d d' ∧ d'.fs = d.fs) := by
  simp only [change, wp_bind, wp_nextFault]
  cases d.faults.head?.join with
  | some k => exact ⟨⟨rfl, rfl, rfl⟩, rfl⟩
  | none =>
    simp only [wp_bind, wp_get]
    cases h : f d.fs d.cwd with
    | some fs => exact ⟨⟨rfl, rfl, rfl⟩, rfl⟩
    | none => exact ⟨⟨rfl, rfl, rfl⟩, rfl⟩

/-- An operation that only makes the file system grow. -/
theorem change_grows {what : String} {f : FileSystem → Loc → Option FileSystem}
    (hf : ∀ fs cwd fs', f fs cwd = some fs' → Grows fs fs') :
    wp (change what f) d (fun _ d' => Same d d') (fun _ d' => Same d d') := by
  apply wp_mono (change_spec what f)
  · intro _ d' h
    exact ⟨h.1, hf _ _ _ h.2⟩
  · intro _ d' h
    exact h.1.same h.2

theorem create_spec (p : Path) : wp (create p) d
    (fun _ d' => Same d d' ∧ d'.fs.existsPath d'.cwd p = true) (fun _ d' => Same d d') := by
  apply wp_mono (change_spec _ _)
  · intro _ d' h
    refine ⟨⟨h.1, openTrunc_grows h.2⟩, ?_⟩
    rw [h.1.cwd]
    exact openTrunc_exists h.2
  · intro _ d' h
    exact h.1.same h.2

theorem resizeFile_spec (p : Path) (n : Nat) :
    wp (resizeFile p n) d (fun _ d' => Same d d') (fun _ d' => Same d d') :=
  change_grows fun _ _ _ h => resize_grows h

theorem createDirectory_spec (p : Path) :
    wp (createDirectory p) d (fun _ d' => Same d d') (fun _ d' => Same d d') :=
  change_grows fun _ _ _ h => mkdir_grows h

theorem createDirectories_spec (p : Path) :
    wp (createDirectories p) d (fun _ d' => Same d d') (fun _ d' => Same d d') :=
  change_grows fun _ _ _ h => mkdirs_grows h

theorem fileSize_spec (p : Path) :
    wp (fileSize p) d (fun n d' => d' = d ∧ d.fs.fileSize d.cwd p = some n)
      (fun _ d' => d' = d) := by
  simp only [fileSize, wp_bind, wp_get]
  cases h : d.fs.fileSize d.cwd p with
  | some n => exact ⟨rfl, rfl⟩
  | none => rfl

theorem openFile_spec (p : Path) :
    wp (openFile p) d (fun _ d' => d' = d) (fun _ d' => d' = d) := by
  simp only [openFile, wp_bind, wp_get]
  cases d.fs.fileSize d.cwd p <;> rfl

theorem read_spec (p : Path) (off n : Nat) :
    wp (read p off n) d (fun data d' => d' = d ∧ data.length = n ∧
        ∀ i < n, d.fs.byteAt (locate d.cwd p) (off + i) = data[i]?) (fun _ d' => d' = d) := by
  simp only [read, wp_bind, wp_get]
  cases h : d.fs.read d.cwd p off n with
  | some data => exact ⟨rfl, read_eq h⟩
  | none => rfl

/-- Bytes outside `n` positions from `off` on of the file at `l` are kept. -/
def KeepsOutside (d d' : Disk) (l : Loc) (off n : Nat) : Prop :=
  ∀ k j b, d.fs.byteAt k j = some b → (k = l → j < off ∨ off + n ≤ j) →
    d'.fs.byteAt k j = some b

theorem write_spec (p : Path) (off : Nat) (data : Bytes) :
    wp (write p off data) d
      (fun _ d' => Same d d' ∧ KeepsOutside d d' (locate d.cwd p) off data.length ∧
        ∀ i < data.length, d'.fs.byteAt (locate d.cwd p) (off + i) = data[i]?)
      (fun _ d' => Same d d' ∧ KeepsOutside d d' (locate d.cwd p) off data.length) := by
  simp only [write, wp_bind, wp_nextFault]
  have hquiet : ∀ fs', Quiet d { d with fs := fs', faults := d.faults.tail } :=
    fun _ => ⟨rfl, rfl, rfl⟩
  cases d.faults.head?.join with
  | none =>
    simp only [wp_bind, wp_get]
    cases h : d.fs.write d.cwd p off data with
    | some fs =>
      refine ⟨⟨hquiet fs, write_grows h⟩, fun k j b hb hout => byteAt_write h hb hout,
        fun i hi => byteAt_write_in h hi⟩
    | none => exact ⟨(hquiet d.fs).same rfl, fun k j b hb _ => hb⟩
  | some n =>
    simp only [wp_bind, wp_get]
    cases h : d.fs.write d.cwd p off (data.take n) with
    | some fs =>
      refine ⟨⟨hquiet fs, write_grows h⟩, fun k j b hb hout => byteAt_write h hb fun hk => ?_⟩
      have := hout hk
      rw [List.length_take]
      omega
    | none => exact ⟨(hquiet d.fs).same rfl, fun k j b hb _ => hb⟩

end Disk

open Disk

/-! ## Creating the files -/

/-- What `allocate` may do; nothing when the temporary file exists. -/
structure Allocated (t : Torrent) (d d' : Disk) : Prop extends Same d d' where
  present : d.fs.existsPath d.cwd t.tmpfile = true → d'.fs = d.fs

section
variable {t : Torrent} {d : Disk}

theorem allocated_of_missing {d' : Disk} (hm : ¬d.fs.existsPath d.cwd t.tmpfile = true)
    (h : Same d d') : Allocated t d d' := ⟨h, fun hp => absurd hp hm⟩

theorem existsPath_same {d' : Disk} {p : Path} (h : Same d d')
    (hp : d.fs.existsPath d.cwd p = true) : d'.fs.existsPath d'.cwd p = true := by
  rw [h.cwd]
  exact existsPath_grows h.grows hp

theorem allocateFile_spec (fi : FileInfo) : wp (MultiTorrentDestination.allocateFile t fi) d
    (fun _ d' => Same d d') (fun _ d' => Same d d') := by
  simp only [MultiTorrentDestination.allocateFile, wp_bind]
  apply wp_mono (createDirectories_spec _)
  · intro _ d1 h1
    apply wp_mono (create_spec _)
    · intro _ d2 h2
      simp only [wp_lift]
      refine ⟨fun n _ => ?_, fun _ _ => h1.trans h2.1⟩
      exact wp_mono (resizeFile_spec _ _) (fun _ _ h3 => (h1.trans h2.1).trans h3)
        fun _ _ h3 => (h1.trans h2.1).trans h3
    · exact fun _ _ h2 => h1.trans h2
  · exact fun _ _ h1 => h1

theorem allocate_spec : wp (TorrentDestination.allocate t) d
    (fun _ d' => Allocated t d d' ∧ d'.fs.existsPath d'.cwd t.tmpfile = true)
    (fun _ d' => Allocated t d d') := by
  have hkeep : d.fs.existsPath d.cwd t.tmpfile = true → Allocated t d d :=
    fun _ => ⟨.refl d, fun _ => rfl⟩
  unfold TorrentDestination.allocate
  split
  · simp only [SingleTorrentDestination.allocate, wp_bind, wp_existsPath]
    split
    · rename_i hp
      exact ⟨hkeep hp, hp⟩
    · rename_i hm
      have hof (d' : Disk) : Same d d' → Allocated t d d' := allocated_of_missing hm
      simp only [wp_bind, wp_lift]
      refine ⟨fun _ _ => ⟨fun _ _ => ?_, fun _ _ => hof d (.refl d)⟩, fun _ _ => hof d (.refl d)⟩
      apply wp_mono (create_spec _)
      · intro _ d1 h1
        apply wp_mono (resizeFile_spec _ _)
        · exact fun _ d2 h2 => ⟨hof d2 (h1.1.trans h2), existsPath_same h2 h1.2⟩
        · exact fun _ d2 h2 => hof d2 (h1.1.trans h2)
      · exact fun _ d1 h1 => hof d1 h1
  · simp only [MultiTorrentDestination.allocate, wp_bind, wp_existsPath]
    split
    · rename_i hp
      exact ⟨hkeep hp, hp⟩
    · rename_i hm
      have hof (d' : Disk) : Same d d' → Allocated t d d' := allocated_of_missing hm
      simp only [wp_bind]
      apply wp_mono (create_spec _)
      · intro _ d1 h1
        apply wp_mono (resizeFile_spec _ _)
        · intro _ d2 h2
          apply wp_mono (createDirectory_spec _)
          · intro _ d3 h3
            have h13 : Same d1 d3 := h2.trans h3
            apply wp_mono (wp_forM (I := fun d' => Same d1 d') t.files h13 _)
            · exact fun _ d4 h4 => ⟨hof d4 (h1.1.trans h4), existsPath_same h4 h1.2⟩
            · exact fun _ d4 h4 => hof d4 (h1.1.trans h4)
            · intro fi _ d4 h4
              exact wp_mono (allocateFile_spec fi) (fun _ _ h => h4.trans h)
                fun _ _ h => h4.trans h
          · exact fun _ d3 h3 => hof d3 ((h1.1.trans h2).trans h3)
        · exact fun _ d2 h2 => hof d2 (h1.1.trans h2)
      · exact fun _ d1 h1 => hof d1 h1

theorem allSizes_spec (files : List FileInfo) : wp (MultiTorrentDestination.allSizes t files) d
    (fun _ d' => d' = d) (fun _ d' => d' = d) := by
  induction files with
  | nil => rfl
  | cons fi files ih =>
    simp only [MultiTorrentDestination.allSizes, wp_bind]
    refine (wp_lift _).2 ⟨fun _ _ => ?_, fun _ _ => rfl⟩
    apply wp_mono (fileSize_spec _)
    · intro n d' h
      rw [h.1]
      split
      · exact ih
      · rfl
    · exact fun _ _ h => h

theorem verifyFileSize_spec : wp (TorrentDestination.verifyFileSize t) d
    (fun _ d' => d' = d) (fun _ d' => d' = d) := by
  unfold TorrentDestination.verifyFileSize
  split
  · simp only [SingleTorrentDestination.verifyFileSize, wp_bind]
    apply wp_mono (fileSize_spec _)
    · intro n d' h
      simp only [wp_lift]
      refine ⟨fun _ _ => ⟨fun _ _ => ?_, fun _ _ => h.1⟩, fun _ _ => h.1⟩
      split
      · exact h.1
      · exact h.1
    · exact fun _ _ h => h
  · simp only [MultiTorrentDestination.verifyFileSize, wp_bind]
    apply wp_mono (allSizes_spec _)
    · intro b d' h
      cases b <;> exact h
    · exact fun _ _ h => h

end

/-! ## Writing a piece -/

/-- The bytes of a record are at their homes. -/
def Placed.AtHome (t : Torrent) (cwd : Loc) (e : Placed) : Prop :=
  ∀ j < e.len, t.home cwd e.id (e.off + j) = some (e.loc, e.pos + j)

def Placed.Covers (e : Placed) (id : UInt32) (i : Nat) : Prop :=
  e.id = id ∧ e.off ≤ i ∧ i < e.off + e.len

/-- What an attempt to write the piece `p` may do to the disk. -/
structure Attempt (t : Torrent) (p : Piece) (d d' : Disk) : Prop where
  cwd : d'.cwd = d.cwd
  renamed : d'.renamed = d.renamed
  grows : d.fs.Grows d'.fs
  kept : ∀ l k b, d.fs.byteAt l k = some b →
    (∀ i < p.pieceSize.toNat, t.home d.cwd p.id i ≠ some (l, k)) → d'.fs.byteAt l k = some b
  placed : ∃ es, d'.placed = d.placed ++ es ∧ ∀ e ∈ es, e.id = p.id ∧ e.AtHome t d.cwd

/-- The first `n` bytes of the piece have been written. -/
structure Progress (t : Torrent) (p : Piece) (d d' : Disk) (n : Int) : Prop
    extends Attempt t p d d' where
  size : n ≤ p.data.length
  bytes : t.DistinctFiles d.cwd → ∀ i : Nat, (i : Int) < n →
    ∃ l k, t.home d.cwd p.id i = some (l, k) ∧ d'.fs.byteAt l k = p.data[i]?
  covered : ∀ i : Nat, (i : Int) < n → ∃ e ∈ d'.placed, e.Covers p.id i

/-- The piece has been written. -/
abbrev Stored (t : Torrent) (p : Piece) (d d' : Disk) : Prop :=
  Progress t p d d' p.pieceSize.toNat

section
variable {t : Torrent} {p : Piece} {d d' : Disk}

theorem Attempt.refl (d : Disk) : Attempt t p d d :=
  ⟨rfl, rfl, .refl d.fs, fun _ _ _ hb _ => hb, [], by simp, by simp⟩

theorem Progress.none (d : Disk) {n : Int} (hn : n ≤ 0) : Progress t p d d n :=
  ⟨.refl d, by omega, fun _ i hi => by omega, fun i hi => by omega⟩

/-- A write of the bytes of `p` from byte `done` on, to their homes. -/
theorem Attempt.write {d1 : Disk} {path : Path} {off done : Nat} {data : Bytes}
    (h : Attempt t p d d1) (hs : Same d1 d')
    (hk : KeepsOutside d1 d' (locate d1.cwd path) off data.length)
    (hin : done + data.length ≤ p.pieceSize.toNat)
    (hhome : ∀ j < data.length,
      t.home d.cwd p.id (done + j) = some (locate d.cwd path, off + j)) : Attempt t p d d' := by
  refine ⟨hs.cwd.trans h.cwd, hs.renamed.trans h.renamed, h.grows.trans hs.grows, ?_, ?_⟩
  · intro l k b hb hout
    refine hk l k b (h.kept l k b hb hout) fun hl => ?_
    by_contra hc
    have hh := hhome (k - off) (by omega)
    apply hout (done + (k - off)) (by omega)
    rw [hh, hl, h.cwd, show off + (k - off) = k by omega]
  · rw [hs.placed]
    exact h.placed

/-- The record of such a write. -/
theorem Attempt.place (h : Attempt t p d d') {path : Path} {off done len : Nat}
    (hhome : ∀ j < len, t.home d.cwd p.id (done + j) = some (locate d.cwd path, off + j)) :
    Attempt t p d { d' with
      placed := d'.placed ++ [⟨p.id, done, len, locate d'.cwd path, off⟩] } := by
  obtain ⟨es, hes, hat⟩ := h.placed
  refine ⟨h.cwd, h.renamed, h.grows, h.kept, es ++ [_], by rw [hes, List.append_assoc], ?_⟩
  intro e he
  rcases List.mem_append.1 he with he | he
  · exact hat e he
  · rw [List.mem_singleton.1 he]
    refine ⟨rfl, fun j hj => ?_⟩
    rw [h.cwd]
    exact hhome j hj

/-- A write that succeeded, with its record: the next `len` bytes are written. -/
theorem Progress.write {d1 : Disk} {path : Path} {off done len : Nat}
    (h : Progress t p d d1 done) (hs : Same d1 d')
    (hk : KeepsOutside d1 d' (locate d1.cwd path) off len) (hin : done + len ≤ p.pieceSize.toNat)
    (hsize : done + len ≤ p.data.length)
    (hhome : ∀ j < len, t.home d.cwd p.id (done + j) = some (locate d.cwd path, off + j))
    (hb : ∀ j < len, d'.fs.byteAt (locate d1.cwd path) (off + j) = p.data[done + j]?) :
    Progress t p d { d' with
      placed := d'.placed ++ [⟨p.id, done, len, locate d'.cwd path, off⟩] } (done + len : Nat) := by
  have hlength : ((p.data.drop done).take len).length = len := by
    rw [List.length_take, List.length_drop]
    omega
  have hatt : Attempt t p d d' := by
    rw [← hlength] at hk hin
    exact h.toAttempt.write hs hk hin fun j hj => hhome j (by omega)
  refine ⟨hatt.place hhome, by omega, fun hd i hi => ?_, fun i hi => ?_⟩
  · by_cases hlt : i < done
    · obtain ⟨l, k, hl, hbyte⟩ := h.bytes hd i (by omega)
      refine ⟨l, k, hl, ?_⟩
      have hi' : i < p.data.length := by omega
      rw [List.getElem?_eq_getElem hi'] at hbyte ⊢
      refine hk l k _ hbyte fun heq => ?_
      by_contra hc
      have hh := hhome (k - off) (by omega)
      rw [← h.cwd, ← heq, show off + (k - off) = k by omega, h.cwd] at hh
      have := t.home_start_inj hd hl hh
      omega
    · have hh := hhome (i - done) (by omega)
      have hbyte := hb (i - done) (by omega)
      rw [show done + (i - done) = i by omega] at hh hbyte
      rw [h.cwd] at hbyte
      exact ⟨_, _, hh, hbyte⟩
  · by_cases hlt : i < done
    · obtain ⟨e, he, hc⟩ := h.covered i (by omega)
      rw [← hs.placed] at he
      exact ⟨e, List.mem_append_left _ he, hc⟩
    · refine ⟨_, List.mem_append_right _ (List.mem_singleton.2 rfl), rfl, ?_, ?_⟩
      · show done ≤ i
        omega
      · show i < done + len
        omega

theorem home_single (hs : t.isSingleFile = true) (cwd : Loc) (id : UInt32) (i : Nat) :
    t.home cwd id i = some (locate cwd t.tmpfile, t.pieceStart id + i) := by
  rw [Torrent.home, if_pos hs]

theorem writePiece_single (hs : t.isSingleFile = true) :
    wp (SingleTorrentDestination.writePiece t p) d (fun _ d' => Stored t p d d')
      (fun _ d' => Attempt t p d d') := by
  simp only [SingleTorrentDestination.writePiece, wp_bind]
  apply wp_mono (openFile_spec _)
  · intro _ d0 h0
    subst h0
    split
    · exact Attempt.refl d0
    · rename_i hlen
      have hlen' : p.data.length = p.pieceSize.toNat := by simpa using hlen
      have hhome : ∀ j < p.data.length, t.home d0.cwd p.id (0 + j) =
          some (locate d0.cwd t.tmpfile, (SingleTorrentDestination.offset t p).toNat + j) := by
        intro j _
        rw [home_single hs, Nat.zero_add]
        rfl
      simp only [wp_bind]
      apply wp_mono (Disk.write_spec _ _ _)
      · intro _ d1 h1
        have hnone : Progress t p d0 d0 ((0 : Nat) : Int) := .none d0 (Int.le_refl 0)
        have hall := hnone.write h1.1 h1.2.1 (by omega) (by omega) hhome (by simpa using h1.2.2)
        rw [Nat.zero_add, hlen'] at hall
        simpa only [wp_place, Stored, hlen'] using hall
      · intro _ d1 h1
        have hin : 0 + p.data.length ≤ p.pieceSize.toNat := by omega
        exact (Attempt.refl d0).write h1.1 h1.2 hin hhome
  · intro _ d0 h0
    subst h0
    exact Attempt.refl d0

/-- The bytes from a position on, up to the end of its file, have their homes there. -/
theorem home_multi (hs : t.isSingleFile = false) {cwd : Loc} {id : UInt32} {done : Int}
    (hdone : 0 ≤ done) {fi : FileInfo} {off left : Int}
    (hf : t.fileAtPos (t.pieceStart id + done) = .ok (fi, off, left)) (len : Int)
    (hlen : len ≤ left) {j : Nat} (hj : (j : Int) < len) :
    t.home cwd id (done.toNat + j) = some (locate cwd (join t.name fi.path), off.toNat + j) := by
  obtain ⟨hof, hleft⟩ := t.fileAtPos_multi hs hf
  obtain ⟨_, -, -, hoff, -⟩ := Torrent.fileOf_some hof (by omega)
  have hin := Torrent.fileOf_within hof (j := j) (by omega) (by omega)
  have hstart : (t.pieceStart id : Int) + ((done.toNat + j : Nat) : Int) =
      t.pieceStart id + done + j := by omega
  rw [Torrent.home, hs]
  simp only [Bool.false_eq_true, if_false]
  rw [hstart, hin]
  simp only [Option.map_some, Option.some.injEq, Prod.mk.injEq, true_and]
  omega

/-- Where a file holds a position, it holds a byte or more from there on. -/
theorem fileAtPos_left (hs : t.isSingleFile = false) {pos : Int} (hpos : 0 ≤ pos) {fi : FileInfo}
    {off left : Int} (hf : t.fileAtPos pos = .ok (fi, off, left)) : 0 ≤ off ∧ 0 < left := by
  obtain ⟨hof, hleft⟩ := t.fileAtPos_multi hs hf
  obtain ⟨_, -, -, hoff, hlt⟩ := Torrent.fileOf_some hof hpos
  omega

/-- The loop, with what the earlier turns wrote as its invariant. -/
theorem writeLoop_spec (hs : t.isSingleFile = false) (d : Disk) (turns : Nat) (remaining : Int)
    (hle : remaining ≤ p.pieceSize.toNat) (d1 : Disk)
    (h : Progress t p d d1 (p.pieceSize.toNat - remaining)) :
    wp (MultiTorrentDestination.writeLoop t p turns remaining) d1 (fun _ d' => Stored t p d d')
      (fun _ d' => Attempt t p d d') := by
  induction turns generalizing remaining d1 with
  | zero => exact h.toAttempt
  | succ turns ih =>
    unfold MultiTorrentDestination.writeLoop
    split
    · rename_i hpos
      simp only [wp_bind]
      refine (wp_lift _).2 ⟨fun a ha => ?_, fun _ _ => h.toAttempt⟩
      obtain ⟨fi, off, left⟩ := a
      obtain ⟨hoff, hleft⟩ := fileAtPos_left hs (by unfold MultiTorrentDestination.pos; omega) ha
      simp only
      apply wp_mono (openFile_spec _)
      · intro _ d2 h2
        subst h2
        split
        · exact h.toAttempt
        · rename_i hdata
          -- the turn writes the bytes from `done` to `done + len`
          obtain ⟨done, hdone⟩ : ∃ done : Nat, (done : Int) = p.pieceSize.toNat - remaining :=
            ⟨(p.pieceSize.toNat - remaining).toNat, by omega⟩
          obtain ⟨len, hlen⟩ : ∃ len : Nat, (len : Int) = min remaining left :=
            ⟨(min remaining left).toNat, by omega⟩
          rw [← hdone] at h ha hdata ⊢
          rw [← hlen] at hdata ⊢
          have hhome : ∀ j < len, t.home d.cwd p.id (done + j) =
              some (locate d.cwd (join t.name fi.path), off.toNat + j) := by
            intro j hj
            exact home_multi hs (by omega) ha len (by omega) (by omega)
          have hsize : done + len ≤ p.data.length := by omega
          have hlength : ((p.data.drop done).take len).length = len := by
            simp only [List.length_take, List.length_drop]
            omega
          simp only [Int.toNat_natCast, wp_bind]
          apply wp_mono (Disk.write_spec _ _ _)
          · intro _ d3 h3
            rw [hlength] at h3
            have hnext := h.write h3.1 h3.2.1 (by omega) hsize hhome fun j hj => by
              rw [h3.2.2 j hj, List.getElem?_take_of_lt hj, List.getElem?_drop]
            simp only [wp_place]
            refine ih (remaining - len) (by omega) _ ?_
            rwa [show (p.pieceSize.toNat : Int) - (remaining - len) = (done + len : Nat) by omega]
          · intro _ d3 h3
            have hin : done + ((p.data.drop done).take len).length ≤ p.pieceSize.toNat := by omega
            exact h.toAttempt.write h3.1 h3.2 hin (by rwa [hlength])
      · intro _ d2 h2
        rw [h2]
        exact h.toAttempt
    · rename_i hpos
      exact ⟨h.toAttempt, by have := h.size; omega, fun hd i hi => h.bytes hd i (by omega),
        fun i hi => h.covered i (by omega)⟩

theorem writePiece_spec : wp (TorrentDestination.writePiece t p) d (fun _ d' => Stored t p d d')
    (fun _ d' => Attempt t p d d') := by
  unfold TorrentDestination.writePiece
  cases hs : t.isSingleFile with
  | true => exact writePiece_single hs
  | false =>
    exact writeLoop_spec hs d _ _ (Int.le_refl _) d (Progress.none d (by omega))

/-! ## Completing -/

/-- What `torrentComplete` does when it succeeds. -/
structure Completed (t : Torrent) (d d' : Disk) : Prop where
  cwd : d'.cwd = d.cwd
  single : t.isSingleFile = true → d.fs.rename d.cwd t.tmpfile t.name = some d'.fs ∧
    d'.renamed = true ∧ d'.placed = d.placed.map fun e =>
      if e.loc = locate d.cwd t.tmpfile then { e with loc := locate d.cwd t.name } else e
  multi : t.isSingleFile = false →
    d.fs.remove d.cwd (MultiTorrentDestination.marker t) = some d'.fs ∧
    d'.renamed = d.renamed ∧ d'.placed = d.placed

theorem torrentComplete_spec : wp (TorrentDestination.torrentComplete t) d
    (fun _ d' => Completed t d d') (fun _ d' => Quiet d d' ∧ d'.fs = d.fs) := by
  unfold TorrentDestination.torrentComplete
  split
  · rename_i hs
    simp only [SingleTorrentDestination.torrentComplete, Disk.rename, wp_bind]
    apply wp_mono (change_spec _ _)
    · intro _ d1 h1
      simp only [wp_modify]
      refine ⟨h1.1.cwd, fun _ => ⟨h1.2, rfl, ?_⟩, fun h => by rw [hs] at h; cases h⟩
      rw [h1.1.placed, h1.1.cwd]
    · exact fun _ _ h => h
  · rename_i hs
    unfold MultiTorrentDestination.torrentComplete Disk.remove
    apply wp_mono (change_spec _ _)
    · intro _ d1 h1
      exact ⟨h1.1.cwd, fun h => absurd h hs, fun _ => ⟨h1.2, h1.1.renamed, h1.1.placed⟩⟩
    · exact fun _ _ h => h

end

end Zit
