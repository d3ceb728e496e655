import Zit.Proof.Orderly

/-!
# Where a written piece is read

`Recorded`: the record of the disk has a place for every byte that was written or found, and each
place is the byte's home, or the final name of a file that has been renamed. Every change keeps it
(`Recorded.change`). `read_block` builds its paths in another way, from `tmpfile()`: it opens the
file of a place when that path denotes the file that `writePiece` opens (`read_finds`), and not once
a download has been renamed (`read_lost`).
-/

set_option autoImplicit false

namespace Zit

open Lib Lib.Path World

/-- The bytes are at their homes, or were when their file was renamed. -/
def Placed.AtPlace (t : Torrent) (d : Disk) (e : Placed) : Prop :=
  e.AtHome t d.cwd ∨ t.isSingleFile = true ∧ d.renamed = true ∧ e.loc = locate d.cwd t.name

structure Recorded (t : Torrent) (w : World) : Prop where
  sizes : ∀ (ref : Nat) (p : Piece), w.heap[ref]? = some p →
    t.pieceLengthAt p.id = .ok p.pieceSize
  placed : ∀ e ∈ w.disk.placed, e.AtPlace t w.disk
  covered : ∀ m ∈ w.marks, ∀ size, t.pieceLengthAt m.id = .ok size → ∀ i < size.toNat,
    i < m.data.length → ∃ e ∈ w.disk.placed, e.Covers m.id i

section
variable {sha1 : Bytes → Sha1} {t : Torrent} {hz : Hazards} {w w' : World}

namespace Recorded

theorem start (cwd : Loc) (fs : FileSystem) : Recorded t (World.start cwd fs) := by
  refine ⟨fun ref p h => ?_, fun e h => ?_, fun m h => ?_⟩
  · cases h
  · cases h
  · cases h

/-- The pieces change, the rest of the record does not. -/
theorem of_heap (h : Recorded t w) (hd : w'.disk = w.disk) (hm : w'.marks = w.marks)
    (hs : ∀ (ref : Nat) (p : Piece), w'.heap[ref]? = some p →
      t.pieceLengthAt p.id = .ok p.pieceSize) : Recorded t w' := by
  refine ⟨hs, ?_, ?_⟩
  · rw [hd]
    exact h.placed
  · rw [hd, hm]
    exact h.covered

/-- A piece changes, but not its id and its size. -/
theorem sizes_set (h : Recorded t w) {ref : Nat} {p p' : Piece} (hp : w.heap[ref]? = some p)
    (hid : p'.id = p.id) (hsize : p'.pieceSize = p.pieceSize) :
    ∀ (k : Nat) (q : Piece), (w.heap.set ref p')[k]? = some q →
      t.pieceLengthAt q.id = .ok q.pieceSize := by
  refine Heap.forall_set (P := fun q : Piece => t.pieceLengthAt q.id = .ok q.pieceSize) h.sizes ?_
  rw [hid, hsize]
  exact h.sizes ref p hp

theorem sizes_append (h : Recorded t w) {p : Piece} (hp : t.pieceLengthAt p.id = .ok p.pieceSize) :
    ∀ (k : Nat) (q : Piece), (w.heap ++ [p])[k]? = some q →
      t.pieceLengthAt q.id = .ok q.pieceSize :=
  Heap.forall_append (P := fun q : Piece => t.pieceLengthAt q.id = .ok q.pieceSize) h.sizes hp

/-- More places, all of them homes. -/
theorem placed_append (h : Recorded t w) {d : Disk} {es : List Placed}
    (hcwd : d.cwd = w.disk.cwd) (hren : d.renamed = w.disk.renamed)
    (hes : ∀ e ∈ es, e.AtHome t w.disk.cwd) : ∀ e ∈ w.disk.placed ++ es, e.AtPlace t d := by
  intro e he
  unfold Placed.AtPlace
  rw [hcwd, hren]
  rcases List.mem_append.1 he with he | he
  · exact h.placed e he
  · exact .inl (hes e he)

theorem found (h : Recorded t w) {id : UInt32} (hf : Found sha1 t id w w') : Recorded t w' := by
  obtain ⟨hnew, hsize, hhash, hhome, hcovers⟩ := hf
  refine ⟨?_, h.placed_append rfl rfl fun e he => (hhome e he).2, fun m hm n hn i hi hlt => ?_⟩
  · exact h.sizes_append hsize
  · rcases List.mem_append.1 hm with hm | hm
    · obtain ⟨e, he, hc⟩ := h.covered m hm n hn i hi hlt
      exact ⟨e, List.mem_append_left _ he, hc⟩
    · rw [List.mem_singleton.1 hm] at hlt ⊢
      obtain ⟨e, he, hc⟩ := hcovers i hlt
      exact ⟨e, List.mem_append_right _ he, hc⟩

/-- An attempt to write a piece, with the places it has recorded. -/
theorem attempt (h : Recorded t w) {p : Piece} {d d' : Disk} (hd : Allocated t w.disk d)
    (hd' : Attempt t p d d') : (∀ e ∈ d'.placed, e.AtPlace t d') ∧
      ∀ e ∈ w.disk.placed, e ∈ d'.placed := by
  obtain ⟨es, hes, hat⟩ := hd'.placed
  rw [hd.placed] at hes
  rw [hes]
  refine ⟨h.placed_append (hd'.cwd.trans hd.cwd) (hd'.renamed.trans hd.renamed) fun e he => ?_,
    fun e he => List.mem_append_left _ he⟩
  rw [← hd.cwd]
  exact (hat e he).2

/-- The places move along with their file. -/
theorem completed (h : Recorded t w) {d' : Disk} (hd : Completed t w.disk d') :
    (∀ e ∈ d'.placed, e.AtPlace t d') ∧
      ∀ e ∈ w.disk.placed, ∃ e' ∈ d'.placed, e'.id = e.id ∧ e'.off = e.off ∧ e'.len = e.len := by
  cases hs : t.isSingleFile with
  | false =>
    obtain ⟨-, hren, hplaced⟩ := hd.multi hs
    rw [hplaced]
    refine ⟨fun e he => ?_, fun e he => ⟨e, he, rfl, rfl, rfl⟩⟩
    unfold Placed.AtPlace
    rw [hd.cwd, hren]
    exact h.placed e he
  | true =>
    obtain ⟨-, hren, hplaced⟩ := hd.single hs
    rw [hplaced]
    refine ⟨fun e' he' => ?_, fun e he => ⟨_, List.mem_map_of_mem he, ?_⟩⟩
    · obtain ⟨e, he, rfl⟩ := List.mem_map.1 he'
      split
      · exact .inr ⟨hs, hren, by rw [hd.cwd]⟩
      · rename_i hloc
        rcases h.placed e he with hat | hname
        · refine .inl fun j hj => absurd ?_ hloc
          have hhome := hat j hj
          rw [home_single hs, Option.some_inj, Prod.mk.injEq] at hhome
          exact hhome.1.symm
        · refine .inr ⟨hs, hren, ?_⟩
          rw [hd.cwd]
          exact hname.2.2
    · split <;> exact ⟨rfl, rfl, rfl⟩

theorem change (h : Recorded t w) (hc : Change sha1 t hz w w') : Recorded t w' := by
  cases hc with
  | peers _ => exact h.of_heap rfl rfl h.sizes
  | bitfield i bf _ _ => exact h.of_heap rfl rfl h.sizes
  | sizeAll _ => exact h.of_heap rfl rfl h.sizes
  | remote i bf _ _ => exact h.of_heap rfl rfl h.sizes
  | newPiece _ hsize _ =>
    exact h.of_heap rfl rfl (h.sizes_append hsize)
  | touch hp hsame => exact h.of_heap rfl rfl (h.sizes_set hp hsame.id hsame.pieceSize)
  | block _ hp hb _ =>
    obtain ⟨hid, hsize, -⟩ := Piece.setBlock_ok hb
    exact h.of_heap rfl rfl (h.sizes_set hp hid hsize)
  | lastBlock _ hp hb _ _ _ =>
    obtain ⟨hid, hsize, -⟩ := Piece.setBlock_ok hb
    exact h.of_heap rfl rfl (h.sizes_set hp hid hsize)
  | skip _ _ => exact h.of_heap rfl rfl h.sizes
  | reject _ _ _ _ _ hr => exact h.of_heap rfl rfl (h.sizes_set hr rfl rfl)
  | fail _ _ _ hd hd' _ =>
    obtain ⟨hplaced, hmem⟩ := h.attempt hd hd'
    refine ⟨h.sizes, hplaced, fun m hm n hn i hi hlt => ?_⟩
    obtain ⟨e, he, hcov⟩ := h.covered m hm n hn i hi hlt
    exact ⟨e, hmem e he, hcov⟩
  | @written ref rest p d d' _ hp _ hd _ hd' =>
    obtain ⟨hplaced, hmem⟩ := h.attempt hd hd'.toAttempt
    refine ⟨h.sizes_set hp rfl rfl, hplaced, fun m hm n hn i hi hlt => ?_⟩
    rcases List.mem_append.1 hm with hm | hm
    · obtain ⟨e, he, hcov⟩ := h.covered m hm n hn i hi hlt
      exact ⟨e, hmem e he, hcov⟩
    · rw [List.mem_singleton.1 hm] at hn ⊢
      rw [h.sizes ref p hp, Except.ok.injEq] at hn
      rw [← hn] at hi
      exact hd'.covered i (by omega)
  | complete _ hd =>
    obtain ⟨hplaced, hmem⟩ := h.completed hd
    refine ⟨h.sizes, hplaced, fun m hm n hn i hi hlt => ?_⟩
    obtain ⟨e, he, hid, hlo, hhi⟩ := h.covered m hm n hn i hi hlt
    obtain ⟨e', he', hid', hoff', hlen'⟩ := hmem e he
    exact ⟨e', he', hid'.trans hid, by omega, by omega⟩
  | quiet hq hfs =>
    refine ⟨h.sizes, ?_, ?_⟩
    · show ∀ e ∈ _, _
      rw [hq.placed]
      intro e he
      unfold Placed.AtPlace
      rw [hq.cwd, hq.renamed]
      exact h.placed e he
    · show ∀ m ∈ w.marks, _
      rw [hq.placed]
      exact h.covered

end Recorded

/-! ## Reading -/

/-- For byte `i` of the piece `read_block` opens the file at `loc`. -/
def Opens (t : Torrent) (cwd : Loc) (p : Piece) (i : Nat) (loc : Loc) : Prop :=
  ∃ path off left,
    FileWriter.readPath t (p.fileOffset t (UInt32.ofNat i)).toNat = .ok (path, off, left) ∧
      0 < left ∧ locate cwd path = loc

/-- The piece is within the torrent and below 4 GiB. A single file is where its directory, taken
from itself, is itself, and has not been renamed; the files of several are the ones below
`tmpfile()`. -/
structure Readable (t : Torrent) (d : Disk) (p : Piece) : Prop where
  below : t.pieceStart p.id + p.pieceSize.toNat ≤ 2 ^ 32
  inside : ∀ i < p.pieceSize.toNat, ∃ fi off left,
    t.fileAtPos (t.pieceStart p.id + i : Nat) = .ok (fi, off, left) ∧ 0 < left
  single : t.isSingleFile = true →
    (t.tmpfile.isAbsolute = true ∨
      locate (locate d.cwd (parentPath t.tmpfile)) (parentPath t.tmpfile) =
        locate d.cwd (parentPath t.tmpfile)) ∧
    (d.renamed = true → locate d.cwd t.tmpfile = locate d.cwd t.name)
  multi : t.isSingleFile = false → ∀ fi ∈ t.files, 0 < fi.length →
    locate d.cwd (join t.tmpfile fi.path) = locate d.cwd (join t.name fi.path)

theorem fileOffset_eq {p : Piece} (hbelow : t.pieceStart p.id + p.pieceSize.toNat ≤ 2 ^ 32)
    {i : Nat} (hi : i < p.pieceSize.toNat) :
    (p.fileOffset t (UInt32.ofNat i)).toNat = t.pieceStart p.id + i := by
  have hmul : (t.pieceLength * p.id).toNat = t.pieceStart p.id := by
    rw [UInt32.mul_comm]
    rfl
  rw [Piece.fileOffset, UInt32.toNat_add, hmul, UInt32.toNat_ofNat']
  have := p.pieceSize.toNat_lt
  omega

/-- A place of a byte of a piece that is readable is where it is read. -/
theorem Placed.AtPlace.opens {d : Disk} {p : Piece} (hr : Readable t d p) {e : Placed}
    (he : e.AtPlace t d) {i : Nat} (hi : i < p.pieceSize.toNat) (hcov : e.Covers p.id i) :
    Opens t d.cwd p i e.loc := by
  obtain ⟨hid, hlo, hhi⟩ := hcov
  obtain ⟨fi, off, left, hat, hleft⟩ := hr.inside i hi
  refine ⟨join (FileWriter.base t) fi.path, off, left, ?_, hleft, ?_⟩
  · rw [fileOffset_eq hr.below hi, FileWriter.readPath, hat]
    rfl
  have hhome : e.AtHome t d.cwd → t.home d.cwd p.id i = some (e.loc, e.pos + (i - e.off)) := by
    intro hat
    have h := hat (i - e.off) (by omega)
    rwa [hid, show e.off + (i - e.off) = i by omega] at h
  cases hs : t.isSingleFile with
  | true =>
    obtain ⟨hdir, hren⟩ := hr.single hs
    obtain ⟨hpath, -⟩ := t.fileAtPos_single hs hat
    have htmp : locate d.cwd (join (FileWriter.base t) fi.path) = locate d.cwd t.tmpfile := by
      rw [FileWriter.base, if_pos hs, hpath]
      rcases hdir with habs | hdir
      · rw [join_absolute _ habs]
      · cases habs : t.tmpfile.isAbsolute with
        | true => rw [join_absolute _ habs]
        | false => exact locate_parent_join habs hdir
    rw [htmp]
    rcases he with hat | ⟨-, hd, hloc⟩
    · have h := hhome hat
      rw [home_single hs, Option.some_inj, Prod.mk.injEq] at h
      exact h.1
    · rw [hloc, hren hd]
  | false =>
    obtain ⟨hof, -⟩ := t.fileAtPos_multi hs hat
    obtain ⟨k, hk, -, hoff, hlt⟩ := Torrent.fileOf_some hof (Int.natCast_nonneg _)
    have hfile := hr.multi hs fi (List.mem_of_getElem? hk) (by omega)
    rw [FileWriter.base, hs]
    simp only [Bool.false_eq_true, if_false]
    rw [hfile]
    rcases he with hat | ⟨hsingle, -⟩
    · have h := hhome hat
      rw [Torrent.home, hs] at h
      simp only [Bool.false_eq_true, if_false] at h
      rw [← Int.natCast_add, hof, Option.map_some, Option.some_inj, Prod.mk.injEq] at h
      exact h.1
    · rw [hs] at hsingle
      cases hsingle

/-- In every state that is reached, a written piece that is readable is read from the files its
bytes were stored or found in. -/
theorem read_finds {w0 : World} {as : List Action} (hc : Constructed sha1 t w0)
    (hrun : Run (Step sha1 t) w0 as w) {ref : Nat} {p : Piece} (hp : w.heap[ref]? = some p)
    (hw : p.pieceWritten = true) (hr : Readable t w.disk p) :
    ∃ m ∈ w.marks, m.ref = ref ∧ m.id = p.id ∧ ∀ i < p.pieceSize.toNat,
      (i < m.data.length → ∃ e ∈ w.disk.placed, e.Covers p.id i) ∧
      ∀ e ∈ w.disk.placed, e.Covers p.id i → Opens t w.disk.cwd p i e.loc := by
  have h0 : Recorded t w0 := constructed_inv Recorded.start (fun _ _ _ h hf => h.found hf) hc
  have h : Recorded t w :=
    chain_inv (fun _ _ h hc => h.change hc) (run_changes (run_all hrun)) h0
  obtain ⟨m, hm, href, hid⟩ := (sound_run hc hrun).written ref p hp hw
  refine ⟨m, hm, href, hid, fun i hi => ⟨fun hlt => ?_, fun e he hcov => ?_⟩⟩
  · rw [← hid]
    exact h.covered m hm _ (by rw [hid, h.sizes ref p hp]) i hi hlt
  · exact (h.placed e he).opens hr hi hcov

end

/-- A directory with the whole file. -/
def wholeFile : FileSystem := FileSystem.put ⟨∅⟩ [[110]] (.file [120])

/-- A peer has all of nine pieces, and the first one is received and written. -/
def firstOfNine : List Action :=
  [.connect false, .setRemotePieces 0 ⟨[0xFF, 0x80]⟩, .setAmInterested 0 true,
    .setChoking 0 false 5, .setBlock 0 0 0 [120] 7, .writeNextPiece []]

/-- A piece that is written while others are missing. -/
theorem read_finds_first : ∃ t w0 w p m, Constructed Torrent.oneByteSha1 t w0 ∧
    Run (Step Torrent.oneByteSha1 t) w0 firstOfNine w ∧ w0.disk.placed = [] ∧ t.done w = false ∧
    w.heap[0]? = some p ∧ p.pieceWritten = true ∧ Readable t w.disk p ∧ m ∈ w.marks ∧
    m.ref = 0 ∧ m.id = p.id ∧ ∀ i < p.pieceSize.toNat,
      (i < m.data.length → ∃ e ∈ w.disk.placed, e.Covers p.id i) ∧
      ∀ e ∈ w.disk.placed, e.Covers p.id i → Opens t w.disk.cwd p i e.loc := by
  have hcheck : checkNew Torrent.oneByteSha1 Torrent.oneByteConfig [] Torrent.nineByteFile
      (List.range 9) ⟨∅⟩ (fun t w0 => decide (t.isSingleFile = true) &&
        decide (t.tmpfile = [110] ++ Torrent.tmpfileExtension) &&
        decide (t.fileAtPos 0 = .ok (⟨9, [110] ++ Torrent.tmpfileExtension, []⟩, 0, 9)) &&
        decide (t.pieceStart 0 = 0) && decide (w0.disk.placed = []) &&
        (Action.runAll (fun _ _ => true) Torrent.oneByteSha1 t firstOfNine w0).any fun w =>
          !t.done w && decide (w.disk.renamed = false ∧ w.disk.cwd = []) &&
          w.heap[0]?.any fun p => decide (p.id = 0 ∧ p.pieceSize = 1 ∧ p.pieceWritten = true)) =
          true := by
    decide +kernel
  obtain ⟨t, w0, hc, h⟩ := checkNew_true hcheck
  simp only [Bool.and_eq_true, decide_eq_true_eq, Option.any_eq_true, Bool.not_eq_true'] at h
  obtain ⟨⟨⟨⟨⟨hs, htmp⟩, hat⟩, hstart⟩, hplaced⟩, w, hrun, ⟨hdone, hren, hcwd⟩, p, hp, hid, hsize,
    hw⟩ := h
  have hrun := (run_of_runAll hrun).mono fun _ _ _ h => h.2
  have hr : Readable t w.disk p := by
    refine ⟨by rw [hid, hsize, hstart]; decide, fun i hi => ?_, fun _ => ⟨.inr ?_, fun hd => ?_⟩,
      fun hm => ?_⟩
    · rw [hsize] at hi
      obtain rfl : i = 0 := by
        change i < 1 at hi
        omega
      rw [hid, hstart]
      exact ⟨_, _, _, hat, by decide⟩
    · rw [htmp, hcwd]
      rfl
    · rw [hren] at hd
      cases hd
    · rw [hs] at hm
      cases hm
  obtain ⟨m, hm, href, hmid, hreads⟩ := read_finds hc hrun hp hw hr
  exact ⟨t, w0, w, p, m, hc, hrun, hplaced, hdone, hp, hw, hr, hm, href, hmid, hreads⟩

/-- When a download is complete, its file is looked for under the temporary name. -/
theorem read_lost : ¬∀ (sha1 : Bytes → Sha1) (t : Torrent) (w0 w : World) (as : List Action)
    (ref : Nat) (p : Piece), Constructed sha1 t w0 → Run (Step sha1 t) w0 as w →
      w.heap[ref]? = some p → p.pieceWritten = true →
        ∃ m ∈ w.marks, m.ref = ref ∧ m.id = p.id ∧ ∀ i < p.pieceSize.toNat,
          (i < m.data.length → ∃ e ∈ w.disk.placed, e.Covers p.id i) ∧
          ∀ e ∈ w.disk.placed, e.Covers p.id i → Opens t w.disk.cwd p i e.loc := by
  intro hall
  have hcheck : checkNew Torrent.oneByteSha1 Torrent.oneByteConfig [] Torrent.oneByteFile [0] ⟨∅⟩
      (fun t w0 =>
        (Action.runAll (fun _ _ => true) Torrent.oneByteSha1 t oneByteRun w0).any fun w =>
          w.marks.all (fun m => decide (0 < m.data.length)) &&
          w.disk.placed.all (fun e => decide (e.loc = [[110]])) &&
          w.heap[0]?.any fun p => decide (p.pieceWritten = true ∧ 0 < p.pieceSize.toNat ∧
            (FileWriter.readPath t (p.fileOffset t 0).toNat).map
              (fun x => locate w.disk.cwd x.1) = .ok [[110] ++ Torrent.tmpfileExtension])) =
          true := by
    decide +kernel
  obtain ⟨t, w0, hc, h⟩ := checkNew_true hcheck
  simp only [Bool.and_eq_true, Option.any_eq_true, List.all_eq_true, decide_eq_true_eq] at h
  obtain ⟨w, hr, ⟨hmarks, hplaced⟩, p, hp, hw, hsize, hpath⟩ := h
  have hrun := (run_of_runAll hr).mono fun _ _ _ h => h.2
  obtain ⟨m, hm, -, -, hreads⟩ := hall _ t w0 w _ 0 p hc hrun hp hw
  obtain ⟨hcovered, hopens⟩ := hreads 0 hsize
  obtain ⟨e, he, hcov⟩ := hcovered (hmarks m hm)
  obtain ⟨path, off, left, hread, -, hloc⟩ := hopens e he hcov
  obtain ⟨x, hx, hname⟩ := map_eq_ok.1 hpath
  have hsame := hread.symm.trans hx
  rw [Except.ok.injEq] at hsame
  rw [← hsame, hloc, hplaced e he] at hname
  exact absurd hname (by decide)

end Zit
