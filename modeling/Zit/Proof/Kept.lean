import Zit.Proof.Orderly

/-!
# No written piece is lost

`Kept`: every piece the file writer has checked and written is active and written, has its own bit,
and its bytes are in the file they were written to, under its new name once the file is renamed.
Without late blocks, and when different bytes have different places (`Separate`), every change keeps
it (`Kept.change`), so it holds for ever (`verified_kept`). One block more for a piece that is
complete makes the writer drop the piece (`verified_lost`).
-/

set_option autoImplicit false

namespace Zit

open Lib Lib.Path World FileSystem

/-- Where byte `i` of the piece is on disk: at its home, until the file is renamed. -/
def Torrent.dest (t : Torrent) (d : Disk) (id : UInt32) (i : Nat) : Option (Loc × Nat) :=
  if t.isSingleFile = true ∧ d.renamed = true then some (locate d.cwd t.name, t.pieceStart id + i)
  else t.home d.cwd id i

/-- The first `n` bytes of `data` are on disk. -/
def OnDisk (t : Torrent) (d : Disk) (id : UInt32) (data : Bytes) (n : Nat) : Prop :=
  ∀ i < n, ∃ b l k, data[i]? = some b ∧ t.dest d id i = some (l, k) ∧ d.fs.byteAt l k = some b

/-- The piece that was marked is active and written, with its own bit and its bytes on disk. -/
def Mark.Holds (t : Torrent) (w : World) (m : Mark) : Prop :=
  ∃ p, Written w m.id m.ref p ∧ w.clientPieces.bit m.id.toNat = true ∧
    OnDisk t w.disk m.id m.data p.pieceSize.toNat

/-- Every piece of the torrent is written. -/
def AllWritten (t : Torrent) (w : World) : Prop :=
  ∀ i < t.pieces.length, ∃ id ref p, id.toNat = i ∧ Written w id ref p

/-- Different bytes have different places, and the marker of a download is a file of its own. -/
structure Separate (t : Torrent) (c : Loc) : Prop where
  below : t.PiecesBelow
  distinct : t.DistinctFiles c
  marker : t.isSingleFile = false → ∀ fi ∈ t.files, 0 < fi.length →
    locate c (join t.name fi.path) ≠ locate c (MultiTorrentDestination.marker t)

structure Kept (sha1 : Bytes → Sha1) (t : Torrent) (c : Loc) (w : World) : Prop extends
    Orderly sha1 t w where
  cwd : w.disk.cwd = c
  holds : ∀ m ∈ w.marks, m.found = false → m.Holds t w
  present : (∃ m ∈ w.marks, m.found = false) →
    w.disk.fs.existsPath c t.tmpfile = true ∨ AllWritten t w
  renamed : w.disk.renamed = true → t.isSingleFile = true ∧ AllWritten t w ∧
    (w.disk.fs.content (locate c t.tmpfile) = none ∨ locate c t.tmpfile = locate c t.name)

section
variable {sha1 : Bytes → Sha1} {t : Torrent} {c : Loc} {hz : Hazards} {w w' : World}

theorem AllWritten.stays (h : AllWritten t w) (hs : Stays w w') : AllWritten t w' := by
  intro i hi
  obtain ⟨id, ref, p, hid, hw⟩ := h i hi
  obtain ⟨p', hw', -⟩ := hs.written id ref p hw
  exact ⟨id, ref, p', hid, hw'⟩

theorem Mark.Holds.stays {m : Mark} (h : m.Holds t w) (hs : Stays w w')
    (hd : ∀ n, OnDisk t w.disk m.id m.data n → OnDisk t w'.disk m.id m.data n) : m.Holds t w' := by
  obtain ⟨p, hw, hb, hdisk⟩ := h
  obtain ⟨p', hw', -, hsize⟩ := hs.written _ _ _ hw
  refine ⟨p', hw', hs.bits _ _ _ hw hb, ?_⟩
  rw [hsize]
  exact hd _ hdisk

theorem dest_not_renamed {d : Disk} (h : d.renamed = false) (id : UInt32) (i : Nat) :
    t.dest d id i = t.home d.cwd id i := by
  rw [Torrent.dest, if_neg]
  rw [h]
  exact fun hc => Bool.false_ne_true hc.2

namespace Kept

/-- A change that leaves the marks and what is on disk as they are. -/
theorem of_disk (h : Kept sha1 t c w) (ho : Orderly sha1 t w') (hs : Stays w w')
    (hm : w'.marks = w.marks) (hq : Disk.Quiet w.disk w'.disk) (hfs : w'.disk.fs = w.disk.fs) :
    Kept sha1 t c w' := by
  refine ⟨ho, hq.cwd.trans h.cwd, fun m hmem hf => ?_, fun hex => ?_, fun hr => ?_⟩
  · rw [hm] at hmem
    refine (h.holds m hmem hf).stays hs fun n hn i hi => ?_
    obtain ⟨b, l, k, hb, hl, hbyte⟩ := hn i hi
    refine ⟨b, l, k, hb, ?_, by rwa [hfs]⟩
    unfold Torrent.dest at hl ⊢
    rwa [hq.cwd, hq.renamed]
  · rw [hm] at hex
    rw [hfs]
    exact (h.present hex).imp_right fun ha => ha.stays hs
  · rw [hq.renamed] at hr
    obtain ⟨h1, h2, h3⟩ := h.renamed hr
    rw [hfs]
    exact ⟨h1, h2.stays hs, h3⟩

/-- While a piece with a hash waits, not every piece is written. -/
theorem not_allWritten (h : Kept sha1 t c w) {ref : Nat} {rest : List Nat} {p : Piece}
    (hq : w.queue = ref :: rest) (hp : w.heap[ref]? = some p)
    (hlt : p.id.toNat < t.pieces.length) : ¬AllWritten t w := by
  intro hall
  obtain ⟨hwr, hl, -⟩ := h.head_unwritten hq hp
  obtain ⟨id, k, x, hid, hw⟩ := hall _ hlt
  obtain rfl := UInt32.toNat.inj hid
  rw [hw.of_lookup hl hp] at hwr
  cases hwr

theorem not_renamed (h : Kept sha1 t c w) {ref : Nat} {rest : List Nat} {p : Piece}
    (hq : w.queue = ref :: rest) (hp : w.heap[ref]? = some p)
    (hlt : p.id.toNat < t.pieces.length) : w.disk.renamed = false := by
  simpa using fun hr => h.not_allWritten hq hp hlt (h.renamed hr).2.1

/-- An attempt to write the next piece keeps the bytes of the others. -/
theorem attempt (h : Kept sha1 t c w) (hsep : Separate t c) {ref : Nat} {rest : List Nat}
    {p : Piece} {d d' : Disk} (hq : w.queue = ref :: rest) (hp : w.heap[ref]? = some p)
    (hlt : p.id.toNat < t.pieces.length) (hd : Allocated t w.disk d) (hd' : Attempt t p d d')
    {m : Mark} (hm : m ∈ w.marks) (hf : m.found = false) {q : Piece}
    (hw : Written w m.id m.ref q) (hdisk : OnDisk t w.disk m.id m.data q.pieceSize.toNat) :
    OnDisk t d' m.id m.data q.pieceSize.toNat := by
  have hnot := h.not_allWritten hq hp hlt
  have hren := h.not_renamed hq hp hlt
  have hpres := (h.present ⟨m, hm, hf⟩).resolve_right hnot
  rw [← h.cwd] at hpres
  have hfs := hd.present hpres
  have hcwd : d.cwd = c := hd.cwd.trans h.cwd
  obtain ⟨hwr, hl, -⟩ := h.head_unwritten hq hp
  have hne : m.id ≠ p.id := by
    intro he
    rw [hw.of_lookup (he ▸ hl) hp] at hwr
    cases hwr
  have hmlt := (List.getElem?_eq_some_iff.1 (h.marks m hm)).1
  intro i hi
  obtain ⟨b, l, k, hb, hdest, hbyte⟩ := hdisk i hi
  rw [dest_not_renamed hren, h.cwd] at hdest
  refine ⟨b, l, k, hb, ?_, hd'.kept l k b (by rwa [hfs]) fun j hj hhome => ?_⟩
  · rw [dest_not_renamed (hd'.renamed.trans (hd.renamed.trans hren)), hd'.cwd, hcwd, hdest]
  · rw [hcwd] at hhome
    have hi' := Nat.lt_of_lt_of_le hi (h.sizes _ _ hw.2.1)
    have hj' := Nat.lt_of_lt_of_le hj (h.sizes _ _ hp)
    exact hne (t.home_inj hsep.distinct hsep.below hmlt hlt hi' hj' hdest hhome).1

/-- When the download is complete, the bytes move with their file. -/
theorem completed (h : Kept sha1 t c w) (hsep : Separate t c) {d' : Disk}
    (hd : Completed t w.disk d') {id : UInt32} {data : Bytes} {n : Nat}
    (hdisk : OnDisk t w.disk id data n) : OnDisk t d' id data n := by
  intro i hi
  obtain ⟨b, l, k, hb, hdest, hbyte⟩ := hdisk i hi
  have hcwd := hd.cwd.trans h.cwd
  cases hs : t.isSingleFile with
  | true =>
    obtain ⟨hrename, hren, -⟩ := hd.single hs
    obtain ⟨x, hx, hx', -, -⟩ := rename_content hrename
    rw [h.cwd] at hx hx'
    refine ⟨b, _, _, hb, by rw [Torrent.dest, if_pos ⟨hs, hren⟩], ?_⟩
    rw [hcwd, byteAt, hx', Option.bind_some]
    cases hr : w.disk.renamed with
    | true =>
      rw [Torrent.dest, if_pos ⟨hs, hr⟩, h.cwd, Option.some.injEq, Prod.mk.injEq] at hdest
      obtain ⟨rfl, rfl⟩ := hdest
      rcases (h.renamed hr).2.2 with hnone | heq
      · rw [hnone] at hx
        cases hx
      · rwa [byteAt, ← heq, hx, Option.bind_some] at hbyte
    | false =>
      rw [dest_not_renamed hr, home_single hs, h.cwd, Option.some.injEq, Prod.mk.injEq] at hdest
      obtain ⟨rfl, rfl⟩ := hdest
      rwa [byteAt, hx, Option.bind_some] at hbyte
  | false =>
    obtain ⟨hremove, hren, -⟩ := hd.multi hs
    have hr : w.disk.renamed = false := by
      by_contra hc
      have := (h.renamed (by simpa using hc)).1
      rw [hs] at this
      cases this
    rw [dest_not_renamed hr, h.cwd] at hdest
    refine ⟨b, l, k, hb, by rw [dest_not_renamed (hren.trans hr), hcwd, hdest], ?_⟩
    rw [Torrent.home, hs] at hdest
    simp only [Bool.false_eq_true, if_false, Option.map_eq_some_iff, Prod.mk.injEq] at hdest
    obtain ⟨f, hf, rfl, -⟩ := hdest
    obtain ⟨j, hj, -, hlo, hhi⟩ := Torrent.fileOf_some hf (by omega)
    have hne := hsep.marker hs f.1 (List.mem_of_getElem? hj) (by omega)
    rw [h.cwd] at hremove
    rwa [byteAt, remove_content hremove hne]

/-- The next piece could not be written. -/
theorem fail (h : Kept sha1 t c w) (hsep : Separate t c) {ref : Nat} {rest : List Nat} {p : Piece}
    {d d' : Disk} (ho : Orderly sha1 t { w with queue := rest, disk := d' })
    (hq : w.queue = ref :: rest) (hp : w.heap[ref]? = some p) (hlt : p.id.toNat < t.pieces.length)
    (hd : Allocated t w.disk d) (hd' : Attempt t p d d') :
    Kept sha1 t c { w with queue := rest, disk := d' } := by
  have hnot := h.not_allWritten hq hp hlt
  refine ⟨ho, hd'.cwd.trans (hd.cwd.trans h.cwd), fun m hm hf => ?_, fun hex => ?_, fun hr => ?_⟩
  · obtain ⟨x, hx, hb, hdisk⟩ := h.holds m hm hf
    exact ⟨x, hx, hb, h.attempt hsep hq hp hlt hd hd' hm hf hx hdisk⟩
  · have hpres := (h.present hex).resolve_right hnot
    exact .inl (existsPath_grows hd'.grows (existsPath_grows hd.grows hpres))
  · rw [hd'.renamed, hd.renamed] at hr
    exact absurd (h.renamed hr).2.1 hnot

/-- The bytes of the piece that has just been written. -/
theorem stored_onDisk (hsep : Separate t c) {p : Piece} {d d' : Disk} (hcwd : d.cwd = c)
    (hren : d'.renamed = false) (hd' : Stored t p d d') :
    OnDisk t d' p.id p.data p.pieceSize.toNat := by
  intro i hi
  have hsize := hd'.size
  obtain ⟨l, k, hhome, hbyte⟩ := hd'.bytes (hcwd ▸ hsep.distinct) i (by omega)
  have hdata := List.getElem?_eq_getElem (show i < p.data.length by omega)
  rw [hdata] at hbyte
  refine ⟨_, l, k, hdata, ?_, hbyte⟩
  rw [dest_not_renamed hren, hd'.cwd]
  exact hhome

/-- The next piece has been written. -/
theorem store (h : Kept sha1 t c w) (hsep : Separate t c) {ref : Nat} {rest : List Nat}
    {p : Piece} {d d' : Disk}
    (ho : Orderly sha1 t { w with
      queue := rest
      disk := d'
      heap := w.heap.set ref (p.setPieceWritten true)
      marks := w.marks ++ [⟨ref, p.id, p.data, false⟩] })
    (hs : Stays w { w with
      queue := rest
      disk := d'
      heap := w.heap.set ref (p.setPieceWritten true)
      marks := w.marks ++ [⟨ref, p.id, p.data, false⟩] })
    (hq : w.queue = ref :: rest) (hp : w.heap[ref]? = some p) (hlt : p.id.toNat < t.pieces.length)
    (hd : Allocated t w.disk d) (hpres : d.fs.existsPath d.cwd t.tmpfile = true)
    (hd' : Stored t p d d') : Kept sha1 t c { w with
      queue := rest
      disk := d'
      heap := w.heap.set ref (p.setPieceWritten true)
      marks := w.marks ++ [⟨ref, p.id, p.data, false⟩] } := by
  have hcwd : d.cwd = c := hd.cwd.trans h.cwd
  have hren : d'.renamed = false :=
    hd'.renamed.trans (hd.renamed.trans (h.not_renamed hq hp hlt))
  refine ⟨ho, hd'.cwd.trans hcwd, fun m hm hf => ?_, fun _ => .inl ?_, fun hr => ?_⟩
  · rcases List.mem_append.1 hm with hm | hm
    · obtain ⟨x, hx, hb, hdisk⟩ := h.holds m hm hf
      obtain ⟨x', hx', -, hsize⟩ := hs.written _ _ _ hx
      refine ⟨x', hx', hb, ?_⟩
      rw [hsize]
      exact h.attempt hsep hq hp hlt hd hd'.toAttempt hm hf hx hdisk
    · rw [List.mem_singleton.1 hm]
      obtain ⟨-, hl, hb⟩ := h.head_unwritten hq hp
      exact ⟨p.setPieceWritten true, ⟨hl, Heap.set_self hp _, rfl⟩, hb,
        stored_onDisk hsep hcwd hren hd'⟩
  · rw [hcwd] at hpres
    exact existsPath_grows hd'.grows hpres
  · rw [hren] at hr
    cases hr

/-- The download is complete. -/
theorem finish (h : Kept sha1 t c w) (hsep : Separate t c) {d' : Disk}
    (ho : Orderly sha1 t { w with disk := d' }) (hdone : t.done w = true)
    (hd : Completed t w.disk d') : Kept sha1 t c { w with disk := d' } := by
  have hall : AllWritten t w := by
    intro i hi
    obtain ⟨id, ref, p, m, hid, ha, hp, -, hwr, -⟩ := h.of_done hdone hi
    exact ⟨id, ref, p, hid, ha, hp, hwr⟩
  refine ⟨ho, hd.cwd.trans h.cwd, fun m hm hf => ?_, fun _ => .inr hall, fun hr => ?_⟩
  · obtain ⟨x, hx, hb, hdisk⟩ := h.holds m hm hf
    exact ⟨x, hx, hb, h.completed hsep hd hdisk⟩
  · cases hsingle : t.isSingleFile with
    | true =>
      obtain ⟨hrename, -, -⟩ := hd.single hsingle
      obtain ⟨x, -, -, hgone, -⟩ := rename_content hrename
      rw [h.cwd] at hgone
      refine ⟨rfl, hall, ?_⟩
      by_cases he : locate c t.tmpfile = locate c t.name
      · exact .inr he
      · exact .inl (hgone he)
    | false =>
      obtain ⟨-, hren, -⟩ := hd.multi hsingle
      change d'.renamed = true at hr
      rw [hren] at hr
      have := (h.renamed hr).1
      rw [hsingle] at this
      cases this

theorem change (h : Kept sha1 t c w) (hsep : Separate t c) (hlate : ¬hz.late)
    (hc : Change sha1 t hz w w') : Kept sha1 t c w' := by
  have ho := h.toOrderly.change hlate hc
  have hs := h.toOrderly.stays hc
  have hsame : w'.disk = w.disk → w'.marks = w.marks → Kept sha1 t c w' := fun hd hm =>
    h.of_disk ho hs hm (hd ▸ .refl w.disk) (by rw [hd])
  cases hc with
  | peers _ => exact hsame rfl rfl
  | bitfield i bf _ _ => exact hsame rfl rfl
  | sizeAll _ => exact hsame rfl rfl
  | remote i bf _ _ => exact hsame rfl rfl
  | newPiece _ _ _ => exact hsame rfl rfl
  | touch _ _ => exact hsame rfl rfl
  | block _ _ _ _ => exact hsame rfl rfl
  | lastBlock _ _ _ _ _ _ => exact hsame rfl rfl
  | skip _ _ => exact hsame rfl rfl
  | reject _ _ _ _ _ _ => exact hsame rfl rfl
  | quiet hq hfs => exact h.of_disk ho hs rfl hq hfs
  | fail hq hp hh hd hd' _ =>
    exact h.fail hsep ho hq hp (List.getElem?_eq_some_iff.1 hh).1 hd hd'
  | written hq hp hh hd hpres hd' =>
    exact h.store hsep ho hs hq hp (List.getElem?_eq_some_iff.1 hh).1 hd hpres hd'
  | complete hdone hd => exact h.finish hsep ho hdone hd

/-- A new torrent has only found pieces. -/
theorem constructed (hc : Constructed sha1 t w) : Kept sha1 t w.disk.cwd w := by
  have h : Orderly sha1 t w ∧ (∀ m ∈ w.marks, m.found = true) ∧ w.disk.renamed = false := by
    apply constructed_inv (I := fun w =>
      Orderly sha1 t w ∧ (∀ m ∈ w.marks, m.found = true) ∧ w.disk.renamed = false) _ _ hc
    · exact fun cwd fs => ⟨Orderly.start cwd fs, fun _ h => (List.not_mem_nil h).elim, rfl⟩
    · intro w w' id h hf
      refine ⟨h.1.found hf, ?_⟩
      cases hf
      refine ⟨fun m hm => ?_, h.2.2⟩
      rcases List.mem_append.1 hm with hm | hm
      · exact h.2.1 m hm
      · rw [List.mem_singleton.1 hm]
  obtain ⟨ho, hfound, hren⟩ := h
  refine ⟨ho, rfl, fun m hm hf => ?_, fun hex => ?_, fun hr => ?_⟩
  · rw [hfound m hm] at hf
    cases hf
  · obtain ⟨m, hm, hf⟩ := hex
    rw [hfound m hm] at hf
    cases hf
  · rw [hren] at hr
    cases hr

end Kept

theorem marks_mono (hc : Change sha1 t hz w w') {m : Mark} (hm : m ∈ w.marks) : m ∈ w'.marks := by
  cases hc with
  | written _ _ _ _ _ _ => exact List.mem_append_left _ hm
  | _ => exact hm

/-- No block is accepted for a piece that is complete already. -/
def Hazards.noLate : Hazards := { Hazards.all with late := False }

/-- Without late blocks, and when different bytes have different places, what the file writer has
checked and written is never lost. -/
theorem verified_kept {w0 w1 w2 : World} {as bs : List Action} (hc : Constructed sha1 t w0)
    (hsep : Separate t w0.disk.cwd) (h1 : Run (StepWithin sha1 t .noLate) w0 as w1)
    (h2 : Run (StepWithin sha1 t .noLate) w1 bs w2) {m : Mark} (hm : m ∈ w1.marks)
    (hf : m.found = false) : m ∈ w2.marks ∧ m.Holds t w2 := by
  have hk2 : Kept sha1 t w0.disk.cwd w2 :=
    chain_inv (fun _ _ h hc => h.change hsep (fun hf => hf) hc) (run_changes (h1.append h2))
      (Kept.constructed hc)
  have hm2 : m ∈ w2.marks :=
    chain_inv (I := fun w => m ∈ w.marks) (fun _ _ h hc => marks_mono hc h) (run_changes h2) hm
  exact ⟨hm2, hk2.holds m hm2 hf⟩

/-- The call is no late block, for evaluation. -/
def Action.notLate (w : World) : Action → Bool
  | .setBlock _ pieceId offset data now | .storeBlock pieceId offset data now =>
    !decide (LateBlock w pieceId offset data now)
  | _ => true

theorem hazards_notLate {a : Action} (h : a.notLate w = true) :
    (a.hazards sha1 t w).Le .noLate := by
  refine ⟨fun hl => ?_, fun _ => trivial, fun _ => trivial, fun _ => trivial, fun _ => trivial⟩
  cases a with
  | setBlock i pieceId offset data now =>
    have hnot : ¬LateBlock w pieceId offset data now := by simpa [Action.notLate] using h
    exact hnot hl
  | storeBlock pieceId offset data now =>
    have hnot : ¬LateBlock w pieceId offset data now := by simpa [Action.notLate] using h
    exact hnot hl
  | _ => exact hl

end

/-- After the byte has been written, the peer asks for it. -/
def oneByteAfter : List Action :=
  [.setInterested 0 true, .request 0 0 0 1, .writeNextPiece []]

theorem verified_kept_oneByte : ∃ t w0 w1 w2 m, Constructed Torrent.oneByteSha1 t w0 ∧
    Separate t w0.disk.cwd ∧ Run (StepWithin Torrent.oneByteSha1 t .noLate) w0 oneByteRun w1 ∧
    Run (StepWithin Torrent.oneByteSha1 t .noLate) w1 oneByteAfter w2 ∧ m ∈ w1.marks ∧
    m.found = false ∧ m ∈ w2.marks ∧ m.Holds t w2 := by
  have hcheck : checkNew Torrent.oneByteSha1 Torrent.oneByteConfig [] Torrent.oneByteFile [0] ⟨∅⟩
      (fun t w0 => decide (t.pieces.length = 1) && t.isSingleFile && t.files.isEmpty &&
        (Action.runAll Action.notLate Torrent.oneByteSha1 t oneByteRun w0).any fun w1 =>
          (Action.runAll Action.notLate Torrent.oneByteSha1 t oneByteAfter w1).isSome &&
            w1.marks.any fun m => !m.found) = true := by
    decide +kernel
  obtain ⟨t, w0, hc, h⟩ := checkNew_true hcheck
  simp only [Bool.and_eq_true, decide_eq_true_eq, Option.any_eq_true, Option.isSome_iff_exists,
    List.any_eq_true, Bool.not_eq_true'] at h
  obtain ⟨⟨⟨hlen, hsingle⟩, hfiles⟩, w1, h1, ⟨w2, h2⟩, m, hm, hf⟩ := h
  have hfiles : t.files = [] := by simpa using hfiles
  have hsep : Separate t w0.disk.cwd := by
    refine ⟨fun id hid => ?_, fun j k f g hj => ?_, fun hs => ?_⟩
    · rw [show id.toNat = 0 by omega, Nat.zero_mul]
      exact Nat.two_pow_pos 32
    · rw [hfiles] at hj
      cases hj
    · rw [hsingle] at hs
      cases hs
  have hwithin : ∀ (w : World) (a : Action) (w' : World),
      a.notLate w = true ∧ Step Torrent.oneByteSha1 t w a w' →
        StepWithin Torrent.oneByteSha1 t .noLate w a w' :=
    fun _ _ _ h => ⟨hazards_notLate h.1, h.2⟩
  have hrun1 := (run_of_runAll h1).mono hwithin
  have hrun2 := (run_of_runAll h2).mono hwithin
  exact ⟨t, w0, w1, w2, m, hc, hsep, hrun1, hrun2, hm, hf,
    verified_kept hc hsep hrun1 hrun2 hm hf⟩

/-- The one byte comes twice before it is written. -/
def oneByteTwice : List Action :=
  [.connect false, .setRemotePieces 0 ⟨[0x80]⟩, .setAmInterested 0 true, .setChoking 0 false 5,
    .setBlock 0 0 0 [120] 7, .setBlock 0 0 0 [120] 8, .writeNextPiece []]

/-- A block that comes twice makes the writer drop the piece. -/
theorem verified_lost : ¬∀ (sha1 : Bytes → Sha1) (t : Torrent) (w0 w1 w2 : World)
    (as bs : List Action) (m : Mark), Constructed sha1 t w0 → Run (Step sha1 t) w0 as w1 →
    Run (Step sha1 t) w1 bs w2 → m ∈ w1.marks → m.found = false → m.Holds t w2 := by
  intro hall
  have hcheck : checkNew Torrent.oneByteSha1 Torrent.oneByteConfig [] Torrent.oneByteFile [0] ⟨∅⟩
      (fun t w0 =>
        (Action.runAll (fun _ _ => true) Torrent.oneByteSha1 t oneByteTwice w0).any fun w1 =>
          (Action.runAll (fun _ _ => true) Torrent.oneByteSha1 t [.writeNextPiece []] w1).any
            fun w2 => w1.marks.any fun m =>
              !m.found && decide (w2.activePieces.lookup m.id = none)) = true := by
    decide +kernel
  obtain ⟨t, w0, hc, h⟩ := checkNew_true hcheck
  simp only [Bool.and_eq_true, decide_eq_true_eq, Option.any_eq_true, List.any_eq_true,
    Bool.not_eq_true'] at h
  obtain ⟨w1, h1, w2, h2, m, hm, hf, hnone⟩ := h
  have hrun1 := (run_of_runAll h1).mono fun _ _ _ h => h.2
  have hrun2 := (run_of_runAll h2).mono fun _ _ _ h => h.2
  obtain ⟨p, hw, -⟩ := hall _ t w0 w1 w2 _ _ m hc hrun1 hrun2 hm hf
  have hsome := hw.1
  rw [hnone] at hsome
  cases hsome

end Zit
