import Zit.Proof.Done

/-!
# The queue of the file writer

`Orderly`: without late blocks the queue holds complete, active, unwritten pieces, each once, with
their own bits set (`Orderly.change`). So a written piece is never touched again: it stays active and
written and keeps its bit (`Orderly.stays`).
-/

set_option autoImplicit false

namespace Zit

open Lib Lib.Path World

/-- A piece that waits to be written. -/
def Queued (w : World) (ref : Nat) : Prop :=
  ∃ p, w.heap[ref]? = some p ∧ p.complete = true ∧ p.pieceWritten = false ∧
    w.activePieces.lookup p.id = some ref ∧ w.clientPieces.bit p.id.toNat = true

structure Orderly (sha1 : Bytes → Sha1) (t : Torrent) (w : World) : Prop extends
    Sound sha1 t w where
  sizes : ∀ (ref : Nat) (p : Piece), w.heap[ref]? = some p → p.pieceSize.toNat ≤ t.pieceLength.toNat
  complete : ∀ (ref : Nat) (p : Piece), w.heap[ref]? = some p → p.pieceWritten = true →
    p.complete = true
  nodup : w.queue.Nodup
  queued : ∀ ref ∈ w.queue, Queued w ref

/-- The piece with this id is active and written. -/
def Written (w : World) (id : UInt32) (ref : Nat) (p : Piece) : Prop :=
  w.activePieces.lookup id = some ref ∧ w.heap[ref]? = some p ∧ p.pieceWritten = true

/-- What is written stays written, and keeps its own bit. -/
structure Stays (w w' : World) : Prop where
  written : ∀ id ref p, Written w id ref p →
    ∃ p', Written w' id ref p' ∧ p'.id = p.id ∧ p'.pieceSize = p.pieceSize
  bits : ∀ id ref p, Written w id ref p → w.clientPieces.bit id.toNat = true →
    w'.clientPieces.bit id.toNat = true

section
variable {sha1 : Bytes → Sha1} {t : Torrent} {hz : Hazards} {w w' : World}

/-! ## Changes of one piece -/

theorem Queued.set_ne {k ref : Nat} (h : Queued w k) (hk : k ≠ ref) (p : Piece) :
    Queued { w with heap := w.heap.set ref p } k := by
  obtain ⟨q, hq, hrest⟩ := h
  exact ⟨q, Heap.set_other hq hk p, hrest⟩

/-- A piece in the queue changes and still waits there. -/
theorem Queued.set {k ref : Nat} (h : Queued w k) {p p' : Piece} (hp : w.heap[ref]? = some p)
    (hid : p'.id = p.id) (hc : p'.complete = p.complete)
    (hw : p'.pieceWritten = p.pieceWritten) : Queued { w with heap := w.heap.set ref p' } k := by
  by_cases hk : k = ref
  · obtain ⟨q, hq, hcomplete, hwr, hl, hb⟩ := h
    rw [hk] at hq hl ⊢
    rw [hp] at hq
    obtain rfl := Option.some.inj hq
    refine ⟨p', Heap.set_self hp p', ?_⟩
    rw [hid, hc, hw]
    exact ⟨hcomplete, hwr, hl, hb⟩
  · exact h.set_ne hk p'

/-- Another piece becomes active. -/
theorem Queued.append {k : Nat} (h : Queued w k) {id : UInt32}
    (hnew : w.activePieces.lookup id = none) (q : Piece) : Queued { w with
      heap := w.heap ++ [q], activePieces := w.activePieces.insert id w.heap.length } k := by
  obtain ⟨p, hp, hcomplete, hwr, hl, hb⟩ := h
  exact ⟨p, Heap.append_old hp [q], hcomplete, hwr, Heap.insert_old hnew hl _, hb⟩

theorem Queued.setBit {k : Nat} (h : Queued w k) (i : Nat) :
    Queued { w with clientPieces := w.clientPieces.set i true } k := by
  obtain ⟨p, hp, hcomplete, hwr, hl, hb⟩ := h
  exact ⟨p, hp, hcomplete, hwr, hl, Bitfield.bit_set_true _ hb i⟩

theorem Written.append {id : UInt32} {ref : Nat} {p : Piece} (h : Written w id ref p) {k : UInt32}
    (hnew : w.activePieces.lookup k = none) (q : Piece) :
    Written { w with
      heap := w.heap ++ [q], activePieces := w.activePieces.insert k w.heap.length } id ref p :=
  ⟨Heap.insert_old hnew h.1 _, Heap.append_old h.2.1 [q], h.2.2⟩

/-- What is under the id of a written piece is written. -/
theorem Written.of_lookup {id : UInt32} {k ref : Nat} {p q : Piece} (h : Written w id k q)
    (hl : w.activePieces.lookup id = some ref) (hp : w.heap[ref]? = some p) :
    p.pieceWritten = true := by
  have hk : k = ref := Option.some.inj (h.1.symm.trans hl)
  have hq := h.2.1
  rw [hk, hp, Option.some.injEq] at hq
  rw [hq]
  exact h.2.2

namespace Stays

theorem of_eq (ha : w'.activePieces = w.activePieces) (hh : w'.heap = w.heap)
    (hc : w'.clientPieces = w.clientPieces) : Stays w w' := by
  refine ⟨fun id ref p h => ⟨p, ?_, rfl, rfl⟩, fun _ _ _ _ hb => by rwa [hc]⟩
  unfold Written
  rwa [ha, hh]

theorem refl (w : World) : Stays w w := of_eq rfl rfl rfl

theorem trans {w'' : World} (h : Stays w w') (h' : Stays w' w'') : Stays w w'' := by
  refine ⟨fun id ref p hw => ?_, fun id ref p hw hb => ?_⟩
  · obtain ⟨p1, h1, hid1, hs1⟩ := h.written id ref p hw
    obtain ⟨p2, h2, hid2, hs2⟩ := h'.written id ref p1 h1
    exact ⟨p2, h2, hid2.trans hid1, hs2.trans hs1⟩
  · obtain ⟨p1, h1, -⟩ := h.written id ref p hw
    exact h'.bits id ref p1 h1 (h.bits id ref p hw hb)

/-- One piece changes, and is not less written than before. -/
theorem set {ref : Nat} {p p' : Piece} (hp : w.heap[ref]? = some p) (hid : p'.id = p.id)
    (hsize : p'.pieceSize = p.pieceSize)
    (hw : p.pieceWritten = true → p'.pieceWritten = true) (hh : w'.heap = w.heap.set ref p')
    (ha : w'.activePieces = w.activePieces)
    (hc : ∀ i, w.clientPieces.bit i = true → w'.clientPieces.bit i = true) : Stays w w' := by
  refine ⟨fun id k q h => ?_, fun _ _ _ _ hb => hc _ hb⟩
  obtain ⟨hl, hq, hwr⟩ := h
  unfold Written
  rw [ha, hh]
  by_cases hk : k = ref
  · rw [hk] at hl hq ⊢
    rw [hp] at hq
    obtain rfl := Option.some.inj hq
    exact ⟨p', ⟨hl, Heap.set_self hp p', hw hwr⟩, hid, hsize⟩
  · exact ⟨q, ⟨hl, Heap.set_other hq hk p', hwr⟩, rfl, rfl⟩

end Stays

/-- A bit is in a bitfield that has a size. -/
theorem bit_size {bf : Bitfield} {i : Nat} (h : bf.bit i = true) : bf.size ≠ 0 := by
  have := bf.lt_size_of_bit h
  omega

/-- No change touches what is written, if the first piece of the queue is active and unwritten. -/
theorem Change.stays (hc : Change sha1 t hz w w')
    (hhead : ∀ ref rest (p : Piece), w.queue = ref :: rest → w.heap[ref]? = some p →
      p.pieceWritten = false ∧ w.activePieces.lookup p.id = some ref) : Stays w w' := by
  cases hc with
  | peers _ => exact .of_eq rfl rfl rfl
  | bitfield i bf _ _ =>
    refine ⟨fun id ref p hw => ⟨p, hw, rfl, rfl⟩, fun id ref p _ hb => ?_⟩
    rwa [if_neg (bit_size hb)]
  | sizeAll h0 =>
    refine ⟨fun id ref p hw => ⟨p, hw, rfl, rfl⟩, fun id ref p _ hb => ?_⟩
    exact absurd h0 (bit_size hb)
  | remote i bf _ _ => exact .of_eq rfl rfl rfl
  | newPiece hnew _ _ =>
    exact ⟨fun id ref p hw => ⟨p, hw.append hnew _, rfl, rfl⟩, fun _ _ _ _ hb => hb⟩
  | touch hp hsame =>
    exact .set hp hsame.id hsame.pieceSize (fun hw => by rwa [hsame.pieceWritten]) rfl rfl
      fun _ hb => hb
  | block ha hp hb _ =>
    obtain ⟨hid, hsize, hwr, -⟩ := Piece.setBlock_ok hb
    exact .set hp hid hsize (fun hw => by rwa [hwr]) rfl rfl fun _ hb => hb
  | lastBlock ha hp hb _ _ _ =>
    obtain ⟨hid, hsize, hwr, -⟩ := Piece.setBlock_ok hb
    exact .set hp hid hsize (fun hw => by rwa [hwr]) rfl rfl fun i hi =>
      Bitfield.bit_set_true _ hi _
  | skip _ _ => exact .of_eq rfl rfl rfl
  | @reject ref r rest p q hash hq hp _ _ ha hr =>
    obtain ⟨hwr, hl⟩ := hhead ref rest p hq hp
    have hrref : r = ref := Option.some.inj (ha.symm.trans hl)
    have hne : ∀ id k x, Written w id k x → id ≠ p.id := by
      intro id k x hw he
      have hw' : Written w p.id k x := he ▸ hw
      rw [hw'.of_lookup hl hp] at hwr
      cases hwr
    refine ⟨fun id k x hw => ⟨x, ⟨?_, ?_, hw.2.2⟩, rfl, rfl⟩, fun id k x hw hb => ?_⟩
    · exact Heap.erase_old hw.1 (hne id k x hw)
    · refine Heap.set_other hw.2.1 (fun he => ?_) _
      have hx := hw.2.1
      rw [he, hrref, hp, Option.some.injEq] at hx
      rw [hx, hw.2.2] at hwr
      cases hwr
    · rwa [Bitfield.bit_set_ne _ _ fun he => hne id k x hw (UInt32.toNat.inj he)]
  | fail _ _ _ _ _ _ => exact .of_eq rfl rfl rfl
  | @written ref rest p d d' _ hp _ _ _ _ =>
    refine .set hp ?_ ?_ ?_ rfl rfl fun _ hb => hb
    · rfl
    · rfl
    · exact fun _ => rfl
  | complete _ _ => exact .of_eq rfl rfl rfl
  | quiet _ _ => exact .of_eq rfl rfl rfl

namespace Orderly

theorem queue_nil (h : Orderly sha1 t w) (hs : w.clientPieces.size = 0) : w.queue = [] := by
  rw [List.eq_nil_iff_forall_not_mem]
  intro ref href
  obtain ⟨_, -, -, -, -, hb⟩ := h.queued ref href
  exact bit_size hb hs

/-- The first piece of the queue. -/
theorem head (h : Orderly sha1 t w) {ref : Nat} {rest : List Nat} (hq : w.queue = ref :: rest) :
    ref ∉ rest ∧ rest.Nodup ∧ (∀ k ∈ rest, Queued w k) ∧ Queued w ref := by
  have hn := h.nodup
  have hall := h.queued
  rw [hq] at hn hall
  obtain ⟨h1, h2⟩ := List.nodup_cons.1 hn
  exact ⟨h1, h2, fun k hk => hall k (List.mem_cons_of_mem _ hk), hall ref List.mem_cons_self⟩

theorem start (cwd : Loc) (fs : FileSystem) : Orderly sha1 t (World.start cwd fs) := by
  refine ⟨Sound.start cwd fs, fun _ _ h => ?_, fun _ _ h => ?_, List.nodup_nil, fun _ h => ?_⟩
  · cases h
  · cases h
  · cases h

theorem found (h : Orderly sha1 t w) {id : UInt32} (hf : Found sha1 t id w w') :
    Orderly sha1 t w' := by
  have hs := h.toSound.found hf
  obtain ⟨hnew, hsize, -, -, -⟩ := hf
  rename_i size data es
  refine ⟨hs, Heap.forall_append h.sizes (t.pieceLengthAt_le hsize),
    Heap.forall_append h.complete fun _ => Piece.setPieceWritten_complete true, h.nodup,
    fun k hk => ?_⟩
  exact ((h.queued k hk).append hnew _).setBit id.toNat

/-- A piece that changes and is not in the queue. -/
theorem setPiece (h : Orderly sha1 t w) {ref : Nat} {p' : Piece}
    (hs : Sound sha1 t { w with heap := w.heap.set ref p' })
    (hsize : p'.pieceSize.toNat ≤ t.pieceLength.toNat)
    (hcomplete : p'.pieceWritten = true → p'.complete = true) (hnot : ref ∉ w.queue) :
    Orderly sha1 t { w with heap := w.heap.set ref p' } :=
  ⟨hs, Heap.forall_set h.sizes hsize, Heap.forall_set h.complete hcomplete, h.nodup, fun k hk =>
    (h.queued k hk).set_ne (ne_of_mem_of_not_mem hk hnot) p'⟩

/-- A piece that is not complete is not in the queue. -/
theorem not_mem_queue (h : Orderly sha1 t w) {ref : Nat} {p : Piece} (hp : w.heap[ref]? = some p)
    (hc : p.complete = false) : ref ∉ w.queue := by
  intro hmem
  obtain ⟨q, hq, hcomplete, -⟩ := h.queued ref hmem
  rw [hp] at hq
  rw [← Option.some.inj hq, hc] at hcomplete
  cases hcomplete

/-- A block does not come for a complete piece, without late ones. -/
theorem incomplete (hlate : ¬hz.late) {p : Piece}
    (hagain : p.complete = true → hz.late) : p.complete = false := by
  simpa using fun hc => hlate (hagain hc)

/-- The own bit of a piece that is put into the queue. -/
theorem enqueue (h : Orderly sha1 t w) {id : UInt32} {ref : Nat} {p p' : Piece}
    (hs : Sound sha1 t { w with
      heap := w.heap.set ref p'
      clientPieces := w.clientPieces.set p'.id.toNat true
      queue := w.queue ++ [ref] })
    (ha : w.activePieces.lookup id = some ref) (hp : w.heap[ref]? = some p)
    (hc : p.complete = false) (hid : p'.id = p.id) (hsize : p'.pieceSize = p.pieceSize)
    (hwr : p'.pieceWritten = p.pieceWritten) (hcomplete : p'.complete = true) :
    Orderly sha1 t { w with
      heap := w.heap.set ref p'
      clientPieces := w.clientPieces.set p'.id.toNat true
      queue := w.queue ++ [ref] } := by
  have hnot := h.not_mem_queue hp hc
  have hunwritten : p.pieceWritten = false := by
    by_contra hw
    rw [h.complete _ _ hp (by simpa using hw)] at hc
    cases hc
  refine ⟨hs, Heap.forall_set h.sizes (by rw [hsize]; exact h.sizes _ _ hp),
    Heap.forall_set h.complete fun _ => hcomplete, ?_, fun k hk => ?_⟩
  · exact List.nodup_append.2 ⟨h.nodup, List.nodup_singleton ref, fun a ha b hb he =>
      hnot (by rw [← List.mem_singleton.1 hb, ← he]; exact ha)⟩
  · rcases List.mem_append.1 hk with hk | hk
    · exact ((h.queued k hk).set_ne (ne_of_mem_of_not_mem hk hnot) p').setBit _
    · rw [List.mem_singleton.1 hk]
      refine ⟨p', Heap.set_self hp p', hcomplete, hwr.trans hunwritten, ?_,
        Bitfield.bit_set_self _ _ _⟩
      rw [hid, h.toSound.active_id ha hp]
      exact ha

/-- The first piece of the queue starts over; the others are other pieces. -/
theorem reject (h : Orderly sha1 t w) {ref r : Nat} {rest : List Nat} {p q : Piece}
    (hs : Sound sha1 t { w with
      queue := rest
      heap := w.heap.set r q.reset
      clientPieces := w.clientPieces.set p.id.toNat false
      activePieces := w.activePieces.erase p.id })
    (hq : w.queue = ref :: rest) (hp : w.heap[ref]? = some p)
    (ha : w.activePieces.lookup p.id = some r) (hr : w.heap[r]? = some q) :
    Orderly sha1 t { w with
      queue := rest
      heap := w.heap.set r q.reset
      clientPieces := w.clientPieces.set p.id.toNat false
      activePieces := w.activePieces.erase p.id } := by
  obtain ⟨hnot, hn, hrest, p0, hp0, -, -, hl0, -⟩ := h.head hq
  rw [hp] at hp0
  obtain rfl := Option.some.inj hp0
  have hrref : r = ref := Option.some.inj (ha.symm.trans hl0)
  refine ⟨hs, Heap.forall_set h.sizes (h.sizes r q hr),
    Heap.forall_set h.complete (fun hw => by cases hw), hn, fun k hk => ?_⟩
  have hne : k ≠ ref := ne_of_mem_of_not_mem hk hnot
  obtain ⟨x, hx, hcx, hwx, hlx, hbx⟩ := hrest k hk
  have hid : x.id ≠ p.id := by
    intro he
    rw [he] at hlx
    exact hne (Option.some.inj (hlx.symm.trans hl0))
  refine ⟨x, Heap.set_other hx (by rwa [hrref]) _, hcx, hwx, Heap.erase_old hlx hid, ?_⟩
  rw [Bitfield.bit_set_ne _ _ fun he => hid (UInt32.toNat.inj he)]
  exact hbx

theorem change (h : Orderly sha1 t w) (hlate : ¬hz.late) (hc : Change sha1 t hz w w') :
    Orderly sha1 t w' := by
  have hs := h.toSound.change hc
  cases hc with
  | peers _ => exact ⟨hs, h.sizes, h.complete, h.nodup, h.queued⟩
  | bitfield i bf _ _ =>
    refine ⟨hs, h.sizes, h.complete, h.nodup, fun k hk => ?_⟩
    obtain ⟨p, hp, hcomplete, hwr, hl, hb⟩ := h.queued k hk
    refine ⟨p, hp, hcomplete, hwr, hl, ?_⟩
    rwa [if_neg (bit_size hb)]
  | sizeAll h0 =>
    refine ⟨hs, h.sizes, h.complete, h.nodup, fun k hk => ?_⟩
    rw [h.queue_nil h0] at hk
    cases hk
  | remote i bf _ _ => exact ⟨hs, h.sizes, h.complete, h.nodup, h.queued⟩
  | newPiece hnew hsize _ =>
    exact ⟨hs, Heap.forall_append h.sizes (t.pieceLengthAt_le hsize),
      Heap.forall_append h.complete (fun hw => by cases hw), h.nodup, fun k hk =>
      (h.queued k hk).append hnew _⟩
  | @touch ref p p' hp hsame =>
    refine ⟨hs, Heap.forall_set h.sizes (by rw [hsame.pieceSize]; exact h.sizes _ _ hp),
      Heap.forall_set h.complete fun hw => ?_, h.nodup, fun k hk => ?_⟩
    · rw [hsame.complete]
      rw [hsame.pieceWritten] at hw
      exact h.complete _ _ hp hw
    · exact (h.queued k hk).set hp hsame.id hsame.complete hsame.pieceWritten
  | @block id offset ref p p' data now ha hp hb hagain =>
    obtain ⟨-, hsize, hwr, -⟩ := Piece.setBlock_ok hb
    have hc := incomplete hlate hagain
    refine h.setPiece hs (by rw [hsize]; exact h.sizes _ _ hp) (fun hw => ?_)
      (h.not_mem_queue hp hc)
    rw [hwr] at hw
    rw [h.complete _ _ hp hw] at hc
    cases hc
  | @lastBlock id offset ref p p' data now ha hp hb hagain _ _ =>
    obtain ⟨hid, hsize, hwr, hcomplete⟩ := Piece.setBlock_ok hb
    exact h.enqueue hs ha hp (incomplete hlate hagain) hid hsize hwr hcomplete
  | skip hq _ =>
    obtain ⟨-, hn, hrest, -⟩ := h.head hq
    exact ⟨hs, h.sizes, h.complete, hn, hrest⟩
  | reject hq hp _ _ ha hr => exact h.reject hs hq hp ha hr
  | fail hq _ _ _ _ _ =>
    obtain ⟨-, hn, hrest, -⟩ := h.head hq
    exact ⟨hs, h.sizes, h.complete, hn, hrest⟩
  | @written ref rest p d d' hq hp _ _ _ _ =>
    obtain ⟨hnot, hn, hrest, -⟩ := h.head hq
    have hsize : (p.setPieceWritten true).pieceSize.toNat ≤ t.pieceLength.toNat := h.sizes ref p hp
    exact ⟨hs, Heap.forall_set h.sizes hsize,
      Heap.forall_set h.complete fun _ => Piece.setPieceWritten_complete true, hn, fun k hk =>
      (hrest k hk).set_ne (ne_of_mem_of_not_mem hk hnot) _⟩
  | complete _ _ => exact ⟨hs, h.sizes, h.complete, h.nodup, h.queued⟩
  | quiet _ _ => exact ⟨hs, h.sizes, h.complete, h.nodup, h.queued⟩

/-- The first piece of the queue is not written. -/
theorem head_unwritten (h : Orderly sha1 t w) {ref : Nat} {rest : List Nat} {p : Piece}
    (hq : w.queue = ref :: rest) (hp : w.heap[ref]? = some p) :
    p.pieceWritten = false ∧ w.activePieces.lookup p.id = some ref ∧
      w.clientPieces.bit p.id.toNat = true := by
  obtain ⟨-, -, -, q, hq, -, hwr, hl, hb⟩ := h.head hq
  rw [hp] at hq
  obtain rfl := Option.some.inj hq
  exact ⟨hwr, hl, hb⟩

/-- No change touches what is written. -/
theorem stays (h : Orderly sha1 t w) (hc : Change sha1 t hz w w') : Stays w w' :=
  hc.stays fun _ _ _ hq hp => ⟨(h.head_unwritten hq hp).1, (h.head_unwritten hq hp).2.1⟩

end Orderly

end

end Zit
