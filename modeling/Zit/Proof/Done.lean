import Zit.Lib.Heap
import Zit.Proof.Canonical
import Zit.Proof.Construct

/-!
# `done()` is sound

`Sound` ties the own bits, the active pieces, the written flags and the checked data together; every
change keeps it (`Sound.change`). So when `done()` returns true, each piece of the torrent is active
and written, and data with the right hash was checked before (`done_sound`).
-/

set_option autoImplicit false

namespace Zit

open Lib Lib.Path World

/-- What holds in every state of the torrent `t`. -/
structure Sound (sha1 : Bytes → Sha1) (t : Torrent) (w : World) : Prop where
  active : ∀ id ref, w.activePieces.lookup id = some ref → ∃ p, w.heap[ref]? = some p ∧ p.id = id
  bits : ∀ i, w.clientPieces.bit i = true →
    ∃ id ref, id.toNat = i ∧ w.activePieces.lookup id = some ref
  written : ∀ ref p, w.heap[ref]? = some p → p.pieceWritten = true →
    ∃ m ∈ w.marks, m.ref = ref ∧ m.id = p.id
  marks : ∀ m ∈ w.marks, t.pieces[m.id.toNat]? = some (sha1 m.data)

section
variable {sha1 : Bytes → Sha1} {t : Torrent} {hz : Hazards} {w w' : World}

/-! ## The heap -/

/-- A changed piece is still there under its id. -/
theorem set_active {l : List Piece} {ref k : Nat} {id : UInt32} {p p' : Piece}
    (hp : l[ref]? = some p) (hid : p'.id = p.id) (h : ∃ q, l[k]? = some q ∧ q.id = id) :
    ∃ q, (l.set ref p')[k]? = some q ∧ q.id = id := by
  obtain ⟨q, hq, hqid⟩ := h
  by_cases hk : k = ref
  · rw [hk] at hq ⊢
    refine ⟨p', Heap.set_self hp p', ?_⟩
    rw [hp] at hq
    rw [hid, Option.some.inj hq, hqid]
  · exact ⟨q, Heap.set_other hq hk p', hqid⟩

theorem append_active {l : List Piece} {k : Nat} {id : UInt32} (p : Piece)
    (h : ∃ q, l[k]? = some q ∧ q.id = id) : ∃ q, (l ++ [p])[k]? = some q ∧ q.id = id := by
  obtain ⟨q, hq, hid⟩ := h
  exact ⟨q, Heap.append_old hq [p], hid⟩

/-! ## The changes -/

namespace Sound

theorem active_id (h : Sound sha1 t w) {id : UInt32} {ref : Nat} {p : Piece}
    (ha : w.activePieces.lookup id = some ref) (hp : w.heap[ref]? = some p) : p.id = id := by
  obtain ⟨q, hq, hid⟩ := h.active id ref ha
  rw [hp] at hq
  rw [Option.some.inj hq, hid]

/-- A change of a piece that does not make it written. -/
theorem set (h : Sound sha1 t w) {ref : Nat} {p p' : Piece} (hp : w.heap[ref]? = some p)
    (hid : p'.id = p.id) (hw : p'.pieceWritten = true → p.pieceWritten = true) :
    Sound sha1 t { w with heap := w.heap.set ref p' } := by
  refine ⟨fun id k hk => set_active hp hid (h.active id k hk), h.bits, fun k q hq hwr => ?_,
    h.marks⟩
  rcases Heap.set_some hq with ⟨rfl, rfl⟩ | ⟨-, hq⟩
  · rw [hid]
    exact h.written _ p hp (hw hwr)
  · exact h.written k q hq hwr

/-- A piece that becomes active. -/
theorem insert (h : Sound sha1 t w) {id : UInt32} (p : Piece) (hid : p.id = id)
    (hnew : w.activePieces.lookup id = none) (hwr : p.pieceWritten = false) :
    Sound sha1 t { w with
      heap := w.heap ++ [p], activePieces := w.activePieces.insert id w.heap.length } := by
  refine ⟨fun k ref hk => ?_, fun i hi => ?_, fun ref q hq hwr' => ?_, h.marks⟩
  · rcases Heap.insert_some hk with ⟨rfl, rfl⟩ | ⟨-, hk⟩
    · exact ⟨p, List.getElem?_concat_length, hid⟩
    · exact append_active p (h.active k ref hk)
  · obtain ⟨k, ref, hki, hk⟩ := h.bits i hi
    exact ⟨k, ref, hki, Heap.insert_old hnew hk _⟩
  · rcases Heap.append_some hq with hq | ⟨-, rfl⟩
    · exact h.written ref q hq hwr'
    · rw [hwr] at hwr'
      cases hwr'

/-- The own bit of an active piece. -/
theorem setBit (h : Sound sha1 t w) {id : UInt32} {ref : Nat}
    (ha : w.activePieces.lookup id = some ref) :
    Sound sha1 t { w with clientPieces := w.clientPieces.set id.toNat true } := by
  refine ⟨h.active, fun i hi => ?_, h.written, h.marks⟩
  by_cases hid : i = id.toNat
  · exact ⟨id, ref, hid.symm, ha⟩
  · rw [Bitfield.bit_set_ne _ _ hid] at hi
    exact h.bits i hi

/-- A piece whose data has the right hash is marked as written. -/
theorem mark (h : Sound sha1 t w) {ref : Nat} {p : Piece} {data : Bytes} (found : Bool)
    (hp : w.heap[ref]? = some p) (hh : t.pieces[p.id.toNat]? = some (sha1 data)) :
    Sound sha1 t { w with
      heap := w.heap.set ref (p.setPieceWritten true)
      marks := w.marks ++ [⟨ref, p.id, data, found⟩] } := by
  refine ⟨fun id k hk => set_active hp rfl (h.active id k hk), h.bits, fun k q hq hwr => ?_,
    fun m hm => ?_⟩
  · rcases Heap.set_some hq with ⟨rfl, rfl⟩ | ⟨-, hq⟩
    · exact ⟨_, List.mem_append_right _ (List.mem_singleton.2 rfl), rfl, rfl⟩
    · obtain ⟨m, hm, hmk⟩ := h.written k q hq hwr
      exact ⟨m, List.mem_append_left _ hm, hmk⟩
  · rcases List.mem_append.1 hm with hm | hm
    · exact h.marks m hm
    · rw [List.mem_singleton.1 hm]
      exact hh

/-- A piece starts over and is not active any more. -/
theorem restart (h : Sound sha1 t w) {id : UInt32} {r : Nat} {q : Piece}
    (hr : w.heap[r]? = some q) : Sound sha1 t { w with
      heap := w.heap.set r q.reset
      clientPieces := w.clientPieces.set id.toNat false
      activePieces := w.activePieces.erase id } := by
  have hset : Sound sha1 t { w with heap := w.heap.set r q.reset } :=
    h.set hr rfl (fun hw => by cases hw)
  refine ⟨fun k ref hk => hset.active k ref (Heap.erase_some hk).2, fun i hi => ?_, hset.written,
    h.marks⟩
  · obtain ⟨hne, hi⟩ := Bitfield.bit_of_set _ hi
    obtain ⟨k, ref, hki, hk⟩ := h.bits i hi
    exact ⟨k, ref, hki, Heap.erase_old hk fun he => hne (by rw [← hki, he])⟩

/-- A new bitfield has no bit. -/
theorem newBits (h : Sound sha1 t w) (n : Nat) :
    Sound sha1 t { w with clientPieces := .ofCount n } := by
  refine ⟨h.active, fun i hi => ?_, h.written, h.marks⟩
  rw [Bitfield.bit_ofCount] at hi
  cases hi

/-- Peers, queue and disk do not matter. -/
theorem frame (h : Sound sha1 t w) (peers : List Peer) (queue : List Nat) (disk : Disk) :
    Sound sha1 t { w with peers, queue, disk } := ⟨h.active, h.bits, h.written, h.marks⟩

theorem start (cwd : Loc) (fs : FileSystem) : Sound sha1 t (World.start cwd fs) := by
  refine ⟨fun id ref h => ?_, fun i h => ?_, fun ref p h => ?_, fun m h => ?_⟩
  · cases h
  · cases h
  · cases h
  · cases h

theorem found (h : Sound sha1 t w) {id : UInt32} (hf : Found sha1 t id w w') :
    Sound sha1 t w' := by
  obtain ⟨hnew, hsize, hhash, -, -⟩ := hf
  rename_i size data es
  have hins := h.insert (Piece.create id size) rfl hnew rfl
  have hmark := (hins.setBit (AList.lookup_insert _)).mark true
    (List.getElem?_concat_length) hhash
  have hframe := hmark.frame w.peers w.queue { w.disk with placed := w.disk.placed ++ es }
  have hid : (Piece.create id size).id = id := rfl
  simpa only [List.set_append_right _ _ (Nat.le_refl _), Nat.sub_self, List.set_cons_zero, hid]
    using hframe

theorem change (h : Sound sha1 t w) (hc : Change sha1 t hz w w') : Sound sha1 t w' := by
  cases hc with
  | peers _ => exact h.frame _ w.queue w.disk
  | bitfield i bf _ _ =>
    have hf := h.frame (w.peers.modify i fun p => { p with remotePieces := bf }) w.queue w.disk
    split
    · exact hf.newBits _
    · exact hf
  | sizeAll _ => exact h.newBits _
  | remote i bf _ _ => exact h.frame _ w.queue w.disk
  | newPiece hnew _ _ => exact h.insert _ rfl hnew rfl
  | touch hp hsame => exact h.set hp hsame.id fun hw => by rwa [hsame.pieceWritten] at hw
  | block ha hp hb _ =>
    obtain ⟨hid, -, hwr, -⟩ := Piece.setBlock_ok hb
    exact h.set hp hid fun hw => by rwa [hwr] at hw
  | lastBlock ha hp hb _ _ _ =>
    obtain ⟨hid, -, hwr, -⟩ := Piece.setBlock_ok hb
    obtain ⟨q, hq, hqid⟩ := h.active _ _ ha
    rw [hp] at hq
    rw [hid, Option.some.inj hq, hqid]
    exact ((h.set hp hid fun hw => by rwa [hwr] at hw).setBit ha).frame w.peers _ w.disk
  | skip _ _ => exact h.frame w.peers _ w.disk
  | reject _ hp _ _ _ hr => exact (h.restart hr).frame w.peers _ w.disk
  | fail _ _ _ _ _ _ => exact h.frame w.peers _ _
  | written _ hp hh _ _ _ => exact (h.mark false hp hh).frame w.peers _ _
  | complete _ _ => exact h.frame w.peers w.queue _
  | quiet _ _ => exact h.frame w.peers w.queue _

/-- When `done()` returns true, every piece of the torrent is active and written. -/
theorem of_done (h : Sound sha1 t w) (hd : t.done w = true) {i : Nat} (hi : i < t.pieces.length) :
    ∃ id ref p m, id.toNat = i ∧ w.activePieces.lookup id = some ref ∧ w.heap[ref]? = some p ∧
      p.id = id ∧ p.pieceWritten = true ∧ m ∈ w.marks ∧ m.ref = ref ∧ m.id = id := by
  simp only [Torrent.done, Bool.and_eq_true, beq_iff_eq, Bool.not_eq_true', List.any_eq_false]
    at hd
  obtain ⟨⟨hcount, -⟩, hall⟩ := hd
  have hwritten : ∀ id ref, w.activePieces.lookup id = some ref →
      ∃ p m, w.heap[ref]? = some p ∧ p.id = id ∧ p.pieceWritten = true ∧ m ∈ w.marks ∧
        m.ref = ref ∧ m.id = id := by
    intro id ref ha
    obtain ⟨p, hp, hid⟩ := h.active id ref ha
    have hwr := hall ⟨id, ref⟩ (AList.mem_lookup_iff.1 ha)
    simp only [isWritten, hp, Option.map_some, Option.getD_some] at hwr
    have hwr' : p.pieceWritten = true := by simpa using hwr
    obtain ⟨m, hm, hmr, hmid⟩ := h.written ref p hp hwr'
    exact ⟨p, m, hp, hid, hwr', hm, hmr, hmid.trans hid⟩
  -- bits beyond the pieces belong to active pieces without a hash, which are never written
  have hlt : ∀ j, w.clientPieces.bit j = true → j < t.pieces.length := by
    intro j hj
    obtain ⟨id, ref, rfl, ha⟩ := h.bits j hj
    obtain ⟨p, m, -, -, -, hm, -, hmid⟩ := hwritten id ref ha
    rw [← hmid]
    exact (List.getElem?_eq_some_iff.1 (h.marks m hm)).1
  obtain ⟨id, ref, hid, ha⟩ := h.bits i (w.clientPieces.bit_of_count_eq hlt hcount hi)
  obtain ⟨p, m, hp, hpid, hwr, hm, hmr, hmid⟩ := hwritten id ref ha
  exact ⟨id, ref, p, m, hid, ha, hp, hpid, hwr, hm, hmr, hmid⟩

end Sound

theorem sound_run {w0 : World} {as : List Action} (hc : Constructed sha1 t w0)
    (hr : Run (Step sha1 t) w0 as w) : Sound sha1 t w := by
  have h0 : Sound sha1 t w0 := constructed_inv Sound.start (fun _ _ _ h hf => h.found hf) hc
  exact chain_inv (fun _ _ h hc => h.change hc) (run_changes (run_all hr)) h0

/-- In every state a torrent can reach in which `done()` returns true, every piece is active and
written, and the data that was checked before has the hash of the piece. -/
theorem done_sound {w0 : World} {as : List Action} (hc : Constructed sha1 t w0)
    (hr : Run (Step sha1 t) w0 as w) (hd : t.done w = true) {i : Nat} (hi : i < t.pieces.length) :
    ∃ id ref p m, id.toNat = i ∧ w.activePieces.lookup id = some ref ∧ w.heap[ref]? = some p ∧
      p.pieceWritten = true ∧ m ∈ w.marks ∧ m.ref = ref ∧ m.id = id ∧
      t.pieces[i]? = some (sha1 m.data) := by
  have hs := sound_run hc hr
  obtain ⟨id, ref, p, m, hid, ha, hp, -, hwr, hm, hmr, hmid⟩ := hs.of_done hd hi
  refine ⟨id, ref, p, m, hid, ha, hp, hwr, hm, hmr, hmid, ?_⟩
  rw [← hid, ← hmid]
  exact hs.marks m hm

end

/-- One peer sends the one byte of the torrent, which the file writer writes. -/
def oneByteRun : List Action :=
  [.connect false, .setRemotePieces 0 ⟨[0x80]⟩, .setAmInterested 0 true, .setChoking 0 false 5,
    .setBlock 0 0 0 [120] 7, .writeNextPiece []]

theorem done_sound_oneByte : ∃ t w0 w, Constructed Torrent.oneByteSha1 t w0 ∧
    Run (Step Torrent.oneByteSha1 t) w0 oneByteRun w ∧ t.done w = true ∧
    ∃ id ref p m, id.toNat = 0 ∧ w.activePieces.lookup id = some ref ∧ w.heap[ref]? = some p ∧
      p.pieceWritten = true ∧ m ∈ w.marks ∧ m.ref = ref ∧ m.id = id ∧
      t.pieces[0]? = some (Torrent.oneByteSha1 m.data) := by
  have hcheck : checkNew Torrent.oneByteSha1 Torrent.oneByteConfig [] Torrent.oneByteFile [0] ⟨∅⟩
      (fun t w0 => decide (0 < t.pieces.length) &&
        (Action.runAll (fun _ _ => true) Torrent.oneByteSha1 t oneByteRun w0).any t.done) = true := by
    decide +kernel
  obtain ⟨t, w0, hc, h⟩ := checkNew_true hcheck
  simp only [Bool.and_eq_true, decide_eq_true_eq, Option.any_eq_true] at h
  obtain ⟨hlen, w, hr, hdone⟩ := h
  have hrun := (run_of_runAll hr).mono fun _ _ _ h => h.2
  exact ⟨t, w0, w, hc, hrun, hdone, done_sound hc hrun hdone hlen⟩

end Zit
