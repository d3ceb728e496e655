import Zit.Proof.Done

/-!
# No piece is lost in the writer

`NoneLost`: a piece with its own bit is written or waits in the queue, and an active piece without it
is not complete, so that it can still be downloaded. Every change keeps it but a write that fails
(`NoneLost.change`): the piece has left the queue then and keeps its bit (`none_lost`,
`failed_lost`).
-/

set_option autoImplicit false

namespace Zit

open Lib Lib.Path World

/-- The piece at the index is active, and written or waiting to be written. -/
def Safe (w : World) (i : Nat) : Prop :=
  ∃ id ref p, id.toNat = i ∧ w.activePieces.lookup id = some ref ∧ w.heap[ref]? = some p ∧
    (p.pieceWritten = true ∨ ref ∈ w.queue)

structure NoneLost (w : World) : Prop where
  kept : ∀ i, w.clientPieces.bit i = true → Safe w i
  again : ∀ id ref p, w.activePieces.lookup id = some ref → w.heap[ref]? = some p →
    w.clientPieces.bit id.toNat = false → p.complete = false

/-- A piece in the queue that is active has its own bit. -/
def QueueBits (w : World) : Prop :=
  ∀ ref ∈ w.queue, ∃ p, w.heap[ref]? = some p ∧
    (w.activePieces.lookup p.id = some ref → w.clientPieces.bit p.id.toNat = true)

/-- No piece that is not known to be wrong fails to be written. -/
def Hazards.noFail : Hazards := { Hazards.all with fail := False }

theorem Torrent.pieceLengthAt_ne {t : Torrent} {id size : UInt32} (hp : t.pieceLength ≠ 0)
    (h : t.pieceLengthAt id = .ok size) : size ≠ 0 := by
  unfold Torrent.pieceLengthAt at h
  split at h
  · obtain ⟨length, -, h⟩ := bind_eq_ok.1 h
    obtain ⟨mod, -, h⟩ := bind_eq_ok.1 h
    rw [← pure_eq_ok.1 h]
    split
    · assumption
    · exact hp
  · rwa [← Except.ok.inj h]

section
variable {sha1 : Bytes → Sha1} {t : Torrent} {hz : Hazards} {w w' : World}

/-- The three facts together, on a state that is `Sound`. -/
structure Tracked (sha1 : Bytes → Sha1) (t : Torrent) (w : World) : Prop extends
    Sound sha1 t w, NoneLost w where
  queueBits : QueueBits w

theorem Safe.set {i ref : Nat} {p p' : Piece} (h : Safe w i) (hp : w.heap[ref]? = some p)
    (hw : p.pieceWritten = true → p'.pieceWritten = true) :
    Safe { w with heap := w.heap.set ref p' } i := by
  obtain ⟨id, k, q, hid, ha, hq, hsafe⟩ := h
  by_cases hk : k = ref
  · rw [hk] at ha hq hsafe
    rw [hp] at hq
    obtain rfl := Option.some.inj hq
    exact ⟨id, ref, p', hid, ha, Heap.set_self hp p', hsafe.imp_left hw⟩
  · exact ⟨id, k, q, hid, ha, Heap.set_other hq hk p', hsafe⟩

theorem Safe.queue {i : Nat} (h : Safe w i) {queue : List Nat}
    (hq : ∀ ref ∈ w.queue, ref ∈ queue) : Safe { w with queue } i := by
  obtain ⟨id, ref, p, hid, ha, hp, hsafe⟩ := h
  exact ⟨id, ref, p, hid, ha, hp, hsafe.imp_right (hq ref)⟩

/-- A piece in the queue is still there under its id after one has changed. -/
theorem QueueBits.set (h : QueueBits w) {ref : Nat} {p p' : Piece} (hp : w.heap[ref]? = some p)
    (hid : p'.id = p.id) : QueueBits { w with heap := w.heap.set ref p' } := by
  intro k hk
  obtain ⟨q, hq, hb⟩ := h k hk
  by_cases he : k = ref
  · rw [he] at hq hb ⊢
    rw [hp] at hq
    obtain rfl := Option.some.inj hq
    refine ⟨p', Heap.set_self hp p', ?_⟩
    rwa [hid]
  · exact ⟨q, Heap.set_other hq he p', hb⟩

namespace Tracked

theorem start (cwd : Loc) (fs : FileSystem) : Tracked sha1 t (World.start cwd fs) := by
  refine ⟨Sound.start cwd fs, ⟨fun _ h => ?_, fun _ _ _ h => ?_⟩, fun _ h => ?_⟩
  · cases h
  · cases h
  · cases h

/-- An active piece is not a new cell. -/
theorem again_append (h : Tracked sha1 t w) {id : UInt32} {r : Nat}
    (ha : w.activePieces.lookup id = some r) (p : Piece) {q : Piece}
    (hq : (w.heap ++ [p])[r]? = some q) (hb : w.clientPieces.bit id.toNat = false) :
    q.complete = false := by
  obtain ⟨q', hq', -⟩ := h.active id r ha
  have hold := Heap.append_old hq' [p]
  rw [hq] at hold
  rw [Option.some.inj hold]
  exact h.again id r q' ha hq' hb

/-- A new active piece. -/
theorem insert (h : Tracked sha1 t w) {id : UInt32} (p : Piece) (hid : p.id = id)
    (hnew : w.activePieces.lookup id = none) (hwr : p.pieceWritten = false)
    (hc : p.complete = false) : Tracked sha1 t { w with
      heap := w.heap ++ [p], activePieces := w.activePieces.insert id w.heap.length } := by
  have hs := h.toSound.insert p hid hnew hwr
  refine ⟨hs, ⟨fun i hi => ?_, fun k r q hk hq hb => ?_⟩, fun r hr => ?_⟩
  · obtain ⟨k, r, q, hki, hk, hq, hsafe⟩ := h.kept i hi
    exact ⟨k, r, q, hki, Heap.insert_old hnew hk _, Heap.append_old hq [p], hsafe⟩
  · rcases Heap.insert_some hk with ⟨rfl, rfl⟩ | ⟨-, hk⟩
    · rw [List.getElem?_concat_length, Option.some.injEq] at hq
      rwa [← hq]
    · exact h.again_append hk p hq hb
  · obtain ⟨q, hq, hb⟩ := h.queueBits r hr
    refine ⟨q, Heap.append_old hq [p], fun hl => hb ?_⟩
    rcases Heap.insert_some hl with ⟨-, hr⟩ | ⟨-, hl⟩
    · have := (List.getElem?_eq_some_iff.1 hq).1
      omega
    · exact hl

/-- A piece that changes without its own bit, and is not more complete than before. -/
theorem setPiece (h : Tracked sha1 t w) {ref : Nat} {p p' : Piece} (hp : w.heap[ref]? = some p)
    (hid : p'.id = p.id) (hw : p'.pieceWritten = p.pieceWritten)
    (hc : p'.complete = true → p.complete = true) :
    Tracked sha1 t { w with heap := w.heap.set ref p' } := by
  refine ⟨h.toSound.set hp hid fun hw' => by rwa [← hw], ⟨fun i hi => ?_, fun k r q hk hq hb => ?_⟩,
    h.queueBits.set hp hid⟩
  · exact (h.kept i hi).set hp fun hw' => by rwa [hw]
  · rcases Heap.set_some hq with ⟨rfl, rfl⟩ | ⟨-, hq⟩
    · have hold := h.again k _ p hk hp hb
      by_contra hnot
      rw [hc (by simpa using hnot)] at hold
      cases hold
    · exact h.again k r q hk hq hb

/-- A bitfield without bits, in the place of one without a size. -/
theorem newBits (h : Tracked sha1 t w) (h0 : w.clientPieces.size = 0) (n : Nat) :
    Tracked sha1 t { w with clientPieces := .ofCount n } := by
  refine ⟨h.toSound.newBits n, ⟨fun i hi => ?_, fun k r q hk hq _ => ?_⟩, fun r hr => ?_⟩
  · rw [Bitfield.bit_ofCount] at hi
    cases hi
  · exact h.again k r q hk hq (Bitfield.bit_of_size_le _ (by omega))
  · obtain ⟨q, hq, hb⟩ := h.queueBits r hr
    refine ⟨q, hq, fun hl => ?_⟩
    have := Bitfield.lt_size_of_bit _ (hb hl)
    omega

/-- The own bit of a piece that is put into the queue. -/
theorem enqueue (h : Tracked sha1 t w) {id : UInt32} {ref : Nat} {p p' : Piece}
    (ha : w.activePieces.lookup id = some ref) (hp : w.heap[ref]? = some p) (hid : p'.id = p.id)
    (hw : p'.pieceWritten = p.pieceWritten) : Tracked sha1 t { w with
      heap := w.heap.set ref p'
      clientPieces := w.clientPieces.set p'.id.toNat true
      queue := w.queue ++ [ref] } := by
  have hpid : p.id = id := h.toSound.active_id ha hp
  have hget : (w.heap.set ref p')[ref]? = some p' := Heap.set_self hp p'
  have hs : Sound sha1 t { w with
      heap := w.heap.set ref p'
      clientPieces := w.clientPieces.set p'.id.toNat true
      queue := w.queue ++ [ref] } := by
    rw [hid, hpid]
    exact ((h.toSound.set hp hid fun hw' => by rwa [← hw]).setBit ha).frame w.peers _ w.disk
  refine ⟨hs, ⟨fun i hi => ?_, fun k r q hk hq hb => ?_⟩, fun r hr => ?_⟩
  · by_cases hi' : i = p'.id.toNat
    · refine ⟨id, ref, p', ?_, ha, hget, .inr (List.mem_append_right _ (List.mem_singleton.2 rfl))⟩
      rw [hi', hid, hpid]
    · rw [Bitfield.bit_set_ne _ _ hi'] at hi
      exact ((h.kept i hi).set hp fun hw' => by rwa [hw]).queue fun r hr =>
        List.mem_append_left _ hr
  · obtain ⟨hne, hb⟩ := Bitfield.bit_of_set _ hb
    rcases Heap.set_some hq with ⟨rfl, rfl⟩ | ⟨-, hq⟩
    · have hkid := hs.active_id hk hget
      exact absurd (by rw [hkid]) hne
    · exact h.again k r q hk hq hb
  · rcases List.mem_append.1 hr with hr | hr
    · obtain ⟨q, hq, hb⟩ := h.queueBits.set hp hid r hr
      exact ⟨q, hq, fun hl => Bitfield.bit_set_true _ (hb hl) _⟩
    · rw [List.mem_singleton.1 hr]
      exact ⟨p', hget, fun _ => Bitfield.bit_set_self _ _ _⟩

theorem found (h : Tracked sha1 t w) {id : UInt32} (hf : Found sha1 t id w w')
    (hq : w.queue = []) : Tracked sha1 t w' := by
  have hs := h.toSound.found hf
  cases hf with
  | @intro size data es hnew hsize hhash _ _ =>
  refine ⟨hs, ⟨fun i hi => ?_, fun k r q hk hq hb => ?_⟩, fun r hr => ?_⟩
  · by_cases hi' : i = id.toNat
    · exact ⟨id, w.heap.length, _, hi'.symm, AList.lookup_insert _, List.getElem?_concat_length,
        .inl rfl⟩
    · rw [Bitfield.bit_set_ne _ _ hi'] at hi
      obtain ⟨k, r, q, hki, hk, hq, hsafe⟩ := h.kept i hi
      exact ⟨k, r, q, hki, Heap.insert_old hnew hk _, Heap.append_old hq _, hsafe⟩
  · obtain ⟨hne, hb⟩ := Bitfield.bit_of_set _ hb
    rcases Heap.insert_some hk with ⟨rfl, -⟩ | ⟨-, hk⟩
    · exact absurd rfl hne
    · exact h.again_append hk _ hq hb
  · rw [show ({ w with
        heap := w.heap ++ [(Piece.create id size).setPieceWritten true]
        clientPieces := w.clientPieces.set id.toNat true
        activePieces := w.activePieces.insert id w.heap.length
        disk := { w.disk with placed := w.disk.placed ++ es }
        marks := w.marks ++ [⟨w.heap.length, id, data, true⟩] } : World).queue = w.queue from rfl,
      hq] at hr
    cases hr

/-- The piece that starts over has no bit any more, and the others are other pieces. -/
theorem reject (h : Tracked sha1 t w) {ref r : Nat} {rest : List Nat} {p q : Piece}
    (hs : Sound sha1 t { w with
      queue := rest
      heap := w.heap.set r q.reset
      clientPieces := w.clientPieces.set p.id.toNat false
      activePieces := w.activePieces.erase p.id })
    (hq : w.queue = ref :: rest) (hp : w.heap[ref]? = some p)
    (ha : w.activePieces.lookup p.id = some r) (hr : w.heap[r]? = some q) :
    Tracked sha1 t { w with
      queue := rest
      heap := w.heap.set r q.reset
      clientPieces := w.clientPieces.set p.id.toNat false
      activePieces := w.activePieces.erase p.id } := by
  have hqid : q.id = p.id := h.toSound.active_id ha hr
  refine ⟨hs, ⟨fun i hi => ?_, fun k x y hk hy hb => ?_⟩, fun x hx => ?_⟩
  · obtain ⟨hne, hi⟩ := Bitfield.bit_of_set _ hi
    obtain ⟨id, x, y, hid, hx, hy, hsafe⟩ := h.kept i hi
    have hidne : id ≠ p.id := fun he => hne (by rw [← hid, he])
    have hyid := h.toSound.active_id hx hy
    have hxr : x ≠ r := by
      intro he
      rw [he, hr] at hy
      obtain rfl := Option.some.inj hy
      exact hidne (hyid.symm.trans hqid)
    refine ⟨id, x, y, hid, Heap.erase_old hx hidne, Heap.set_other hy hxr _,
      hsafe.imp_right fun hmem => ?_⟩
    rw [hq] at hmem
    refine (List.mem_cons.1 hmem).resolve_left fun he => ?_
    rw [he, hp] at hy
    exact hidne (by rw [← hyid, Option.some.inj hy])
  · obtain ⟨hkne, hl⟩ := Heap.erase_some hk
    rw [Bitfield.bit_set_ne _ _ fun he => hkne (UInt32.toNat.inj he)] at hb
    rcases Heap.set_some hy with ⟨rfl, -⟩ | ⟨-, hy⟩
    · exact absurd (by rw [← h.toSound.active_id hl hr, hqid]) hkne
    · exact h.again k x y hl hy hb
  · have hbits : QueueBits { w with heap := w.heap.set r q.reset } := h.queueBits.set hr rfl
    obtain ⟨y, hy, hb⟩ := hbits x (by rw [hq]; exact List.mem_cons_of_mem _ hx)
    refine ⟨y, hy, fun hl => ?_⟩
    obtain ⟨hyne, hl⟩ := Heap.erase_some hl
    rw [Bitfield.bit_set_ne _ _ fun he => hyne (UInt32.toNat.inj he)]
    exact hb hl

/-- The first piece of the queue is written. -/
theorem dequeue (h : Tracked sha1 t w) {ref : Nat} {rest : List Nat} {p : Piece} {d : Disk}
    {marks : List Mark}
    (hs : Sound sha1 t { w with
      queue := rest, heap := w.heap.set ref (p.setPieceWritten true), disk := d, marks })
    (hq : w.queue = ref :: rest) (hp : w.heap[ref]? = some p) : Tracked sha1 t { w with
      queue := rest, heap := w.heap.set ref (p.setPieceWritten true), disk := d, marks } := by
  refine ⟨hs, ⟨fun i hi => ?_, fun k x y hk hy hb => ?_⟩, fun x hx => ?_⟩
  · have hkept : Safe { w with heap := w.heap.set ref (p.setPieceWritten true) } i :=
      (h.kept i hi).set hp fun _ => rfl
    obtain ⟨id, x, y, hid, hx, hy, hsafe⟩ := hkept
    by_cases hxr : x = ref
    · rw [hxr] at hx
      exact ⟨id, ref, _, hid, hx, Heap.set_self hp _, .inl rfl⟩
    · refine ⟨id, x, y, hid, hx, hy, hsafe.imp_right fun hmem => ?_⟩
      rw [show ({ w with heap := w.heap.set ref (p.setPieceWritten true) } : World).queue =
        w.queue from rfl, hq] at hmem
      exact (List.mem_cons.1 hmem).resolve_left hxr
  · rcases Heap.set_some hy with ⟨rfl, -⟩ | ⟨-, hy⟩
    · obtain ⟨p0, hp0, hbit⟩ := h.queueBits _ (by rw [hq]; exact List.mem_cons_self)
      have hkid := h.toSound.active_id hk hp0
      rw [← hkid] at hk hb
      rw [hbit hk] at hb
      cases hb
    · exact h.again k x y hk hy hb
  · have hbits : QueueBits { w with heap := w.heap.set ref (p.setPieceWritten true) } :=
      h.queueBits.set hp rfl
    exact hbits x (by rw [hq]; exact List.mem_cons_of_mem _ hx)

/-- The first piece of the queue is passed over, which an active one is not. -/
theorem skip (h : Tracked sha1 t w) (hfail : ¬hz.fail) {ref : Nat} {rest : List Nat}
    (hs : Sound sha1 t { w with queue := rest }) (hq : w.queue = ref :: rest)
    (hskip : ∀ p, w.heap[ref]? = some p →
      (∀ r, w.activePieces.lookup p.id = some r → w.heap[r]? = none) ∨ hz.fail) :
    Tracked sha1 t { w with queue := rest } := by
  refine ⟨hs, ⟨fun i hi => ?_, h.again⟩, fun r hr => ?_⟩
  · obtain ⟨id, r, p, hid, ha, hp, hsafe⟩ := h.kept i hi
    refine ⟨id, r, p, hid, ha, hp, hsafe.imp_right fun hr => ?_⟩
    rw [hq] at hr
    refine (List.mem_cons.1 hr).resolve_left fun he => ?_
    rcases hskip p (he ▸ hp) with hnone | hf
    · rw [hnone r (by rw [h.toSound.active_id ha hp, ha])] at hp
      cases hp
    · exact hfail hf
  · exact h.queueBits r (by rw [hq]; exact List.mem_cons_of_mem _ hr)

theorem change (h : Tracked sha1 t w) (hfail : ¬hz.fail) (hlen : t.pieceLength ≠ 0)
    (hc : Change sha1 t hz w w') : Tracked sha1 t w' := by
  have hs := h.toSound.change hc
  cases hc with
  | peers _ => exact ⟨hs, ⟨h.kept, h.again⟩, h.queueBits⟩
  | bitfield i bf _ _ =>
    by_cases h0 : w.clientPieces.size = 0
    · have hn := h.newBits h0 bf.size
      simp only [if_pos h0] at hs ⊢
      exact ⟨hs, ⟨hn.kept, hn.again⟩, hn.queueBits⟩
    · simp only [if_neg h0] at hs ⊢
      exact ⟨hs, ⟨h.kept, h.again⟩, h.queueBits⟩
  | sizeAll h0 => exact h.newBits h0 _
  | remote i bf _ _ => exact ⟨hs, ⟨h.kept, h.again⟩, h.queueBits⟩
  | newPiece hnew hsize _ =>
    exact h.insert _ rfl hnew rfl (Piece.create_incomplete (Torrent.pieceLengthAt_ne hlen hsize))
  | touch hp hsame =>
    exact h.setPiece hp hsame.id hsame.pieceWritten fun hc => by rwa [hsame.complete] at hc
  | block ha hp hb _ =>
    obtain ⟨hid, -, hwr, hcomplete⟩ := Piece.setBlock_ok hb
    refine h.setPiece hp hid hwr fun hc => ?_
    rw [hcomplete] at hc
    cases hc
  | lastBlock ha hp hb _ _ _ =>
    obtain ⟨hid, -, hwr, -⟩ := Piece.setBlock_ok hb
    exact h.enqueue ha hp hid hwr
  | skip hq hskip => exact h.skip hfail hs hq hskip
  | reject hq hp _ _ ha hr => exact h.reject hs hq hp ha hr
  | fail _ _ _ _ _ hf => exact absurd hf hfail
  | written hq hp _ _ _ _ => exact h.dequeue hs hq hp
  | complete _ _ => exact ⟨hs, ⟨h.kept, h.again⟩, h.queueBits⟩
  | quiet _ _ => exact ⟨hs, ⟨h.kept, h.again⟩, h.queueBits⟩

theorem constructed (hc : Constructed sha1 t w) : Tracked sha1 t w := by
  have h : Tracked sha1 t w ∧ w.queue = [] := by
    apply constructed_inv (I := fun w => Tracked sha1 t w ∧ w.queue = []) _ _ hc
    · exact fun cwd fs => ⟨start cwd fs, rfl⟩
    · intro w w' id h hf
      refine ⟨h.1.found hf h.2, ?_⟩
      cases hf
      exact h.2
  exact h.1

end Tracked

/-- When no write fails, every piece with its own bit is written or waits to be written, and every
other one can be downloaded again. -/
theorem none_lost {w0 : World} {as : List Action} (hc : Constructed sha1 t w0)
    (hlen : t.pieceLength ≠ 0) (hr : Run (StepWithin sha1 t .noFail) w0 as w) : NoneLost w :=
  (chain_inv (fun _ _ h hc => Tracked.change h (fun hf => hf) hlen hc) (run_changes hr)
    (Tracked.constructed hc)).toNoneLost

end

/-- The next piece is wrong or can be written, for evaluation. -/
def Action.canWrite (sha1 : Bytes → Sha1) (t : Torrent) (w : World) : Action → Bool
  | .writeNextPiece faults =>
    match w.queue with
    | [] => true
    | ref :: _ => (w.heap[ref]?).all fun p =>
      match t.pieces[p.id.toNat]? with
      | none => false
      | some hash => hash != sha1 p.data ||
        match storePiece t p { w.disk with faults } with
        | .ok _ _ => true
        | .error _ _ => false
  | _ => true

theorem hazards_canWrite {sha1 : Bytes → Sha1} {t : Torrent} {w : World} {a : Action}
    (h : a.canWrite sha1 t w = true) : (a.hazards sha1 t w).Le .noFail := by
  refine ⟨fun _ => trivial, fun _ => trivial, fun _ => trivial, fun _ => trivial, fun hf => ?_⟩
  cases a with
  | writeNextPiece faults =>
    obtain ⟨ref, rest, p, hq, hp, hcases⟩ := hf
    change w.queue = ref :: rest at hq
    change w.heap[ref]? = some p at hp
    simp only [Action.canWrite, hq, hp, Option.all_some] at h
    rcases hcases with hnone | ⟨hh, e, d', herr⟩
    · rw [hnone] at h
      cases h
    · simp only [hh, bne_self_eq_false, Bool.false_or] at h
      rw [show storePiece t p { w.disk with faults } = .error e d' from herr] at h
      cases h
  | _ => exact hf

theorem none_lost_oneByte : ∃ t w0 w, Constructed Torrent.oneByteSha1 t w0 ∧
    Run (StepWithin Torrent.oneByteSha1 t .noFail) w0 oneByteRun w ∧
    w.clientPieces.bit 0 = true ∧ NoneLost w := by
  have hcheck : checkNew Torrent.oneByteSha1 Torrent.oneByteConfig [] Torrent.oneByteFile [0] ⟨∅⟩
      (fun t w0 => decide (t.pieceLength ≠ 0) &&
        (Action.runAll (Action.canWrite Torrent.oneByteSha1 t) Torrent.oneByteSha1 t oneByteRun
          w0).any fun w => w.clientPieces.bit 0) = true := by
    decide +kernel
  obtain ⟨t, w0, hc, h⟩ := checkNew_true hcheck
  simp only [Bool.and_eq_true, decide_eq_true_eq, Option.any_eq_true] at h
  obtain ⟨hlen, w, hr, hbit⟩ := h
  have hrun : Run (StepWithin Torrent.oneByteSha1 t .noFail) w0 oneByteRun w :=
    (run_of_runAll hr).mono fun _ _ _ h => ⟨hazards_canWrite h.1, h.2⟩
  exact ⟨t, w0, w, hc, hrun, hbit, none_lost hc hlen hrun⟩

/-- When the file cannot be created, the piece keeps its bit and leaves the queue. -/
theorem failed_lost : ¬∀ (sha1 : Bytes → Sha1) (t : Torrent) (w0 w : World) (as : List Action),
    Constructed sha1 t w0 → t.pieceLength ≠ 0 → Run (Step sha1 t) w0 as w → NoneLost w := by
  intro hall
  have hcheck : checkNew Torrent.oneByteSha1 Torrent.oneByteConfig [] Torrent.oneByteFile [0] ⟨∅⟩
      (fun t w0 => decide (t.pieceLength ≠ 0) &&
        (Action.runAll (fun _ _ => true) Torrent.oneByteSha1 t
          [.connect false, .setRemotePieces 0 ⟨[0x80]⟩, .setAmInterested 0 true,
            .setChoking 0 false 5, .setBlock 0 0 0 [120] 7, .writeNextPiece [some 0]] w0).any
          fun w => w.clientPieces.bit 0 && decide (w.queue = []) &&
            w.heap.all fun p => !p.pieceWritten) = true := by
    decide +kernel
  obtain ⟨t, w0, hc, h⟩ := checkNew_true hcheck
  simp only [Bool.and_eq_true, decide_eq_true_eq, Option.any_eq_true, List.all_eq_true,
    Bool.not_eq_true'] at h
  obtain ⟨hlen, w, hr, ⟨hbit, hq⟩, hwr⟩ := h
  have hrun := (run_of_runAll hr).mono fun _ _ _ h => h.2
  obtain ⟨id, ref, p, -, -, hp, hsafe⟩ := (hall _ t w0 w _ hc hlen hrun).kept 0 hbit
  rcases hsafe with hw | hmem
  · rw [hwr p (List.mem_of_getElem? hp)] at hw
    cases hw
  · rw [hq] at hmem
    cases hmem

end Zit
