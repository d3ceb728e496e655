import Zit.Proof.Orderly

/-!
# What is advertised and served

A piece has its own bit from its last block on, and a REQUEST for it is answered from memory, while
its hash is checked later by the file writer. `Backed`: every own bit belongs to a piece that is
written. Every change keeps it but a block that completes an unwritten piece (`Backed.change`), and
a REQUEST that sends something is for a written piece or for a block of an unwritten one
(`request_spec`). So the pieces that are advertised and served have been checked as long as neither
happens (`advertised_checked`); one block breaks it (`advertised_unchecked`).
-/

set_option autoImplicit false

namespace Zit

open Lib Lib.Path World

/-- Every own bit belongs to a piece that is active and written. -/
def Backed (w : World) : Prop :=
  ∀ i, w.clientPieces.bit i = true → ∃ id ref p, id.toNat = i ∧ Written w id ref p

/-- The piece at the index is active and written, and its data had the right hash. -/
def CheckedPiece (sha1 : Bytes → Sha1) (t : Torrent) (w : World) (i : Nat) : Prop :=
  ∃ id ref p m, id.toNat = i ∧ Written w id ref p ∧ m ∈ w.marks ∧ m.ref = ref ∧ m.id = id ∧
    t.pieces[i]? = some (sha1 m.data)

/-- What has been written to the connections of the peers. -/
def World.sent (w : World) : List (List Bytes) := w.peers.map (·.sent)

/-- No piece that is not written is completed. -/
def Hazards.noLast : Hazards := { Hazards.all with last := False }

/-- The peer may request blocks, and this is one that has been received of a piece that is not
written. -/
def UnwrittenRequest (w : World) (i : Nat) (index begin length : UInt32) : Prop :=
  (w.peers[i]?.any fun q => !q.amChoking && q.interested) = true ∧
    ActiveIs w index fun p => p.pieceWritten = false ∧ begin % Piece.blockSize = 0 ∧
      begin < p.pieceSize ∧ p.blocksDone.get (begin / Piece.blockSize).toNat = .ok true ∧
      begin.toNat + (if length ≠ 0 then length else Piece.blockSize).toNat ≤ p.data.length

instance (w : World) (i : Nat) (index begin length : UInt32) :
    Decidable (UnwrittenRequest w i index begin length) :=
  inferInstanceAs (Decidable (_ ∧ ActiveIs w index _))

/-- The call completes a piece that is not written, or sends a block of one. -/
def Action.unverified (w : World) : Action → Prop
  | .setBlock _ pieceId offset data now | .storeBlock pieceId offset data now =>
    LastBlock w pieceId offset data now
  | .request i index begin length => UnwrittenRequest w i index begin length
  | _ => False

instance (w : World) : (a : Action) → Decidable (a.unverified w)
  | .setBlock _ pieceId offset data now | .storeBlock pieceId offset data now =>
    inferInstanceAs (Decidable (LastBlock w pieceId offset data now))
  | .request i index begin length =>
    inferInstanceAs (Decidable (UnwrittenRequest w i index begin length))
  | .connect _ | .disconnect _ | .setRemotePieces _ _ | .have _ _ _ | .setChoking _ _ _
  | .setInterested _ _ | .setAmInterested _ _ | .setAmChoking _ _ | .reportBitfield _
  | .requestNextBlock _ _ _ | .activePiece _ _ | .retryBlocks _ _ | .writeNextPiece _ =>
    .isFalse id

/-- A step that neither completes a piece that is not written nor sends a block of one. -/
def StepVerified (sha1 : Bytes → Sha1) (t : Torrent) (w : World) (a : Action) (w' : World) : Prop :=
  ¬a.unverified w ∧ Step sha1 t w a w'

section
variable {sha1 : Bytes → Sha1} {t : Torrent} {hz : Hazards} {w w' : World}

/-! ## The own bits -/

namespace Backed

theorem start (cwd : Loc) (fs : FileSystem) : Backed (World.start cwd fs) :=
  fun _ h => (nomatch h)

theorem found (h : Backed w) {id : UInt32} (hf : Found sha1 t id w w') : Backed w' := by
  obtain ⟨hnew, -, -, -, -⟩ := hf
  intro i hi
  by_cases hid : i = id.toNat
  · exact ⟨id, w.heap.length, _, hid.symm, AList.lookup_insert _, List.getElem?_concat_length, rfl⟩
  · rw [Bitfield.bit_set_ne _ _ hid] at hi
    obtain ⟨k, ref, p, hk, hw⟩ := h i hi
    exact ⟨k, ref, p, hk, hw.append hnew _⟩

/-- What stays written keeps its bit backed. -/
theorem of_stays (h : Backed w) (hs : Stays w w')
    (hb : ∀ i, w'.clientPieces.bit i = true → w.clientPieces.bit i = true) : Backed w' := by
  intro i hi
  obtain ⟨id, ref, p, hid, hw⟩ := h i (hb i hi)
  obtain ⟨p', hw', -, -⟩ := hs.written id ref p hw
  exact ⟨id, ref, p', hid, hw'⟩

/-- A new bitfield has no bit. -/
theorem newBits (n : Nat) : Backed { w with clientPieces := .ofCount n } := by
  intro i hi
  rw [Bitfield.bit_ofCount] at hi
  cases hi

/-- The piece that starts over has no bit any more, and the others are other pieces. -/
theorem restart (h : Backed w) (hs : Sound sha1 t w) {id : UInt32} {r : Nat} {q : Piece}
    (ha : w.activePieces.lookup id = some r) (hr : w.heap[r]? = some q) : Backed { w with
      heap := w.heap.set r q.reset
      clientPieces := w.clientPieces.set id.toNat false
      activePieces := w.activePieces.erase id } := by
  intro i hi
  obtain ⟨hne, hi⟩ := Bitfield.bit_of_set _ hi
  obtain ⟨k, ref, p, hk, hl, hp, hw⟩ := h i hi
  have hkid : k ≠ id := fun he => hne (by rw [← hk, he])
  refine ⟨k, ref, p, hk, Heap.erase_old hl hkid, Heap.set_other hp (fun he => ?_) _, hw⟩
  have hid := hs.active_id hl (he ▸ hr)
  rw [hs.active_id ha hr] at hid
  exact hkid hid.symm

theorem change (h : Backed w) (hs : Sound sha1 t w) (hlast : ¬hz.last)
    (hc : Change sha1 t hz w w') : Backed w' := by
  cases hc with
  | peers _ => exact h
  | bitfield i bf _ _ =>
    split
    · exact newBits bf.size
    · exact h
  | sizeAll _ => exact newBits t.pieces.length
  | remote i bf _ _ => exact h
  | newPiece hnew _ _ =>
    intro i hi
    obtain ⟨k, ref, p, hk, hw⟩ := h i hi
    exact ⟨k, ref, p, hk, hw.append hnew _⟩
  | touch hp hsame =>
    exact h.of_stays (.set hp hsame.id hsame.pieceSize (fun hw => by rwa [hsame.pieceWritten])
      rfl rfl fun _ hb => hb) fun _ hb => hb
  | block ha hp hb _ =>
    obtain ⟨hid, hsize, hwr, -⟩ := Piece.setBlock_ok hb
    exact h.of_stays (.set hp hid hsize (fun hw => by rwa [hwr]) rfl rfl fun _ hb => hb)
      fun _ hb => hb
  | @lastBlock id offset ref p p' data now ha hp hb _ _ hun =>
    obtain ⟨hid, hsize, hwr, -⟩ := Piece.setBlock_ok hb
    have hw : p.pieceWritten = true := by simpa using fun hf => hlast (hun hf)
    have hwritten : Written { w with heap := w.heap.set ref p' } id ref p' :=
      ⟨ha, Heap.set_self hp p', by rw [hwr, hw]⟩
    have hset : Backed { w with heap := w.heap.set ref p' } := h.of_stays
      (.set hp hid hsize (fun hw => by rwa [hwr]) rfl rfl fun _ hb => hb) fun _ hb => hb
    intro i hi
    by_cases hi' : i = p'.id.toNat
    · refine ⟨id, ref, p', ?_, hwritten⟩
      rw [hi', hid, hs.active_id ha hp]
    · rw [Bitfield.bit_set_ne _ _ hi'] at hi
      exact hset i hi
  | skip _ _ => exact h
  | reject _ hp _ _ ha hr => exact h.restart hs ha hr
  | fail _ _ _ _ _ _ => exact h
  | @written ref rest p d d' _ hp _ _ _ _ =>
    refine h.of_stays (.set hp ?_ ?_ ?_ rfl rfl fun _ hb => hb) fun _ hb => hb
    · rfl
    · rfl
    · exact fun _ => rfl
  | complete _ _ => exact h
  | quiet _ _ => exact h

end Backed

/-! ## Requests -/

/-- What an active piece is after `active_piece`: one that was active, or a new one. -/
theorem activePiece_spec (id : UInt32) :
    wp (t.activePiece id) w (fun r w' => w'.peers = w.peers ∧ ∀ ref, r = some ref →
      w' = w ∧ w.activePieces.lookup id = some ref ∨
        ∃ size, w'.heap[ref]? = some (Piece.create id size)) fun _ w' => w' = w := by
  simp only [Torrent.activePiece, wp_bind, wp_get]
  cases hl : w.activePieces.lookup id with
  | some ref => exact ⟨rfl, fun k hk => .inl ⟨rfl, hk⟩⟩
  | none =>
    simp only [if_true, wp_bind]
    refine (wp_lift _).2 ⟨fun size _ => ?_, fun _ _ => rfl⟩
    refine ⟨rfl, fun k hk => .inr ⟨size, ?_⟩⟩
    rw [← Option.some.inj hk]
    exact List.getElem?_concat_length

/-- `get_block` returns data of a block that has been received. -/
theorem getBlock_data (p : Piece) (offset length : UInt32) (d : Disk) :
    wp (p.getBlock offset t length) d (fun data d' => d' = d ∧ (data ≠ [] →
      offset % Piece.blockSize = 0 ∧ offset < p.pieceSize ∧
        p.blocksDone.get (offset / Piece.blockSize).toNat = .ok true ∧
        (p.pieceWritten = false →
          offset.toNat + (if length ≠ 0 then length else Piece.blockSize).toNat ≤ p.data.length)))
      fun _ d' => d' = d := by
  unfold Piece.getBlock
  refine wp_ite (fun _ => rfl) fun hmod => wp_ite (fun _ => rfl) fun hlt => ?_
  simp only [wp_bind]
  refine (wp_lift _).2 ⟨fun done hdone => ?_, fun _ _ => rfl⟩
  refine wp_ite (fun _ => ⟨rfl, fun h => absurd rfl h⟩) fun hd => ?_
  have hd' : done = true := by simpa using hd
  rw [hd'] at hdone
  have hoffset : offset % Piece.blockSize = 0 := not_not.1 hmod
  have hsize : offset < p.pieceSize := UInt32.not_le.1 hlt
  refine wp_ite (fun hw => ?_) fun _ => ?_
  · refine wp_mono (readLoop_spec _ _ _ _ d) (fun _ d' h => ⟨h, fun _ => ?_⟩) fun _ _ h => h
    exact ⟨hoffset, hsize, hdone, fun hf => absurd hw (by rw [hf]; exact Bool.false_ne_true)⟩
  · exact wp_ite (fun hle => ⟨rfl, fun _ => ⟨hoffset, hsize, hdone, fun _ => hle⟩⟩) fun _ => rfl

/-- A REQUEST that is no `UnwrittenRequest` sends a block of a written piece or nothing. -/
theorem request_spec {i : Nat} {index begin length : UInt32}
    (hun : ¬UnwrittenRequest w i index begin length) :
    wp (Peer.request t i index begin length) w
      (fun _ w' => w'.sent = w.sent ∨ w' = { w with peers := w'.peers } ∧
        ∃ ref p, Written w index ref p) fun _ w' => w'.sent = w.sent := by
  have hsame : ∀ {w1 : World}, w1.peers = w.peers → w1.sent = w.sent := fun h => by
    rw [World.sent, h, World.sent]
  simp only [Peer.request, Peer.getPeer, wp_bind, wp_get]
  cases hq : w.peers[i]? with
  | none => exact rfl
  | some q =>
    refine wp_ite (fun _ => .inl rfl) fun hchoking => wp_ite (fun _ => .inl rfl) fun hint => ?_
    simp only [wp_bind]
    refine wp_mono (activePiece_spec index) (fun r w1 h => ?_) fun _ w1 h => h ▸ rfl
    obtain ⟨hpeers, hr⟩ := h
    cases r with
    | none => exact .inl (hsame hpeers)
    | some ref =>
      simp only [wp_bind]
      cases hp : w1.heap[ref]? with
      | none => exact (wp_deref_none hp).2 (hsame hpeers)
      | some p =>
        refine (wp_deref hp).2 ?_
        rw [wp_onDisk]
        refine wp_mono (getBlock_data p begin length w1.disk) (fun data d' h => ?_) fun _ _ _ =>
          hsame hpeers
        obtain ⟨rfl, hdata⟩ := h
        refine wp_ite (fun hne => ?_) fun _ => .inl (hsame hpeers)
        obtain ⟨hmod, hlt, hdone, hlen⟩ := hdata hne
        simp only [wp_bind]
        refine (wp_lift _).2 ⟨fun msg _ => .inr ?_, fun _ _ => hsame hpeers⟩
        rcases hr ref rfl with ⟨rfl, hl⟩ | ⟨size, hnew⟩
        · refine ⟨rfl, ref, p, hl, hp, ?_⟩
          by_contra hw
          have hw' : p.pieceWritten = false := by simpa using hw
          refine hun ⟨?_, ref, p, hl, hp, hw', hmod, hlt, hdone, hlen hw'⟩
          simp only [Bool.not_eq_true] at hchoking
          simp only [Bool.not_eq_true', Bool.not_eq_false] at hint
          rw [hq, Option.any_some, hchoking, hint]
          rfl
        · -- a new piece has no block
          rw [hp, Option.some.injEq] at hnew
          rw [hnew, Bitfield.get_eq] at hdone
          split at hdone
          · rw [Piece.create, Bitfield.bit_ofCount, Except.ok.injEq] at hdone
            cases hdone
          · cases hdone

/-! ## Runs -/

theorem StepVerified.within {a : Action} (h : StepVerified sha1 t w a w') :
    StepWithin sha1 t .noLast w a w' := by
  refine ⟨⟨fun _ => trivial, fun _ => trivial, fun _ => trivial, fun hl => ?_, fun _ => trivial⟩, h.2⟩
  cases a with
  | setBlock _ _ _ _ _ => exact h.1 hl
  | storeBlock _ _ _ _ => exact h.1 hl
  | _ => exact hl

/-- A written piece of the torrent has been checked. -/
theorem Sound.checked (hs : Sound sha1 t w) {id : UInt32} {ref : Nat} {p : Piece}
    (hw : Written w id ref p) : CheckedPiece sha1 t w id.toNat := by
  obtain ⟨m, hm, hmr, hmid⟩ := hs.written ref p hw.2.1 hw.2.2
  have hid := hmid.trans (hs.active_id hw.1 hw.2.1)
  exact ⟨id, ref, p, m, rfl, hw, hm, hmr, hid, by rw [← hid]; exact hs.marks m hm⟩

/-- When no step completes an unwritten piece or sends a block of one, every own bit belongs to a
piece that has been checked, and so does every block that is sent. -/
theorem advertised_checked {w0 : World} {as : List Action} (hc : Constructed sha1 t w0)
    (hr : Run (StepVerified sha1 t) w0 as w) :
    (∀ i, w.clientPieces.bit i = true → CheckedPiece sha1 t w i) ∧
      ∀ i index begin length w', StepVerified sha1 t w (.request i index begin length) w' →
        w'.sent = w.sent ∨ CheckedPiece sha1 t w index.toNat := by
  have hs : Sound sha1 t w := sound_run hc (hr.mono fun _ _ _ h => h.2)
  refine ⟨fun i hi => ?_, fun i index begin length w' hstep => ?_⟩
  · have h0 : Sound sha1 t w0 ∧ Backed w0 :=
      constructed_inv (I := fun w => Sound sha1 t w ∧ Backed w)
        (fun cwd fs => ⟨Sound.start cwd fs, Backed.start cwd fs⟩)
        (fun _ _ _ h hf => ⟨h.1.found hf, h.2.found hf⟩) hc
    have hrun := run_changes (hr.mono fun _ _ _ h => h.within)
    have hb : Sound sha1 t w ∧ Backed w := chain_inv (I := fun w => Sound sha1 t w ∧ Backed w)
      (fun _ _ h hc => ⟨h.1.change hc, h.2.change h.1 (fun hf => hf) hc⟩) hrun h0
    obtain ⟨id, ref, p, rfl, hw⟩ := hb.2 i hi
    exact hs.checked hw
  · rcases hstep.2.spec (request_spec hstep.1) with (hsame | ⟨-, ref, p, hw⟩) | ⟨e, hsame⟩
    · exact .inl hsame
    · exact .inr (hs.checked hw)
    · exact .inl hsame

end

/-- A peer is unchoked and requests the byte of the torrent. -/
def oneByteServed : List Action := [.connect false, .setInterested 0 true]

theorem advertised_checked_oneByte : ∃ t w0 w w', Constructed Torrent.oneByteSha1 t w0 ∧
    Run (StepVerified Torrent.oneByteSha1 t) w0 oneByteServed w ∧
    StepVerified Torrent.oneByteSha1 t w (.request 0 0 0 1) w' ∧ w'.sent ≠ w.sent ∧
    CheckedPiece Torrent.oneByteSha1 t w 0 := by
  have hcheck : checkNew Torrent.oneByteSha1 Torrent.oneByteConfig [] Torrent.oneByteFile [0]
      (FileSystem.put ⟨∅⟩ [[110]] (.file [120]))
      (fun t w0 =>
        (Action.runAll (fun w a => decide ¬a.unverified w) Torrent.oneByteSha1 t oneByteServed
          w0).any fun w => decide (¬(Action.request 0 0 0 1).unverified w ∧
            wp ((Action.request 0 0 0 1).run Torrent.oneByteSha1 t) w
              (fun _ w' => w'.sent ≠ w.sent) fun _ _ => False)) = true := by
    decide +kernel
  obtain ⟨t, w0, hc, h⟩ := checkNew_true hcheck
  simp only [decide_eq_true_eq, Option.any_eq_true] at h
  obtain ⟨w, hr, hun, h⟩ := h
  have hrun : Run (StepVerified Torrent.oneByteSha1 t) w0 oneByteServed w :=
    (run_of_runAll hr).mono fun _ _ _ h => ⟨of_decide_eq_true h.1, h.2⟩
  obtain ⟨u, w', hreq, hsent⟩ := ok_of_wp h
  have hstep : StepVerified Torrent.oneByteSha1 t w (.request 0 0 0 1) w' :=
    ⟨hun, wp_intro hreq rfl⟩
  refine ⟨t, w0, w, w', hc, hrun, hstep, hsent, ?_⟩
  exact ((advertised_checked hc hrun).2 0 0 0 1 w' hstep).resolve_left hsent

/-- After the last block of a piece its bit is set, and its data has not been checked. -/
theorem advertised_unchecked : ¬∀ (sha1 : Bytes → Sha1) (t : Torrent) (w0 w : World)
    (as : List Action), Constructed sha1 t w0 → Run (Step sha1 t) w0 as w →
      ∀ i, w.clientPieces.bit i = true → CheckedPiece sha1 t w i := by
  intro hall
  have hcheck : checkNew Torrent.oneByteSha1 Torrent.oneByteConfig [] Torrent.oneByteFile [0] ⟨∅⟩
      (fun t w0 => (Action.runAll (fun _ _ => true) Torrent.oneByteSha1 t
        [.connect false, .setRemotePieces 0 ⟨[0x80]⟩, .setAmInterested 0 true,
          .setChoking 0 false 5, .setBlock 0 0 0 [0] 7] w0).any
        fun w => w.clientPieces.bit 0 && w.marks.isEmpty) = true := by
    decide +kernel
  obtain ⟨t, w0, hc, h⟩ := checkNew_true hcheck
  simp only [Bool.and_eq_true, Option.any_eq_true, List.isEmpty_iff] at h
  obtain ⟨w, hr, hbit, hmarks⟩ := h
  have hrun := (run_of_runAll hr).mono fun _ _ _ h => h.2
  obtain ⟨_, _, _, m, -, -, hm, -⟩ := hall _ t w0 w _ hc hrun 0 hbit
  rw [hmarks] at hm
  cases hm

end Zit
