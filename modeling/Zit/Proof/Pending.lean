import Zit.Proof.Construct

/-!
# Pending requests

`Counted`: no peer has less than no pending requests, in any state of a run (`counted_run`).
`request_next_block` always ends, and makes at most as many requests as it is short of its limit
(`requestNextBlock_le`).
-/

set_option autoImplicit false

namespace Zit

open Lib World

def Counted (w : World) : Prop := ∀ p ∈ w.peers, 0 ≤ p.pendingRequests

/-- Nothing happens to the peers. -/
def SamePeers (w w' : World) : Prop := w'.peers = w.peers

/-- Peers change, and none comes to have less than no pending requests. -/
structure Counting (w w' : World) : Prop where
  length : w'.peers.length = w.peers.length
  counted : Counted w → Counted w'

namespace Counting

variable {w w' w'' : World}

theorem of_same (h : w'.peers = w.peers) : Counting w w' := by
  refine ⟨by rw [h], fun hw => ?_⟩
  unfold Counted
  rwa [h]

theorem refl (w : World) : Counting w w := of_same rfl

theorem trans (h : Counting w w') (h' : Counting w' w'') : Counting w w'' :=
  ⟨h'.length.trans h.length, fun hw => h'.counted (h.counted hw)⟩

theorem modify {i : Nat} {f : Peer → Peer}
    (hf : ∀ p : Peer, 0 ≤ p.pendingRequests → 0 ≤ (f p).pendingRequests) :
    Counting w { w with peers := w.peers.modify i f } := by
  refine ⟨List.length_modify .., fun hw p hp => ?_⟩
  rcases mem_modify hp with hp | ⟨q, hq, rfl⟩
  · exact hw p hp
  · exact hf q (hw q hq)

theorem of_changes (h : Relation.ReflTransGen Counting w w') : Counting w w' := by
  induction h with
  | refl => exact refl w
  | tail _ h1 ih => exact ih.trans h1

end Counting

theorem SamePeers.counting {w w' : World} (h : SamePeers w w') : Counting w w' := .of_same h

/-- Not a loop without end. -/
def Halts {α : Type} (x : Except Exn α) : Prop := x ≠ .error .diverged

section
variable {t : Torrent} {α β : Type} {w : World}

/-! ## Computations that end -/

theorem Halts.ok (a : α) : Halts (.ok a) := by simp [Halts]

theorem Halts.bind {x : Except Exn α} {f : α → Except Exn β} (hx : Halts x)
    (hf : ∀ a, Halts (f a)) : Halts (x >>= f) := by
  cases x with
  | ok a => exact hf a
  | error e => exact fun h => hx (by cases h; rfl)

theorem Halts.map {x : Except Exn α} {f : α → β} (hx : Halts x) : Halts (x.map f) := by
  cases x with
  | ok a => exact .ok _
  | error e => exact fun h => hx (by cases h; rfl)

theorem Halts.wp_lift {x : Except Exn α} (h : Halts x) :
    wp (lift x) w (fun a w' => x = .ok a ∧ w' = w) fun e w' => e ≠ .diverged ∧ w' = w := by
  refine (Lib.wp_lift _).2 ⟨fun a ha => ⟨ha, rfl⟩, fun e he => ⟨?_, rfl⟩⟩
  rintro rfl
  exact h he

theorem halts_numericCast (I J : IntTy) (value : Int) (msg : String) :
    Halts (numericCast I J value msg) := by
  unfold Halts numericCast
  split <;> split <;> simp

theorem halts_filesLength (sum : Int) (files : List FileInfo) :
    Halts (Torrent.filesLength sum files) := by
  induction files generalizing sum with
  | nil => exact .ok _
  | cons fi files ih =>
    refine Halts.bind ?_ fun sum => ih sum
    unfold Halts int64
    split <;> simp

theorem halts_pieceLengthAt (t : Torrent) (id : UInt32) : Halts (t.pieceLengthAt id) := by
  unfold Torrent.pieceLengthAt
  split
  · refine Halts.bind ?_ fun length => ?_
    · unfold Torrent.length
      split
      · exact .ok _
      · exact halts_filesLength _ _
    · split
      · simp [Halts]
      · exact Halts.bind (Halts.map (halts_numericCast _ _ _ _)) fun _ => .ok _
  · exact .ok _

theorem halts_nextOffset (p : Piece) (mark : Bool) (now : Int) : Halts (p.nextOffset mark now) := by
  unfold Piece.nextOffset
  split
  · exact .ok _
  · split
    · exact .ok _
    · exact Halts.bind (Halts.map (halts_numericCast _ _ _ _)) fun _ => .ok _

theorem deref_ends (ref : Nat) :
    wp (deref ref) w (fun _ w' => w' = w) fun e w' => e ≠ .diverged ∧ w' = w := by
  cases hp : w.heap[ref]? with
  | none => exact (wp_deref_none hp).2 ⟨by simp, rfl⟩
  | some p => exact (wp_deref hp).2 rfl

/-! ## Requests -/

theorem activePiece_ends (id : UInt32) (create : Bool) :
    wp (t.activePiece id create) w (fun _ _ => True) fun e _ => e ≠ .diverged := by
  simp only [Torrent.activePiece, wp_bind, wp_get]
  cases w.activePieces.lookup id with
  | some ref => trivial
  | none =>
    refine wp_ite (fun _ => ?_) fun _ => trivial
    simp only [wp_bind]
    exact wp_mono (halts_pieceLengthAt t id).wp_lift (fun _ _ _ => trivial) fun _ _ h => h.1

/-- Every turn of the scan moves on. -/
theorem nextPieceFrom_ends {relevantPieces : Bitfield} (nonRequested : Bool) {turns start : Nat}
    (w : World) (hstart : start ≤ relevantPieces.size)
    (hturns : relevantPieces.size < turns + start) :
    wp (Peer.nextPieceFrom t relevantPieces nonRequested turns start) w (fun _ _ => True)
      fun e _ => e ≠ .diverged := by
  induction turns generalizing start w with
  | zero => omega
  | succ turns ih =>
    unfold Peer.nextPieceFrom
    cases hn : relevantPieces.next true start with
    | none => trivial
    | some nextId =>
      obtain ⟨hle, hlt, -, -⟩ := relevantPieces.next_some hn
      have hrest : ∀ w1, wp (Peer.nextPieceFrom t relevantPieces nonRequested turns (nextId + 1)) w1
          (fun _ _ => True) fun e _ => e ≠ .diverged := fun w1 => ih w1 hlt (by omega)
      simp only [wp_bind]
      refine wp_mono (Halts.map (halts_numericCast _ _ _ _)).wp_lift (fun id w1 _ => ?_)
        fun _ _ h => h.1
      refine wp_mono (activePiece_ends id true) (fun r w2 _ => ?_) fun _ _ h => h
      cases r with
      | none => exact wp_ite (fun _ => hrest w2) fun _ => trivial
      | some ref =>
        simp only [wp_bind]
        refine wp_mono (deref_ends ref) (fun piece w3 _ => ?_) fun _ _ h => h.1
        refine wp_mono (halts_nextOffset piece false 0).wp_lift (fun a w4 _ => ?_) fun _ _ h => h.1
        exact wp_ite (fun _ => trivial) fun _ => hrest w4

theorem same_activePiece (id : UInt32) (create : Bool) :
    Moves SamePeers (t.activePiece id create) w := by
  unfold Torrent.activePiece
  apply Moves.bind_get
  cases w.activePieces.lookup id with
  | some ref => exact .refl
  | none =>
    apply Moves.ite
    · intro _
      apply Moves.bind_lift
      intro size _
      exact .single rfl
    · exact fun _ => .refl

theorem same_nextPieceFrom (relevantPieces : Bitfield) (nonRequested : Bool) (turns start : Nat)
    (w : World) :
    Moves SamePeers (Peer.nextPieceFrom t relevantPieces nonRequested turns start) w := by
  induction turns generalizing start w with
  | zero => exact .refl
  | succ turns ih =>
    unfold Peer.nextPieceFrom
    split
    · exact .refl
    · apply Moves.bind_lift
      intro id _
      apply Moves.bind (same_activePiece id true)
      intro r w1 _
      split
      · exact Moves.ite (fun _ => ih _ w1) fun _ => .refl
      · apply moves_deref
        intro piece _
        apply Moves.bind_lift
        intro offset _
        exact Moves.ite (fun _ => .refl) fun _ => ih _ w1

theorem counting_modifyPeer {i : Nat} {f : Peer → Peer}
    (hf : ∀ p : Peer, 0 ≤ p.pendingRequests → 0 ≤ (f p).pendingRequests) :
    Moves Counting (Peer.modifyPeer i f) w := .single (.modify hf)

/-- What a computation does to the counts, with a bound on what it returns. -/
theorem counting_of_moves {m : App α} (h : Moves Counting m w) :
    wp m w (fun _ w' => Counting w w') fun _ w' => Counting w w' :=
  wp_mono h (fun _ _ h => .of_changes h) fun _ _ h => .of_changes h

theorem nextPiece_ends (i : Nat) (nonRequested : Bool) :
    wp (Peer.nextPiece t i nonRequested) w (fun _ w' => Counting w w')
      fun e w' => e ≠ .diverged ∧ Counting w w' := by
  unfold Peer.nextPiece
  simp only [wp_bind]
  cases hp : w.peers[i]? with
  | none =>
    simp only [Peer.getPeer, wp_bind, wp_get, hp, wp_throw]
    exact ⟨by simp, .refl w⟩
  | some p =>
    refine (wp_getPeer hp).2 ?_
    rw [wp_get]
    have hsame : Moves SamePeers (Peer.nextPieceFrom t (Torrent.relevantPieces w p.remotePieces)
        nonRequested ((Torrent.relevantPieces w p.remotePieces).size + 1) 0) w :=
      same_nextPieceFrom _ _ _ _ w
    refine wp_mono (wp_and (nextPieceFrom_ends nonRequested w (Nat.zero_le _) (by omega))
      (counting_of_moves (hsame.mono fun _ _ h => h.counting))) (fun _ _ h => h.2) fun _ _ h => h

/-- Every turn makes a request. -/
theorem requestLoop_le (i : Nat) (now : Int) (n : Nat) (req : Bytes) (requests : Nat) (w : World) :
    wp (Peer.requestLoop t i now n req requests) w
      (fun r w' => r.2 ≤ requests + n ∧ Counting w w')
      fun e w' => e ≠ .diverged ∧ Counting w w' := by
  induction n generalizing req requests w with
  | zero => exact ⟨Nat.le_refl _, .refl w⟩
  | succ n ih =>
    unfold Peer.requestLoop
    simp only [wp_bind]
    refine wp_mono (nextPiece_ends i true) (fun r w1 h1 => ?_) fun _ _ h => h
    cases r with
    | none => exact ⟨Nat.le_add_right _ _, h1⟩
    | some ref =>
      simp only [wp_bind]
      refine wp_mono (deref_ends ref) (fun piece w2 h2 => ?_) fun e w2 h2 => ⟨h2.1, h2.2 ▸ h1⟩
      obtain rfl := h2
      refine wp_mono (halts_nextOffset piece true now).wp_lift (fun a w3 h3 => ?_)
        fun e w3 h3 => ⟨h3.1, h3.2 ▸ h1⟩
      obtain ⟨-, rfl⟩ := h3
      obtain ⟨offset, piece'⟩ := a
      cases offset with
      | none => exact ⟨Nat.le_add_right _ _, h1.trans (.of_same rfl)⟩
      | some offset =>
        simp only [Peer.modifyPeer, store, wp_bind, wp_modify]
        have hstore : Counting w { w3 with heap := w3.heap.set ref piece' } :=
          h1.trans (.of_same rfl)
        have hmark := hstore.trans (@Counting.modify _ i
          (fun p => { p with pendingRequests := p.pendingRequests + 1 })
          fun p hp => Int.le_add_one hp)
        refine wp_mono (ih _ _ _) (fun r w4 h4 => ⟨by omega, hmark.trans h4.2⟩) fun e w4 h4 => ?_
        exact ⟨h4.1, hmark.trans h4.2⟩

/-- At most the requests that are needed are made. -/
theorem requestNextBlock_le (i : Nat) (now : Int) (maxPending : UInt16) {p : Peer}
    (hp : w.peers[i]? = some p) : wp (Peer.requestNextBlock t i now maxPending) w
      (fun n w' => (maxPending ≠ 0 → 0 < n → (n : Int) ≤ maxPending.toNat - p.pendingRequests) ∧
        Counting w w') fun e w' => e ≠ .diverged ∧ Counting w w' := by
  simp only [Peer.requestNextBlock, wp_bind]
  refine (wp_getPeer hp).2 ?_
  refine wp_ite (fun _ => ⟨by simp, .refl w⟩) fun _ => ?_
  refine wp_ite (fun _ => ⟨by simp, .refl w⟩) fun _ => ?_
  have hends : Halts (Peer.requestLimit t maxPending) := by
    unfold Peer.requestLimit
    split
    · exact Halts.map (halts_numericCast _ _ _ _)
    · exact .ok _
  simp only [wp_bind]
  refine wp_mono hends.wp_lift (fun limit w1 h1 => ?_) fun e w1 h1 => ⟨h1.1, h1.2 ▸ .refl w⟩
  obtain ⟨hlimit, rfl⟩ := h1
  refine wp_ite (fun _ => ⟨by simp, .refl w1⟩) fun _ => ?_
  refine wp_ite (fun _ => ⟨by simp, .refl w1⟩) fun hneed => ?_
  simp only [wp_bind]
  refine wp_mono (requestLoop_le i now _ _ _ w1) (fun r w2 h2 => ⟨fun hne _ => ?_, ?_⟩)
    fun _ _ h => h
  · have heq : limit = maxPending := by
      rw [Peer.requestLimit, if_neg hne, Except.ok.injEq] at hlimit
      exact hlimit.symm
    have hr := h2.1
    rw [heq] at hr hneed
    omega
  · refine h2.2.trans (.modify fun p hp => ?_)
    split
    · exact hp
    · exact hp

/-! ## Messages -/

theorem counting_requestNextBlock (i : Nat) (now : Int) (maxPending : UInt16) :
    Moves Counting (Peer.requestNextBlock t i now maxPending) w := by
  cases hp : w.peers[i]? with
  | none =>
    unfold Peer.requestNextBlock
    refine moves_getPeer fun p hp' => ?_
    rw [hp] at hp'
    cases hp'
  | some p =>
    exact wp_mono (requestNextBlock_le i now maxPending hp) (fun _ _ h => .single h.2)
      fun _ _ h => .single h.2

theorem counting_discard {m : App α} (h : Moves Counting m w) : Moves Counting (discard m) w :=
  h.map

theorem counting_onDisk (m : DiskM α) : Moves Counting (onDisk m) w := by
  unfold Moves
  rw [wp_onDisk]
  exact wp_of (fun _ _ _ => .single (.of_same rfl)) fun _ _ _ => .single (.of_same rfl)

theorem setAmChoking_pending (p : Peer) (b : Bool) :
    (p.setAmChoking b).pendingRequests = p.pendingRequests := by
  simp only [Peer.setAmChoking, Peer.write]
  split <;> split <;> rfl

theorem setAmInterested_pending (p : Peer) (done b : Bool) :
    (p.setAmInterested done b).pendingRequests = p.pendingRequests := by
  simp only [Peer.setAmInterested, Peer.write]
  split
  · rfl
  · split <;> split <;> rfl

theorem counting_setChoking (i : Nat) (choking : Bool) (now : Int) :
    Moves Counting (Peer.setChoking t i choking now) w := by
  unfold Peer.setChoking
  apply moves_getPeer
  intro p _
  apply Moves.ite
  · intro _
    refine Moves.bind (counting_modifyPeer fun _ h => h) fun _ w1 _ => ?_
    exact counting_discard (counting_requestNextBlock i now 0)
  · intro _
    exact Moves.ite (fun _ => counting_modifyPeer fun _ _ => Int.le_refl 0) fun _ => .refl

theorem counting_initClientPieces (count : Nat) :
    Moves Counting (Torrent.initClientPieces count) w := by
  unfold Torrent.initClientPieces
  apply Moves.bind_get
  apply Moves.ite
  · exact fun _ => .single (.of_same rfl)
  · exact fun _ => .refl

theorem counting_addRemotePiece (i : Nat) (id : UInt32) :
    Moves Counting (Peer.addRemotePiece t i id) w := by
  unfold Peer.addRemotePiece
  apply moves_getPeer
  intro p _
  apply Moves.ite
  · intro _
    refine Moves.bind (counting_initClientPieces _) fun _ w1 _ => ?_
    apply Moves.bind_lift
    intro filled _
    exact counting_modifyPeer fun _ h => h
  · exact fun _ => counting_modifyPeer fun _ h => h

theorem counting_request (i : Nat) (index begin length : UInt32) :
    Moves Counting (Peer.request t i index begin length) w := by
  unfold Peer.request
  apply moves_getPeer
  intro p _
  apply Moves.ite
  · exact fun _ => .refl
  intro _
  apply Moves.ite
  · exact fun _ => .refl
  intro _
  apply Moves.bind ((same_activePiece index true).mono fun _ _ h => h.counting)
  intro r w1 _
  split
  · exact .refl
  · apply moves_deref
    intro piece _
    refine Moves.bind (counting_onDisk _) fun data w2 _ => ?_
    apply Moves.ite
    · intro _
      apply Moves.bind_lift
      intro msg _
      exact counting_modifyPeer fun _ h => h
    · exact fun _ => .refl

theorem counting_torrentSetBlock (id offset : UInt32) (data : Bytes) (now : Int) :
    Moves Counting (Torrent.setBlock id offset data now) w := by
  unfold Torrent.setBlock
  apply Moves.bind_get
  cases w.activePieces.lookup id with
  | none => exact .refl
  | some ref =>
    apply moves_deref
    intro p _
    apply Moves.bind_lift
    intro r _
    apply Moves.bind_modify (.of_same rfl)
    apply Moves.ite
    · intro _
      refine Moves.bind ?_ fun _ _ _ => .refl
      unfold Torrent.pieceDone
      apply moves_deref
      intro piece _
      exact Moves.bind_modify (.of_same rfl) (.single (.of_same rfl))
    · exact fun _ => .refl

theorem counting_peerSetBlock (i : Nat) (id offset : UInt32) (data : Bytes) (now : Int) :
    Moves Counting (Peer.setBlock t i id offset data now) w := by
  unfold Peer.setBlock
  refine Moves.bind_modify (.modify fun p hp => ?_) ?_
  · simp only
    split <;> omega
  · refine Moves.bind (counting_discard (counting_torrentSetBlock id offset data now))
      fun _ w1 _ => ?_
    exact counting_discard (counting_requestNextBlock i now 0)

theorem counting_retryBlocks (id : UInt32) (now : Int) :
    Moves Counting (retryBlocksOf id now) w := by
  unfold retryBlocksOf
  apply Moves.bind_get
  cases w.activePieces.lookup id with
  | none => exact .refl
  | some ref =>
    apply moves_deref
    intro p _
    exact .single (.of_same rfl)

/-! ## The file writer -/

theorem counting_resetPiece (id : UInt32) : Moves Counting (Torrent.resetPiece id) w := by
  unfold Torrent.resetPiece
  apply Moves.bind_get
  cases w.activePieces.lookup id with
  | none => exact .refl
  | some ref =>
    apply moves_deref
    intro p _
    apply Moves.bind_modify (.of_same rfl)
    exact Moves.bind_modify (.of_same rfl) (.single (.of_same rfl))

theorem counting_lastPieceWritten : Moves Counting Torrent.lastPieceWritten w := by
  unfold Torrent.lastPieceWritten
  refine Moves.bind_modify ⟨List.length_map .., fun hw p hp => ?_⟩ ?_
  · obtain ⟨q, hq, rfl⟩ := List.mem_map.1 hp
    split
    · exact hw q hq
    · rw [setAmInterested_pending]
      exact hw q hq
  · refine Moves.bind (counting_onDisk _) fun r w1 _ => ?_
    cases r <;> exact .refl

theorem counting_writePiece (sha1 : Bytes → Sha1) (ref : Nat) :
    Moves Counting (FileWriter.writePiece sha1 t ref) w := by
  unfold FileWriter.writePiece
  apply moves_deref
  intro piece _
  split
  · exact .refl
  · apply Moves.ite
    · exact fun _ => counting_resetPiece _
    · intro _
      refine Moves.bind (counting_onDisk _) fun _ w1 _ => ?_
      refine Moves.bind (counting_onDisk _) fun _ w2 _ => ?_
      refine Moves.bind (counting_onDisk _) fun _ w3 _ => ?_
      refine Moves.bind (counting_onDisk _) fun _ w4 _ => ?_
      refine Moves.bind ?_ fun _ w5 _ => ?_
      · unfold setWritten
        apply moves_deref
        intro p _
        exact Moves.bind_modify (.of_same rfl) (.single (.of_same rfl))
      · apply Moves.bind_get
        apply Moves.ite
        · exact fun _ => Moves.bind (counting_onDisk _) fun _ w6 _ => counting_lastPieceWritten
        · exact fun _ => .refl

theorem counting_writeNextPiece (sha1 : Bytes → Sha1) :
    Moves Counting (FileWriter.writeNextPiece sha1 t) w := by
  unfold FileWriter.writeNextPiece
  apply Moves.bind_get
  cases w.queue with
  | nil => exact .refl
  | cons ref rest =>
    refine Moves.bind (.single (.of_same rfl)) fun _ w1 _ => ?_
    refine Moves.tryCatch (counting_writePiece sha1 ref) fun e w2 _ => ?_
    exact Moves.ite (fun _ => .refl) fun _ => .refl

/-! ## Runs -/

theorem counted_action (sha1 : Bytes → Sha1) (a : Action) (hw : Counted w) :
    wp (a.run sha1 t) w (fun _ w' => Counted w') fun _ w' => Counted w' := by
  have hcounting : ∀ {m : App Unit}, Moves Counting m w →
      wp m w (fun _ w' => Counted w') fun _ w' => Counted w' := fun hm =>
    wp_mono (counting_of_moves hm) (fun _ _ h => h.counted hw) fun _ _ h => h.counted hw
  cases a with
  | connect listening =>
    intro p hp
    rcases List.mem_append.1 hp with hp | hp
    · exact hw p hp
    · rw [List.mem_singleton.1 hp]
  | disconnect i => exact fun p hp => hw p (List.mem_of_mem_eraseIdx hp)
  | setRemotePieces i bf =>
    refine hcounting (Moves.bind_modify (.modify fun _ h => h) ?_)
    exact counting_initClientPieces _
  | «have» i id now =>
    refine hcounting (Moves.bind (counting_addRemotePiece i id) fun _ w1 _ => ?_)
    exact counting_discard (counting_requestNextBlock i now 0)
  | setChoking i choking now => exact hcounting (counting_setChoking i choking now)
  | setInterested i interested =>
    refine hcounting (counting_modifyPeer fun p hp => ?_)
    simp only
    split
    · rw [setAmChoking_pending]
      exact hp
    · exact hp
  | setAmInterested i amInterested =>
    refine hcounting (Moves.bind_get (counting_modifyPeer fun p hp => ?_))
    rw [setAmInterested_pending]
    exact hp
  | setAmChoking i amChoking =>
    refine hcounting (counting_modifyPeer fun p hp => ?_)
    rw [setAmChoking_pending]
    exact hp
  | request i index begin length => exact hcounting (counting_request i index begin length)
  | reportBitfield i =>
    refine hcounting (Moves.bind_get (Moves.ite (fun _ => ?_) fun _ => .refl))
    apply Moves.bind_lift
    intro msg _
    exact counting_modifyPeer fun _ h => h
  | requestNextBlock i now maxPending =>
    exact hcounting (counting_discard (counting_requestNextBlock i now maxPending))
  | setBlock i pieceId offset data now =>
    exact hcounting (counting_peerSetBlock i pieceId offset data now)
  | storeBlock pieceId offset data now =>
    exact hcounting (counting_discard (counting_torrentSetBlock pieceId offset data now))
  | activePiece id create =>
    exact hcounting (counting_discard ((same_activePiece id create).mono fun _ _ h => h.counting))
  | retryBlocks id now => exact hcounting (counting_retryBlocks id now)
  | writeNextPiece faults =>
    exact hcounting (Moves.bind_modify (.of_same rfl) (counting_writeNextPiece sha1))

/-- No peer ever has less than no pending requests. -/
theorem counted_run {sha1 : Bytes → Sha1} {w' : World} {as : List Action}
    (hc : Constructed sha1 t w) (hr : Run (Step sha1 t) w as w') : Counted w' := by
  have hstart : Counted w := constructed_inv (fun _ _ p hp => (by cases hp))
    (fun _ _ _ h hf => by cases hf; exact h) hc
  refine hr.inv (fun w1 a w2 h hs => ?_) hstart
  rcases hs.spec (counted_action sha1 a h) with h2 | ⟨_, h2⟩
  · exact h2
  · exact h2

end

end Zit
