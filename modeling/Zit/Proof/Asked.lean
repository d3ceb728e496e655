import Zit.Proof.Pending
import Zit.Proof.Requests

/-!
# What a call of `request_next_block` leaves as it was

`Marked`: exactly the blocks that were asked for are marked, in the pieces as `active_piece` would
return them; the blocks done, the queue, the own bitfield and the disk are as before.
-/

set_option autoImplicit false

namespace Zit

open Lib World

/-- Pieces have become active, and nothing else but peers and pieces has changed. -/
structure Grown (w w' : World) : Prop where
  queue : w'.queue = w.queue
  own : w'.clientPieces = w.clientPieces
  marks : w'.marks = w.marks
  disk : w'.disk = w.disk
  active : ∀ id ref, w.activePieces.lookup id = some ref → w'.activePieces.lookup id = some ref

/-- The blocks `taken` have been requested. -/
structure Marked (t : Torrent) (w w' : World) (taken : List Block) : Prop extends Grown w w' where
  pieces : ∀ id p, pieceFor t w id = some p → ∃ p', pieceFor t w' id = some p' ∧ p.SameBlocks p' ∧
    ∀ j, p'.blocksRequested.bit j = true ↔ p.blocksRequested.bit j = true ∨ (id, j) ∈ taken

section
variable {sha1 : Bytes → Sha1} {t : Torrent} {w w' w'' : World} {i : Nat} {relevant : Bitfield}

namespace Grown

theorem refl (w : World) : Grown w w := ⟨rfl, rfl, rfl, rfl, fun _ _ h => h⟩

theorem trans (h : Grown w w') (h' : Grown w' w'') : Grown w w'' :=
  ⟨h'.queue.trans h.queue, h'.own.trans h.own, h'.marks.trans h.marks, h'.disk.trans h.disk,
    fun id ref ha => h'.active id ref (h.active id ref ha)⟩

theorem of_changes (h : Relation.ReflTransGen Grown w w') : Grown w w' := by
  induction h with
  | refl => exact .refl w
  | tail _ h1 ih => exact ih.trans h1

end Grown

theorem grown_activePiece (id : UInt32) (create : Bool) : Moves Grown (t.activePiece id create) w := by
  unfold Torrent.activePiece
  apply Moves.bind_get
  cases hl : w.activePieces.lookup id with
  | some ref => exact .refl
  | none =>
    apply Moves.ite
    · intro _
      apply Moves.bind_lift
      intro size _
      exact .single ⟨rfl, rfl, rfl, rfl, fun k r hk => Heap.insert_old hl hk _⟩
    · exact fun _ => .refl

theorem grown_nextPieceFrom (relevantPieces : Bitfield) (nonRequested : Bool) (turns start : Nat)
    (w : World) :
    Moves Grown (Peer.nextPieceFrom t relevantPieces nonRequested turns start) w := by
  induction turns generalizing start w with
  | zero => exact .refl
  | succ turns ih =>
    unfold Peer.nextPieceFrom
    split
    · exact .refl
    · apply Moves.bind_lift
      intro id _
      apply Moves.bind (grown_activePiece id true)
      intro r w1 _
      split
      · exact Moves.ite (fun _ => ih _ w1) fun _ => .refl
      · apply moves_deref
        intro piece _
        apply Moves.bind_lift
        intro offset _
        exact Moves.ite (fun _ => .refl) fun _ => ih _ w1

theorem grown_nextPiece (i : Nat) (nonRequested : Bool) :
    wp (Peer.nextPiece t i nonRequested) w (fun _ w' => Grown w w') fun _ _ => True := by
  have hmoves : Moves Grown (Peer.nextPiece t i nonRequested) w := by
    apply moves_getPeer
    intro p _
    apply Moves.bind_get
    exact grown_nextPieceFrom _ nonRequested _ 0 w
  exact wp_mono hmoves (fun _ _ h => .of_changes h) fun _ _ _ => trivial

namespace Marked

theorem of_activated (h : Activated t w w') (hg : Grown w w') : Marked t w w' [] :=
  ⟨hg, fun id p hp => ⟨p, (h.pieces id).trans hp, .refl p, fun j => by simp⟩⟩

/-- Only the peers have changed. -/
theorem of_peers (w : World) (ps : List Peer) : Marked t w { w with peers := ps } [] :=
  ⟨⟨rfl, rfl, rfl, rfl, fun _ _ h => h⟩, fun _ p hp => ⟨p, hp, .refl p, fun j => by simp⟩⟩

theorem trans {taken more : List Block} (h : Marked t w w' taken) (h' : Marked t w' w'' more) :
    Marked t w w'' (taken ++ more) := by
  refine ⟨h.toGrown.trans h'.toGrown, fun id p hp => ?_⟩
  obtain ⟨p1, hp1, hsame, hbits⟩ := h.pieces id p hp
  obtain ⟨p2, hp2, hsame', hbits'⟩ := h'.pieces id p1 hp1
  refine ⟨p2, hp2, hsame.trans hsame', fun j => ?_⟩
  rw [hbits', hbits, List.mem_append, or_assoc]

theorem of_mark (h : WellFormed sha1 t w) {id : UInt32} {ref : Nat} {p : Piece} {j : Nat}
    (ha : w.activePieces.lookup id = some ref) (hp : w.heap[ref]? = some p) {now : Int}
    (hsame : p.SameBlocks
      { p with blocksRequested := p.blocksRequested.set j true, lastRequest := now }) :
    Marked t w (markBlock w ref p j now) [(id, j)] := by
  refine ⟨⟨rfl, rfl, rfl, rfl, fun _ _ h => h⟩, fun k q hq => ?_⟩
  rw [markBlock, pieceFor_set h ha hp]
  by_cases hk : k = id
  · subst hk
    rw [pieceFor_active ha, hp] at hq
    obtain rfl := Option.some.inj hq
    refine ⟨_, if_pos rfl, hsame, fun l => ?_⟩
    rw [Bitfield.bit_set, List.mem_singleton, Prod.mk.injEq]
    split_ifs with hl
    · exact iff_of_true rfl (.inr ⟨rfl, hl⟩)
    · exact ⟨.inl, fun h => h.resolve_right fun he => hl he.2⟩
  · refine ⟨q, (if_neg hk).trans hq, .refl q, fun l => ?_⟩
    simp [hk]

end Marked

/-- The loop marks what it takes. -/
theorem requestLoop_marks (now : Int) (n : Nat) (req : Bytes) (requests : Nat) (w : World)
    (h : WellFormed sha1 t w) (hrel : RelevantTo w i relevant) :
    wp (Peer.requestLoop t i now n req requests) w (fun _ w' => ∀ taken : List Block,
      (candidates t w relevant).take n = taken.map some → Marked t w w' taken)
      fun _ _ => True := by
  induction n generalizing req requests w with
  | zero =>
    intro taken htake
    obtain rfl : taken = [] := List.map_eq_nil_iff.1 htake.symm
    exact .of_activated (.refl w) (.refl w)
  | succ n ih =>
    unfold Peer.requestLoop
    simp only [wp_bind]
    refine wp_mono (wp_and (nextPiece_spec h hrel) (grown_nextPiece i true)) (fun r w1 h1 => ?_)
      fun _ _ _ => trivial
    obtain ⟨⟨hw1, hact, hnone, hsome⟩, hgrown⟩ := h1
    have hfirst := Marked.of_activated hact hgrown
    cases r with
    | none =>
      intro taken htake
      rw [hnone rfl, List.take_nil] at htake
      obtain rfl : taken = [] := List.map_eq_nil_iff.1 htake.symm
      exact hfirst
    | some ref =>
      obtain ⟨id, p, j, rest, hl, hp, hfree, hhead⟩ := hsome ref rfl
      simp only [wp_bind]
      refine (wp_deref hp).2 ?_
      obtain ⟨hnil, -⟩ | ⟨j', rest', hfree', hnext⟩ := (hw1.formed _ _ hp).nextOffset_free true now
      · rw [hnil] at hfree
        cases hfree
      rw [hfree] at hfree'
      obtain ⟨rfl, rfl⟩ := List.cons.inj hfree'
      rw [wp_lift_ok hnext, if_pos rfl]
      rw [← hact.candidates] at hhead
      have hsame : p.SameBlocks _ := Piece.nextOffset_ok hnext
      have htook := mark_spec hw1 hl hp hfree hhead now
      let next := onePending (markBlock w1 ref p j now) i
      have hmark : Marked t w1 next [(id, j)] :=
        (Marked.of_mark hw1 hl hp hsame).trans (.of_peers _ _)
      have hcand : candidates t w relevant = some (id, j) :: candidates t next relevant :=
        hact.candidates.symm.trans htook.candidates
      have hchange : Change sha1 t .all w1 (markBlock w1 ref p j now) := .touch hp hsame
      have hpeers : Change sha1 t .all (markBlock w1 ref p j now) next := .peers fun q hq => by
        rcases mem_modify hq with hq | ⟨q', hq', rfl⟩
        · exact .inr ⟨q, hq, rfl⟩
        · exact .inr ⟨q', hq', rfl⟩
      simp only [store, Peer.modifyPeer, wp_bind, wp_modify]
      refine wp_mono (ih _ _ next ((hw1.change hchange).change hpeers)
        (hrel.onePending (htook.peers.trans hact.peers) (htook.own.trans hact.own)))
        (fun _ w' h2 taken htake => ?_) fun _ _ _ => trivial
      rw [hcand, List.take_succ_cons] at htake
      cases taken with
      | nil => cases htake
      | cons b taken =>
        rw [List.map_cons, List.cons.injEq, Option.some_inj] at htake
        obtain ⟨rfl, htake⟩ := htake
        exact (hfirst.trans hmark).trans (h2 taken htake)

/-- A call that is unchoked and finds no gap: what it asks for, and nothing else, is marked. -/
theorem requestNextBlock_asks (h : WellFormed sha1 t w) {p : Peer} (hp : w.peers[i]? = some p)
    (hint : p.amInterested = true) (hchoke : p.choking = false) (now : Int)
    (hlimit : 0 < t.maxPendingRequests ∧ t.maxPendingRequests < 2 ^ 16)
    (hgap : none ∉ candidates t w (Torrent.relevantPieces w p.remotePieces)) :
    wp (Peer.requestNextBlock t i now) w (fun _ w' => ∃ taken,
      (candidates t w (Torrent.relevantPieces w p.remotePieces)).take
        (t.maxPendingRequests - p.pendingRequests).toNat = taken.map some ∧
      Emitted t i p w w' taken ∧ Marked t w w' taken) fun _ _ => False := by
  have hlimit' : 0 < pendingLimit t 0 ∧ pendingLimit t 0 < 2 ^ 16 := hlimit
  have hmarks : wp (Peer.requestNextBlock t i now) w (fun _ w' => ∀ taken : List Block,
      (candidates t w (Torrent.relevantPieces w p.remotePieces)).take
        (t.maxPendingRequests - p.pendingRequests).toNat = taken.map some → Marked t w w' taken)
      fun _ _ => True := by
    obtain ⟨limit, hok, hne, heq⟩ := requestLimit_of hlimit'
    have heq' : (limit.toNat : Int) = t.maxPendingRequests := heq
    rw [← heq']
    simp only [Peer.requestNextBlock, wp_bind]
    refine (wp_getPeer hp).2 ?_
    simp only [hint, hchoke, Bool.not_true, Bool.false_eq_true, if_false, wp_bind]
    rw [wp_lift_ok hok]
    simp only [if_neg hne]
    refine wp_ite (fun hle => ?_) fun hpos => ?_
    · rw [show (_ - p.pendingRequests : Int).toNat = 0 by omega]
      intro taken htake
      obtain rfl : taken = [] := List.map_eq_nil_iff.1 htake.symm
      exact .of_activated (.refl w) (.refl w)
    · simp only [wp_bind]
      refine wp_mono (requestLoop_marks now _ [] 0 w h ⟨p, hp, rfl⟩) (fun r w1 h1 taken htake => ?_)
        fun _ _ _ => trivial
      rw [← List.append_nil taken]
      exact (h1 taken htake).trans (.of_peers _ _)
  have hemits := requestNextBlock_emits h hp hint hchoke now hlimit'
  refine wp_mono (wp_and hemits hmarks) (fun _ w' h1 => ?_) fun _ _ h1 => ?_
  · obtain ⟨⟨taken, -, htake, hemitted⟩, hmarked⟩ := h1
    exact ⟨taken, htake, hemitted, hmarked taken htake⟩
  · exact hgap (List.mem_of_mem_take h1.1)

end

end Zit
