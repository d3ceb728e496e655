import Zit.Proof.Done

/-!
# Which pieces can be chosen

`relevant_pieces` forgets the pieces beyond the size of the own bitfield. `Sized`: the own bitfield
has a bit for every piece, or nothing is known of any peer. Every change keeps it that does not give
the own bitfield a smaller size (`Sized.change`), and then every piece a peer has and we have not
can be chosen (`selection_complete`). A resumed download begins with a smaller size
(`selection_incomplete`).
-/

set_option autoImplicit false

namespace Zit

open Lib Lib.Path World

/-- The own bitfield has a bit for every piece, or no size yet. -/
def Sized (t : Torrent) (w : World) : Prop :=
  t.pieces.length ≤ w.clientPieces.size ∨
    w.clientPieces.size = 0 ∧ w.queue = [] ∧ ∀ p ∈ w.peers, p.remotePieces.size = 0

/-- The own bitfield gets no size below the number of pieces. -/
def Hazards.noShort : Hazards := { Hazards.all with short := False }

section
variable {sha1 : Bytes → Sha1} {t : Torrent} {hz : Hazards} {w w' : World}

namespace Sized

/-- With a piece in the queue the own bitfield has its size. -/
theorem of_queue (h : Sized t w) {ref : Nat} {queue : List Nat} (hq : w.queue = ref :: queue) :
    t.pieces.length ≤ w.clientPieces.size := by
  rcases h with hle | ⟨-, hnil, -⟩
  · exact hle
  · rw [hq] at hnil
    cases hnil

/-- The first bitfield of a peer gives the own one its size. -/
theorem bitfield (h : Sized t w) {i : Nat} {bf : Bitfield}
    (hlong : w.clientPieces.size = 0 → bf.size ≠ 0 → t.pieces.length ≤ bf.size) :
    Sized t { w with
      clientPieces := if w.clientPieces.size = 0 then Bitfield.ofCount bf.size else w.clientPieces
      peers := w.peers.modify i fun p => { p with remotePieces := bf } } := by
  rcases h with hle | ⟨h0, hq, hpeers⟩
  · refine .inl ?_
    by_cases h0 : w.clientPieces.size = 0
    · omega
    · simpa only [if_neg h0] using hle
  · by_cases hbf : bf.size = 0
    · refine .inr ⟨?_, hq, fun p hp => ?_⟩
      · rw [if_pos h0, Bitfield.size_ofCount, hbf]
      · rcases mem_modify hp with hp | ⟨q, hq, rfl⟩
        · exact hpeers p hp
        · exact hbf
    · refine .inl ?_
      rw [if_pos h0]
      exact Nat.le_trans (hlong h0 hbf) (Bitfield.le_size_ofCount _)

theorem change (h : Sized t w) (hshort : ¬hz.short) (hc : Change sha1 t hz w w') :
    Sized t w' := by
  cases hc with
  | @peers ps hps =>
    refine h.imp_right fun h => ⟨h.1, h.2.1, fun p hp => ?_⟩
    rcases hps p hp with he | ⟨q, hq, he⟩
    · rw [he]
      rfl
    · rw [← he]
      exact h.2.2 q hq
  | bitfield i bf hs _ =>
    refine h.bitfield fun h0 hbf => ?_
    by_contra hlt
    exact hshort (hs h0 hbf (by omega))
  | sizeAll _ => exact .inl (Bitfield.le_size_ofCount _)
  | remote i bf hr _ =>
    rcases h with hle | ⟨h0, hq, hpeers⟩
    · exact .inl hle
    · rcases hr h0 with hnil | ⟨p, hp, hne⟩
      · refine .inl ?_
        rw [hnil]
        exact Nat.zero_le _
      · exact absurd (hpeers p hp) hne
  | newPiece _ _ _ => exact h
  | touch _ _ => exact h
  | block _ _ _ _ => exact h
  | lastBlock _ _ _ _ hs _ =>
    refine .inl ?_
    rcases h with hle | ⟨h0, -, -⟩
    · exact Nat.le_trans hle (Bitfield.size_le_set _ _ _)
    · by_contra hlt
      exact hshort (hs h0 (Nat.lt_of_not_le hlt))
  | skip hq _ => exact .inl (h.of_queue hq)
  | reject hq _ _ _ _ _ => exact .inl (Nat.le_trans (h.of_queue hq) (Bitfield.size_le_set _ _ _))
  | fail hq _ _ _ _ _ => exact .inl (h.of_queue hq)
  | written hq _ _ _ _ _ => exact .inl (h.of_queue hq)
  | complete _ _ => exact h
  | quiet _ _ => exact h

end Sized

theorem constructed_idle (hc : Constructed sha1 t w) : w.queue = [] ∧ w.peers = [] := by
  apply constructed_inv (I := fun w => w.queue = [] ∧ w.peers = []) _ _ hc
  · exact fun _ _ => ⟨rfl, rfl⟩
  · intro w w' id h hf
    cases hf
    exact h

/-- When the own bitfield is empty or has a bit for every piece at first and gets no smaller size,
every piece that a peer has and we have not is among the relevant ones. -/
theorem selection_complete {w0 : World} {as : List Action} (hc : Constructed sha1 t w0)
    (h0 : w0.clientPieces.size = 0 ∨ t.pieces.length ≤ w0.clientPieces.size)
    (hr : Run (StepWithin sha1 t .noShort) w0 as w) {p : Peer} (hp : p ∈ w.peers) {i : Nat}
    (hi : i < t.pieces.length) (hbit : p.remotePieces.bit i = true)
    (hmiss : w.clientPieces.bit i = false) :
    (Torrent.relevantPieces w p.remotePieces).bit i = true := by
  have hstart : Sized t w0 := by
    obtain ⟨hq, hpeers⟩ := constructed_idle hc
    refine h0.symm.imp_right fun h0 => ⟨h0, hq, fun p hp => ?_⟩
    rw [hpeers] at hp
    cases hp
  have hs : Sized t w :=
    chain_inv (fun _ _ h hc => h.change (fun hf => hf) hc) (run_changes hr) hstart
  have hlt : i < w.clientPieces.size := by
    rcases hs with hle | ⟨-, -, hall⟩
    · omega
    · have := p.remotePieces.lt_size_of_bit hbit
      rw [hall p hp] at this
      omega
  rw [Torrent.relevantPieces, Bitfield.bit_sub, hbit, hmiss, decide_eq_true hlt]
  rfl

end

/-! ## Nine pieces -/

/-- A peer connects and has all pieces. -/
def nineByteRun : List Action := [.connect false, .setRemotePieces 0 ⟨[0xFF, 0x80]⟩]

/-- The call gives the own bitfield no size below the number of pieces, for evaluation. -/
def Action.notShort (t : Torrent) (w : World) : Action → Bool
  | .setRemotePieces _ bf => !decide (ShortBitfield t w bf)
  | .setBlock _ pieceId offset data now | .storeBlock pieceId offset data now =>
    !decide (EarlyBlock t w pieceId offset data now)
  | _ => true

theorem hazards_notShort {sha1 : Bytes → Sha1} {t : Torrent} {w : World} {a : Action}
    (h : a.notShort t w = true) : (a.hazards sha1 t w).Le .noShort := by
  refine ⟨fun _ => trivial, fun hs => ?_, fun _ => trivial, fun _ => trivial, fun _ => trivial⟩
  cases a with
  | setRemotePieces i bf =>
    have hnot : ¬ShortBitfield t w bf := by simpa [Action.notShort] using h
    exact hnot hs
  | setBlock i pieceId offset data now =>
    have hnot : ¬EarlyBlock t w pieceId offset data now := by simpa [Action.notShort] using h
    exact hnot hs
  | storeBlock pieceId offset data now =>
    have hnot : ¬EarlyBlock t w pieceId offset data now := by simpa [Action.notShort] using h
    exact hnot hs
  | _ => exact hs

theorem selection_complete_nine : ∃ t w0 w p, Constructed Torrent.oneByteSha1 t w0 ∧
    Run (StepWithin Torrent.oneByteSha1 t .noShort) w0 nineByteRun w ∧ p ∈ w.peers ∧
    t.pieces.length = 9 ∧ p.remotePieces.bit 8 = true ∧
    (Torrent.relevantPieces w p.remotePieces).bit 8 = true := by
  have hcheck : checkNew Torrent.oneByteSha1 Torrent.oneByteConfig [] Torrent.nineByteFile (List.range 9)
      ⟨∅⟩ (fun t w0 => decide (t.pieces.length = 9) && decide (w0.clientPieces.size = 0) &&
        (Action.runAll (Action.notShort t) Torrent.oneByteSha1 t nineByteRun w0).any fun w =>
          w.peers.any fun p => p.remotePieces.bit 8 && !w.clientPieces.bit 8) = true := by
    decide +kernel
  obtain ⟨t, w0, hc, h⟩ := checkNew_true hcheck
  simp only [Bool.and_eq_true, decide_eq_true_eq, Option.any_eq_true, List.any_eq_true,
    Bool.not_eq_true'] at h
  obtain ⟨⟨hlen, h0⟩, w, hr, p, hp, hbit, hmiss⟩ := h
  have hrun : Run (StepWithin Torrent.oneByteSha1 t .noShort) w0 nineByteRun w :=
    (run_of_runAll hr).mono fun _ _ _ h => ⟨hazards_notShort h.1, h.2⟩
  exact ⟨t, w0, w, p, hc, hrun, hp, hlen, hbit,
    selection_complete hc (.inl h0) hrun hp (by omega) hbit hmiss⟩

/-- When only the first of nine pieces is found, a peer's last piece cannot be chosen. -/
theorem selection_incomplete : ¬∀ (sha1 : Bytes → Sha1) (t : Torrent) (w0 w : World)
    (as : List Action) (p : Peer) (i : Nat), Constructed sha1 t w0 → Run (Step sha1 t) w0 as w →
    p ∈ w.peers → i < t.pieces.length → p.remotePieces.bit i = true →
    w.clientPieces.bit i = false → (Torrent.relevantPieces w p.remotePieces).bit i = true := by
  intro hall
  have hcheck : checkNew Torrent.oneByteSha1 Torrent.oneByteConfig [] Torrent.nineByteFile (List.range 9)
      ⟨AList.insert [ascii "n.zit_downloading".toList] (.file (120 :: List.replicate 8 0)) ∅⟩
      (fun t w0 => decide (8 < t.pieces.length) &&
        (Action.runAll (fun _ _ => true) Torrent.oneByteSha1 t nineByteRun w0).any fun w =>
          w.peers.any fun p => p.remotePieces.bit 8 && !w.clientPieces.bit 8 &&
            !(Torrent.relevantPieces w p.remotePieces).bit 8) = true := by
    decide +kernel
  obtain ⟨t, w0, hc, h⟩ := checkNew_true hcheck
  simp only [Bool.and_eq_true, decide_eq_true_eq, Option.any_eq_true, List.any_eq_true,
    Bool.not_eq_true'] at h
  obtain ⟨hlen, w, hr, p, hp, ⟨hbit, hmiss⟩, hrel⟩ := h
  have hrun := (run_of_runAll hr).mono fun _ _ _ h => h.2
  rw [hall _ t w0 w _ p 8 hc hrun hp hlen hbit hmiss] at hrel
  cases hrel

end Zit
