import Zit.Proof.Kept
import Zit.Proof.Lost
import Zit.Proof.Range
import Zit.Proof.Requests
import Zit.Proof.Seeder

/-!
# What an orderly download keeps

`Steady` gathers the invariants that hold as long as no block comes for a complete piece, every id is
in range and every right piece is written: whatever the peers do otherwise, a chain of changes keeps
them (`Steady.changes`). A piece that is counted as received then has all its blocks.
-/

set_option autoImplicit false

namespace Zit

open Lib World

/-- No late block, no id out of range, no failing write. -/
def Hazards.orderly : Hazards := { Hazards.all with late := False, wide := False, fail := False }

structure Steady (sha1 : Bytes → Sha1) (t : Torrent) (c : Loc) (w : World) : Prop where
  kept : Kept sha1 t c w
  tracked : Tracked sha1 t w
  wellFormed : WellFormed sha1 t w
  ranged : Ranged t w
  recorded : Recorded t w

section
variable {sha1 : Bytes → Sha1} {t : Torrent} {c : Loc} {content : Bytes} {w w' : World}
  {id : UInt32} {p : Piece}

/-- The own bitfield never shrinks, once it has a size. -/
theorem size_mono {hz : Hazards} (hc : Change sha1 t hz w w') (h : w.clientPieces.size ≠ 0) :
    w.clientPieces.size ≤ w'.clientPieces.size := by
  have hset (i : Nat) (b : Bool) : w.clientPieces.size ≤ (w.clientPieces.set i b).size := by
    rw [Bitfield.size_set]
    exact Nat.le_max_left ..
  cases hc with
  | bitfield i bf _ _ => simp only [if_neg h, le_refl]
  | sizeAll h0 => exact absurd h0 h
  | lastBlock _ _ _ _ _ _ => exact hset _ _
  | reject _ _ _ _ _ _ => exact hset _ _
  | _ => exact Nat.le_refl _

theorem size_changes {hz : Hazards} {n : Nat} (hn : 0 < n) (hc : Changes sha1 t hz w w')
    (h : n ≤ w.clientPieces.size) : n ≤ w'.clientPieces.size :=
  chain_inv (I := fun w => n ≤ w.clientPieces.size)
    (fun _ _ hs h1 => Nat.le_trans hs (size_mono h1 (by omega))) hc h

/-- All blocks are done. -/
theorem Piece.Formed.complete_iff_all (h : p.Formed) :
    p.complete = true ↔ ∀ j < p.blockCount.toNat, p.blocksDone.bit j = true := by
  have hsize := Bitfield.le_size_ofCount p.blockCount.toNat
  rw [← h.done] at hsize
  rw [Piece.complete_iff]
  exact ⟨fun hall j hj => hall j (Nat.lt_of_lt_of_le hj hsize) hj, fun hall j _ hj => hall j hj⟩

namespace Steady

theorem constructed (hc : Constructed sha1 t w) : Steady sha1 t w.disk.cwd w where
  kept := .constructed hc
  tracked := .constructed hc
  wellFormed := .of_constructed hc
  ranged := constructed_inv Ranged.start (fun _ _ _ h hf => h.found hf) hc
  recorded := constructed_inv Recorded.start (fun _ _ _ h hf => h.found hf) hc

theorem changes (h : Steady sha1 t c w) (hsep : Separate t c) (hlen : t.pieceLength ≠ 0)
    (hc : Changes sha1 t .orderly w w') : Steady sha1 t c w' :=
  chain_inv (fun _ _ h h1 => ⟨h.kept.change hsep id h1, h.tracked.change id hlen h1,
    h.wellFormed.change h1, h.ranged.change id h1, h.recorded.change h1⟩) hc h

/-- The piece with an id in range. -/
theorem pieceFor_some (h : Steady sha1 t c w) (hd : ContentOf sha1 t content)
    (hid : id.toNat < t.pieces.length) :
    ∃ p, pieceFor t w id = some p ∧ p.id = id ∧ p.pieceSize = sizeAt t id ∧ p.Formed := by
  obtain ⟨hsize, -, -⟩ := hd.size_ok hid
  cases hl : w.activePieces.lookup id with
  | none =>
    refine ⟨.create id (sizeAt t id), ?_, rfl, rfl, .create _ _⟩
    rw [pieceFor, hl, hsize]
    rfl
  | some ref =>
    obtain ⟨p, hp, hpid⟩ := h.wellFormed.active id ref hl
    have hpsize := h.recorded.sizes ref p hp
    rw [hpid, hsize, Except.ok.injEq] at hpsize
    exact ⟨p, (pieceFor_active hl).trans hp, hpid, hpsize.symm, h.wellFormed.formed ref p hp⟩

/-- A piece that is counted as received is complete. -/
theorem own_complete (h : Steady sha1 t c w) (hown : w.clientPieces.bit id.toNat = true)
    (hp : pieceFor t w id = some p) : p.complete = true := by
  obtain ⟨k, ref, q, hk, hl, hq, hq'⟩ := h.tracked.kept _ hown
  obtain rfl := UInt32.toNat.inj hk
  rw [pieceFor_active hl, hq] at hp
  obtain rfl := Option.some.inj hp
  rcases hq' with hwritten | hqueue
  · exact h.kept.complete ref _ hq hwritten
  · obtain ⟨q', hq', hcomplete, -⟩ := h.kept.queued ref hqueue
    rw [hq] at hq'
    rwa [Option.some.inj hq']

/-- A written piece is counted as received. -/
theorem written_own (h : Steady sha1 t c w) {ref : Nat} (hw : Written w id ref p) :
    w.clientPieces.bit id.toNat = true := by
  by_contra hown
  have hinc := h.tracked.again id ref p hw.1 hw.2.1 (by simpa using hown)
  rw [h.kept.complete ref p hw.2.1 hw.2.2] at hinc
  cases hinc

end Steady

end

end Zit
