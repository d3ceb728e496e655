import Zit.Proof.Orderly

/-!
# Well-formed pieces of a torrent

Every piece of a torrent is well formed in every state (`WellFormed.change`).
-/

set_option autoImplicit false

namespace Zit

open Lib Lib.Path World

structure WellFormed (sha1 : Bytes → Sha1) (t : Torrent) (w : World) : Prop extends
    Sound sha1 t w where
  formed : ∀ (ref : Nat) (p : Piece), w.heap[ref]? = some p → p.Formed

namespace WellFormed

variable {sha1 : Bytes → Sha1} {t : Torrent} {hz : Hazards} {w w' : World}

theorem start (cwd : Loc) (fs : FileSystem) : WellFormed sha1 t (World.start cwd fs) :=
  ⟨Sound.start cwd fs, fun _ _ h => by cases h⟩

theorem found (h : WellFormed sha1 t w) {id : UInt32} (hf : Found sha1 t id w w') :
    WellFormed sha1 t w' := by
  have hs := h.toSound.found hf
  cases hf
  exact ⟨hs, Heap.forall_append h.formed (Piece.Formed.create _ _).written⟩

theorem change (h : WellFormed sha1 t w) (hc : Change sha1 t hz w w') : WellFormed sha1 t w' := by
  refine ⟨h.toSound.change hc, ?_⟩
  cases hc with
  | peers _ => exact h.formed
  | bitfield _ _ _ _ => exact h.formed
  | sizeAll _ => exact h.formed
  | remote _ _ _ _ => exact h.formed
  | newPiece _ _ _ => exact Heap.forall_append h.formed (Piece.Formed.create _ _)
  | touch hp hsame => exact Heap.forall_set h.formed ((h.formed _ _ hp).same hsame)
  | block _ hp hb _ => exact Heap.forall_set h.formed ((h.formed _ _ hp).block hb)
  | lastBlock _ hp hb _ _ _ => exact Heap.forall_set h.formed ((h.formed _ _ hp).block hb)
  | skip _ _ => exact h.formed
  | reject _ _ _ _ _ hr => exact Heap.forall_set h.formed (Piece.Formed.reset _)
  | fail _ _ _ _ _ _ => exact h.formed
  | written _ hp _ _ _ _ => exact Heap.forall_set h.formed (h.formed _ _ hp).written
  | complete _ _ => exact h.formed
  | quiet _ _ => exact h.formed

theorem changes (h : WellFormed sha1 t w) (hc : Changes sha1 t hz w w') : WellFormed sha1 t w' :=
  chain_inv (fun _ _ h hc => h.change hc) hc h

theorem of_constructed (hc : Constructed sha1 t w) : WellFormed sha1 t w :=
  constructed_inv start (fun _ _ _ h hf => h.found hf) hc

end WellFormed

end Zit
