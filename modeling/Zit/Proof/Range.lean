import Zit.Proof.Done

/-!
# Ids in range

Ids come in with four kinds of messages and nothing checks them. `Ranged`: the active pieces and the
pieces of the peers are pieces of the torrent. Every change keeps it as long as no id beyond the
pieces comes in (`Ranged.change`), and the own bits follow the active pieces (`ids_in_range`). A
single REQUEST breaks it (`ids_out_of_range`).
-/

set_option autoImplicit false

namespace Zit

open Lib Lib.Path World

structure Ranged (t : Torrent) (w : World) : Prop where
  active : ∀ id ref, w.activePieces.lookup id = some ref → id.toNat < t.pieces.length
  remote : ∀ p ∈ w.peers, ∀ j, t.pieces.length ≤ j → j < 2 ^ 32 → ¬p.remotePieces.bit j = true

/-- No id beyond the pieces comes in. -/
def Hazards.noWide : Hazards := { Hazards.all with wide := False }

section
variable {sha1 : Bytes → Sha1} {t : Torrent} {hz : Hazards} {w w' : World}

namespace Ranged

theorem start (cwd : Loc) (fs : FileSystem) : Ranged t (World.start cwd fs) :=
  ⟨fun _ _ h => (nomatch h), fun _ h => (List.not_mem_nil h).elim⟩

theorem insert {id : UInt32} {ref : Nat} (h : Ranged t w) (hid : id.toNat < t.pieces.length)
    {k : UInt32} {r : Nat} (hk : (w.activePieces.insert id ref).lookup k = some r) :
    k.toNat < t.pieces.length := by
  rcases Heap.insert_some hk with ⟨rfl, -⟩ | ⟨-, hk⟩
  · exact hid
  · exact h.active k r hk

theorem found (h : Ranged t w) {id : UInt32} (hf : Found sha1 t id w w') : Ranged t w' := by
  cases hf with
  | intro _ _ hhash _ _ =>
    exact ⟨fun k r hk => h.insert (List.getElem?_eq_some_iff.1 hhash).1 hk, h.remote⟩

theorem change (h : Ranged t w) (hwide : ¬hz.wide) (hc : Change sha1 t hz w w') :
    Ranged t w' := by
  cases hc with
  | peers hps =>
    refine ⟨h.active, fun p hp j hj hlt => ?_⟩
    rcases hps p hp with he | ⟨q, hq, he⟩
    · rw [he]
      exact Bool.false_ne_true
    · rw [← he]
      exact h.remote q hq j hj hlt
  | bitfield i bf _ hbits =>
    refine ⟨h.active, fun p hp j hj hlt => ?_⟩
    rcases mem_modify hp with hp | ⟨q, hq, rfl⟩
    · exact h.remote p hp j hj hlt
    · exact fun hbit => hwide (hbits ⟨j, hj, hbit⟩)
  | sizeAll _ => exact ⟨h.active, h.remote⟩
  | remote i bf _ hbits =>
    refine ⟨h.active, fun p hp j hj hlt => ?_⟩
    rcases mem_modify hp with hp | ⟨q, hq, rfl⟩
    · exact h.remote p hp j hj hlt
    · intro hbit
      rcases hbits j hj hlt hbit with ⟨q', hq', hbit'⟩ | hw
      · exact h.remote q' hq' j hj hlt hbit'
      · exact hwide hw
  | newPiece _ _ hrange =>
    refine ⟨fun k r hk => h.insert ?_ hk, h.remote⟩
    by_contra hlt
    rcases hrange (Nat.le_of_not_lt hlt) with ⟨q, hq, hbit⟩ | hw
    · exact h.remote q hq _ (Nat.le_of_not_lt hlt) (UInt32.toNat_lt _) hbit
    · exact hwide hw
  | touch _ _ => exact ⟨h.active, h.remote⟩
  | block _ _ _ _ => exact ⟨h.active, h.remote⟩
  | lastBlock _ _ _ _ _ _ => exact ⟨h.active, h.remote⟩
  | skip _ _ => exact ⟨h.active, h.remote⟩
  | @reject ref r rest p q hash _ _ _ _ _ _ =>
    exact ⟨fun k r hk => h.active k r (Heap.erase_some hk).2, h.remote⟩
  | fail _ _ _ _ _ _ => exact ⟨h.active, h.remote⟩
  | written _ _ _ _ _ _ => exact ⟨h.active, h.remote⟩
  | complete _ _ => exact ⟨h.active, h.remote⟩
  | quiet _ _ => exact ⟨h.active, h.remote⟩

end Ranged

/-- Without an id beyond the pieces coming in, the active pieces and the own bits are pieces of the
torrent. -/
theorem ids_in_range {w0 : World} {as : List Action} (hc : Constructed sha1 t w0)
    (hr : Run (StepWithin sha1 t .noWide) w0 as w) :
    (∀ id ref, w.activePieces.lookup id = some ref → id.toNat < t.pieces.length) ∧
      ∀ i, w.clientPieces.bit i = true → i < t.pieces.length := by
  have h0 : Ranged t w0 := constructed_inv Ranged.start (fun _ _ _ h hf => h.found hf) hc
  have h : Ranged t w := chain_inv (fun _ _ h hc => h.change (fun hf => hf) hc) (run_changes hr) h0
  have hs : Sound sha1 t w := sound_run hc (hr.mono fun _ _ _ h => h.2)
  refine ⟨h.active, fun i hi => ?_⟩
  obtain ⟨id, ref, rfl, ha⟩ := hs.bits i hi
  exact h.active id ref ha

end

/-- No id of the call is beyond the pieces, for evaluation. -/
def Action.inRange (t : Torrent) : Action → Bool
  | .setRemotePieces _ bf =>
    (List.range bf.size).all fun j => decide (j < t.pieces.length) || !bf.bit j
  | .have _ id _ | .request _ id _ _ | .activePiece id _ => decide (id.toNat < t.pieces.length)
  | _ => true

theorem hazards_inRange {sha1 : Bytes → Sha1} {t : Torrent} {w : World} {a : Action}
    (h : a.inRange t = true) : (a.hazards sha1 t w).Le .noWide := by
  refine ⟨fun _ => trivial, fun _ => trivial, fun hw => ?_, fun _ => trivial, fun _ => trivial⟩
  cases a with
  | setRemotePieces i bf =>
    obtain ⟨j, hj, hbit⟩ := hw
    simp only [Action.inRange, List.all_eq_true, List.mem_range, Bool.or_eq_true,
      decide_eq_true_eq, Bool.not_eq_true'] at h
    rcases h j (bf.lt_size_of_bit hbit) with hlt | hno
    · omega
    · rw [hno] at hbit
      cases hbit
  | «have» i id now => exact absurd hw.1 (by simpa [Action.inRange] using h)
  | request i id begin length => exact absurd hw.1 (by simpa [Action.inRange] using h)
  | activePiece id create => exact absurd hw.1 (by simpa [Action.inRange] using h)
  | _ => exact hw

theorem ids_in_range_oneByte : ∃ t w0 w, Constructed Torrent.oneByteSha1 t w0 ∧
    Run (StepWithin Torrent.oneByteSha1 t .noWide) w0 oneByteRun w ∧ t.pieces.length = 1 ∧
    (w.activePieces.lookup 0).isSome = true ∧
    (∀ id ref, w.activePieces.lookup id = some ref → id.toNat < t.pieces.length) ∧
    ∀ i, w.clientPieces.bit i = true → i < t.pieces.length := by
  have hcheck : checkNew Torrent.oneByteSha1 Torrent.oneByteConfig [] Torrent.oneByteFile [0] ⟨∅⟩
      (fun t w0 => decide (t.pieces.length = 1) &&
        (Action.runAll (fun _ a => a.inRange t) Torrent.oneByteSha1 t oneByteRun w0).any
          fun w => (w.activePieces.lookup 0).isSome) = true := by
    decide +kernel
  obtain ⟨t, w0, hc, h⟩ := checkNew_true hcheck
  simp only [Bool.and_eq_true, decide_eq_true_eq, Option.any_eq_true] at h
  obtain ⟨hlen, w, hr, hactive⟩ := h
  have hrun : Run (StepWithin Torrent.oneByteSha1 t .noWide) w0 oneByteRun w :=
    (run_of_runAll hr).mono fun _ _ _ h => ⟨hazards_inRange h.1, h.2⟩
  exact ⟨t, w0, w, hc, hrun, hlen, hactive, ids_in_range hc hrun⟩

/-- A REQUEST for a piece that does not exist makes it active. -/
theorem ids_out_of_range : ¬∀ (sha1 : Bytes → Sha1) (t : Torrent) (w0 w : World)
    (as : List Action), Constructed sha1 t w0 → Run (Step sha1 t) w0 as w →
    ∀ id ref, w.activePieces.lookup id = some ref → id.toNat < t.pieces.length := by
  intro hall
  have hcheck : checkNew Torrent.oneByteSha1 Torrent.oneByteConfig [] Torrent.oneByteFile [0] ⟨∅⟩
      (fun t w0 => decide (t.pieces.length = 1) &&
        (Action.runAll (fun _ _ => true) Torrent.oneByteSha1 t
          [.connect true, .setInterested 0 true, .request 0 7 0 1] w0).any
          fun w => (w.activePieces.lookup 7).isSome) = true := by
    decide +kernel
  obtain ⟨t, w0, hc, h⟩ := checkNew_true hcheck
  simp only [Bool.and_eq_true, decide_eq_true_eq, Option.any_eq_true, Option.isSome_iff_exists] at h
  obtain ⟨hlen, w, hr, ref, href⟩ := h
  have hlt := hall _ t w0 w _ hc ((run_of_runAll hr).mono fun _ _ _ h => h.2) 7 ref href
  rw [hlen] at hlt
  exact absurd hlt (by decide)

end Zit
