import Zit.Proof.Pending
import Zit.RetryPieces

/-!
# The loop of `retry_pieces`

Every turn asks for at most what is left, because no peer has less than no pending requests: so
`retry` only counts down (`Countdown`). A pass over the peers either counts down or is the last one,
which bounds the turns (`retryLoop_spec`).
-/

set_option autoImplicit false

namespace Zit

open Lib World Retrying

/-- The turns count down from a number to another one, with no more requests than are left. -/
inductive Countdown : Nat → List Turn → Nat → Prop
  | nil (n : Nat) : Countdown n [] n
  | cons {n k m i : Nat} {turns : List Turn} (hk : k ≤ n) (h : Countdown (n - k) turns m) :
      Countdown n (⟨i, n, k⟩ :: turns) m

namespace Countdown

variable {n m : Nat} {turns turns' : List Turn}

/-- What has been counted down has been requested. -/
theorem sum (h : Countdown n turns m) : (turns.map (·.issued)).sum + m = n := by
  induction h with
  | nil n => simp
  | cons hk _ ih =>
    rw [List.map_cons, List.sum_cons, Nat.add_assoc, ih]
    exact Nat.add_sub_cancel' hk

theorem append {k : Nat} (h : Countdown n turns m) (h' : Countdown m turns' k) :
    Countdown n (turns ++ turns') k := by
  induction h with
  | nil => exact h'
  | cons hk _ ih => exact .cons hk (ih h')

end Countdown

/-- A pass over `size` peers in which no request is made. -/
def idlePass (size left : Nat) : List Turn := (List.range size).map fun i => ⟨i, left, 0⟩

theorem idlePass_succ (size left : Nat) :
    idlePass (size + 1) left = idlePass size left ++ [⟨size, left, 0⟩] := by
  rw [idlePass, List.range_succ, List.map_append]
  rfl

/-- The turns between two states of the loop count down. -/
def Turned (s : Retrying) (n : Nat) (s' : Retrying) (m : Nat) : Prop :=
  ∃ turns, s'.turns = s.turns ++ turns ∧ Countdown n turns m

namespace Turned

variable {s s' : Retrying} {w : World} {n m k i : Nat}

theorem refl (s : Retrying) (n : Nat) : Turned s n s n := ⟨[], (List.append_nil _).symm, .nil n⟩

/-- A turn and those after it. -/
theorem turn (hk : k ≤ n) (h : Turned ⟨w, s.turns ++ [⟨i, n, k⟩]⟩ (n - k) s' m) :
    Turned s n s' m := by
  obtain ⟨turns, hs, hdown⟩ := h
  refine ⟨⟨i, n, k⟩ :: turns, ?_, .cons hk hdown⟩
  rw [hs, List.append_assoc]
  rfl

end Turned

section
variable {t : Torrent} {clock : Nat → Int}

/-- `numeric_cast<unsigned short>` of a size. -/
theorem numericCast_size {n : Nat} {v : Int} (h : numericCast .u16 .u64 n = .ok v) :
    n < 2 ^ 16 ∧ v = n := by
  simp only [numericCast, IntTy.u16, IntTy.u64, IntTy.max, IntTy.wrap, Bool.false_eq_true,
    if_false] at h
  by_cases hn : (n : Int) > 2 ^ 16 - 1
  · rw [if_pos hn] at h
    cases h
  · rw [if_neg hn, Except.ok.injEq] at h
    omega

/-- What `retry_pieces` passes on as the maximum. -/
theorem maxPending_ok {pending : Int} {retry : UInt64} {n : UInt16} (hpending : 0 ≤ pending)
    (hretry : retry ≠ 0) (h : maxPending t pending retry = .ok n) :
    n ≠ 0 ∧ (n.toNat : Int) - pending ≤ retry.toNat := by
  have hpos : 0 < retry.toNat := Nat.pos_of_ne_zero fun h0 => hretry (UInt64.toNat.inj h0)
  unfold maxPending at h
  rw [if_neg (Int.not_lt.2 hpending)] at h
  cases hmax : numericCast .u64 .i32 t.maxPendingRequests with
  | error e =>
    rw [hmax] at h
    cases h
  | ok limit =>
    rw [hmax] at h
    obtain ⟨v, hv, rfl⟩ := map_eq_ok.1 h
    generalize hdesired : (if pending.toNat < limit.toNat then limit.toNat - pending.toNat else 1) =
      desired at hv
    have hone : 1 ≤ desired := by
      rw [← hdesired]
      split <;> omega
    obtain ⟨hlt, rfl⟩ := numericCast_size hv
    have hto : (UInt16.ofNat (pending.toNat + min desired retry.toNat)).toNat =
        pending.toNat + min desired retry.toNat := UInt16.toNat_ofNat_of_lt' hlt
    rw [Int.toNat_natCast]
    refine ⟨fun h0 => ?_, ?_⟩
    · rw [h0] at hto
      simp at hto
      omega
    · rw [hto]
      omega

theorem halts_maxPending (t : Torrent) (pending : Int) (retry : UInt64) :
    Halts (maxPending t pending retry) :=
  Halts.bind (Halts.map (halts_numericCast _ _ _ _)) fun _ => Halts.map (halts_numericCast _ _ _ _)

/-- A turn that stays within what is left. -/
theorem sub_issued {retry : UInt64} {issued : Nat} (h : issued ≤ retry.toNat) :
    (retry - UInt64.ofNat issued).toNat = retry.toNat - issued := by
  have hto : (UInt64.ofNat issued).toNat = issued :=
    UInt64.toNat_ofNat_of_lt' (Nat.lt_of_le_of_lt h retry.toNat_lt)
  rw [UInt64.toNat_sub_of_le _ _ (UInt64.le_iff_toNat_le.2 (by rw [hto]; exact h)), hto]

theorem wp_onWorld {α : Type} {m : App α} {s : Retrying} {Q : α → Retrying → Prop}
    {E : Exn → Retrying → Prop} : wp (onWorld m) s Q E ↔
      wp m s.world (fun a w => Q a { s with world := w }) fun e w => E e { s with world := w } :=
  wp_zoom m

/-- A turn without a request goes on with the pass, any other one has counted down. -/
theorem idlePass_turn {it issued : Nat} {start retry : UInt64} {turns : List Turn}
    (hk : issued ≤ retry.toNat) (hle : retry.toNat ≤ start.toNat)
    (hpass : retry = start → ∃ pre, turns = pre ++ idlePass it retry.toNat)
    (heq : retry - UInt64.ofNat issued = start) :
    ∃ pre, turns ++ [⟨it, retry.toNat, issued⟩] =
      pre ++ idlePass (it + 1) (retry - UInt64.ofNat issued).toNat := by
  have hsub := sub_issued hk
  rw [← heq, hsub] at hle
  have h0 : issued = 0 := by omega
  have hsame : retry - UInt64.ofNat issued = retry := UInt64.toNat.inj (by omega)
  obtain ⟨pre, hpre⟩ := hpass (hsame.symm.trans heq)
  exact ⟨pre, by rw [hpre, hsame, h0, List.append_assoc, idlePass_succ]⟩

/-- The rest of the loop, from a turn on: `retry` counts down; it ends with nothing left to retry or
with a pass without a request; and an exception that leaves it is not for want of turns. -/
theorem retryLoop_spec {size : Nat} (turns it : Nat) (start retry : UInt64) (s : Retrying)
    (hcount : Counted s.world) (hsize : s.world.peers.length = size) (hit : it < size)
    (hle : retry.toNat ≤ start.toNat) (hturns : size - it + size * start.toNat < turns)
    (hpass : retry = start → ∃ pre, s.turns = pre ++ idlePass it retry.toNat) :
    wp (retryLoop t clock turns it start retry) s
      (fun left s' => Turned s retry.toNat s' left.toNat ∧
        (left = 0 ∨ ∃ pre, s'.turns = pre ++ idlePass size left.toNat))
      fun e s' => e ≠ .diverged ∧ ∃ left, Turned s retry.toNat s' left := by
  induction turns generalizing it start retry s with
  | zero => omega
  | succ turns ih =>
    unfold retryLoop
    refine wp_ite (fun h0 => ⟨.refl s _, .inl h0⟩) fun hretry => ?_
    obtain ⟨p, hp⟩ : ∃ p, s.world.peers[it]? = some p :=
      ⟨_, List.getElem?_eq_getElem (by rw [hsize]; exact hit)⟩
    simp only [wp_bind, wp_onWorld]
    refine (wp_getPeer hp).2 ?_
    refine (wp_lift _).2 ⟨fun n hn => ?_, fun e he => ⟨?_, _, .refl s _⟩⟩
    rotate_left
    · rintro rfl
      exact halts_maxPending t _ _ he
    obtain ⟨hne, hlimit⟩ := maxPending_ok (hcount p (List.mem_of_getElem? hp)) hretry hn
    refine wp_mono (requestNextBlock_le it (clock turns) n hp) (fun issued w h => ?_)
      fun e w h => ⟨h.1, _, .refl s _⟩
    obtain ⟨hissued, hcounting⟩ := h
    have hk : issued ≤ retry.toNat := by
      rcases Nat.eq_zero_or_pos issued with h0 | hpos
      · omega
      · have := hissued hne hpos
        omega
    have hsub := sub_issued hk
    have hsize' : w.peers.length = size := hcounting.length.trans hsize
    have hpass' := idlePass_turn hk hle hpass
    have hturn : ∀ {s' m}, Turned ⟨w, s.turns ++ [⟨it, retry.toNat, issued⟩]⟩
        (retry - UInt64.ofNat issued).toNat s' m → Turned s retry.toNat s' m :=
      fun h => .turn hk (hsub ▸ h)
    -- what the rest of the loop ends with comes after this turn
    have hends : ∀ (left : UInt64) s', Turned ⟨w, s.turns ++ [⟨it, retry.toNat, issued⟩]⟩
          (retry - UInt64.ofNat issued).toNat s' left.toNat ∧
        (left = 0 ∨ ∃ pre, s'.turns = pre ++ idlePass size left.toNat) →
        Turned s retry.toNat s' left.toNat ∧
          (left = 0 ∨ ∃ pre, s'.turns = pre ++ idlePass size left.toNat) :=
      fun left s' h => ⟨hturn h.1, h.2⟩
    have hthrows : ∀ (e : Exn) s', (e ≠ .diverged ∧
        ∃ left, Turned ⟨w, s.turns ++ [⟨it, retry.toNat, issued⟩]⟩
          (retry - UInt64.ofNat issued).toNat s' left) →
        e ≠ .diverged ∧ ∃ left, Turned s retry.toNat s' left :=
      fun e s' h => ⟨h.1, h.2.imp fun _ => hturn⟩
    simp only [wp_modify, wp_get, hsize']
    refine wp_ite (fun hend => wp_ite (fun heq => ?_) fun hne' => ?_) fun hend => ?_
    · obtain ⟨pre, hpre⟩ := hpass' heq
      rw [hend] at hpre
      exact ⟨hturn (.refl _ _), .inr ⟨pre, hpre⟩⟩
    · have hlt : (retry - UInt64.ofNat issued).toNat + 1 ≤ start.toNat := by
        have := mt UInt64.toNat.inj hne'
        omega
      have hmul := Nat.mul_le_mul_left size hlt
      rw [Nat.mul_add_one] at hmul
      exact wp_mono (ih 0 _ _ _ (hcounting.counted hcount) hsize' (by omega) (Nat.le_refl _)
        (by omega) fun _ => ⟨_, by simp [idlePass]; rfl⟩) hends hthrows
    · exact wp_mono (ih (it + 1) start _ _ (hcounting.counted hcount) hsize' (by omega) (by omega)
        (by omega) hpass') hends hthrows

/-- The loop of `retry_pieces` for any peers and any number of blocks to retry, in a state in which
no peer has less than no pending requests: which is every state of a run. -/
theorem retryLoop_ends (sha1 : Bytes → Sha1) (t : Torrent) :
    (∀ w0 as w, Constructed sha1 t w0 → Run (Step sha1 t) w0 as w → Counted w) ∧
      ∀ (clock : Nat → Int) (retry : UInt64) (turns : Nat) (w : World), w.peers ≠ [] → Counted w →
        w.peers.length * (retry.toNat + 1) < turns →
        wp (retryLoop t clock turns 0 retry retry) ⟨w, []⟩
          (fun left s => Countdown retry.toNat s.turns left.toNat ∧
            (s.turns.map (·.issued)).sum + left.toNat = retry.toNat ∧
            (left = 0 ∨ ∃ pre, s.turns = pre ++ idlePass w.peers.length left.toNat))
          fun e s => e ≠ .diverged ∧ (∃ left, Countdown retry.toNat s.turns left) ∧
            (s.turns.map (·.issued)).sum ≤ retry.toNat := by
  refine ⟨fun w0 as w hc hr => counted_run hc hr,
    fun clock retry turns w hpeers hcount hturns => ?_⟩
  rw [Nat.mul_add_one, Nat.add_comm] at hturns
  refine wp_mono (retryLoop_spec turns 0 retry retry ⟨w, []⟩ hcount rfl
    (List.length_pos_iff.2 hpeers) (Nat.le_refl _) hturns fun _ => ⟨[], rfl⟩)
    (fun left s h => ?_) fun e s h => ?_
  · obtain ⟨⟨turns, hs, hdown⟩, hend⟩ := h
    rw [List.nil_append] at hs
    rw [hs] at hend ⊢
    exact ⟨hdown, hdown.sum, hend⟩
  · obtain ⟨he, left, turns, hs, hdown⟩ := h
    rw [List.nil_append] at hs
    rw [hs]
    exact ⟨he, ⟨left, hdown⟩, by have := hdown.sum; omega⟩

/-- Three blocks, a peer that cannot be asked and one that takes two of them. -/
theorem retryLoop_ends_willing : ∃ (t : Torrent) (w : World) (left : UInt64) (s : Retrying),
    w.peers.length = 2 ∧ retryLoop t (fun _ => 0) 9 0 3 3 ⟨w, []⟩ = .ok left s ∧
    s.turns = [⟨0, 3, 0⟩, ⟨1, 3, 2⟩, ⟨0, 1, 0⟩, ⟨1, 1, 0⟩] ∧ left = 1 ∧
    Countdown 3 s.turns left.toNat ∧ (s.turns.map (·.issued)).sum + left.toNat = 3 ∧
    (left = 0 ∨ ∃ pre, s.turns = pre ++ idlePass 2 left.toNat) := by
  let t : Torrent := {
    announce := []
    pieceLength := 1
    pieces := [.zero, .zero]
    mLength := 2
    name := []
    tmpfile := []
    infoHash := .zero
    listeningPort := 0
    connectionPort := 0
    maxPendingRequests := 50 }
  let willing : Peer := { amInterested := true, choking := false, remotePieces := ⟨[0xC0]⟩ }
  let w : World := {
    clientPieces := ⟨[0]⟩
    peers := [{ pendingRequests := 4 }, willing]
    disk := ⟨[], ⟨∅⟩, [], [], false⟩ }
  have hrun : wp (retryLoop t (fun _ => 0) 9 0 3 3) ⟨w, []⟩
      (fun left s => s.turns = [⟨0, 3, 0⟩, ⟨1, 3, 2⟩, ⟨0, 1, 0⟩, ⟨1, 1, 0⟩] ∧ left = 1)
      fun _ _ => False := by decide +kernel
  obtain ⟨left, s, hok, hturns, hleft⟩ := ok_of_wp hrun
  have hends := (retryLoop_ends (fun _ => .zero) t).2 (fun _ => 0) 3 9 w (by simp [w])
    (by simp [w, willing, Counted]) (by decide)
  have hend := wp_ok hends hok
  exact ⟨t, w, left, s, rfl, hok, hturns, hleft, hend⟩

/-! ## The whole function -/

/-- Marking blocks leaves the peers alone. -/
theorem markBlocks_spec (now : Int) (pieces : List (Sigma fun _ : UInt32 => Nat)) (retry : UInt64)
    (w : World) : wp (markBlocks now pieces retry) w (fun _ w' => Counting w w')
      fun e _ => e ≠ .diverged := by
  induction pieces generalizing retry w with
  | nil => exact .refl w
  | cons piece pieces ih =>
    simp only [markBlocks, store, wp_bind]
    refine wp_mono (deref_ends piece.2) (fun p w1 h1 => ?_) fun _ _ h => h.1
    obtain rfl := h1
    have hstore : Counting w1 { w1 with heap := w1.heap.set piece.2 (p.retryBlocks now).2 } :=
      .of_same rfl
    rw [wp_modify]
    exact wp_mono (ih _ _) (fun _ _ h => hstore.trans h) fun _ _ h => h

/-- `retry_pieces` ends in every state of a run, whatever it marks and however it shuffles the
peers. -/
theorem retryPieces_ends {sha1 : Bytes → Sha1} {w0 w : World} {as : List Action}
    (hc : Constructed sha1 t w0) (hr : Run (Step sha1 t) w0 as w) (order : PeerOrder)
    (stopped : Bool) {turns : Nat} (hturns : w.peers.length * 2 ^ 64 < turns) :
    wp (retryPieces t order stopped clock turns) ⟨w, []⟩
      (fun left s => ∃ retry, Countdown retry s.turns left.toNat)
      fun e s => e ≠ .diverged ∧ ∃ retry left, Countdown retry s.turns left := by
  refine wp_ite (fun _ => ⟨_, .nil _⟩) fun _ => ?_
  simp only [wp_bind, wp_get, wp_onWorld]
  refine wp_mono (markBlocks_spec _ _ 0 w) (fun retry w1 h1 => ?_)
    fun e _ h => ⟨h, _, _, .nil 0⟩
  refine wp_ite (fun _ => ⟨_, .nil _⟩) fun _ => ?_
  simp only [wp_bind, wp_get, wp_onWorld, wp_modify]
  refine wp_ite (fun _ => ⟨_, .nil _⟩) fun hpeers => ?_
  have hperm := order.perm w1.peers
  have hcount : Counted { w1 with peers := order.run w1.peers } := fun p hp =>
    h1.counted (counted_run hc hr) p (hperm.mem_iff.1 hp)
  have hsize : (order.run w1.peers).length = w.peers.length := hperm.length_eq.trans h1.length
  have hretry : w.peers.length * (retry.toNat + 1) ≤ w.peers.length * 2 ^ 64 :=
    Nat.mul_le_mul_left _ retry.toNat_lt
  rw [Nat.mul_add_one] at hretry
  refine wp_mono (retryLoop_spec turns 0 retry retry ⟨_, []⟩ hcount hsize ?_ (Nat.le_refl _)
    (by omega) fun _ => ⟨[], rfl⟩) (fun left s h => ?_) fun e s h => ?_
  · rw [← hsize]
    exact List.length_pos_iff.2 hpeers
  · obtain ⟨⟨turns, hs, hdown⟩, -⟩ := h
    rw [hs]
    exact ⟨_, hdown⟩
  · obtain ⟨he, left, turns, hs, hdown⟩ := h
    rw [hs]
    exact ⟨he, _, left, hdown⟩

end

end Zit
