import Zit.RetryPeers

/-!
# Which peers `retry_peers` drops

`Retried` is what it is for: the stale peers are stopped and dropped, the others stay, and the new
candidates are added. It stops the peers that stay instead of the stale ones, and `add_peer` replaces
a peer whose URL comes up again, so it does so exactly when there is nothing to drop or to replace
(`retryPeers_iff`).
-/

set_option autoImplicit false

namespace Zit

open Lib

namespace PeerList

/-- The list `s` after the peers `old` have been retried with these candidates. -/
structure Retried (old trackerPeers : List PeerRef) (s : PeerList) : Prop where
  dropped : ∀ p ∈ old, p.stale = true → p.ref ∈ s.stops ∧ p ∉ s.peers
  kept : ∀ p ∈ old, p.stale = false → s.peers.count p = 1 ∧ p.ref ∉ s.stops
  added : ∀ c ∈ trackerPeers, (∀ p ∈ old, p.stale = false → c.sameUrl p = false) →
    c ∈ s.peers ∧ c.ref ∈ s.handshakes

section
variable {s : PeerList}

/-! ## `add_peer` -/

/-- What `add_peer` does first. -/
theorem replace_spec (peer : PeerRef) : wp (replace peer) s (fun k s' =>
    k = none ∧ s' = s ∧ (∀ p ∈ s.peers, peer.sameUrl p = false) ∨
      ∃ i p, k = some i ∧ s.peers[i]? = some p ∧ peer.sameUrl p = true ∧
        s' = { s with peers := s.peers.eraseIdx i, stops := s.stops ++ [p.ref] })
    fun _ _ => False := by
  simp only [replace, wp_bind, wp_get]
  cases hk : s.peers.findIdx? (peer.sameUrl ·) with
  | none => exact .inl ⟨rfl, rfl, fun p hp => by simpa using List.findIdx?_eq_none_iff.1 hk p hp⟩
  | some i =>
    obtain ⟨hlt, hsame, -⟩ := List.findIdx?_eq_some_iff_getElem.1 hk
    simp only [List.getElem?_eq_getElem hlt, Option.toList_some, List.forM_cons, List.forM_nil,
      stop, wp_bind, wp_modify, wp_pure]
    exact .inr ⟨i, _, rfl, List.getElem?_eq_getElem hlt, hsame, rfl⟩

theorem addPeer_spec (peer : PeerRef) (newPeers : List PeerRef) :
    wp (addPeer peer (some newPeers)) s (fun r s' => peer.opens = true ∧
      r.1 = some (newPeers ++ [peer]) ∧
      (r.2 = none ∧ (∀ p ∈ s.peers, peer.sameUrl p = false) ∧
          s' = { s with handshakes := s.handshakes ++ [peer.ref] } ∨
        ∃ i p, r.2 = some i ∧ s.peers[i]? = some p ∧ peer.sameUrl p = true ∧
          s' = {
            peers := s.peers.eraseIdx i
            stops := s.stops ++ [p.ref]
            handshakes := s.handshakes ++ [peer.ref] }))
      fun _ s' => peer.opens = false ∧ s'.peers.Sublist s.peers := by
  simp only [addPeer, handshake, wp_bind]
  refine wp_mono (replace_spec peer) (fun k s1 h => ?_) fun _ _ h => h.elim
  refine wp_ite (fun hopens => ?_) fun hopens => ⟨by simpa using hopens, ?_⟩
  rotate_left
  · rcases h with ⟨-, rfl, -⟩ | ⟨i, p, -, -, -, rfl⟩
    · exact List.Sublist.refl _
    · exact List.eraseIdx_sublist _ _
  refine ⟨hopens, rfl, ?_⟩
  rcases h with ⟨rfl, rfl, hnone⟩ | ⟨i, p, rfl, hp, hsame, rfl⟩
  · exact .inl ⟨rfl, hnone, rfl⟩
  · exact .inr ⟨i, p, rfl, hp, hsame, rfl⟩

/-! ## The candidates -/

/-- Candidates with new URLs are only added. -/
theorem addPeers_new (trackerPeers newPeers : List PeerRef) (erased : List Nat)
    (hopens : ∀ c ∈ trackerPeers, c.opens = true)
    (hnew : ∀ c ∈ trackerPeers, ∀ p ∈ s.peers, c.sameUrl p = false) :
    wp (addPeers trackerPeers newPeers erased) s (fun r s' =>
      r = (newPeers ++ trackerPeers, erased) ∧
        s' = { s with handshakes := s.handshakes ++ trackerPeers.map (·.ref) })
      fun _ _ => False := by
  induction trackerPeers generalizing newPeers erased s with
  | nil =>
    rw [List.append_nil, List.map_nil, List.append_nil]
    exact ⟨rfl, rfl⟩
  | cons c trackerPeers ih =>
    rw [List.forall_mem_cons] at hopens hnew
    simp only [addPeers, wp_bind]
    refine wp_mono (addPeer_spec c newPeers) (fun r s1 h => ?_) fun _ _ h => ?_
    · obtain ⟨-, hr, ⟨hk, -, rfl⟩ | ⟨i, p, -, hp, hsame, -⟩⟩ := h
      · rw [hr, hk]
        refine wp_mono (ih _ _ hopens.2 hnew.2) (fun r s2 h => ?_) fun _ _ h => h
        obtain ⟨rfl, rfl⟩ := h
        simp
      · rw [hnew.1 p (List.mem_of_getElem? hp)] at hsame
        cases hsame
    · rw [hopens.1] at h
      cases h.1

/-- A candidate with the URL of a peer makes it stop one. -/
theorem addPeers_stops (trackerPeers newPeers : List PeerRef) (erased : List Nat) :
    wp (addPeers trackerPeers newPeers erased) s (fun r s' =>
      (∀ c ∈ trackerPeers, c.opens = true) ∧ erased ⊆ r.2 ∧ s.stops ⊆ s'.stops ∧
        ((∃ c ∈ trackerPeers, ∃ p ∈ s.peers, c.sameUrl p = true) →
          ∃ p ∈ s.peers, p.ref ∈ s'.stops)) fun _ _ => True := by
  induction trackerPeers generalizing newPeers erased s with
  | nil => exact ⟨by simp, List.Subset.refl _, List.Subset.refl _, by simp⟩
  | cons c trackerPeers ih =>
    simp only [addPeers, wp_bind]
    refine wp_mono (addPeer_spec c newPeers) (fun r s1 h => ?_) fun _ _ _ => trivial
    obtain ⟨hopens, -, h⟩ := h
    refine wp_mono (ih _ _) (fun _ s2 h2 => ?_) fun _ _ h => h
    obtain ⟨hall, herased, hmono, hstop⟩ := h2
    refine ⟨List.forall_mem_cons.2 ⟨hopens, hall⟩, (List.append_subset.1 herased).1, ?_,
      fun hmatch => ?_⟩
    · rcases h with ⟨-, -, rfl⟩ | ⟨i, p, -, -, -, rfl⟩
      · exact hmono
      · exact (List.append_subset.1 hmono).1
    · rcases h with ⟨-, hnone, rfl⟩ | ⟨i, p, -, hp, -, rfl⟩
      · obtain ⟨c', hc', p, hp, hsame⟩ := hmatch
        rcases List.mem_cons.1 hc' with rfl | hc'
        · rw [hnone p hp] at hsame
          cases hsame
        · exact hstop ⟨c', hc', p, hp, hsame⟩
      · exact ⟨p, List.mem_of_getElem? hp, hmono (List.mem_append_right _ (by simp))⟩

/-- As long as nothing is erased up to the position behind `front`, only peers of `back` are
stopped and erased. -/
theorem addPeers_front (trackerPeers newPeers : List PeerRef) (erased : List Nat)
    {front back : List PeerRef} (hs : s.peers = front ++ back) :
    wp (addPeers trackerPeers newPeers erased) s (fun r s' => (∀ k ∈ r.2, front.length < k) →
      (∃ back', s'.peers = front ++ back') ∧
        ∀ x ∈ s'.stops, x ∈ s.stops ∨ ∃ p ∈ back, p.ref = x) fun _ _ => True := by
  induction trackerPeers generalizing newPeers erased s back with
  | nil => exact fun _ => ⟨⟨back, hs⟩, fun x hx => .inl hx⟩
  | cons c trackerPeers ih =>
    simp only [addPeers, wp_bind]
    refine wp_mono (addPeer_spec c newPeers) (fun r s1 h => ?_) fun _ _ _ => trivial
    obtain ⟨-, -, ⟨-, -, rfl⟩ | ⟨i, p, hk, hp, -, rfl⟩⟩ := h
    · exact wp_mono (ih _ _ hs) (fun _ _ h => h) fun _ _ h => h
    · rw [hk, Option.toList_some]
      by_cases hi : i < front.length
      · refine wp_mono (addPeers_stops _ _ _) (fun r' s2 h2 hall => ?_) fun _ _ h => h
        have := hall i (h2.2.1 (List.mem_append_right _ (List.mem_singleton.2 rfl)))
        omega
      · rw [hs, List.getElem?_append_right (by omega)] at hp
        have hpeers : s.peers.eraseIdx i = front ++ back.eraseIdx (i - front.length) := by
          rw [hs, List.eraseIdx_append_of_length_le (by omega)]
        refine wp_mono (ih _ _ hpeers) (fun r' s2 h2 hall => ?_) fun _ _ h => h
        refine ⟨(h2 hall).1, fun x hx => ?_⟩
        rcases (h2 hall).2 x hx with hx | ⟨q, hq, rfl⟩
        · rcases List.mem_append.1 hx with hx | hx
          · exact .inl hx
          · exact .inr ⟨p, List.mem_of_getElem? hp, (List.mem_singleton.1 hx).symm⟩
        · exact .inr ⟨q, List.mem_of_mem_eraseIdx hq, rfl⟩

end

/-! ## `retry_peers` -/

theorem stop_all (ps : List PeerRef) (s : PeerList) :
    wp (forM ps stop) s (fun _ s' => s' = { s with stops := s.stops ++ ps.map (·.ref) })
      fun _ _ => False := by
  induction ps generalizing s with
  | nil =>
    rw [List.map_nil, List.append_nil]
    rfl
  | cons p ps ih =>
    simp only [List.forM_cons, stop, wp_bind, wp_modify]
    refine wp_mono (ih _) (fun _ s' h => ?_) fun _ _ h => h
    rw [h, List.map_cons, List.append_assoc]
    rfl

section
variable {partition : Partition} {old trackerPeers : List PeerRef}

theorem mem_run {f : PeerRef → Bool} {xs : List PeerRef} {p : PeerRef} :
    p ∈ (partition.run f xs).1 ++ (partition.run f xs).2 ↔ p ∈ xs := (partition.perm f xs).mem_iff

/-- With stale peers, none of them is stopped. -/
theorem retryPeers_stale (hnodup : (old.map (·.ref)).Nodup) {p : PeerRef} (hp : p ∈ old)
    (hstale : p.stale = true) : wp (retryPeers partition false trackerPeers) { peers := old }
      (fun _ s' => p.ref ∉ s'.stops) fun _ _ => True := by
  generalize hr : partition.run PeerRef.stale old = r
  obtain ⟨front, back⟩ := r
  have hmem : p ∈ front := by
    have hrun : p ∈ (partition.run PeerRef.stale old).1 ++ (partition.run PeerRef.stale old).2 :=
      mem_run.2 hp
    rw [hr] at hrun
    refine (List.mem_append.1 hrun).resolve_right fun hb => ?_
    have := partition.back PeerRef.stale old p (by rwa [hr])
    rw [hstale] at this
    cases this
  have hne : front.length ≠ 0 := fun h0 => by
    rw [List.eq_nil_of_length_eq_zero h0] at hmem
    cases hmem
  have hdisjoint : ∀ q ∈ back, q.ref ≠ p.ref := by
    have hperm := partition.perm PeerRef.stale old
    rw [hr] at hperm
    have hn := (hperm.map (·.ref)).nodup_iff.2 hnodup
    rw [List.map_append, List.nodup_append] at hn
    exact fun q hq he => hn.2.2 _ (List.mem_map_of_mem hmem) _ (List.mem_map_of_mem hq) he.symm
  simp only [retryPeers, Bool.false_eq_true, if_false, wp_bind, wp_get, hr, wp_set, if_pos hne]
  refine wp_mono (stop_all back _) (fun _ s1 h1 => ?_) fun _ _ h => h.elim
  refine wp_mono (addPeers_front _ _ _ (show s1.peers = front ++ back by rw [h1]))
    (fun r s2 h2 => ?_) fun _ _ _ => trivial
  refine wp_ite (fun _ => trivial) fun hany => ?_
  simp only [List.any_eq_true, decide_eq_true_eq, not_exists, not_and, Nat.not_le] at hany
  intro hstop
  rw [h1] at h2
  rcases (h2 hany).2 p.ref hstop with hx | ⟨q, hq, he⟩
  · obtain ⟨q, hq, he⟩ := List.mem_map.1 hx
    exact hdisjoint q hq he
  · exact hdisjoint q hq he

theorem run_fresh (partition : Partition) (hfresh : ∀ p ∈ old, p.stale = false) :
    (partition.run PeerRef.stale old).1 = [] ∧ (partition.run PeerRef.stale old).2.Perm old := by
  have hnil : (partition.run PeerRef.stale old).1 = [] := by
    rw [List.eq_nil_iff_forall_not_mem]
    intro p hp
    have hold := mem_run.1 (List.mem_append_left _ hp)
    have := partition.front PeerRef.stale old p hp
    rw [hfresh p hold] at this
    cases this
  have hperm := partition.perm PeerRef.stale old
  rw [hnil, List.nil_append] at hperm
  exact ⟨hnil, hperm⟩

/-- Without stale peers, a candidate with the URL of a peer stops one. -/
theorem retryPeers_match (hfresh : ∀ p ∈ old, p.stale = false)
    (hmatch : ∃ c ∈ trackerPeers, ∃ p ∈ old, c.sameUrl p = true) :
    wp (retryPeers partition false trackerPeers) { peers := old }
      (fun _ s' => ∃ p ∈ old, p.ref ∈ s'.stops) fun _ _ => True := by
  obtain ⟨hnil, hperm⟩ := run_fresh partition hfresh
  simp only [retryPeers, Bool.false_eq_true, if_false, wp_bind, wp_get, wp_set, hnil,
    List.nil_append, List.length_nil, ne_eq, not_true_eq_false]
  refine wp_mono (addPeers_stops _ _ _) (fun r s1 h1 => ?_) fun _ _ _ => trivial
  obtain ⟨c, hc, p, hp, hsame⟩ := hmatch
  obtain ⟨q, hq, hstop⟩ := h1.2.2.2 ⟨c, hc, p, hperm.mem_iff.2 hp, hsame⟩
  exact ⟨q, hperm.mem_iff.1 hq, hstop⟩

theorem retryPeers_opens :
    wp (retryPeers partition false trackerPeers) { peers := old }
      (fun _ _ => ∀ c ∈ trackerPeers, c.opens = true) fun _ _ => True := by
  generalize hr : partition.run PeerRef.stale old = r
  obtain ⟨front, back⟩ := r
  simp only [retryPeers, Bool.false_eq_true, if_false, wp_bind, wp_get, hr, wp_set]
  by_cases hne : front.length ≠ 0
  · simp only [if_pos hne, wp_bind]
    refine wp_mono (stop_all back _) (fun _ s1 _ => ?_) fun _ _ h => h.elim
    refine wp_mono (addPeers_stops _ _ _) (fun r s2 h2 => ?_) fun _ _ _ => trivial
    exact wp_ite (fun _ => trivial) fun _ => h2.1
  · simp only [if_neg hne, wp_bind]
    exact wp_mono (addPeers_stops _ _ _) (fun r s2 h2 => h2.1) fun _ _ _ => trivial

/-- With nothing to drop and nothing to replace, the candidates are added. -/
theorem retryPeers_new (partition : Partition) (hfresh : ∀ p ∈ old, p.stale = false)
    (hopens : ∀ c ∈ trackerPeers, c.opens = true)
    (hnew : ∀ c ∈ trackerPeers, ∀ p ∈ old, c.sameUrl p = false) :
    wp (retryPeers partition false trackerPeers) { peers := old }
      (fun _ s' => s'.stops = [] ∧ s'.handshakes = trackerPeers.map (·.ref) ∧
        ∃ arranged, arranged.Perm old ∧ s'.peers = arranged ++ trackerPeers) fun _ _ => False := by
  obtain ⟨hnil, hperm⟩ := run_fresh partition hfresh
  simp only [retryPeers, Bool.false_eq_true, if_false, wp_bind, wp_get, wp_set, hnil,
    List.nil_append, List.length_nil, ne_eq, not_true_eq_false, wp_modify]
  refine wp_mono (addPeers_new _ _ _ hopens fun c hc p hp => hnew c hc p (hperm.mem_iff.1 hp))
    (fun r s1 h1 => ?_) fun _ _ h => h
  obtain ⟨rfl, rfl⟩ := h1
  exact ⟨rfl, rfl, _, hperm, rfl⟩

/-- The peers are retried as intended exactly when there is nothing to do but to add peers: no peer
is inactive and not listening, no candidate has the URL of a peer, and the candidates' connections
can be created. -/
theorem retryPeers_iff (partition : Partition)
    (hnodup : ((old ++ trackerPeers).map (·.ref)).Nodup) :
    (∃ s', retryPeers partition false trackerPeers { peers := old } = .ok () s' ∧
      Retried old trackerPeers s') ↔
    (∀ p ∈ old, p.stale = false) ∧ (∀ c ∈ trackerPeers, c.opens = true) ∧
      ∀ c ∈ trackerPeers, ∀ p ∈ old, c.sameUrl p = false := by
  rw [List.map_append, List.nodup_append] at hnodup
  obtain ⟨hold, -, hdisjoint⟩ := hnodup
  constructor
  · intro h
    obtain ⟨s', hok, hs⟩ := h
    have hfresh : ∀ p ∈ old, p.stale = false := by
      intro p hp
      by_contra hstale
      have hstale' : p.stale = true := by simpa using hstale
      exact wp_ok (retryPeers_stale hold hp hstale') hok (hs.dropped p hp hstale').1
    refine ⟨hfresh, wp_ok (Q := fun _ _ => ∀ c ∈ trackerPeers, c.opens = true)
      retryPeers_opens hok, fun c hc p hp => ?_⟩
    by_contra hsame
    obtain ⟨q, hq, hstop⟩ := wp_ok (retryPeers_match hfresh ⟨c, hc, p, hp, by simpa using hsame⟩) hok
    exact (hs.kept q hq (hfresh q hq)).2 hstop
  · intro h
    obtain ⟨hfresh, hopens, hnew⟩ := h
    have hspec := retryPeers_new partition hfresh hopens hnew
    cases hok : retryPeers partition false trackerPeers { peers := old } with
    | error e s' => exact (wp_error hspec hok).elim
    | ok u s' =>
      obtain ⟨hstops, hshakes, arranged, hperm, hpeers⟩ := wp_ok hspec hok
      refine ⟨s', rfl, fun p hp hstale => ?_, fun p hp _ => ⟨?_, ?_⟩, fun c hc _ => ⟨?_, ?_⟩⟩
      · rw [hfresh p hp] at hstale
        cases hstale
      · have hnot : p ∉ trackerPeers := fun hc =>
          hdisjoint _ (List.mem_map_of_mem hp) _ (List.mem_map_of_mem hc) rfl
        rw [hpeers, List.count_append, List.count_eq_zero_of_not_mem hnot, hperm.count_eq]
        exact List.count_eq_one_of_mem hold.of_map hp
      · rw [hstops]
        exact List.not_mem_nil
      · rw [hpeers]
        exact List.mem_append_right _ hc
      · rw [hshakes]
        exact List.mem_map_of_mem hc

end

/-- The partition that keeps the order. -/
def stablePartition : Partition where
  run f xs := (xs.filter f, xs.filter fun p => !f p)
  perm f xs := List.filter_append_perm f xs
  front f xs p hp := (List.mem_filter.1 hp).2
  back f xs p hp := by simpa using (List.mem_filter.1 hp).2

theorem retryPeers_iff_one : ∃ s',
    retryPeers stablePartition false [⟨1, some [98], false, false, true⟩]
      { peers := [⟨0, some [97], false, false, true⟩] } = .ok () s' ∧
    Retried [⟨0, some [97], false, false, true⟩] [⟨1, some [98], false, false, true⟩] s' :=
  (retryPeers_iff stablePartition (by decide)).2 (by decide)

/-- An inactive peer is dropped without being stopped, and the active one is stopped. -/
theorem retryPeers_swapped : ¬∀ (partition : Partition) (old trackerPeers : List PeerRef),
    ((old ++ trackerPeers).map (·.ref)).Nodup →
      ∃ s', retryPeers partition false trackerPeers { peers := old } = .ok () s' ∧
        Retried old trackerPeers s' := by
  intro hall
  obtain ⟨s', hok, hs⟩ := hall stablePartition
    [⟨0, some [97], true, false, true⟩, ⟨1, some [98], false, false, true⟩] [] (by decide)
  have hrun : retryPeers stablePartition false []
      { peers := [⟨0, some [97], true, false, true⟩, ⟨1, some [98], false, false, true⟩] } =
      .ok () { peers := [⟨1, some [98], false, false, true⟩], stops := [1] } := rfl
  rw [hrun] at hok
  cases hok
  exact absurd (hs.dropped _ (List.mem_cons_self) rfl).1 (by decide)

end PeerList

end Zit
