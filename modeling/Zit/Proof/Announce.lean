import Zit.Tracker

/-!
# The order in which trackers are asked

The loops of `tracker_request` for given outcomes: `tiers` has, in the order after the shuffle, what
asking each URL comes to, and a URL is named by its position in all of them. Every run of the
trackers follows these loops (`trackerRequest_outcomes`). The URLs are asked one after the other up
to the first success exactly when no reply without success has another URL behind it in its tier
(`follows_iff`).
-/

set_option autoImplicit false

namespace Zit.Announce

open Lib Trackers

/-- What the `try` block of a URL comes to: a reply, with or without success, or an exception. -/
abbrev Outcome := Except TrackerExn (Bool × List TrackerPeer × Option Url)

def succeeds : Outcome → Bool
  | .ok (success, _) => success
  | .error _ => false

/-- A reply without success, such as that of an UDP tracker that cannot be reached. -/
def refuses : Outcome → Bool
  | .ok (success, _) => !success
  | .error _ => false

/-- The loop over one tier whose first URL is at position `pos`: the positions asked, and the
variables after it. -/
def tryTier (stopped : Bool) : Nat → List Outcome → Attempt → List Nat × Attempt
  | _, [], a => ([], a)
  | pos, o :: tier, a =>
    if stopped then ([], a)
    else
      match o with
      | .ok (success, peers, via) => ([pos], ⟨success, peers, via, none⟩)
      | .error .http =>
        let (asked, a) := tryTier stopped (pos + 1) tier a
        (pos :: asked, a)
      | .error (.std e) =>
        let (asked, a) := tryTier stopped (pos + 1) tier { a with thrown := some e }
        (pos :: asked, a)

def tryTiers (stopped : Bool) : Nat → List (List Outcome) → Attempt → List Nat × Attempt
  | _, [], a => ([], a)
  | pos, tier :: tiers, a =>
    let (asked, a) := tryTier stopped pos tier a
    if a.success then (asked, a)
    else
      let (asked', a) := tryTiers stopped (pos + tier.length) tiers a
      (asked ++ asked', a)

/-- What `tracker_request` makes of its variables. -/
def conclude (isLocalPeer : TrackerPeer → Bool) (a : Attempt) : Except Exn (List TrackerPeer) :=
  match a.thrown with
  | some e => .error e
  | none => .ok (a.peers.filter fun p => !isLocalPeer p)

/-- How many URLs are asked when they are asked in order up to the first success. -/
def reach (outcomes : List Outcome) : Nat := min (outcomes.findIdx succeeds + 1) outcomes.length

/-- The law of multi-tracker lists: the URLs are asked in order up to the first success, whose peers
are returned, and it is a failure only when none succeeds. -/
structure Follows (isLocalPeer : TrackerPeer → Bool) (tiers : List (List Outcome))
    (asked : List Nat) (a : Attempt) : Prop where
  order : asked = List.range (reach tiers.flatten)
  first : ∀ peers via, tiers.flatten.find? succeeds = some (.ok (true, peers, via)) →
    conclude isLocalPeer a = .ok (peers.filter fun p => !isLocalPeer p)
  failure : (∃ e, conclude isLocalPeer a = .error e) ∨ a.success = false →
    ∀ o ∈ tiers.flatten, succeeds o = false

/-- A reply without success that has a URL behind it in its tier comes after a success. -/
def Unskipped (tiers : List (List Outcome)) : Prop :=
  ∀ pre tier post l u r, tiers = pre ++ tier :: post → tier = l ++ u :: r → r ≠ [] →
    refuses u = true → ∃ v ∈ pre.flatten ++ l, succeeds v = true

/-! ## One tier -/

section
variable {tier l r : List Outcome} {u : Outcome} {pos : Nat} {a : Attempt}

/-- The end of the loop over a tier: at the first reply, or behind the last URL. -/
inductive TierEnd (pos : Nat) (a : Attempt) : List Outcome → List Nat × Attempt → Prop
  | reply {l r : List Outcome} {success : Bool} {peers : List TrackerPeer} {via : Option Url}
      (hl : ∀ o ∈ l, ∃ e, o = .error e) :
      TierEnd pos a (l ++ .ok (success, peers, via) :: r)
        (List.range' pos (l.length + 1), ⟨success, peers, via, none⟩)
  | thrown {l : List Outcome} {thrown : Option Exn} (hl : ∀ o ∈ l, ∃ e, o = .error e) :
      TierEnd pos a l (List.range' pos l.length, { a with thrown })

theorem TierEnd.cons {thrown : Option Exn} {asked : List Nat} {a' : Attempt} (e : TrackerExn)
    (h : TierEnd (pos + 1) { a with thrown } tier (asked, a')) :
    TierEnd pos a (.error e :: tier) (pos :: asked, a') := by
  cases h with
  | reply hl =>
    rename_i l r success peers via
    exact @TierEnd.reply pos a (.error e :: l) r success peers via
      (List.forall_mem_cons.2 ⟨⟨e, rfl⟩, hl⟩)
  | thrown hl =>
    rename_i thrown'
    exact @TierEnd.thrown pos a (.error e :: tier) thrown'
      (List.forall_mem_cons.2 ⟨⟨e, rfl⟩, hl⟩)

theorem tryTier_end (pos : Nat) (tier : List Outcome) (a : Attempt) :
    TierEnd pos a tier (tryTier false pos tier a) := by
  induction tier generalizing pos a with
  | nil => exact @TierEnd.thrown pos a [] a.thrown (by simp)
  | cons o tier ih =>
    cases o with
    | ok reply => exact @TierEnd.reply pos a [] tier reply.1 reply.2.1 reply.2.2 (by simp)
    | error e =>
      cases e with
      | http => exact (ih (pos + 1) a).cons .http
      | std e => exact (ih (pos + 1) { a with thrown := some e }).cons (.std e)

theorem succeeds_error (hl : ∀ o ∈ l, ∃ e, o = .error e) : ∀ o ∈ l, succeeds o = false := by
  intro o ho
  obtain ⟨e, rfl⟩ := hl o ho
  rfl

/-! ## How far the order reaches -/

theorem findIdx_of_none (h : ∀ o ∈ l, succeeds o = false) : l.findIdx succeeds = l.length :=
  List.findIdx_eq_length_of_false h

theorem reach_append (h : ∀ o ∈ l, succeeds o = false) : reach (l ++ r) = l.length + reach r := by
  unfold reach
  rw [List.findIdx_append, findIdx_of_none h, if_neg (Nat.lt_irrefl _), List.length_append]
  omega

theorem reach_success (h : ∀ o ∈ l, succeeds o = false) (hu : succeeds u = true) :
    reach (l ++ u :: r) = l.length + 1 := by
  rw [reach_append h, reach, List.findIdx_cons, hu, cond_true, List.length_cons]
  omega

theorem reach_pos (u : Outcome) (r : List Outcome) : 0 < reach (u :: r) := by
  unfold reach
  rw [List.length_cons]
  omega

end

/-! ## Which lists are asked in order -/

section
variable {tier l r : List Outcome} {u : Outcome} {tiers : List (List Outcome)} {pos : Nat}
  {a : Attempt}

/-- The same for one tier. -/
def TierUnskipped (tier : List Outcome) : Prop :=
  ∀ l u r, tier = l ++ u :: r → r ≠ [] → refuses u = true → ∃ v ∈ l, succeeds v = true

theorem tierUnskipped_error (e : TrackerExn) :
    TierUnskipped (.error e :: tier) ↔ TierUnskipped tier := by
  constructor
  · intro h l u r ht hr hu
    obtain ⟨v, hv, hsv⟩ := h (.error e :: l) u r (by rw [ht]; rfl) hr hu
    rcases List.mem_cons.1 hv with rfl | hv
    · cases hsv
    · exact ⟨v, hv, hsv⟩
  · intro h l u r ht hr hu
    cases l with
    | nil =>
      obtain ⟨rfl, -⟩ := List.cons.inj ht
      cases hu
    | cons o l =>
      obtain ⟨rfl, ht'⟩ := List.cons.inj ht
      obtain ⟨v, hv, hsv⟩ := h l u r ht' hr hu
      exact ⟨v, List.mem_cons_of_mem _ hv, hsv⟩

theorem tierUnskipped_reply (success : Bool) (peers : List TrackerPeer) (via : Option Url) :
    TierUnskipped (.ok (success, peers, via) :: r) ↔ success = true ∨ r = [] := by
  constructor
  · intro h
    by_contra hc
    rw [not_or, Bool.not_eq_true] at hc
    obtain ⟨v, hv, -⟩ := h [] _ r rfl hc.2 (by simp [refuses, hc.1])
    cases hv
  · intro h l u r' ht hr hu
    cases l with
    | nil =>
      obtain ⟨rfl, rfl⟩ := List.cons.inj ht
      rcases h with rfl | rfl
      · cases hu
      · exact absurd rfl hr
    | cons o l =>
      obtain ⟨rfl, ht'⟩ := List.cons.inj ht
      rcases h with rfl | rfl
      · exact ⟨_, List.mem_cons_self, rfl⟩
      · simp at ht'

theorem tierUnskipped_append (hl : ∀ o ∈ l, ∃ e, o = .error e) :
    TierUnskipped (l ++ tier) ↔ TierUnskipped tier := by
  induction l with
  | nil => rfl
  | cons o l ih =>
    obtain ⟨⟨e, rfl⟩, hl'⟩ := List.forall_mem_cons.1 hl
    rw [List.cons_append, tierUnskipped_error, ih hl']

theorem unskipped_cons : Unskipped (tier :: tiers) ↔
    TierUnskipped tier ∧ ((∃ v ∈ tier, succeeds v = true) ∨ Unskipped tiers) := by
  constructor
  · intro h
    refine ⟨fun l u r ht hr hu => ?_, ?_⟩
    · simpa using h [] tier tiers l u r rfl ht hr hu
    · by_cases hs : ∃ v ∈ tier, succeeds v = true
      · exact .inl hs
      · refine .inr fun pre t post l u r hts ht hr hu => ?_
        obtain ⟨v, hv, hsv⟩ := h (tier :: pre) t post l u r (by rw [hts]; rfl) ht hr hu
        rw [List.flatten_cons, List.append_assoc, List.mem_append] at hv
        exact ⟨v, hv.resolve_left fun hc => hs ⟨v, hc, hsv⟩, hsv⟩
  · rintro ⟨hfirst, hrest⟩ pre t post l u r hts ht hr hu
    cases pre with
    | nil =>
      obtain ⟨rfl, -⟩ := List.cons.inj hts
      simpa using hfirst l u r ht hr hu
    | cons t' pre =>
      obtain ⟨rfl, hts'⟩ := List.cons.inj hts
      rw [List.flatten_cons, List.append_assoc]
      rcases hrest with ⟨v, hv, hsv⟩ | hrest
      · exact ⟨v, List.mem_append_left _ hv, hsv⟩
      · obtain ⟨v, hv, hsv⟩ := hrest pre t post l u r hts' ht hr hu
        exact ⟨v, List.mem_append_right _ hv, hsv⟩

/-- Nothing is asked twice. -/
theorem le_of_asked {p : Nat} (h : p ∈ (tryTiers false pos tiers a).1) : pos ≤ p := by
  induction tiers generalizing pos a with
  | nil => cases h
  | cons tier tiers ih =>
    obtain ⟨asked, a', htier⟩ : ∃ asked a', tryTier false pos tier a = (asked, a') := ⟨_, _, rfl⟩
    have hasked : ∀ q ∈ asked, pos ≤ q := by
      have hend := tryTier_end pos tier a
      rw [htier] at hend
      intro q hq
      cases hend with
      | reply => exact (List.mem_range'_1.1 hq).1
      | thrown => exact (List.mem_range'_1.1 hq).1
    simp only [tryTiers, htier] at h
    split at h
    · exact hasked p h
    · rcases List.mem_append.1 h with h | h
      · exact hasked p h
      · exact (Nat.le_add_right _ _).trans (ih h)

/-! ## Behind a tier without success -/

theorem order_continue (h : ∀ o ∈ tier, succeeds o = false) {asked : List Nat} :
    List.range' pos tier.length ++ asked = List.range' pos (reach (tier ++ r)) ↔
      asked = List.range' (pos + tier.length) (reach r) := by
  rw [reach_append h, ← List.range'_append_1, List.append_cancel_left_eq]

theorem find_continue (h : ∀ o ∈ tier, succeeds o = false) :
    (tier ++ r).find? succeeds = r.find? succeeds := by
  rw [List.find?_append, List.find?_eq_none.2 fun o ho => by simp [h o ho], Option.none_or]

theorem unskipped_continue (h : ∀ o ∈ tier, succeeds o = false) (ht : TierUnskipped tier) :
    Unskipped (tier :: tiers) ↔ Unskipped tiers := by
  have hno : ¬∃ v ∈ tier, succeeds v = true := by
    intro hin
    obtain ⟨v, hv, hsv⟩ := hin
    rw [h v hv] at hsv
    cases hsv
  rw [unskipped_cons, and_iff_right ht, or_iff_right hno]

/-- A tier that is left before its end leaves out a position. -/
theorem not_order (h : ∀ o ∈ l, succeeds o = false) (hr : r ≠ []) {asked : List Nat}
    (hasked : ∀ p ∈ asked, pos + (l ++ r).length ≤ p) (rest : List Outcome) :
    List.range' pos l.length ++ asked ≠ List.range' pos (reach (l ++ r ++ rest)) := by
  intro heq
  obtain ⟨u, r, rfl⟩ := List.exists_cons_of_ne_nil hr
  have hpos := reach_pos u (r ++ rest)
  have hmem : pos + l.length ∈ List.range' pos (reach (l ++ u :: r ++ rest)) := by
    rw [List.append_assoc, reach_append h, List.cons_append, List.mem_range'_1]
    omega
  rw [← heq] at hmem
  rcases List.mem_append.1 hmem with hmem | hmem
  · have := (List.mem_range'_1.1 hmem).2
    omega
  · have := hasked _ hmem
    rw [List.length_append, List.length_cons] at this
    omega

/-- The positions asked from `pos` on, and the variables after the search: a success with its peers,
or none. -/
def Searched (tiers : List (List Outcome)) (pos : Nat) (result : List Nat × Attempt) : Prop :=
  (result.1 = List.range' pos (reach tiers.flatten) ↔ Unskipped tiers) ∧
    (Unskipped tiers → (result.2.success = false ∧ ∀ o ∈ tiers.flatten, succeeds o = false) ∨
      ∃ peers via, tiers.flatten.find? succeeds = some (.ok (true, peers, via)) ∧
        result.2 = ⟨true, peers, via, none⟩)

namespace Searched

variable {peers : List TrackerPeer} {via : Option Url} {asked : List Nat}

/-- The search ends with a success. -/
theorem success (hl : ∀ o ∈ l, ∃ e, o = .error e) :
    Searched ((l ++ .ok (true, peers, via) :: r) :: tiers) pos
      (List.range' pos (l.length + 1), ⟨true, peers, via, none⟩) := by
  have hls := succeeds_error hl
  have hunskipped : Unskipped ((l ++ .ok (true, peers, via) :: r) :: tiers) := by
    rw [unskipped_cons, tierUnskipped_append hl, tierUnskipped_reply]
    exact ⟨.inl rfl, .inl ⟨_, List.mem_append_right _ List.mem_cons_self, rfl⟩⟩
  rw [Searched, List.flatten_cons, List.append_assoc, List.cons_append, reach_success hls rfl]
  refine ⟨iff_of_true rfl hunskipped, fun _ => .inr ⟨peers, via, ?_, rfl⟩⟩
  rw [List.find?_append, List.find?_eq_none.2 fun o ho => by simp [hls o ho]]
  rfl

/-- Behind a tier that has been asked to its end the search goes on where it should. -/
theorem behind (hnone : ∀ o ∈ tier, succeeds o = false) (ht : TierUnskipped tier)
    (h : Searched tiers (pos + tier.length) (asked, a)) :
    Searched (tier :: tiers) pos (List.range' pos tier.length ++ asked, a) := by
  obtain ⟨horder, hresult⟩ := h
  rw [Searched, List.flatten_cons, order_continue hnone, unskipped_continue hnone ht,
    find_continue hnone]
  refine ⟨horder, fun hu => (hresult hu).imp_left fun h => ⟨h.1, fun o ho => ?_⟩⟩
  exact (List.mem_append.1 ho).elim (hnone o) (h.2 o)

theorem fails (hl : ∀ o ∈ l, ∃ e, o = .error e) :
    ∀ o ∈ l ++ [.ok (false, peers, via)], succeeds o = false := by
  intro o ho
  rcases List.mem_append.1 ho with ho | ho
  · exact succeeds_error hl o ho
  · rw [List.mem_singleton.1 ho]
    rfl

/-- A reply without success leaves out those behind it in its tier. -/
theorem left (hl : ∀ o ∈ l, ∃ e, o = .error e) (hr : r ≠ [])
    (hasked : ∀ p ∈ asked, pos + (l ++ .ok (false, peers, via) :: r).length ≤ p) :
    Searched ((l ++ .ok (false, peers, via) :: r) :: tiers) pos
      (List.range' pos (l.length + 1) ++ asked, a) := by
  have hsplit : l ++ .ok (false, peers, via) :: r = l ++ [.ok (false, peers, via)] ++ r := by
    simp
  have hnot : ¬Unskipped ((l ++ .ok (false, peers, via) :: r) :: tiers) := by
    rw [unskipped_cons, tierUnskipped_append hl, tierUnskipped_reply]
    simp [hr]
  refine ⟨iff_of_false ?_ hnot, fun hu => absurd hu hnot⟩
  rw [hsplit] at hasked
  rw [List.flatten_cons, hsplit,
    show l.length + 1 = (l ++ [Except.ok (false, peers, via)]).length by simp]
  exact not_order (fails hl) hr hasked _

end Searched

end

theorem tryTiers_searched (tiers : List (List Outcome)) (pos : Nat) (a : Attempt)
    (ha : a.success = false) : Searched tiers pos (tryTiers false pos tiers a) := by
  induction tiers generalizing pos a with
  | nil =>
    refine ⟨iff_of_true rfl ?_, fun _ => .inl ⟨ha, by simp⟩⟩
    intro pre tier post l u r h
    simp at h
  | cons tier tiers ih =>
    obtain ⟨asked, a', htier⟩ : ∃ asked a', tryTier false pos tier a = (asked, a') := ⟨_, _, rfl⟩
    have hend := tryTier_end pos tier a
    rw [htier] at hend
    simp only [tryTiers, htier]
    cases hend with
    | reply hl =>
      rename_i l r success peers via
      cases success with
      | true =>
        rw [if_pos rfl]
        exact .success hl
      | false =>
        rw [if_neg Bool.false_ne_true]
        by_cases hr : r = []
        · subst hr
          have ht : TierUnskipped (l ++ [.ok (false, peers, via)]) :=
            (tierUnskipped_append hl).2 ((tierUnskipped_reply _ _ _).2 (.inr rfl))
          rw [show l.length + 1 = (l ++ [Except.ok (false, peers, via)]).length by simp]
          exact .behind (Searched.fails hl) ht (ih _ _ rfl)
        · exact .left hl hr fun p hp => le_of_asked hp
    | thrown hl =>
      rename_i thrown
      have ht : TierUnskipped tier := by
        rw [← List.append_nil tier, tierUnskipped_append hl]
        intro l u r h
        simp at h
      rw [if_neg (by simp [ha])]
      exact .behind (succeeds_error hl) ht (ih _ { a with thrown } ha)

/-! ## The runs of the trackers -/

/-- The `stopped` of a call. -/
def stoppedIn (c : Call) : Bool := decide ((c.views c.caller).stopped ∧ c.event ≠ .stopped)

/-- A `try` block lets no exception out. -/
theorem attempt_returns (c : Call) (url : Bytes) (w : Trackers) :
    ∃ o w', attempt c url w = .ok o w' := by
  unfold attempt
  simp only [tryCatch, tryCatchThe, MonadExceptOf.tryCatch]
  delta EStateM.tryCatch
  cases (Except.ok <$> doTrackerRequest c url : TrackerM Outcome) w with
  | ok o w' => exact ⟨o, w', rfl⟩
  | error e w' => exact ⟨.error e, _, rfl⟩

/-- Nothing is asked for a stopped torrent. -/
theorem tryTier_stopped (pos : Nat) (tier : List Outcome) (a : Attempt) :
    tryTier true pos tier a = ([], a) := by
  cases tier with
  | nil => rfl
  | cons o tier => simp [tryTier]

theorem tryTier_outcomes (c : Call) (tier : List Bytes) (pos : Nat) (a : Attempt) (w : Trackers) :
    ∃ outcomes w', outcomes.length = tier.length ∧
      Trackers.tryTier c tier a w = .ok (tryTier (stoppedIn c) pos outcomes a).2 w' := by
  induction tier generalizing pos a w with
  | nil => exact ⟨[], w, rfl, rfl⟩
  | cons url tier ih =>
    obtain ⟨o, w1, ho⟩ := attempt_returns c url w
    unfold Trackers.tryTier
    by_cases hstop : (c.views c.caller).stopped ∧ c.event ≠ .stopped
    · refine ⟨List.replicate (tier.length + 1) o, w, List.length_replicate, ?_⟩
      rw [if_pos hstop, show stoppedIn c = true by simpa [stoppedIn] using hstop, tryTier_stopped]
      rfl
    · have hgo : ¬stoppedIn c = true := by simpa [stoppedIn] using hstop
      rw [if_neg hstop]
      simp only [bind, EStateM.bind, ho]
      cases o with
      | ok reply =>
        obtain ⟨success, peers, via⟩ := reply
        refine ⟨.ok (success, peers, via) ::
          List.replicate tier.length (.ok (success, peers, via)), w1, by simp, ?_⟩
        rw [tryTier, if_neg hgo]
        rfl
      | error e =>
        cases e with
        | http =>
          obtain ⟨outcomes, w', hlen, hr⟩ := ih (pos + 1) a w1
          refine ⟨.error .http :: outcomes, w', by simp [hlen], ?_⟩
          rw [tryTier, if_neg hgo]
          exact hr
        | std e =>
          obtain ⟨outcomes, w', hlen, hr⟩ := ih (pos + 1) { a with thrown := some e } w1
          refine ⟨.error (.std e) :: outcomes, w', by simp [hlen], ?_⟩
          rw [tryTier, if_neg hgo]
          exact hr

theorem tryTiers_outcomes (c : Call) (tiers : List (List Bytes)) (pos : Nat) (a : Attempt)
    (w : Trackers) : ∃ outcomes w',
      List.Forall₂ (fun os tier => os.length = tier.length) outcomes tiers ∧
      Trackers.tryTiers c tiers a w = .ok (tryTiers (stoppedIn c) pos outcomes a).2 w' := by
  induction tiers generalizing pos a w with
  | nil => exact ⟨[], w, .nil, rfl⟩
  | cons tier tiers ih =>
    obtain ⟨os, w1, hlen, hr⟩ := tryTier_outcomes c tier pos a w
    obtain ⟨outcomes, w', hall, hrest⟩ :=
      ih (pos + os.length) (tryTier (stoppedIn c) pos os a).2 w1
    unfold Trackers.tryTiers
    simp only [bind, EStateM.bind, hr]
    by_cases hs : (tryTier (stoppedIn c) pos os a).2.success = true
    · refine ⟨os :: outcomes, w1, .cons hlen hall, ?_⟩
      rw [if_pos hs, tryTiers]
      simp only [if_pos hs]
      rfl
    · refine ⟨os :: outcomes, w', .cons hlen hall, ?_⟩
      rw [if_neg hs, tryTiers]
      simp only [if_neg hs]
      exact hrest

/-- A `tracker_request` goes as the loops do for the outcomes of its URLs. -/
theorem trackerRequest_outcomes (c : Call) (w : Trackers) : ∃ outcomes,
    List.Forall₂ (fun os tier => os.length = tier.length) outcomes c.tiers ∧
      (∀ peers, conclude (isLocalPeer c) (tryTiers (stoppedIn c) 0 outcomes {}).2 = .ok peers →
        ∃ w', Trackers.trackerRequest c w = .ok peers w') ∧
      ∀ e, conclude (isLocalPeer c) (tryTiers (stoppedIn c) 0 outcomes {}).2 = .error e →
        ∃ w', Trackers.trackerRequest c w = .error (.std e) w' := by
  obtain ⟨outcomes, w1, hall, hr⟩ := tryTiers_outcomes c c.tiers 0 {} { w with
    replies := c.replies, httpReplies := c.httpReplies, randoms := c.randoms, now := c.now }
  refine ⟨outcomes, hall, ?_⟩
  generalize (tryTiers (stoppedIn c) 0 outcomes {}).2 = a at hr ⊢
  obtain ⟨success, peers, via, thrown⟩ := a
  unfold Trackers.trackerRequest
  simp only [modify_run, bind, EStateM.bind, hr]
  cases thrown with
  | some e =>
    refine ⟨fun peers' h => (by cases h), fun e' h => ?_⟩
    cases h
    exact ⟨_, rfl⟩
  | none =>
    refine ⟨fun peers' h => ?_, fun e' h => (by cases h)⟩
    cases h
    exact ⟨_, rfl⟩

/-! ## The law -/

/-- The law of multi-tracker lists holds exactly for the lists in which no reply without success has
a URL behind it in its tier, unless it comes after a success. -/
theorem follows_iff (isLocalPeer : TrackerPeer → Bool) (tiers : List (List Outcome)) :
    Follows isLocalPeer tiers (tryTiers false 0 tiers {}).1 (tryTiers false 0 tiers {}).2 ↔
      Unskipped tiers := by
  obtain ⟨horder, hresult⟩ := tryTiers_searched tiers 0 {} rfl
  rw [← List.range_eq_range'] at horder
  refine ⟨fun h => horder.1 h.order, fun hu =>
    ⟨horder.2 hu, fun peers via hfirst => ?_, fun hfail => ?_⟩⟩
  · rcases hresult hu with ⟨-, hnone⟩ | ⟨peers', via', hfind, ha⟩
    · rw [List.find?_eq_none.2 fun o ho => by simp [hnone o ho]] at hfirst
      cases hfirst
    · rw [hfind] at hfirst
      cases hfirst
      rw [ha]
      rfl
  · rcases hresult hu with ⟨-, hnone⟩ | ⟨peers', via', -, ha⟩
    · exact hnone
    · rw [ha] at hfail
      rcases hfail with ⟨e, he⟩ | he
      · cases he
      · cases he

/-- The second tracker of a tier is not asked after the first one could not be reached. -/
theorem skipped : ¬∀ (isLocalPeer : TrackerPeer → Bool) (tiers : List (List Outcome)),
    Follows isLocalPeer tiers (tryTiers false 0 tiers {}).1 (tryTiers false 0 tiers {}).2 := by
  intro hall
  have h := (hall (fun _ => false) [[.ok (false, [], none), .ok (true, [], none)]]).order
  exact absurd h (by decide)

end Zit.Announce
