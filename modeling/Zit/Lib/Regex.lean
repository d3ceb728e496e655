import Mathlib.Data.List.Basic

/-!
# Regular expressions

`runs r s` are the matches of `r` at the start of `s` with what they leave, in the order in which a
backtracking matcher tries them; `fullMatch r s` is the first one that leaves nothing. `Matches` says
without an order what a match is. The two agree (`mem_runs`), so where the groups of a word are
unique the order plays no part (`fullMatch_of_unique`), and behind a lazy repetition the first place
counts at which the rest matches (`fullMatch_lazy`).
-/

set_option autoImplicit false

namespace Lib

inductive Regex (α : Type)
  | empty
  | one (p : α → Bool)
  | seq (r t : Regex α)
  | alt (r t : Regex α)
  | star (greedy : Bool) (r : Regex α)
  | group (n : Nat) (r : Regex α)

namespace Regex

variable {α : Type}

def lit [DecidableEq α] : List α → Regex α
  | [] => empty
  | c :: w => seq (one (· == c)) (lit w)

def opt (r : Regex α) : Regex α := alt r empty

def plus (r : Regex α) : Regex α := seq r (star true r)

/-- Numbers of groups and what they matched, a later match of a group behind an earlier one. -/
abbrev Groups (α : Type) := List (Nat × List α)

/-- At most `n` turns of `f`, none of which matches the empty word. -/
def turns (f : List α → List (Groups α × List α)) (greedy : Bool) :
    Nat → List α → List (Groups α × List α)
  | 0, s => [([], s)]
  | n + 1, s =>
    let more := ((f s).filter fun x => x.2.length < s.length).flatMap fun x =>
      (turns f greedy n x.2).map fun y => (x.1 ++ y.1, y.2)
    if greedy then more ++ [([], s)] else ([], s) :: more

def runs : Regex α → List α → List (Groups α × List α)
  | empty, s => [([], s)]
  | one _, [] => []
  | one p, c :: s => if p c then [([], s)] else []
  | seq r t, s => (runs r s).flatMap fun x => (runs t x.2).map fun y => (x.1 ++ y.1, y.2)
  | alt r t, s => runs r s ++ runs t s
  | star greedy r, s => turns (runs r) greedy s.length s
  | group n r, s => (runs r s).map fun x => (x.1 ++ [(n, s.take (s.length - x.2.length))], x.2)

/-- The groups of the first match of the whole word. -/
def fullMatch (r : Regex α) (s : List α) : Option (Groups α) :=
  ((runs r s).find? (·.2.isEmpty)).map (·.1)

/-- What a group matched last, nothing when it took no part. -/
def str (m : Groups α) (n : Nat) : List α :=
  ((m.reverse.find? (·.1 = n)).map (·.2)).getD []

/-! ## Matches without an order -/

inductive Matches : Regex α → List α → Groups α → Prop
  | empty : Matches empty [] []
  | one {p : α → Bool} {c : α} (h : p c = true) : Matches (one p) [c] []
  | seq {r t : Regex α} {u v : List α} {m n : Groups α} (hr : Matches r u m) (ht : Matches t v n) :
      Matches (seq r t) (u ++ v) (m ++ n)
  | altLeft {r t : Regex α} {u : List α} {m : Groups α} (h : Matches r u m) : Matches (alt r t) u m
  | altRight {r t : Regex α} {u : List α} {m : Groups α} (h : Matches t u m) : Matches (alt r t) u m
  | starNil {greedy : Bool} {r : Regex α} : Matches (star greedy r) [] []
  | starCons {greedy : Bool} {r : Regex α} {u v : List α} {m n : Groups α} (hne : u ≠ [])
      (hr : Matches r u m) (ht : Matches (star greedy r) v n) :
      Matches (star greedy r) (u ++ v) (m ++ n)
  | group {k : Nat} {r : Regex α} {u : List α} {m : Groups α} (h : Matches r u m) :
      Matches (group k r) u (m ++ [(k, u)])

variable {r t : Regex α} {p : α → Bool} {greedy : Bool} {u s : List α} {m : Groups α}

theorem matches_empty : Matches empty u m ↔ u = [] ∧ m = [] := by
  constructor
  · intro h
    obtain ⟨⟩ := h
    exact ⟨rfl, rfl⟩
  · intro h
    obtain ⟨rfl, rfl⟩ := h
    exact .empty

theorem matches_one : Matches (one p) u m ↔ (∃ c, p c = true ∧ u = [c]) ∧ m = [] := by
  constructor
  · intro h
    obtain ⟨⟩ := h
    exact ⟨⟨_, ‹_›, rfl⟩, rfl⟩
  · intro h
    obtain ⟨⟨c, hc, rfl⟩, rfl⟩ := h
    exact .one hc

theorem matches_seq : Matches (seq r t) u m ↔
    ∃ v w m₁ m₂, Matches r v m₁ ∧ Matches t w m₂ ∧ u = v ++ w ∧ m = m₁ ++ m₂ := by
  constructor
  · intro h
    obtain ⟨⟩ := h
    exact ⟨_, _, _, _, ‹_›, ‹_›, rfl, rfl⟩
  · intro h
    obtain ⟨v, w, m₁, m₂, hr, ht, rfl, rfl⟩ := h
    exact .seq hr ht

theorem matches_alt : Matches (alt r t) u m ↔ Matches r u m ∨ Matches t u m := by
  constructor
  · intro h
    rcases h with ⟨⟩ | ⟨⟩
    · exact .inl ‹_›
    · exact .inr ‹_›
  · intro h
    rcases h with h | h
    · exact .altLeft h
    · exact .altRight h

theorem matches_star : Matches (star greedy r) u m ↔ (u = [] ∧ m = []) ∨
    ∃ v w m₁ m₂, v ≠ [] ∧ Matches r v m₁ ∧ Matches (star greedy r) w m₂ ∧ u = v ++ w ∧
      m = m₁ ++ m₂ := by
  constructor
  · intro h
    rcases h with ⟨⟩ | ⟨⟩
    · exact .inl ⟨rfl, rfl⟩
    · exact .inr ⟨_, _, _, _, ‹_›, ‹_›, ‹_›, rfl, rfl⟩
  · intro h
    rcases h with ⟨rfl, rfl⟩ | ⟨v, w, m₁, m₂, hne, hr, ht, rfl, rfl⟩
    · exact .starNil
    · exact .starCons hne hr ht

theorem matches_group {n : Nat} :
    Matches (group n r) u m ↔ ∃ m', Matches r u m' ∧ m = m' ++ [(n, u)] := by
  constructor
  · intro hin
    obtain ⟨⟩ := hin
    exact ⟨_, ‹_›, rfl⟩
  · intro hin
    obtain ⟨m', h, rfl⟩ := hin
    exact .group h

theorem matches_opt : Matches (opt r) u m ↔ Matches r u m ∨ (u = [] ∧ m = []) := by
  rw [opt, matches_alt, matches_empty]

theorem matches_lit [DecidableEq α] {w : List α} : Matches (lit w) u m ↔ u = w ∧ m = [] := by
  induction w generalizing u m with
  | nil => exact matches_empty
  | cons c w ih =>
    rw [lit, matches_seq]
    constructor
    · intro h
      obtain ⟨v, w', m₁, m₂, hr, ht, rfl, rfl⟩ := h
      obtain ⟨⟨d, hd, rfl⟩, rfl⟩ := matches_one.1 hr
      obtain ⟨rfl, rfl⟩ := ih.1 ht
      obtain rfl : d = c := by simpa using hd
      exact ⟨rfl, rfl⟩
    · intro h
      obtain ⟨rfl, rfl⟩ := h
      exact ⟨[c], w, [], [], matches_one.2 ⟨⟨c, by simp, rfl⟩, rfl⟩, ih.2 ⟨rfl, rfl⟩, rfl, rfl⟩

/-- A repetition of single elements. -/
theorem matches_star_one :
    Matches (star greedy (one p)) u m ↔ (∀ c ∈ u, p c = true) ∧ m = [] := by
  constructor
  · intro h
    generalize hr : star greedy (one p) = r at h
    induction h with
    | starNil => simp
    | starCons hne h _ _ ih =>
      cases hr
      obtain ⟨⟨c, hc, rfl⟩, rfl⟩ := matches_one.1 h
      obtain ⟨hall, rfl⟩ := ih rfl
      exact ⟨by simpa using ⟨hc, hall⟩, rfl⟩
    | _ => cases hr
  · intro hin
    obtain ⟨hall, rfl⟩ := hin
    induction u with
    | nil => exact .starNil
    | cons c u ih =>
      obtain ⟨hc, hall⟩ := List.forall_mem_cons.1 hall
      exact .starCons (u := [c]) (m := []) (by simp) (.one hc) (ih hall)

theorem matches_plus_one :
    Matches (plus (one p)) u m ↔ (u ≠ [] ∧ ∀ c ∈ u, p c = true) ∧ m = [] := by
  rw [plus, matches_seq]
  constructor
  · intro h
    obtain ⟨v, w, m₁, m₂, hr, ht, rfl, rfl⟩ := h
    obtain ⟨⟨c, hc, rfl⟩, rfl⟩ := matches_one.1 hr
    obtain ⟨hall, rfl⟩ := matches_star_one.1 ht
    exact ⟨⟨by simp, by simpa using ⟨hc, hall⟩⟩, rfl⟩
  · intro h
    obtain ⟨⟨hne, hall⟩, rfl⟩ := h
    obtain ⟨c, w, rfl⟩ := List.exists_cons_of_ne_nil hne
    obtain ⟨hc, hall⟩ := List.forall_mem_cons.1 hall
    exact ⟨[c], w, [], [], .one hc, matches_star_one.2 ⟨hall, rfl⟩, rfl, rfl⟩

/-! ## The runs are the matches -/

theorem mem_turns {f : List α → List (Groups α × List α)}
    (hf : ∀ s m t, (m, t) ∈ f s ↔ ∃ u, s = u ++ t ∧ Matches r u m) {n : Nat} {t : List α}
    (hn : s.length ≤ n) :
    (m, t) ∈ turns f greedy n s ↔ ∃ u, s = u ++ t ∧ Matches (star greedy r) u m := by
  induction n generalizing s m with
  | zero =>
    obtain rfl := List.eq_nil_of_length_eq_zero (Nat.le_zero.1 hn)
    rw [turns, List.mem_singleton, Prod.mk.injEq]
    constructor
    · intro hin
      obtain ⟨rfl, rfl⟩ := hin
      exact ⟨[], rfl, .starNil⟩
    · intro hin
      obtain ⟨u, hu, h⟩ := hin
      obtain ⟨rfl, rfl⟩ := List.append_eq_nil_iff.1 hu.symm
      rcases matches_star.1 h with ⟨-, rfl⟩ | ⟨v, w, m₁, m₂, hne, -, -, hvw, -⟩
      · exact ⟨rfl, rfl⟩
      · exact absurd (List.append_eq_nil_iff.1 hvw.symm).1 hne
  | succ n ih =>
    have hmem : (m, t) ∈ turns f greedy (n + 1) s ↔ (m = [] ∧ t = s) ∨
        ∃ x ∈ f s, x.2.length < s.length ∧ ∃ y ∈ turns f greedy n x.2,
          x.1 ++ y.1 = m ∧ y.2 = t := by
      simp only [turns]
      cases greedy <;> simp [List.mem_flatMap, and_assoc, or_comm]
    rw [hmem]
    constructor
    · intro h
      rcases h with ⟨rfl, rfl⟩ | ⟨⟨m₁, s'⟩, hx, hlt, ⟨m₂, t'⟩, hy, rfl, rfl⟩
      · exact ⟨[], rfl, .starNil⟩
      · obtain ⟨v, rfl, hv⟩ := (hf _ _ _).1 hx
        simp only [List.length_append] at hlt hn
        obtain ⟨w, rfl, hw⟩ := (ih (show s'.length ≤ n by omega)).1 hy
        refine ⟨v ++ w, (List.append_assoc ..).symm, .starCons ?_ hv hw⟩
        rintro rfl
        simp at hlt
    · intro hin
      obtain ⟨u, rfl, h⟩ := hin
      rcases matches_star.1 h with ⟨rfl, rfl⟩ | ⟨v, w, m₁, m₂, hne, hv, hw, rfl, rfl⟩
      · exact .inl ⟨rfl, rfl⟩
      · have hpos := List.length_pos_of_ne_nil hne
        simp only [List.length_append] at hn
        refine .inr ⟨(m₁, w ++ t), (hf _ _ _).2 ⟨v, List.append_assoc .., hv⟩, ?_, (m₂, t), ?_, rfl,
          rfl⟩
        · simp only [List.length_append]
          omega
        · exact (ih (by simp only [List.length_append]; omega)).2 ⟨w, rfl, hw⟩

theorem mem_runs {t : List α} : (m, t) ∈ runs r s ↔ ∃ u, s = u ++ t ∧ Matches r u m := by
  induction r generalizing s m t with
  | empty =>
    simp only [runs, List.mem_singleton, Prod.mk.injEq, matches_empty]
    constructor
    · intro hin
      obtain ⟨rfl, rfl⟩ := hin
      exact ⟨[], rfl, rfl, rfl⟩
    · intro hin
      obtain ⟨u, rfl, rfl, rfl⟩ := hin
      exact ⟨rfl, rfl⟩
  | one p =>
    simp only [matches_one]
    constructor
    · intro h
      cases s with
      | nil => simp [runs] at h
      | cons c s =>
        by_cases hc : p c = true
        · rw [runs, if_pos hc, List.mem_singleton] at h
          cases h
          exact ⟨[c], rfl, ⟨c, hc, rfl⟩, rfl⟩
        · rw [runs, if_neg hc] at h
          cases h
    · intro hin
      obtain ⟨u, rfl, ⟨c, hc, rfl⟩, rfl⟩ := hin
      rw [List.singleton_append, runs, if_pos hc]
      exact List.mem_singleton_self _
  | seq r t' ihr iht =>
    simp only [runs, List.mem_flatMap, List.mem_map, Prod.mk.injEq, matches_seq]
    constructor
    · intro hin
      obtain ⟨⟨m₁, s'⟩, hx, ⟨m₂, t⟩, hy, rfl, rfl⟩ := hin
      obtain ⟨v, rfl, hv⟩ := ihr.1 hx
      obtain ⟨w, rfl, hw⟩ := iht.1 hy
      exact ⟨v ++ w, (List.append_assoc ..).symm, v, w, m₁, m₂, hv, hw, rfl, rfl⟩
    · intro hin
      obtain ⟨u, rfl, v, w, m₁, m₂, hv, hw, rfl, rfl⟩ := hin
      exact ⟨(m₁, w ++ t), ihr.2 ⟨v, List.append_assoc .., hv⟩, (m₂, t), iht.2 ⟨w, rfl, hw⟩, rfl, rfl⟩
  | alt r t' ihr iht =>
    simp only [runs, List.mem_append, ihr, iht, matches_alt, and_or_left, exists_or]
  | star greedy r ih => exact mem_turns (fun _ _ _ => ih) (Nat.le_refl _)
  | group n r ih =>
    simp only [runs, List.mem_map, Prod.mk.injEq, matches_group]
    constructor
    · intro hin
      obtain ⟨⟨m', t⟩, hx, rfl, rfl⟩ := hin
      obtain ⟨u, rfl, hu⟩ := ih.1 hx
      exact ⟨u, rfl, m', hu, by simp⟩
    · intro hin
      obtain ⟨u, rfl, m', hu, rfl⟩ := hin
      exact ⟨(m', t), ih.2 ⟨u, rfl, hu⟩, by simp, rfl⟩

/-! ## The first match -/

theorem matches_of_fullMatch (h : fullMatch r s = some m) : Matches r s m := by
  rw [fullMatch, Option.map_eq_some_iff] at h
  obtain ⟨⟨m, t⟩, hfind, rfl⟩ := h
  have ht : t = [] := by simpa using List.find?_some hfind
  subst ht
  obtain ⟨u, rfl, hu⟩ := mem_runs.1 (List.mem_of_find?_eq_some hfind)
  rwa [List.append_nil]

theorem fullMatch_isSome (h : Matches r s m) : (fullMatch r s).isSome := by
  rw [fullMatch, Option.isSome_map, List.find?_isSome]
  exact ⟨(m, []), mem_runs.2 ⟨s, (List.append_nil s).symm, h⟩, rfl⟩

theorem fullMatch_eq_none : fullMatch r s = none ↔ ∀ m, ¬Matches r s m := by
  constructor
  · intro h m hm
    have := fullMatch_isSome hm
    rw [h] at this
    cases this
  · intro h
    cases hm : fullMatch r s with
    | none => rfl
    | some m => exact absurd (matches_of_fullMatch hm) (h m)

/-- A word with one reading. -/
theorem fullMatch_of_unique (h : Matches r s m) (hm : ∀ m', Matches r s m' → m' = m) :
    fullMatch r s = some m := by
  obtain ⟨m', hm'⟩ := Option.isSome_iff_exists.1 (fullMatch_isSome h)
  rw [hm', hm m' (matches_of_fullMatch hm')]

theorem fullMatch_seq : fullMatch (seq r t) s =
    (runs r s).findSome? fun x => (fullMatch t x.2).map (x.1 ++ ·) := by
  rw [fullMatch, runs, List.find?_flatMap, List.map_findSome?]
  congr 1
  funext x
  simp only [Function.comp, fullMatch, List.find?_map, Option.map_map]
  rfl

/-- A front with one place to end. -/
theorem fullMatch_front {v w : List α} (h : Matches r v m)
    (hone : ∀ u x n, v ++ w = u ++ x → Matches r u n → u = v ∧ n = m) :
    fullMatch (seq r t) (v ++ w) = (fullMatch t w).map (m ++ ·) := by
  rw [fullMatch_seq]
  have hall : ∀ x ∈ runs r (v ++ w), x = (m, w) := by
    rintro ⟨n, x⟩ hx
    obtain ⟨u, hu, hn⟩ := mem_runs.1 hx
    obtain ⟨rfl, rfl⟩ := hone u x n hu hn
    rw [List.append_cancel_left hu]
  have hne : runs r (v ++ w) ≠ [] := List.ne_nil_of_mem (mem_runs.2 ⟨v, rfl, h⟩)
  obtain ⟨x, xs, hx⟩ := List.exists_cons_of_ne_nil hne
  rw [List.eq_replicate_of_mem hall, List.findSome?_replicate_of_pos (List.length_pos_of_ne_nil hne)]

/-- A lazy repetition tries the shortest front first. -/
theorem turns_lazy {n : Nat} (hn : s.length ≤ n) : turns (runs (one p)) false n s =
    (List.range ((s.takeWhile p).length + 1)).map fun k => ([], s.drop k) := by
  induction n generalizing s with
  | zero =>
    obtain rfl := List.eq_nil_of_length_eq_zero (Nat.le_zero.1 hn)
    rfl
  | succ n ih =>
    cases s with
    | nil => simp [turns, runs]
    | cons c s =>
      by_cases hc : p c = true
      · have hs : s.length ≤ n := by simpa using hn
        simp [turns, runs, hc, ih hs, List.range_succ_eq_map, Function.comp_def]
      · simp [turns, runs, hc]

theorem findSome?_range {β : Type} {f : Nat → Option β} {n : Nat} {b : β} :
    (List.range n).findSome? f = some b ↔ ∃ k < n, f k = some b ∧ ∀ j < k, f j = none := by
  induction n with
  | zero => simp
  | succ n ih =>
    rw [List.range_succ, List.findSome?_append, List.findSome?_singleton, Option.or_eq_some_iff, ih,
      List.findSome?_eq_none_iff]
    constructor
    · intro h
      rcases h with ⟨k, hk, h⟩ | ⟨hnone, h⟩
      · exact ⟨k, by omega, h⟩
      · exact ⟨n, by omega, h, fun j hj => hnone j (List.mem_range.2 hj)⟩
    · intro hin
      obtain ⟨k, hk, h, hnone⟩ := hin
      by_cases hkn : k = n
      · subst hkn
        exact .inr ⟨fun j hj => hnone j (List.mem_range.1 hj), h⟩
      · exact .inl ⟨k, by omega, h, hnone⟩

/-- Behind a group of lazily repeated elements the first place counts at which the rest matches. -/
theorem fullMatch_lazy {n : Nat} {m : Groups α} :
    fullMatch (seq (group n (star false (one p))) t) s = some m ↔
      ∃ k ≤ (s.takeWhile p).length, ∃ m', fullMatch t (s.drop k) = some m' ∧
        m = (n, s.take k) :: m' ∧ ∀ j < k, fullMatch t (s.drop j) = none := by
  have hruns : runs (group n (star false (one p))) s =
      (List.range ((s.takeWhile p).length + 1)).map fun k =>
        ([(n, s.take (s.length - (s.drop k).length))], s.drop k) := by
    simp only [runs, turns_lazy (Nat.le_refl _), List.map_map, Function.comp_def, List.nil_append]
  have htake : ∀ k, k ≤ (s.takeWhile p).length → s.take (s.length - (s.drop k).length) = s.take k :=
    fun k hk => by
      have := (List.takeWhile_sublist p (l := s)).length_le
      rw [List.length_drop, Nat.sub_sub_self (by omega)]
  rw [fullMatch_seq, hruns, List.findSome?_map, findSome?_range]
  simp only [Function.comp_def, Option.map_eq_some_iff, Option.map_eq_none_iff]
  constructor
  · intro h
    obtain ⟨k, hk, ⟨m', hm', rfl⟩, hnone⟩ := h
    refine ⟨k, by omega, m', hm', ?_, hnone⟩
    rw [htake k (by omega)]
    rfl
  · intro h
    obtain ⟨k, hk, m', hm', rfl, hnone⟩ := h
    exact ⟨k, by omega, ⟨m', hm', by rw [htake k hk]; rfl⟩, hnone⟩

end Regex

end Lib
