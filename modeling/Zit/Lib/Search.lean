import Mathlib.Data.List.Basic

/-!
# First occurrences

`search pat l` is the position of the first occurrence of `pat` in `l`, as `std::ranges::search`
finds it. It is stable under extension at the end (`search_append`), and every suffix of a list
without an occurrence has none (`search_drop_none`).
-/

set_option autoImplicit false

namespace Lib

variable {α : Type} [DecidableEq α]

def search (pat : List α) : List α → Option Nat
  | [] => if pat.isPrefixOf [] then some 0 else none
  | x :: l => if pat.isPrefixOf (x :: l) then some 0 else (search pat l).map (· + 1)

variable {pat : List α}

theorem search_of_front {l : List α} (h : pat <+: l) : search pat l = some 0 := by
  have hp : pat.isPrefixOf l = true := List.isPrefixOf_iff_prefix.2 h
  cases l with
  | nil => rw [search, if_pos hp]
  | cons x l => rw [search, if_pos hp]

theorem prefix_of_search {l : List α} {k : Nat} (h : search pat l = some k) : pat <+: l.drop k := by
  induction l generalizing k with
  | nil =>
    simp only [search] at h
    split at h
    · rename_i hp
      cases h
      exact List.isPrefixOf_iff_prefix.1 hp
    · cases h
  | cons x l ih =>
    simp only [search] at h
    split at h
    · rename_i hp
      cases h
      exact List.isPrefixOf_iff_prefix.1 hp
    · obtain ⟨k', hk', rfl⟩ := Option.map_eq_some_iff.1 h
      exact ih hk'

/-- The occurrence lies within the list. -/
theorem length_of_search {l : List α} {k : Nat} (h : search pat l = some k) :
    k + pat.length ≤ l.length := by
  obtain ⟨t, ht⟩ := prefix_of_search h
  have hlen := congrArg List.length ht
  by_cases hk : k ≤ l.length
  · simp only [List.length_append, List.length_drop] at hlen
    omega
  · exfalso
    clear ht hlen
    induction l generalizing k with
    | nil =>
      simp only [search] at h
      split at h
      · cases h
        exact hk (Nat.zero_le _)
      · cases h
    | cons x l ih =>
      simp only [search] at h
      split at h
      · cases h
        exact hk (Nat.zero_le _)
      · obtain ⟨k', hk', rfl⟩ := Option.map_eq_some_iff.1 h
        exact ih hk' (by simp only [List.length_cons] at hk; omega)

theorem search_append {l : List α} {k : Nat} (h : search pat l = some k) (r : List α) :
    search pat (l ++ r) = some k := by
  induction l generalizing k with
  | nil =>
    simp only [search] at h
    split at h
    · rename_i hp
      cases h
      have hpat : pat = [] := List.prefix_nil.1 (List.isPrefixOf_iff_prefix.1 hp)
      exact search_of_front (by simp [hpat])
    · cases h
  | cons x l ih =>
    simp only [search] at h
    split at h
    · rename_i hp
      cases h
      exact search_of_front
        ((List.isPrefixOf_iff_prefix.1 hp).trans (List.prefix_append _ _))
    · rename_i hp
      obtain ⟨k', hk', rfl⟩ := Option.map_eq_some_iff.1 h
      rw [List.cons_append, search, ih hk']
      -- the longer list has no occurrence in front either: this one ends before `l` does
      have hlen := length_of_search hk'
      have hnp : ¬pat.isPrefixOf (x :: (l ++ r)) = true := by
        intro hc
        apply hp
        rw [List.isPrefixOf_iff_prefix] at hc ⊢
        exact List.prefix_of_prefix_length_le hc (List.prefix_append (x :: l) r)
          (by simp only [List.length_cons]; omega)
      rw [if_neg hnp]
      rfl

theorem search_tail_none {x : α} {l : List α} (h : search pat (x :: l) = none) :
    search pat l = none := by
  simp only [search] at h
  split at h
  · cases h
  · exact Option.map_eq_none_iff.1 h

theorem search_drop_none {l : List α} (h : search pat l = none) (n : Nat) :
    search pat (l.drop n) = none := by
  induction n generalizing l with
  | zero => exact h
  | succ n ih =>
    cases l with
    | nil => exact h
    | cons x l => exact ih (search_tail_none h)

theorem search_take_none {l : List α} (h : search pat l = none) (n : Nat) :
    search pat (l.take n) = none := by
  cases hs : search pat (l.take n) with
  | none => rfl
  | some k =>
    have := search_append hs (l.drop n)
    rw [List.take_append_drop, h] at this
    cases this

/-- A shorter list has no occurrence. -/
theorem search_short_none {l : List α} (h : l.length < pat.length) : search pat l = none := by
  cases hs : search pat l with
  | none => rfl
  | some k =>
    have := length_of_search hs
    omega

/-- An occurrence does not reach over an element that is not of the pattern. -/
theorem search_insert_none {x : α} (hx : x ∉ pat) {l r : List α} (hl : search pat l = none)
    (hr : search pat r = none) : search pat (l ++ x :: r) = none := by
  induction l with
  | nil =>
    have hfront : ¬pat.isPrefixOf (x :: r) = true := by
      rw [List.isPrefixOf_iff_prefix]
      intro hp
      cases pat with
      | nil => rw [search_of_front List.nil_prefix] at hr; cases hr
      | cons y pat => exact hx ((List.cons_prefix_cons.1 hp).1 ▸ List.mem_cons_self)
    rw [List.nil_append, search, if_neg hfront, hr]
    rfl
  | cons y l ih =>
    have hfront : ¬pat.isPrefixOf (y :: (l ++ x :: r)) = true := by
      rw [List.isPrefixOf_iff_prefix]
      intro hp
      rw [← List.cons_append] at hp
      rcases Nat.lt_or_ge (y :: l).length pat.length with hlt | hle
      · -- the pattern goes on behind `l`, so it has the element
        obtain ⟨q, hq⟩ := hp
        have hmem : (pat ++ q)[(y :: l).length]? = some x := by
          rw [hq, List.getElem?_append_right (Nat.le_refl _), Nat.sub_self]
          rfl
        rw [List.getElem?_append_left hlt] at hmem
        exact hx (List.mem_of_getElem? hmem)
      · have hin := List.prefix_of_prefix_length_le hp (List.prefix_append _ _) hle
        rw [search_of_front hin] at hl
        cases hl
    rw [List.cons_append, search, if_neg hfront, ih (search_tail_none hl)]
    rfl

theorem search_isSome {l : List α} : (search pat l).isSome ↔ pat <:+: l := by
  constructor
  · intro h
    obtain ⟨k, hk⟩ := Option.isSome_iff_exists.1 h
    obtain ⟨r, hr⟩ := prefix_of_search hk
    exact ⟨l.take k, r, by rw [List.append_assoc, hr, List.take_append_drop]⟩
  · intro hin
    obtain ⟨a, b, rfl⟩ := hin
    cases h : search pat (a ++ pat ++ b) with
    | some k => rfl
    | none =>
      have hdrop := search_drop_none h a.length
      rw [List.append_assoc, List.drop_left, search_of_front (List.prefix_append pat b)] at hdrop
      cases hdrop

end Lib
