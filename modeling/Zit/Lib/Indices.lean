import Mathlib.Data.Finset.Card
import Mathlib.Order.Bounds.Basic

/-!
# Sets of indices below a size

`Indices` is a finite set of natural numbers together with a bound that all of them stay below. Two
sets can be joined or subtracted below the smaller of their sizes.
-/

set_option autoImplicit false

namespace Lib

structure Indices where
  size : Nat
  members : Finset Nat
  below : ∀ i ∈ members, i < size

namespace Indices

theorem ext {s t : Indices} (hsize : s.size = t.size) (h : ∀ i, i ∈ s.members ↔ i ∈ t.members) :
    s = t := by
  obtain ⟨n, m, hm⟩ := s
  obtain ⟨n', m', hm'⟩ := t
  obtain rfl := Finset.ext h
  obtain rfl := hsize
  rfl

/-- The members of `s` that `t` lacks, below the smaller size. -/
def diff (s t : Indices) : Indices where
  size := min s.size t.size
  members := (s.members \ t.members).filter (· < t.size)
  below := by
    intro i hi
    simp only [Finset.mem_filter, Finset.mem_sdiff] at hi
    exact lt_min (s.below i hi.1.1) hi.2

/-- The members of either, below the smaller size. -/
def union (s t : Indices) : Indices where
  size := min s.size t.size
  members := (s.members ∪ t.members).filter (· < min s.size t.size)
  below := fun _ hi => (Finset.mem_filter.1 hi).2

theorem mem_diff {s t : Indices} {i : Nat} :
    i ∈ (s.diff t).members ↔ (i ∈ s.members ∧ i ∉ t.members) ∧ i < t.size := by
  simp [diff]

theorem mem_union {s t : Indices} {i : Nat} :
    i ∈ (s.union t).members ↔ (i ∈ s.members ∨ i ∈ t.members) ∧ i < min s.size t.size := by
  simp only [union, Finset.mem_filter, Finset.mem_union]

/-- Sets of one size count like plain sets. -/
theorem card_union {s t : Indices} (h : s.size = t.size) :
    (s.union t).members.card = (s.diff t).members.card + t.members.card := by
  have hunion : (s.union t).members = s.members ∪ t.members := by
    refine Finset.filter_true_of_mem fun i hi => ?_
    rw [h, min_self]
    rcases Finset.mem_union.1 hi with hi | hi
    · exact h ▸ s.below i hi
    · exact t.below i hi
  have hdiff : (s.diff t).members = s.members \ t.members :=
    Finset.filter_true_of_mem fun i hi => h ▸ s.below i (Finset.mem_sdiff.1 hi).1
  rw [hunion, hdiff, Finset.card_sdiff_add_card]

/-- The indices from `start` on that are members, or those that are not. -/
def readingFrom (s : Indices) (v : Bool) (start : Nat) : Set Nat :=
  {i | start ≤ i ∧ i < s.size ∧ (i ∈ s.members ↔ v = true)}

end Indices

end Lib
