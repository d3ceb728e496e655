import Mathlib.Data.List.AList

/-!
# Cells behind references

A heap is a list of cells that only grows, at its end; a reference is the position of a cell. A
table names references by keys. What is behind a reference after a cell has changed or come
(`set_some`, `append_some`), and under a key after one has come or gone (`insert_some`,
`erase_some`).
-/

set_option autoImplicit false

namespace Lib.Heap

section
variable {α : Type} {l : List α} {r k : Nat} {a b : α}

theorem set_self (h : l[r]? = some a) (b : α) : (l.set r b)[r]? = some b :=
  List.getElem?_set_self (List.getElem?_eq_some_iff.1 h).1

theorem set_other (h : l[k]? = some a) (hk : k ≠ r) (b : α) : (l.set r b)[k]? = some a := by
  rw [List.getElem?_set_ne (Ne.symm hk), h]

theorem set_some (h : (l.set r b)[k]? = some a) : k = r ∧ a = b ∨ k ≠ r ∧ l[k]? = some a := by
  by_cases hk : k = r
  · rw [hk] at h
    have hlt : r < l.length := by
      simpa using (List.getElem?_eq_some_iff.1 h).1
    rw [List.getElem?_set_self hlt] at h
    exact .inl ⟨hk, (Option.some.inj h).symm⟩
  · rw [List.getElem?_set_ne (Ne.symm hk)] at h
    exact .inr ⟨hk, h⟩

/-- A reference stays good. -/
theorem append_old (h : l[k]? = some a) (bs : List α) : (l ++ bs)[k]? = some a := by
  rw [List.getElem?_append_left (List.getElem?_eq_some_iff.1 h).1, h]

theorem append_some (h : (l ++ [b])[k]? = some a) :
    l[k]? = some a ∨ k = l.length ∧ a = b := by
  rcases Nat.lt_trichotomy k l.length with hlt | rfl | hgt
  · rw [List.getElem?_append_left hlt] at h
    exact .inl h
  · rw [List.getElem?_concat_length, Option.some.injEq] at h
    exact .inr ⟨rfl, h.symm⟩
  · rw [List.getElem?_eq_none (by rw [List.length_append, List.length_singleton]; omega)] at h
    cases h

/-- A property of all cells, after one has changed. -/
theorem forall_set {P : α → Prop} (h : ∀ (k : Nat) (a : α), l[k]? = some a → P a) (hb : P b) :
    ∀ (k : Nat) (a : α), (l.set r b)[k]? = some a → P a := by
  intro k a ha
  rcases set_some ha with ⟨-, rfl⟩ | ⟨-, ha⟩
  · exact hb
  · exact h k a ha

theorem forall_append {P : α → Prop} (h : ∀ (k : Nat) (a : α), l[k]? = some a → P a) (hb : P b) :
    ∀ (k : Nat) (a : α), (l ++ [b])[k]? = some a → P a := by
  intro k a ha
  rcases append_some ha with ha | ⟨-, rfl⟩
  · exact h k a ha
  · exact hb

end

section
variable {κ ν : Type} [DecidableEq κ] {m : AList fun _ : κ => ν} {i k : κ} {v x : ν}

/-- A key that is in the table is not a new one. -/
theorem ne_new (hnew : m.lookup k = none) (h : m.lookup i = some v) : i ≠ k := by
  intro he
  rw [he, hnew] at h
  cases h

theorem insert_old (hnew : m.lookup k = none) (h : m.lookup i = some v) (x : ν) :
    (m.insert k x).lookup i = some v := by
  rw [AList.lookup_insert_ne (ne_new hnew h), h]

theorem insert_some (h : (m.insert k x).lookup i = some v) :
    i = k ∧ v = x ∨ i ≠ k ∧ m.lookup i = some v := by
  by_cases hi : i = k
  · rw [hi, AList.lookup_insert, Option.some.injEq] at h
    exact .inl ⟨hi, h.symm⟩
  · rw [AList.lookup_insert_ne hi] at h
    exact .inr ⟨hi, h⟩

theorem erase_old (h : m.lookup i = some v) (hi : i ≠ k) : (m.erase k).lookup i = some v := by
  rw [AList.lookup_erase_ne hi, h]

theorem erase_some (h : (m.erase k).lookup i = some v) : i ≠ k ∧ m.lookup i = some v := by
  by_cases hi : i = k
  · rw [hi, AList.lookup_erase] at h
    cases h
  · rw [AList.lookup_erase_ne hi] at h
    exact ⟨hi, h⟩

end

end Lib.Heap
