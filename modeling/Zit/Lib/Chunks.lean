import Mathlib.Data.List.Basic

/-!
# Chunks of a list

`chunks n xs` cuts `xs` into pieces of length `n`; the last one may be shorter (`chunks_flatten`). A
list whose length is a multiple of `n` can be cut on its own (`chunks_append`). `cut` cuts pieces of
given lengths, and finds the lists a concatenation is made of (`cut_flatten`).
-/

set_option autoImplicit false

namespace Lib

variable {α : Type} {n : Nat} {xs ys : List α}

def chunks (n : Nat) (xs : List α) : List (List α) :=
  (List.range ((xs.length + n - 1) / n)).map fun i => (xs.drop (i * n)).take n

@[simp] theorem chunks_length (n : Nat) (xs : List α) :
    (chunks n xs).length = (xs.length + n - 1) / n := by
  simp [chunks]

theorem chunks_nil (h : 0 < n) : chunks n ([] : List α) = [] := by
  rw [chunks, List.length_nil, Nat.zero_add, Nat.div_eq_of_lt (by omega)]
  rfl

theorem chunks_getElem? {i : Nat} (h : i < (chunks n xs).length) :
    (chunks n xs)[i]? = some ((xs.drop (i * n)).take n) := by
  rw [chunks_length] at h
  rw [chunks, List.getElem?_map, List.getElem?_range h, Option.map_some]

/-- An index of a chunk is one whose chunk begins before the end. -/
theorem lt_chunks_length (h : 0 < n) {i : Nat} : i < (chunks n xs).length ↔ i * n < xs.length := by
  rw [chunks_length, ← Nat.succ_le_iff, Nat.le_div_iff_mul_le h, Nat.succ_mul]
  omega

theorem chunks_cons (h : 0 < n) (hne : xs ≠ []) :
    chunks n xs = xs.take n :: chunks n (xs.drop n) := by
  have hlen : 0 < xs.length := List.length_pos_iff.2 hne
  have hcount : (xs.length + n - 1) / n = ((xs.drop n).length + n - 1) / n + 1 := by
    rw [← Nat.add_div_right _ h, List.length_drop]
    by_cases hle : n ≤ xs.length
    · congr 1
      omega
    · rw [Nat.div_eq_of_lt_le (k := 1) (by omega) (by omega),
        Nat.div_eq_of_lt_le (k := 1) (by omega) (by omega)]
  rw [chunks, hcount, List.range_succ_eq_map, List.map_cons, List.map_map]
  congr 1
  · rw [Nat.zero_mul, List.drop_zero]
  · refine List.map_congr_left fun i _ => ?_
    rw [Function.comp, List.drop_drop, Nat.succ_mul, Nat.add_comm (i * n)]

/-- A list that is not longer than a chunk. -/
theorem chunks_of_le (h : 0 < n) (hne : xs ≠ []) (hle : xs.length ≤ n) : chunks n xs = [xs] := by
  rw [chunks_cons h hne, List.take_of_length_le hle, List.drop_of_length_le hle, chunks_nil h]

theorem chunks_append (h : 0 < n) (hdvd : n ∣ xs.length) :
    chunks n (xs ++ ys) = chunks n xs ++ chunks n ys := by
  obtain ⟨k, hk⟩ := hdvd
  induction k generalizing xs with
  | zero =>
    obtain rfl := List.eq_nil_of_length_eq_zero (by simpa using hk)
    rw [List.nil_append, chunks_nil h, List.nil_append]
  | succ k ih =>
    rw [Nat.mul_succ] at hk
    have hne : xs ≠ [] := List.ne_nil_of_length_pos (by omega)
    rw [chunks_cons h (List.append_ne_nil_of_left_ne_nil hne ys), chunks_cons h hne,
      List.take_append_of_le_length (by omega), List.drop_append_of_le_length (by omega),
      ih (by rw [List.length_drop]; omega), List.cons_append]

theorem ne_nil_of_mem_chunks (h : 0 < n) (hys : ys ∈ chunks n xs) : ys ≠ [] := by
  obtain ⟨i, hi, rfl⟩ := List.mem_map.1 hys
  rw [List.mem_range, ← chunks_length, lt_chunks_length h] at hi
  refine List.ne_nil_of_length_pos ?_
  rw [List.length_take, List.length_drop]
  omega

/-- Nothing is lost between the chunks. -/
theorem chunks_flatten (h : 0 < n) (xs : List α) : (chunks n xs).flatten = xs := by
  induction hk : xs.length using Nat.strongRecOn generalizing xs with
  | ind k ih =>
    by_cases hne : xs = []
    · rw [hne, chunks_nil h]
      rfl
    · have hlen : 0 < xs.length := List.length_pos_iff.2 hne
      rw [chunks_cons h hne, List.flatten_cons,
        ih (xs.drop n).length (by rw [List.length_drop]; omega) (xs.drop n) rfl,
        List.take_append_drop]

theorem length_of_mem_chunks (h : 0 < n) (hdvd : n ∣ xs.length) (hys : ys ∈ chunks n xs) :
    ys.length = n := by
  obtain ⟨k, hk⟩ := hdvd
  obtain ⟨i, hi, rfl⟩ := List.mem_map.1 hys
  rw [List.mem_range, ← chunks_length, lt_chunks_length h, hk, Nat.mul_comm] at hi
  have hle := Nat.mul_le_mul_left n (Nat.succ_le_of_lt (Nat.lt_of_mul_lt_mul_left hi))
  rw [Nat.mul_succ, Nat.mul_comm n i] at hle
  rw [List.length_take, List.length_drop]
  omega

/-- Pieces of these lengths, from the front. -/
def cut : List Nat → List α → List (List α)
  | [], _ => []
  | n :: ns, xs => xs.take n :: cut ns (xs.drop n)

theorem cut_flatten (xss : List (List α)) : cut (xss.map List.length) xss.flatten = xss := by
  induction xss with
  | nil => rfl
  | cons xs xss ih => rw [List.map_cons, List.flatten_cons, cut, List.take_left, List.drop_left, ih]

end Lib
