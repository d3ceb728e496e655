import Mathlib.Data.List.Basic

/-!
# A buffer that is filled in pieces

What arrives is a list of reads. `arrive n data reads` is the buffer once it holds `n` elements or
nothing is left, and the reads behind it. Filling until a test of the buffer holds, or by a number of
elements, is filling up to a length (`fillUntil_eq`, `fillAtLeast_eq`), so that of a stream that is
known only the places count at which it is cut.
-/

set_option autoImplicit false

namespace Lib

variable {α : Type}

/-- Reads until the test holds of the buffer: whether it does in the end, the reads that are left,
and the buffer. -/
def fillUntil (q : List α → Bool) : List (List α) → List α → Bool × List (List α) × List α
  | [], data => (q data, [], data)
  | r :: reads, data => if q data then (true, r :: reads, data) else fillUntil q reads (data ++ r)

/-- The same until `n` more elements are there. -/
def fillAtLeast : Nat → List (List α) → List α → Bool × List (List α) × List α
  | n, [], data => (n = 0, [], data)
  | n, r :: reads, data =>
    if n = 0 then (true, r :: reads, data) else fillAtLeast (n - r.length) reads (data ++ r)

def arrive (n : Nat) : List α → List (List α) → List α × List (List α)
  | data, [] => (data, [])
  | data, r :: reads => if n ≤ data.length then (data, r :: reads) else arrive n (data ++ r) reads

/-- The fewest elements of a stream of which the test holds. -/
def enough (q : List α → Bool) (stream : List α) : Option Nat :=
  (List.range (stream.length + 1)).find? fun k => q (stream.take k)

variable {q : List α → Bool} {n k : Nat} {data : List α} {reads : List (List α)}

theorem arrive_of_le (h : n ≤ data.length) : arrive n data reads = (data, reads) := by
  cases reads with
  | nil => rfl
  | cons r reads => rw [arrive, if_pos h]

theorem arrive_append (n : Nat) (data : List α) (reads : List (List α)) :
    (arrive n data reads).1 ++ (arrive n data reads).2.flatten = data ++ reads.flatten := by
  induction reads generalizing data with
  | nil => rfl
  | cons r reads ih =>
    rw [arrive]
    split
    · rfl
    · rw [ih, List.flatten_cons, List.append_assoc]

theorem arrive_length (h : n ≤ (data ++ reads.flatten).length) :
    n ≤ (arrive n data reads).1.length := by
  induction reads generalizing data with
  | nil => simpa [arrive] using h
  | cons r reads ih =>
    rw [arrive]
    split
    · assumption
    · exact ih (by rwa [List.append_assoc, ← List.flatten_cons])

/-- The front of a stream, once it has arrived. -/
theorem arrive_front {xs ys : List α} (h : data ++ reads.flatten = xs ++ ys) :
    ∃ zs, (arrive xs.length data reads).1 = xs ++ zs ∧
      zs ++ (arrive xs.length data reads).2.flatten = ys := by
  have hlen := arrive_length (show xs.length ≤ (data ++ reads.flatten).length by simp [h])
  have happ := (arrive_append xs.length data reads).trans h
  obtain ⟨zs, hzs⟩ := List.prefix_of_prefix_length_le (List.prefix_append xs ys)
    (happ ▸ List.prefix_append _ _) hlen
  refine ⟨zs, hzs.symm, ?_⟩
  rw [← hzs, List.append_assoc] at happ
  exact List.append_cancel_left happ

/-- A stream that is too short is received as a whole. -/
theorem arrive_short (h : (data ++ reads.flatten).length < n) :
    arrive n data reads = (data ++ reads.flatten, []) := by
  induction reads generalizing data with
  | nil => simp [arrive]
  | cons r reads ih =>
    rw [arrive, if_neg (by rw [List.length_append] at h; omega),
      ih (by rwa [List.append_assoc, ← List.flatten_cons]), List.append_assoc, List.flatten_cons]

/-- What is taken from the front before makes no difference to what is received. -/
theorem arrive_drop (hk : k ≤ data.length) : arrive n (data.drop k) reads =
    ((arrive (k + n) data reads).1.drop k, (arrive (k + n) data reads).2) := by
  induction reads generalizing data with
  | nil => rfl
  | cons r reads ih =>
    rw [arrive, arrive, List.length_drop]
    by_cases h : n ≤ data.length - k
    · rw [if_pos h, if_pos (by omega)]
    · rw [if_neg h, if_neg (by omega), ← List.drop_append_of_le_length hk,
        ih (by rw [List.length_append]; omega)]

/-- To wait for less before makes no difference. -/
theorem arrive_arrive (h : k ≤ n) :
    arrive n (arrive k data reads).1 (arrive k data reads).2 = arrive n data reads := by
  induction reads generalizing data with
  | nil => rfl
  | cons r reads ih =>
    rw [arrive]
    by_cases hk : k ≤ data.length
    · rw [if_pos hk]
    · rw [if_neg hk, ih, arrive, if_neg (by omega)]

theorem fillAtLeast_eq : fillAtLeast n reads data =
    (decide (n ≤ reads.flatten.length), (arrive (data.length + n) data reads).2,
      (arrive (data.length + n) data reads).1) := by
  induction reads generalizing n data with
  | nil => simp [fillAtLeast, arrive]
  | cons r reads ih =>
    rw [fillAtLeast, arrive]
    by_cases hn : n = 0
    · simp [hn]
    · rw [if_neg hn, if_neg (by omega), ih, List.length_append, List.flatten_cons, List.length_append]
      by_cases hr : n ≤ r.length
      · rw [arrive_of_le (by rw [List.length_append]; omega),
          arrive_of_le (by rw [List.length_append]; omega)]
        simp [Nat.sub_eq_zero_of_le hr, Nat.le_add_right_of_le hr]
      · rw [show data.length + r.length + (n - r.length) = data.length + n by omega,
          decide_eq_decide.2 (show n - r.length ≤ reads.flatten.length ↔
            n ≤ r.length + reads.flatten.length by omega)]

/-- A test that first holds at a length. -/
theorem fillUntil_eq (hn : n ≤ (data ++ reads.flatten).length)
    (h : ∀ k ≤ (data ++ reads.flatten).length,
      q ((data ++ reads.flatten).take k) = true ↔ n ≤ k) :
    fillUntil q reads data = (true, (arrive n data reads).2, (arrive n data reads).1) := by
  have hdata : q data = true ↔ n ≤ data.length := by
    have hd := h data.length (by simp)
    rwa [List.take_left] at hd
  induction reads generalizing data with
  | nil => simpa [fillUntil, arrive] using hdata.2 (by simpa using hn)
  | cons r reads ih =>
    have hassoc : data ++ (r :: reads).flatten = data ++ r ++ reads.flatten := by
      rw [List.flatten_cons, List.append_assoc]
    rw [hassoc] at hn h
    rw [fillUntil, arrive]
    by_cases hle : n ≤ data.length
    · rw [if_pos (hdata.2 hle), if_pos hle]
    · rw [if_neg (fun hq => hle (hdata.1 hq)), if_neg hle]
      refine ih hn h ?_
      have hd := h (data ++ r).length (by simp)
      rwa [List.take_left] at hd

/-- A test that never holds. -/
theorem fillUntil_none
    (h : ∀ k ≤ (data ++ reads.flatten).length, q ((data ++ reads.flatten).take k) = false) :
    fillUntil q reads data = (false, [], data ++ reads.flatten) := by
  have hdata : q data = false := by
    have hd := h data.length (by simp)
    rwa [List.take_left] at hd
  induction reads generalizing data with
  | nil => simp [fillUntil, hdata]
  | cons r reads ih =>
    have hassoc : data ++ (r :: reads).flatten = data ++ r ++ reads.flatten := by
      rw [List.flatten_cons, List.append_assoc]
    rw [hassoc] at h ⊢
    rw [fillUntil, if_neg (by simp [hdata])]
    refine ih h ?_
    have hd := h (data ++ r).length (by simp)
    rwa [List.take_left] at hd

variable {stream : List α}

/-- A test that more elements do not spoil holds from the fewest elements on. -/
theorem enough_iff (hq : ∀ xs ys, q xs = true → q (xs ++ ys) = true)
    (h : enough q stream = some n) : n ≤ stream.length ∧
      ∀ k ≤ stream.length, q (stream.take k) = true ↔ n ≤ k := by
  have hfind := List.find?_eq_some_iff_getElem.1 h
  obtain ⟨hn, i, hi, hin, hlt⟩ := hfind
  simp only [List.length_range, List.getElem_range] at hi hin hlt
  subst hin
  refine ⟨by omega, fun k hk => ⟨fun hqk => ?_, fun hle => ?_⟩⟩
  · by_contra hki
    have := hlt k (by omega)
    simp [hqk] at this
  · have happ := hq _ ((stream.drop i).take (k - i)) hn
    rwa [← List.take_add, Nat.add_sub_cancel' hle] at happ

theorem enough_none (h : enough q stream = none) : ∀ k ≤ stream.length, q (stream.take k) = false := by
  intro k hk
  have := List.find?_eq_none.1 h k (List.mem_range.2 (by omega))
  simpa using this

end Lib
