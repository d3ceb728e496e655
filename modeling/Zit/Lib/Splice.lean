import Mathlib.Data.List.Basic

/-!
# Overwriting a range of a list

`overwrite pad xs off d` is `xs` with the elements from position `off` on replaced by `d`, as a
write into a file leaves its content: positions up to `off` that `xs` does not have are filled
with `pad`, and the list grows when `d` reaches beyond its end. In a concatenation, a range within
one of the lists is that list's (`overwrite_flatten`, `slice_flatten`).
-/

set_option autoImplicit false

namespace Lib

variable {α : Type}

def overwrite (pad : α) (xs : List α) (off : Nat) (d : List α) : List α :=
  xs.take off ++ List.replicate (off - xs.length) pad ++ d ++ xs.drop (off + d.length)

theorem overwrite_prefix_length (pad : α) (xs : List α) (off : Nat) :
    (xs.take off ++ List.replicate (off - xs.length) pad).length = off := by
  simp only [List.length_append, List.length_take, List.length_replicate]
  omega

theorem overwrite_length (pad : α) (xs : List α) (off : Nat) (d : List α) :
    (overwrite pad xs off d).length = max xs.length (off + d.length) := by
  simp only [overwrite, List.length_append, List.length_take, List.length_replicate,
    List.length_drop]
  omega

/-- Inside the range the new content is read. -/
theorem overwrite_get_in (pad : α) (xs : List α) (off : Nat) (d : List α) {i : Nat}
    (h : i < d.length) : (overwrite pad xs off d)[off + i]? = d[i]? := by
  have hlen := overwrite_prefix_length pad xs off
  unfold overwrite
  rw [List.append_assoc, List.getElem?_append_right (by omega), hlen, Nat.add_sub_cancel_left,
    List.getElem?_append_left h]

/-- A position the list had keeps its content outside the range. -/
theorem overwrite_get_out (pad : α) (xs : List α) (off : Nat) (d : List α) {i : Nat}
    (hi : i < xs.length) (h : i < off ∨ off + d.length ≤ i) :
    (overwrite pad xs off d)[i]? = xs[i]? := by
  have hlen := overwrite_prefix_length pad xs off
  unfold overwrite
  rcases h with h | h
  · rw [List.append_assoc, List.getElem?_append_left (by omega),
      List.getElem?_append_left (by simp; omega), List.getElem?_take_of_lt h]
  · rw [List.append_assoc, List.getElem?_append_right (by omega), hlen,
      List.getElem?_append_right (by omega), List.getElem?_drop]
    congr 1
    omega

theorem overwrite_of_le (pad : α) {xs : List α} {off : Nat} (d : List α) (h : off ≤ xs.length) :
    overwrite pad xs off d = xs.take off ++ d ++ xs.drop (off + d.length) := by
  rw [overwrite, Nat.sub_eq_zero_of_le h, List.replicate_zero, List.append_nil]

@[simp] theorem overwrite_nil (pad : α) {xs : List α} {off : Nat} (h : off ≤ xs.length) :
    overwrite pad xs off [] = xs := by
  simp [overwrite_of_le pad [] h]

/-- Two ranges that touch are written as one. -/
theorem overwrite_overwrite (pad : α) {xs : List α} {off : Nat} (d e : List α)
    (h : off ≤ xs.length) :
    overwrite pad (overwrite pad xs off d) (off + d.length) e = overwrite pad xs off (d ++ e) := by
  have hlen : (xs.take off ++ d).length = off + d.length := by
    rw [List.length_append, List.length_take, Nat.min_eq_left h]
  have hle : off + d.length ≤ (overwrite pad xs off d).length := by
    rw [overwrite_length]
    exact Nat.le_max_right _ _
  rw [overwrite_of_le pad e hle, overwrite_of_le pad d h, overwrite_of_le pad _ h]
  rw [List.take_append_of_le_length (by omega), List.take_of_length_le (by omega)]
  rw [List.drop_append, List.drop_of_length_le (by omega), List.nil_append, hlen, List.drop_drop,
    List.length_append, ← List.append_assoc, Nat.add_sub_cancel_left, Nat.add_assoc]

/-- A range within the middle part of a list. -/
theorem overwrite_middle (pad : α) (a b : List α) {xs : List α} {off : Nat} {d : List α}
    (h : off + d.length ≤ xs.length) :
    overwrite pad (a ++ xs ++ b) (a.length + off) d = a ++ overwrite pad xs off d ++ b := by
  rw [overwrite_of_le pad d (by simp only [List.length_append]; omega),
    overwrite_of_le pad d (by omega)]
  rw [List.append_assoc a xs b, List.take_length_add_append,
    List.take_append_of_le_length (by omega), Nat.add_assoc, List.drop_length_add_append,
    List.drop_append_of_le_length h]
  simp only [List.append_assoc]

/-! ## Ranges of a concatenation -/

theorem flatten_split {xss : List (List α)} {k : Nat} {xs : List α} (h : xss[k]? = some xs) :
    xss.flatten = (xss.take k).flatten ++ xs ++ (xss.drop (k + 1)).flatten := by
  obtain ⟨hk, rfl⟩ := List.getElem?_eq_some_iff.1 h
  conv_lhs => rw [← List.take_append_drop k xss, List.drop_eq_getElem_cons hk]
  rw [List.flatten_append, List.flatten_cons, List.append_assoc]

/-- A range within one of the lists is overwritten in the concatenation. -/
theorem overwrite_flatten (pad : α) {xss : List (List α)} {k : Nat} {xs : List α}
    (h : xss[k]? = some xs) {off : Nat} {d : List α} (hle : off + d.length ≤ xs.length) :
    (xss.set k (overwrite pad xs off d)).flatten =
      overwrite pad xss.flatten ((xss.take k).flatten.length + off) d := by
  obtain ⟨hk, -⟩ := List.getElem?_eq_some_iff.1 h
  have hset : (xss.set k (overwrite pad xs off d))[k]? = some (overwrite pad xs off d) := by
    rw [List.getElem?_set_self hk]
  rw [flatten_split hset, flatten_split h, overwrite_middle pad _ _ hle, List.take_set,
    List.set_eq_of_length_le (by rw [List.length_take]; omega), List.drop_set_of_lt (by omega)]

/-- A range within one of the lists, read in the concatenation. -/
theorem slice_flatten {xss : List (List α)} {k : Nat} {xs : List α} (h : xss[k]? = some xs)
    {off n : Nat} (hle : off + n ≤ xs.length) :
    (xss.flatten.drop ((xss.take k).flatten.length + off)).take n = (xs.drop off).take n := by
  rw [flatten_split h, List.append_assoc, List.drop_length_add_append,
    List.drop_append_of_le_length (by omega), List.take_append_of_le_length (by simp; omega)]

end Lib
