import Zit.Lib.Indices
import Zit.Proof.Bitfield

/-!
# Bitfields refine sets of indices

`Bitfield.indices` is the set a bitfield stands for: `sub` is `diff`, `add` is `union`, `count` is
the number of members, and `next` finds the least index. After any number of `set`s an index reads as
the last one of it says, and `fill` is one `set` for each index of its range.
-/

set_option autoImplicit false

namespace Zit.Bitfield

open Lib

/-- The set of indices that read true. -/
def indices (bf : Bitfield) : Indices where
  size := bf.size
  members := (Finset.range bf.size).filter fun i => bf.bit i = true
  below := fun _ hi => Finset.mem_range.1 (Finset.mem_filter.1 hi).1

@[simp] theorem mem_indices {bf : Bitfield} {i : Nat} :
    i ∈ bf.indices.members ↔ bf.bit i = true := by
  simp only [indices, Finset.mem_filter, Finset.mem_range, and_iff_right_iff_imp]
  exact bf.lt_size_of_bit

@[simp] theorem indices_size (bf : Bitfield) : bf.indices.size = bf.size := rfl

/-- The bits and the size determine the bytes. -/
theorem ext_bit {a b : Bitfield} (hsize : a.size = b.size) (h : ∀ i, a.bit i = b.bit i) : a = b := by
  obtain ⟨as⟩ := a
  obtain ⟨bs⟩ := b
  congr 1
  have hlen : as.length = bs.length := by
    simp only [size] at hsize
    omega
  refine List.ext_getElem hlen fun k hka hkb => ?_
  apply UInt8.eq_of_toBitVec_eq
  apply BitVec.eq_of_getLsbD_eq
  intro r hr
  have hbit := h (k * 8 + (7 - r))
  rw [bit_byte ⟨as⟩ (List.getElem?_eq_getElem hka) _ (by omega),
    bit_byte ⟨bs⟩ (List.getElem?_eq_getElem hkb) _ (by omega)] at hbit
  simpa only [byteBit, show 7 - (7 - r) % 8 = r by omega] using hbit

/-! ## The operations on the sets -/

theorem indices_sub (a b : Bitfield) : (a.sub b).indices = a.indices.diff b.indices := by
  refine Indices.ext (size_sub a b) fun i => ?_
  simp only [mem_indices, bit_sub, Indices.mem_diff, Bool.and_eq_true, Bool.not_eq_true',
    decide_eq_true_eq, Bool.not_eq_true, indices_size]

theorem indices_add (a b : Bitfield) : (a.add b).indices = a.indices.union b.indices := by
  refine Indices.ext (size_add a b) fun i => ?_
  rw [mem_indices, Indices.mem_union, mem_indices, mem_indices]
  by_cases hi : i < min a.size b.size
  · rw [bit_add_of_lt hi, Bool.or_eq_true]
    exact (and_iff_left hi).symm
  · rw [bit_of_size_le _ (by rw [size_add]; omega)]
    exact iff_of_false Bool.false_ne_true fun h => hi h.2

theorem count_eq_card (bf : Bitfield) : bf.count = bf.indices.members.card := bf.count_eq

theorem get_eq_ok {bf : Bitfield} {i : Nat} {v : Bool} :
    bf.get i = .ok v ↔ i < bf.size ∧ bf.bit i = v := by
  rw [get_eq]
  split
  · rename_i hi
    simp [hi]
  · rename_i hi
    simp [hi]

theorem mem_readingFrom {bf : Bitfield} {v : Bool} {start i : Nat} :
    i ∈ bf.indices.readingFrom v start ↔ start ≤ i ∧ bf.get i = .ok v := by
  rw [get_eq_ok, Indices.readingFrom, Set.mem_ofPred_eq, mem_indices, indices_size]
  cases v <;> simp

theorem next_isLeast {bf : Bitfield} {val : Bool} {start i : Nat} :
    bf.next val start = some i ↔ IsLeast (bf.indices.readingFrom val start) i := by
  constructor
  · intro h
    obtain ⟨hs, hlt, hbit, hleast⟩ := bf.next_some h
    refine ⟨mem_readingFrom.2 ⟨hs, get_eq_ok.2 ⟨hlt, hbit⟩⟩, fun j hj => ?_⟩
    obtain ⟨hsj, hget⟩ := mem_readingFrom.1 hj
    by_contra hji
    exact hleast j hsj (by omega) (get_eq_ok.1 hget).2
  · intro hin
    obtain ⟨hmem, hleast⟩ := hin
    obtain ⟨hs, hget⟩ := mem_readingFrom.1 hmem
    obtain ⟨hlt, hbit⟩ := get_eq_ok.1 hget
    cases hn : bf.next val start with
    | none => exact absurd hbit (bf.next_none hn hs hlt)
    | some k =>
      obtain ⟨hsk, hlt', hbit', hleast'⟩ := bf.next_some hn
      have hik : i ≤ k := hleast (mem_readingFrom.2 ⟨hsk, get_eq_ok.2 ⟨hlt', hbit'⟩⟩)
      by_contra hne
      have hki : k ≠ i := fun h => hne (congrArg some h)
      exact hleast' i hs (by omega) hbit

theorem next_eq_none {bf : Bitfield} {val : Bool} {start : Nat} :
    bf.next val start = none ↔ bf.indices.readingFrom val start = ∅ := by
  rw [Set.eq_empty_iff_forall_notMem]
  constructor
  · intro h j hj
    obtain ⟨hs, hget⟩ := mem_readingFrom.1 hj
    exact bf.next_none h hs (get_eq_ok.1 hget).1 (get_eq_ok.1 hget).2
  · intro h
    cases hn : bf.next val start with
    | none => rfl
    | some i => exact absurd (next_isLeast.1 hn).1 (h i)

/-! ## Runs of writes -/

/-- One `bf[i] = v` after the other. -/
def writes (bf : Bitfield) (ws : List (Nat × Bool)) : Bitfield :=
  ws.foldl (fun bf w => bf.set w.1 w.2) bf

/-- The value of the last write to `j`. -/
def lastWrite (ws : List (Nat × Bool)) (j : Nat) : Option Bool :=
  (ws.reverse.find? fun w => w.1 == j).map (·.2)

@[simp] theorem writes_concat (bf : Bitfield) (ws : List (Nat × Bool)) (i : Nat) (v : Bool) :
    bf.writes (ws ++ [(i, v)]) = (bf.writes ws).set i v := by
  simp [writes]

theorem lastWrite_concat (ws : List (Nat × Bool)) (i j : Nat) (v : Bool) :
    lastWrite (ws ++ [(i, v)]) j = if j = i then some v else lastWrite ws j := by
  simp only [lastWrite, List.reverse_append, List.reverse_singleton, List.singleton_append]
  by_cases h : j = i
  · simp [h]
  · rw [List.find?_cons_of_neg (by simpa using fun hi => h hi.symm), if_neg h]

theorem size_writes (bf : Bitfield) (ws : List (Nat × Bool)) :
    (bf.writes ws).size = ws.foldl (fun n w => max n (8 * (w.1 / 8 + 1))) bf.size := by
  induction ws using List.reverseRecOn with
  | nil => rfl
  | append_singleton ws w ih =>
    rw [writes_concat, size_set, ih, List.foldl_concat]

theorem bit_writes (bf : Bitfield) (ws : List (Nat × Bool)) (j : Nat) :
    (bf.writes ws).bit j = (lastWrite ws j).getD (bf.bit j) := by
  induction ws using List.reverseRecOn with
  | nil => rfl
  | append_singleton ws w ih =>
    rw [writes_concat, bit_set, lastWrite_concat, ih]
    split <;> rfl

theorem get_of_lt {bf : Bitfield} {i : Nat} (h : i < bf.size) : bf.get i = .ok (bf.bit i) :=
  get_eq_ok.2 ⟨h, rfl⟩

theorem get_true {bf : Bitfield} {i : Nat} : bf.get i = .ok true ↔ bf.bit i = true :=
  get_eq_ok.trans (and_iff_right_of_imp bf.lt_size_of_bit)

theorem set_frame (bf : Bitfield) {i j : Nat} (v : Bool) (hne : j ≠ i) (hj : j < bf.size) :
    (bf.set i v).get j = bf.get j := by
  rw [get_of_lt hj, get_of_lt (hj.trans_le (bf.size_le_set i v)), bit_set_ne bf v hne]

theorem set_new (bf : Bitfield) {i j : Nat} (v : Bool) (hne : j ≠ i) (hj : bf.size ≤ j)
    (hlt : j < (bf.set i v).size) : (bf.set i v).get j = .ok false := by
  rw [get_of_lt hlt, bit_set_ne bf v hne, bit_of_size_le bf hj]

theorem fill_writes (bf : Bitfield) {count start : Nat} (val : Bool)
    (h : start + count ≤ bf.size) (hlt : start + count < 2 ^ 64) :
    bf.fill count val start = .ok (bf.writes ((List.range' start count).map fun i => (i, val))) := by
  obtain ⟨bf', hok, hsize, hbit⟩ := bf.fill_ok val h hlt
  have hset := bf.foldl_set val count start h
  rw [hok, writes, List.foldl_map, Except.ok.injEq]
  exact ext_bit (hsize.trans hset.1.symm) fun j => (hbit j).trans (hset.2 j).symm

/-! ## What callers rely on -/

/-- `next` is exact: the smallest index with the value, or nothing when there is none. -/
theorem next_exact (bf : Bitfield) (val : Bool) (start : Nat) :
    (∀ i, bf.next val start = some i ↔
      (start ≤ i ∧ i < bf.size ∧ bf.get i = .ok val) ∧
        ∀ j, start ≤ j → j < i → bf.get j ≠ .ok val) ∧
    (bf.next val start = none ↔ ∀ j, start ≤ j → j < bf.size → bf.get j ≠ .ok val) ∧
    (bf.size ≤ start → bf.next val start = none) := by
  have hnone : bf.next val start = none ↔ ∀ j, start ≤ j → j < bf.size → bf.get j ≠ .ok val := by
    rw [next_eq_none, Set.eq_empty_iff_forall_notMem]
    constructor
    · exact fun h j hs _ hget => h j (mem_readingFrom.2 ⟨hs, hget⟩)
    · intro h j hj
      obtain ⟨hs, hget⟩ := mem_readingFrom.1 hj
      exact h j hs (get_eq_ok.1 hget).1 hget
  refine ⟨fun i => ?_, hnone, fun hs => hnone.2 fun j hj hlt => by omega⟩
  rw [next_isLeast]
  constructor
  · intro hin
    obtain ⟨hmem, hleast⟩ := hin
    obtain ⟨hs, hget⟩ := mem_readingFrom.1 hmem
    refine ⟨⟨hs, (get_eq_ok.1 hget).1, hget⟩, fun j hj hji hgetj => ?_⟩
    exact absurd (hleast (mem_readingFrom.2 ⟨hj, hgetj⟩)) (by omega)
  · intro hin
    obtain ⟨⟨hs, -, hget⟩, hleast⟩ := hin
    refine ⟨mem_readingFrom.2 ⟨hs, hget⟩, fun j hj => ?_⟩
    obtain ⟨hsj, hgetj⟩ := mem_readingFrom.1 hj
    by_contra hji
    exact hleast j hsj (by omega) hgetj

example : next ⟨[0x00, 0x10, 0xFF]⟩ true 3 = some 11 := by decide

/-- `fill` is the assignment of every index of its range; `size()` is a 64-bit number. -/
theorem fill_assigns (bf : Bitfield) (count start : Nat) (val : Bool)
    (h : start + count ≤ bf.size % 2 ^ 64) :
    ∃ bf', bf.fill count val start = .ok bf' ∧
      bf' = (List.range' start count).foldl (fun bf i => bf.set i val) bf ∧
      bf'.size = bf.size ∧
      (∀ i, start ≤ i → i < start + count → bf'.get i = .ok val) ∧
      ∀ i, ¬(start ≤ i ∧ i < start + count) → bf'.get i = bf.get i := by
  have hmod : bf.size % 2 ^ 64 < 2 ^ 64 := Nat.mod_lt _ (by decide)
  have hle : bf.size % 2 ^ 64 ≤ bf.size := Nat.mod_le _ _
  have hset := bf.foldl_set val count start (h.trans hle)
  refine ⟨_, bf.fill_writes val (h.trans hle) (by omega), ?_, ?_⟩
  · rw [writes, List.foldl_map]
  rw [writes, List.foldl_map]
  refine ⟨hset.1, fun i hs hi => ?_, fun i hi => ?_⟩
  · rw [get_of_lt (by rw [hset.1]; omega), hset.2, if_pos ⟨hs, hi⟩]
  · rw [get_eq, get_eq, hset.1, hset.2, if_neg hi]

theorem fill_assigns_across : ∃ bf', fill ⟨[0xA5, 0x00, 0x5A]⟩ 11 true 5 = .ok bf' ∧
    bf' = (List.range' 5 11).foldl (fun bf i => bf.set i true) ⟨[0xA5, 0x00, 0x5A]⟩ ∧
    bf'.size = 24 ∧ (∀ i, 5 ≤ i → i < 16 → bf'.get i = .ok true) ∧
    ∀ i, ¬(5 ≤ i ∧ i < 16) → bf'.get i = get ⟨[0xA5, 0x00, 0x5A]⟩ i :=
  fill_assigns ⟨[0xA5, 0x00, 0x5A]⟩ 11 5 true (by decide)

/-- A range with an end beyond `size()` is rejected, and nothing written, unless the 64-bit sum has
wrapped to an index inside the bitfield. -/
theorem fill_rejects_iff (bf : Bitfield) (count start : Nat) (val : Bool) (hpos : 0 < count)
    (hcount : count < 2 ^ 64) (hstart : start < 2 ^ 64)
    (hout : bf.size % 2 ^ 64 < start + count) :
    (∃ what, fillInPlace count val start bf = .error (.invalidArgument what) bf) ↔
      bf.size < 2 ^ 64 ∧ (start + count ≤ 2 ^ 64 ∨ 2 ^ 64 + bf.size < start + count) := by
  have hc : count ≠ 0 := by omega
  rw [bf.fillInPlace_rejects val hc]
  exact bf.length_le_byteEnd hcount hstart hout

theorem fill_rejects_beyond :
    ∃ what, fillInPlace 9 true 0 ⟨[0x5A]⟩ = .error (.invalidArgument what) ⟨[0x5A]⟩ :=
  (fill_rejects_iff ⟨[0x5A]⟩ 9 0 true (by decide) (by decide) (by decide) (by decide)).2
    (by decide)

/-- 19 bits from `2 ^ 64 - 8` on "end" at 11. -/
theorem fill_wrapped : ¬∀ (bf : Bitfield) (count start : Nat) (val : Bool), 0 < count →
    count < 2 ^ 64 → start < 2 ^ 64 → bf.size % 2 ^ 64 < start + count →
      ∃ what, fillInPlace count val start bf = .error (.invalidArgument what) bf := by
  intro hall
  have hrun : fillInPlace 19 true (2 ^ 64 - 8) (ofCount 16) = .ok () ⟨[0x00, 0xE0]⟩ := rfl
  obtain ⟨what, h⟩ := hall (ofCount 16) 19 (2 ^ 64 - 8) true (by decide) (by decide) (by decide)
    (by decide)
  rw [hrun] at h
  cases h

/-- A bitfield is the set of its true indices: writes change that set one index at a time and grow
it by whole bytes, the operators are difference and union below the smaller size, and `count` is
the number of members. -/
theorem implements_sets :
    (∀ (bf : Bitfield) (ws : List (Nat × Bool)),
      (∀ i v, (bf.writes (ws ++ [(i, v)])).size = max (bf.writes ws).size (8 * (i / 8 + 1)) ∧
        (bf.writes (ws ++ [(i, v)])).get i = .ok v ∧
        (∀ j ≠ i, j < (bf.writes ws).size →
          (bf.writes (ws ++ [(i, v)])).get j = (bf.writes ws).get j) ∧
        ∀ j ≠ i, (bf.writes ws).size ≤ j → j < (bf.writes (ws ++ [(i, v)])).size →
          (bf.writes (ws ++ [(i, v)])).get j = .ok false) ∧
      (bf.writes ws).size = ws.foldl (fun n w => max n (8 * (w.1 / 8 + 1))) bf.size ∧
      ∀ j < (bf.writes ws).size, (bf.writes ws).get j =
        .ok ((lastWrite ws j).getD (decide (bf.get j = .ok true)))) ∧
    (∀ a b : Bitfield, (a.sub b).size = min a.size b.size ∧ (a.add b).size = min a.size b.size ∧
      ∀ i < min a.size b.size, ∀ x y, a.get i = .ok x → b.get i = .ok y →
        (a.sub b).get i = .ok (x && !y) ∧ (a.add b).get i = .ok (x || y)) ∧
    (∀ bf : Bitfield,
      bf.count = ((Finset.range bf.size).filter fun i => bf.get i = .ok true).card) ∧
    ∀ a b : Bitfield, a.size = b.size → (a.add b).count = (a.sub b).count + b.count := by
  refine ⟨fun bf ws => ⟨fun i v => ?_, bf.size_writes ws, fun j hj => ?_⟩, fun a b => ?_, fun bf => ?_,
    fun a b hsize => ?_⟩
  · rw [writes_concat]
    refine ⟨size_set _ i v, ?_, fun j hne hj => set_frame _ v hne hj, fun j hne hj hlt =>
      set_new _ v hne hj hlt⟩
    exact get_eq_ok.2 ⟨by rw [size_set]; omega, bit_set_self _ i v⟩
  · rw [get_of_lt hj, bit_writes]
    simp only [get_true, Bool.decide_eq_true]
  · refine ⟨size_sub a b, size_add a b, fun i hi x y hx hy => ?_⟩
    obtain ⟨-, rfl⟩ := get_eq_ok.1 hx
    obtain ⟨hb, rfl⟩ := get_eq_ok.1 hy
    rw [get_of_lt (by rwa [size_sub]), get_of_lt (by rwa [size_add]), bit_sub, bit_add_of_lt hi,
      decide_eq_true hb, Bool.and_true]
    exact ⟨rfl, rfl⟩
  · rw [bf.count_eq]
    simp only [get_true]
  · rw [count_eq_card, count_eq_card, count_eq_card, indices_add, indices_sub]
    exact Indices.card_union hsize

theorem implements_sets_two :
    (add ⟨[0xF0, 0x01]⟩ ⟨[0x3C, 0x80]⟩).count =
      (sub ⟨[0xF0, 0x01]⟩ ⟨[0x3C, 0x80]⟩).count + count ⟨[0x3C, 0x80]⟩ :=
  implements_sets.2.2.2 ⟨[0xF0, 0x01]⟩ ⟨[0x3C, 0x80]⟩ (by decide)

end Zit.Bitfield
