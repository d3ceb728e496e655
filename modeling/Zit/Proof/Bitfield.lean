import Mathlib.Data.Nat.Bitwise
import Mathlib.Data.Finset.Card
import Mathlib.Data.Finset.Range
import Zit.Lib.Fallible
import Zit.Bitfield

/-!
# Bitfields as finite sets of indices

A bitfield is the set of the indices whose `bit` is true, below its `size`. Every operation is
described by the bits and the size of its result: `bit_set`, `bit_sub`, `bit_add`, `bit_fill`,
`count_eq` (the popcount is the number of members) and `next_some`, `next_none` (the search finds
the smallest index with the value).
-/

set_option autoImplicit false

namespace Zit.Bitfield

/-! ## Bits of a byte -/

/-- Bit `i % 8` of a byte, from the most significant. -/
def byteBit (b : UInt8) (i : Nat) : Bool := b.toBitVec.getLsbD (7 - i % 8)

theorem bitMask_toNat (i : Nat) : (bitMask i).toNat = 2 ^ (7 - i % 8) := by
  have h : 2 ^ (7 - i % 8) < 2 ^ 8 := Nat.pow_lt_pow_right (by omega) (by omega)
  rw [bitMask, UInt8.toNat_ofNat', Nat.one_shiftLeft, Nat.mod_eq_of_lt h]

theorem byteBit_bitMask (i j : Nat) : byteBit (bitMask i) j = decide (j % 8 = i % 8) := by
  have h : (bitMask i).toBitVec.toNat = 2 ^ (7 - i % 8) := bitMask_toNat i
  rw [byteBit, ← BitVec.testBit_toNat, h, Nat.testBit_two_pow]
  congr 1
  rw [eq_iff_iff]
  omega

theorem and_bitMask (b : UInt8) (i : Nat) : (b &&& bitMask i != 0) = byteBit b i := by
  have h : (b &&& bitMask i).toNat = (byteBit b i).toNat * 2 ^ (7 - i % 8) := by
    rw [UInt8.toNat_and, bitMask_toNat, Nat.and_two_pow]
    rfl
  rw [Bool.eq_iff_iff, bne_iff_ne, ne_eq, ← UInt8.toNat_inj, h, UInt8.toNat_zero]
  cases byteBit b i <;> simp

theorem byteBit_and (a b : UInt8) (i : Nat) : byteBit (a &&& b) i = (byteBit a i && byteBit b i) := by
  simp [byteBit]

theorem byteBit_or (a b : UInt8) (i : Nat) : byteBit (a ||| b) i = (byteBit a i || byteBit b i) := by
  simp [byteBit]

theorem byteBit_xor (a b : UInt8) (i : Nat) : byteBit (a ^^^ b) i = (byteBit a i ^^ byteBit b i) := by
  simp [byteBit]

theorem byteBit_not (a : UInt8) (i : Nat) : byteBit (~~~a) i = !byteBit a i := by
  simp only [byteBit, UInt8.toBitVec_not, BitVec.getLsbD_not]
  simp only [show 7 - i % 8 < 8 by omega, decide_true, Bool.true_and]

theorem byteBit_zero (i : Nat) : byteBit 0 i = false := by simp [byteBit]

theorem byteBit_mod (b : UInt8) (i : Nat) : byteBit b (i % 8) = byteBit b i := by
  simp [byteBit]

/-- A byte with all its bits false is zero. -/
theorem byte_eq_zero {b : UInt8} (h : ∀ i < 8, byteBit b i = false) : b = 0 := by
  apply UInt8.eq_of_toBitVec_eq
  apply BitVec.eq_of_getLsbD_eq
  intro k hk
  have := h (7 - k) (by omega)
  rw [byteBit, show 7 - (7 - k) % 8 = k by omega] at this
  simpa using this

theorem byte_eq_ff {b : UInt8} (h : ∀ i < 8, byteBit b i = true) : b = 255 := by
  have h0 : ~~~b = 0 := byte_eq_zero fun i hi => by rw [byteBit_not, h i hi]; rfl
  rw [← UInt8.not_not (a := b), h0]
  rfl

/-! ## Reading and writing a bit -/

variable (bf : Bitfield)

theorem bit_eq (i : Nat) : bf.bit i = (bf.bytes[i / 8]?.map (byteBit · i)).getD false := by
  unfold bit
  cases bf.bytes[i / 8]? with
  | none => rfl
  | some b => simp [and_bitMask]

theorem get_eq (i : Nat) : bf.get i =
    if i < bf.size then .ok (bf.bit i) else .error (.outOfRange "vector::_M_range_check") := by
  unfold get bit size
  by_cases h : i / 8 < bf.bytes.length
  · rw [if_pos (by omega), List.getElem?_eq_getElem h]
  · rw [if_neg (by omega), List.getElem?_eq_none (by omega)]

theorem bit_of_size_le {i : Nat} (h : bf.size ≤ i) : bf.bit i = false := by
  unfold size at h
  rw [bit_eq, List.getElem?_eq_none (by omega)]
  rfl

theorem lt_size_of_bit {i : Nat} (h : bf.bit i = true) : i < bf.size := by
  by_contra hc
  rw [bit_of_size_le bf (by omega)] at h
  cases h

theorem size_mod : bf.size % 8 = 0 := by unfold size; omega

/-- The bytes `set` writes into: the old ones, grown with zeros up to the byte of `i`. -/
def grown (i : Nat) : Bytes := bf.bytes ++ List.replicate (i / 8 + 1 - bf.bytes.length) 0

theorem set_eq (i : Nat) (b : Bool) : bf.set i b = ⟨(bf.grown i).set (i / 8)
    (if b then (bf.grown i)[i / 8]?.getD 0 ||| bitMask i
      else (bf.grown i)[i / 8]?.getD 0 &&& ~~~bitMask i)⟩ := by
  unfold set
  by_cases h : bf.bytes.length ≤ i / 8
  · simp only [if_pos h, grown]
  · have hz : i / 8 + 1 - bf.bytes.length = 0 := by omega
    simp only [if_neg h, grown, hz, List.replicate_zero, List.append_nil]

theorem grown_length (i : Nat) : (bf.grown i).length = max bf.bytes.length (i / 8 + 1) := by
  simp only [grown, List.length_append, List.length_replicate]
  omega

theorem grown_get (i k : Nat) : (bf.grown i)[k]?.getD 0 = bf.bytes[k]?.getD 0 := by
  unfold grown
  by_cases hk : k < bf.bytes.length
  · rw [List.getElem?_append_left hk]
  · rw [List.getElem?_append_right (by omega), List.getElem?_eq_none (l := bf.bytes) (by omega),
      List.getElem?_replicate]
    split <;> rfl

theorem bit_eq_getD (i : Nat) : bf.bit i = byteBit (bf.bytes[i / 8]?.getD 0) i := by
  rw [bit_eq]
  cases bf.bytes[i / 8]? with
  | none => simp [byteBit_zero]
  | some b => rfl

theorem set_bytes_length (i : Nat) (b : Bool) :
    (bf.set i b).bytes.length = max bf.bytes.length (i / 8 + 1) := by
  rw [set_eq, List.length_set, grown_length]

theorem size_set (i : Nat) (b : Bool) : (bf.set i b).size = max bf.size (8 * (i / 8 + 1)) := by
  unfold size
  rw [set_bytes_length]
  omega

theorem size_le_set (i : Nat) (b : Bool) : bf.size ≤ (bf.set i b).size := by
  rw [size_set]
  exact Nat.le_max_left _ _

theorem bit_set (i j : Nat) (b : Bool) : (bf.set i b).bit j = if j = i then b else bf.bit j := by
  rw [bit_eq_getD, set_eq]
  by_cases hb : j / 8 = i / 8
  · have hlen : i / 8 < (bf.grown i).length := by rw [grown_length]; omega
    rw [hb, List.getElem?_set_self hlen, Option.getD_some, grown_get, bit_eq_getD, ← hb]
    by_cases hj : j = i
    · subst hj
      cases b <;> simp [byteBit_and, byteBit_or, byteBit_not, byteBit_bitMask]
    · have hm : ¬j % 8 = i % 8 := by omega
      cases b <;> simp [byteBit_and, byteBit_or, byteBit_not, byteBit_bitMask, hj, hm]
  · rw [List.getElem?_set_ne (by omega), grown_get, ← bit_eq_getD,
      if_neg (fun h => hb (by rw [h]))]

@[simp] theorem bit_set_self (i : Nat) (b : Bool) : (bf.set i b).bit i = b := by
  rw [bit_set, if_pos rfl]

theorem bit_set_ne {i j : Nat} (b : Bool) (h : j ≠ i) : (bf.set i b).bit j = bf.bit j := by
  rw [bit_set, if_neg h]

theorem bit_set_true {j : Nat} (h : bf.bit j = true) (i : Nat) : (bf.set i true).bit j = true := by
  rw [bit_set]
  split
  · rfl
  · exact h

/-- A bit that reads the other value is not the one that was set. -/
theorem bit_of_set {i j : Nat} {b : Bool} (h : (bf.set i b).bit j = !b) :
    j ≠ i ∧ bf.bit j = !b := by
  have hne : j ≠ i := by
    intro he
    rw [he, bit_set_self] at h
    cases b <;> cases h
  rw [bit_set_ne _ _ hne] at h
  exact ⟨hne, h⟩

/-! ## New bitfields, differences and sums -/

@[simp] theorem bit_ofCount (n i : Nat) : (ofCount n).bit i = false := by
  rw [bit_eq_getD, ofCount, List.getElem?_replicate]
  split <;> split <;> exact byteBit_zero i

theorem size_ofCount (n : Nat) : (ofCount n).size = 8 * ((n + 7) / 8) := by
  simp only [size, ofCount, List.length_replicate]
  split <;> omega

theorem le_size_ofCount (n : Nat) : n ≤ (ofCount n).size := by rw [size_ofCount]; omega

theorem size_add (a b : Bitfield) : (a.add b).size = min a.size b.size := by
  simp only [size, add, List.length_zipWith]
  omega

theorem bit_sub (a b : Bitfield) (i : Nat) :
    (a.sub b).bit i = (a.bit i && !b.bit i && decide (i < b.size)) := by
  rw [bit_eq, bit_eq a, bit_eq b, sub, List.getElem?_zipWith, size]
  by_cases hb : i / 8 < b.bytes.length
  · rw [List.getElem?_eq_getElem hb, decide_eq_true (show i < b.bytes.length * 8 by omega)]
    cases a.bytes[i / 8]? with
    | none => rfl
    | some x =>
      simp only [Option.map_some, Option.getD_some, byteBit_xor, byteBit_and, Bool.and_true]
      cases byteBit x i <;> simp
  · rw [List.getElem?_eq_none (l := b.bytes) (by omega),
      decide_eq_false (show ¬i < b.bytes.length * 8 by omega)]
    cases a.bytes[i / 8]? <;> simp

theorem size_sub (a b : Bitfield) : (a.sub b).size = min a.size b.size := by
  simp only [size, sub, List.length_zipWith]
  omega

theorem bit_add_of_lt {a b : Bitfield} {i : Nat} (h : i < min a.size b.size) :
    (a.add b).bit i = (a.bit i || b.bit i) := by
  have ha : i / 8 < a.bytes.length := by unfold size at h; omega
  have hb : i / 8 < b.bytes.length := by unfold size at h; omega
  rw [bit_eq, bit_eq a, bit_eq b, add, List.getElem?_zipWith, List.getElem?_eq_getElem ha,
    List.getElem?_eq_getElem hb]
  simp [byteBit_or]

theorem bit_add (a b : Bitfield) (h : a.size = b.size) (i : Nat) :
    (a.add b).bit i = (a.bit i || b.bit i) := by
  by_cases hi : i < min a.size b.size
  · exact bit_add_of_lt hi
  · rw [bit_of_size_le _ (by rw [size_add]; omega), bit_of_size_le a (by omega),
      bit_of_size_le b (by omega), Bool.or_self]

/-! ## The popcount -/

def bitCount (b : Nat) : Nat := (List.range 8).countP fun k => Nat.testBit b (7 - k)

theorem bitCount_half : ∀ b < 256, bitCount b = bitCount (b / 2) + b % 2 := by decide +kernel

/-- An entry of the table is set from the one of the half. -/
theorem tableFrom_get {n : Nat} (hn : n ≤ 256) : ∀ i < 256,
    ((List.range n).foldl (fun table i => table.set i ((table[i / 2]?.getD 0) + i % 2))
      (List.replicate 256 0))[i]? = some (if i < n then bitCount i else 0) := by
  induction n with
  | zero =>
    intro i hi
    rw [List.range_zero, List.foldl_nil, List.getElem?_replicate, if_pos hi,
      if_neg (Nat.not_lt_zero i)]
  | succ n ih =>
    have htable := ih (by omega)
    rw [List.range_succ, List.foldl_append]
    generalize (List.range n).foldl (fun table i => table.set i ((table[i / 2]?.getD 0) + i % 2))
      (List.replicate 256 0) = table at htable ⊢
    intro i hi
    have hlt := (List.getElem?_eq_some_iff.1 (htable n (by omega))).1
    have hhalf : (if n / 2 < n then bitCount (n / 2) else 0) = bitCount (n / 2) := by
      split
      · rfl
      · rw [show n / 2 = 0 by omega]
        rfl
    rw [List.foldl_cons, List.foldl_nil, htable (n / 2) (by omega), Option.getD_some, hhalf,
      ← bitCount_half n (by omega)]
    by_cases he : n = i
    · rw [← he, List.getElem?_set_self hlt, if_pos (Nat.lt_succ_self n)]
    · rw [List.getElem?_set_ne he, htable i hi]
      simp only [show i < n + 1 ↔ i < n by omega]

theorem bitsPerByte (b : UInt8) :
    bitsPerByteTable[b.toNat]?.getD 0 = (List.range 8).countP (byteBit b) := by
  rw [bitsPerByteTable, tableFrom_get (Nat.le_refl _) _ b.toNat_lt, if_pos b.toNat_lt,
    Option.getD_some]
  apply List.countP_congr
  intro k hk
  rw [byteBit, ← BitVec.testBit_toNat, Nat.mod_eq_of_lt (List.mem_range.1 hk)]
  rfl

theorem bit_cons_lt (b : UInt8) (bs : Bytes) {i : Nat} (h : i < 8) :
    bit ⟨b :: bs⟩ i = byteBit b i := by
  rw [bit_eq_getD, show i / 8 = 0 by omega]
  rfl

theorem bit_cons_add (b : UInt8) (bs : Bytes) (i : Nat) : bit ⟨b :: bs⟩ (8 + i) = bit ⟨bs⟩ i := by
  rw [bit_eq_getD, bit_eq_getD, show (8 + i) / 8 = i / 8 + 1 by omega, List.getElem?_cons_succ]
  simp only [byteBit, show (8 + i) % 8 = i % 8 by omega]

theorem foldl_add_eq (f : UInt8 → Nat) (bs : Bytes) (c : Nat) :
    bs.foldl (fun c b => c + f b) c = c + (bs.map f).sum := by
  induction bs generalizing c with
  | nil => simp
  | cons b bs ih => simp [ih, Nat.add_assoc]

theorem count_eq_countP : bf.count = (List.range bf.size).countP bf.bit := by
  obtain ⟨bs⟩ := bf
  rw [count, foldl_add_eq (fun b => bitsPerByteTable[b.toNat]?.getD 0), Nat.zero_add]
  simp only [bitsPerByte, size]
  induction bs with
  | nil => rfl
  | cons b bs ih =>
    rw [List.map_cons, List.sum_cons, ih, List.length_cons,
      show (bs.length + 1) * 8 = 8 + bs.length * 8 by omega, List.range_add, List.countP_append,
      List.countP_map]
    congr 1
    · apply List.countP_congr
      intro k hk
      rw [bit_cons_lt b bs (List.mem_range.1 hk)]
    · apply List.countP_congr
      intro k _
      rw [Function.comp_apply, bit_cons_add]

/-- `count` is the number of members. -/
theorem count_eq : bf.count = ((Finset.range bf.size).filter fun i => bf.bit i = true).card := by
  rw [count_eq_countP, Finset.card_def, Finset.filter_val, Finset.range_val,
    ← Multiset.countP_eq_card_filter, Multiset.range, Multiset.coe_countP]
  simp

/-- A bitfield whose members are below `n` and `n` in number has every index below `n`. -/
theorem bit_of_count_eq {n : Nat} (hlt : ∀ i, bf.bit i = true → i < n) (hc : bf.count = n) {i : Nat}
    (hi : i < n) : bf.bit i = true := by
  have hsub : ((Finset.range bf.size).filter fun i => bf.bit i = true) ⊆ Finset.range n := by
    intro j hj
    exact Finset.mem_range.2 (hlt j (Finset.mem_filter.1 hj).2)
  have heq := Finset.eq_of_subset_of_card_le hsub (by rw [Finset.card_range, ← count_eq, hc])
  have hm : i ∈ Finset.range n := Finset.mem_range.2 hi
  rw [← heq] at hm
  exact (Finset.mem_filter.1 hm).2

theorem count_eq_zero : bf.count = 0 ↔ ∀ i, bf.bit i = false := by
  rw [count_eq, Finset.card_eq_zero, Finset.filter_eq_empty_iff]
  constructor
  · intro h i
    by_cases hi : i < bf.size
    · simpa using h (Finset.mem_range.2 hi)
    · exact bit_of_size_le bf (by omega)
  · intro h i _
    simp [h i]

/-! ## The search for a bit -/

theorem findBit_some {val : Bool} {pos n i : Nat} (h : bf.findBit val pos n = some i) :
    pos ≤ i ∧ i < pos + n ∧ bf.bit i = val ∧ ∀ j, pos ≤ j → j < i → bf.bit j ≠ val := by
  rw [findBit, List.find?_range'_eq_some] at h
  obtain ⟨hp, hm, hj⟩ := h
  rw [List.mem_range'_1] at hm
  exact ⟨hm.1, hm.2, by simpa using hp, fun j h1 h2 => by simpa using hj j h1 h2⟩

theorem findBit_none {val : Bool} {pos n : Nat} (h : bf.findBit val pos n = none) {j : Nat}
    (h1 : pos ≤ j) (h2 : j < pos + n) : bf.bit j ≠ val := by
  rw [findBit, List.find?_range'_eq_none] at h
  simpa using h j h1 h2

/-- The test of the byte scan: some bit of the byte is `val`. -/
theorem byteTest (val : Bool) (B : UInt8) :
    (if val then decide (B > 0) else decide (B < 255)) = true ↔ ∃ k < 8, byteBit B k = val := by
  have hlt := B.toNat_lt
  cases val with
  | true =>
    simp only [if_true, gt_iff_lt, UInt8.lt_iff_toNat_lt, UInt8.toNat_zero, decide_eq_true_eq]
    constructor
    · intro h
      by_contra hc
      have := byte_eq_zero (b := B) fun k hk => by
        cases hb : byteBit B k
        · rfl
        · exact absurd ⟨k, hk, hb⟩ hc
      rw [this] at h
      exact absurd h (by decide)
    · intro hin
      obtain ⟨k, _, hk⟩ := hin
      by_contra hc
      have : B = 0 := UInt8.toNat_inj.1 (by rw [UInt8.toNat_zero]; omega)
      rw [this, byteBit_zero] at hk
      cases hk
  | false =>
    simp only [Bool.false_eq_true, if_false, UInt8.lt_iff_toNat_lt, decide_eq_true_eq]
    constructor
    · intro h
      by_contra hc
      have := byte_eq_ff (b := B) fun k hk => by
        cases hb : byteBit B k
        · exact absurd ⟨k, hk, hb⟩ hc
        · rfl
      rw [this] at h
      exact absurd h (by decide)
    · intro hin
      obtain ⟨k, hk8, hk⟩ := hin
      by_contra hc
      have : B = 255 := UInt8.toNat_inj.1 (by
        have : (255 : UInt8).toNat = 255 := rfl
        omega)
      rw [this] at hk
      exact absurd hk ((by decide : ∀ k < 8, ¬byteBit 255 k = false) k hk8)

theorem bit_byte {k : Nat} {B : UInt8} (h : bf.bytes[k]? = some B) (r : Nat) (hr : r < 8) :
    bf.bit (k * 8 + r) = byteBit B r := by
  rw [bit_eq_getD, show (k * 8 + r) / 8 = k by omega, h, Option.getD_some, ← byteBit_mod,
    show (k * 8 + r) % 8 = r by omega]

/-- The scan for a byte, from the first index of a byte on. -/
theorem scan_some {val : Bool} {off k : Nat}
    (h : (bf.bytes.drop off).findIdx? (fun B => if val then B > 0 else B < 255) = some k) :
    (∃ r < 8, bf.bit ((off + k) * 8 + r) = val) ∧ off + k < bf.bytes.length ∧
      ∀ j, off * 8 ≤ j → j < (off + k) * 8 → bf.bit j ≠ val := by
  rw [List.findIdx?_eq_some_iff_getElem] at h
  obtain ⟨hk, hp, hj⟩ := h
  have hlen : off + k < bf.bytes.length := by
    rw [List.length_drop] at hk
    omega
  refine ⟨?_, hlen, fun j h1 h2 => ?_⟩
  · rw [List.getElem_drop] at hp
    obtain ⟨r, hr, hb⟩ := (byteTest val _).1 hp
    exact ⟨r, hr, by rw [bit_byte bf (List.getElem?_eq_getElem hlen) r hr, hb]⟩
  · have hjl : j / 8 < bf.bytes.length := by omega
    have hn := hj (j / 8 - off) (by omega)
    rw [List.getElem_drop] at hn
    intro hbit
    have hm : off + (j / 8 - off) = j / 8 := by omega
    simp only [hm] at hn
    rw [show j = j / 8 * 8 + j % 8 by omega,
      bit_byte bf (List.getElem?_eq_getElem hjl) _ (by omega)] at hbit
    exact hn ((byteTest val _).2 ⟨j % 8, by omega, hbit⟩)

theorem scan_none {val : Bool} {off : Nat}
    (h : (bf.bytes.drop off).findIdx? (fun B => if val then B > 0 else B < 255) = none) {j : Nat}
    (h1 : off * 8 ≤ j) (h2 : j < bf.size) : bf.bit j ≠ val := by
  rw [List.findIdx?_eq_none_iff] at h
  unfold size at h2
  have hjl : j / 8 < bf.bytes.length := by omega
  have hmem : bf.bytes[j / 8] ∈ bf.bytes.drop off := by
    rw [List.mem_iff_getElem?]
    exact ⟨j / 8 - off, by
      rw [List.getElem?_drop, show off + (j / 8 - off) = j / 8 by omega,
        List.getElem?_eq_getElem hjl]⟩
  intro hbit
  rw [show j = j / 8 * 8 + j % 8 by omega,
    bit_byte bf (List.getElem?_eq_getElem hjl) _ (by omega)] at hbit
  have htrue := (byteTest val _).2 ⟨j % 8, by omega, hbit⟩
  rw [h _ hmem] at htrue
  cases htrue

/-- Where the byte scan of `next` starts. -/
def scanOffset (start : Nat) : Nat := if start % 8 ≠ 0 then start / 8 + 1 else start / 8

/-- The search, once the bits of a partial first byte have been tried without success. -/
def nextScan (val : Bool) (start : Nat) : Option Nat :=
  match (bf.bytes.drop (scanOffset start)).findIdx? fun B => if val then B > 0 else B < 255 with
  | some k => findBit bf val ((scanOffset start + k) * 8) 8
  | none => none

theorem next_cases (val : Bool) (start : Nat) (hs : start ≤ bf.size) :
    (∃ i, start % 8 ≠ 0 ∧ findBit bf val start (8 - start % 8) = some i ∧
      bf.next val start = some i) ∨
    ((∀ j, start ≤ j → j < scanOffset start * 8 → bf.bit j ≠ val) ∧
      bf.next val start = nextScan bf val start) := by
  unfold next
  rw [if_neg (by omega)]
  by_cases ho : start % 8 ≠ 0
  · simp only [if_pos ho]
    cases hf : findBit bf val start (8 - start % 8) with
    | some i => exact .inl ⟨i, ho, rfl, rfl⟩
    | none =>
      refine .inr ⟨fun j h1 h2 => findBit_none bf hf h1 ?_, ?_⟩
      · rw [scanOffset, if_pos ho] at h2
        omega
      · rewrite [nextScan, scanOffset, if_pos ho]
        rfl
  · simp only [if_neg ho]
    refine .inr ⟨fun j h1 h2 => ?_, ?_⟩
    · rw [scanOffset, if_neg ho] at h2
      omega
    · rewrite [nextScan, scanOffset, if_neg ho]
      rfl

/-- `next` returns the smallest index from `start` on with the value. -/
theorem next_some {val : Bool} {start i : Nat} (h : bf.next val start = some i) :
    start ≤ i ∧ i < bf.size ∧ bf.bit i = val ∧ ∀ j, start ≤ j → j < i → bf.bit j ≠ val := by
  by_cases hs : start ≤ bf.size
  · rcases next_cases bf val start hs with ⟨i', ho, hf, hn⟩ | ⟨hno, hn⟩
    · rw [hn, Option.some.injEq] at h
      subst h
      obtain ⟨h1, h2, h3, h4⟩ := findBit_some bf hf
      have := bf.size_mod
      exact ⟨h1, by omega, h3, h4⟩
    · rw [hn, nextScan] at h
      split at h
      · rename_i k hk
        obtain ⟨-, hlen, hb⟩ := scan_some bf hk
        obtain ⟨h1, h2, h3, h4⟩ := findBit_some bf h
        have hstart : start ≤ scanOffset start * 8 := by unfold scanOffset; split <;> omega
        refine ⟨by omega, by unfold size; omega, h3, fun j hj1 hj2 => ?_⟩
        by_cases hj3 : j < scanOffset start * 8
        · exact hno j hj1 hj3
        · by_cases hj4 : j < (scanOffset start + k) * 8
          · exact hb j (by omega) hj4
          · exact h4 j (by omega) hj2
      · cases h
  · rw [next, if_pos (by omega)] at h
    cases h

/-- `next` returns nothing when no stored index from `start` on has the value. -/
theorem next_none {val : Bool} {start : Nat} (h : bf.next val start = none) {j : Nat}
    (h1 : start ≤ j) (h2 : j < bf.size) : bf.bit j ≠ val := by
  rcases next_cases bf val start (by omega) with ⟨i', ho, hf, hn⟩ | ⟨hno, hn⟩
  · rw [hn] at h
    cases h
  · rw [hn, nextScan] at h
    split at h
    · rename_i k hk
      obtain ⟨⟨r, hr, hb⟩, -, -⟩ := scan_some bf hk
      exact absurd hb (findBit_none bf h (by omega) (by omega))
    · rename_i hk
      by_cases hj3 : j < scanOffset start * 8
      · exact hno j h1 hj3
      · exact scan_none bf hk (by omega) h2

/-! ## Filling a range -/

theorem foldl_set (val : Bool) (n : Nat) (start : Nat) (h : start + n ≤ bf.size) :
    let r := (List.range' start n).foldl (fun bf i => bf.set i val) bf
    r.size = bf.size ∧ ∀ j, r.bit j = if start ≤ j ∧ j < start + n then val else bf.bit j := by
  induction n generalizing bf start with
  | zero =>
    refine ⟨rfl, fun j => ?_⟩
    rw [if_neg (by omega)]
    rfl
  | succ n ih =>
    have hsz : (bf.set start val).size = bf.size := by
      have := bf.size_mod
      rw [size_set]
      omega
    have := ih (bf.set start val) (start + 1) (by omega)
    simp only [List.range'_succ, List.foldl_cons]
    refine ⟨by rw [this.1, hsz], fun j => ?_⟩
    rw [this.2 j, bit_set]
    by_cases h1 : j = start
    · simp [h1]
    · by_cases h2 : start + 1 ≤ j ∧ j < start + 1 + n
      · rw [if_pos h2, if_pos (by omega)]
      · rw [if_neg h2, if_neg h1, if_neg (by omega)]

/-- A partial byte: the bits of the mask take the value. -/
theorem fillByte_ok (bytes : Bytes) {index : Nat} (mask : UInt8) (val : Bool)
    (h : index < bytes.length) :
    ∃ bytes', fillByte bytes index mask val = .ok bytes' ∧ bytes'.length = bytes.length ∧
      ∀ j, bit ⟨bytes'⟩ j =
        if j / 8 = index ∧ byteBit mask j = true then val else bit ⟨bytes⟩ j := by
  refine ⟨_, by rw [fillByte, List.getElem?_eq_getElem h], by simp, fun j => ?_⟩
  rw [bit_eq_getD, bit_eq_getD]
  by_cases hj : j / 8 = index
  · rw [hj, List.getElem?_set_self h, List.getElem?_eq_getElem h]
    cases val <;> cases hm : byteBit mask j <;>
      simp [byteBit_or, byteBit_and, byteBit_not, hm]
  · rw [List.getElem?_set_ne (Ne.symm hj), if_neg (fun hc => hj hc.1)]

theorem firstMask (s j : Nat) (hs : s < 8) :
    byteBit (UInt8.ofNat (0xFF >>> s)) j = true ↔ s ≤ j % 8 := by
  rw [← byteBit_mod]
  exact (by decide : ∀ s < 8, ∀ i < 8, byteBit (UInt8.ofNat (0xFF >>> s)) i = true ↔ s ≤ i)
    s hs (j % 8) (by omega)

theorem lastMask (e j : Nat) (he : e < 8) :
    byteBit (UInt8.ofNat (0xFF <<< (8 - e))) j = true ↔ j % 8 < e := by
  rw [← byteBit_mod]
  exact (by decide :
    ∀ e < 8, ∀ i < 8, byteBit (UInt8.ofNat (0xFF <<< (8 - e))) i = true ↔ i < e)
    e he (j % 8) (by omega)

/-- After the first byte, `[start, byteStart * 8)` has the value. -/
theorem fillFirst_ok (bytes : Bytes) (start : Nat) (val : Bool) (h : start / 8 < bytes.length) :
    ∃ bytes', fillFirst bytes start val = .ok (bytes', scanOffset start) ∧
      bytes'.length = bytes.length ∧
      ∀ j, bit ⟨bytes'⟩ j = if start ≤ j ∧ j < scanOffset start * 8 then val else bit ⟨bytes⟩ j := by
  by_cases ho : start % 8 ≠ 0
  · obtain ⟨b, hok, hbl, hbit⟩ := fillByte_ok bytes (UInt8.ofNat (0xFF >>> (start % 8))) val h
    refine ⟨b, by rw [fillFirst, if_pos ho, hok, scanOffset, if_pos ho]; rfl, hbl, fun j => ?_⟩
    rw [hbit, scanOffset, if_pos ho]
    exact if_congr (by rw [firstMask _ _ (by omega)]; omega) rfl rfl
  · refine ⟨bytes, by rw [fillFirst, if_neg ho, scanOffset, if_neg ho], rfl, fun j => ?_⟩
    rw [scanOffset, if_neg ho, if_neg (by omega)]

/-- After the last byte, `[(byteEnd + 1) * 8, bitEnd)` has the value. -/
theorem fillLast_ok (bytes : Bytes) (bitEnd : Nat) (val : Bool) (h0 : 8 ≤ bitEnd)
    (h : (bitEnd - 1) / 8 < bytes.length) (hlt : bitEnd < 2 ^ 64) :
    ∃ bytes' e, fillLast bytes bitEnd ((bitEnd - 1) / 8) val = .ok (bytes', e) ∧
      bytes'.length = bytes.length ∧ e + 1 = bitEnd / 8 ∧
      ∀ j, bit ⟨bytes'⟩ j = if (e + 1) * 8 ≤ j ∧ j < bitEnd then val else bit ⟨bytes⟩ j := by
  by_cases ho : bitEnd % 8 ≠ 0
  · obtain ⟨b, hok, hbl, hbit⟩ := fillByte_ok bytes
      (UInt8.ofNat (0xFF <<< (8 - bitEnd % 8))) val h
    refine ⟨b, (bitEnd - 1) / 8 - 1, ?_, hbl, by omega, fun j => ?_⟩
    · rw [fillLast, if_pos ho, hok, show ((bitEnd - 1) / 8 + (2 ^ 64 - 1)) % 2 ^ 64 =
        (bitEnd - 1) / 8 - 1 by omega]
      rfl
    · rw [hbit]
      exact if_congr (by rw [lastMask _ _ (by omega)]; omega) rfl rfl
  · refine ⟨bytes, (bitEnd - 1) / 8, by rw [fillLast, if_neg ho], rfl, by omega, fun j => ?_⟩
    rw [if_neg (by omega)]

/-- After the middle bytes, `[a * 8, (b + 1) * 8)` has the value. -/
theorem fillRest_ok (bytes : Bytes) {a b : Nat} (val : Bool) (hb : b < bytes.length) :
    ∃ bf', fillRest bytes a b val = .ok bf' ∧ bf'.bytes.length = bytes.length ∧
      ∀ j, bf'.bit j = if a ≤ j / 8 ∧ j / 8 ≤ b then val else bit ⟨bytes⟩ j := by
  by_cases hab : a ≤ b
  · rw [fillRest, if_pos hab, if_pos hb]
    refine ⟨_, rfl, ?_, fun j => ?_⟩
    · simp only [List.length_append, List.length_take, List.length_replicate, List.length_drop]
      omega
    have htake : (bytes.take a).length = a := by rw [List.length_take]; omega
    rw [bit_eq_getD, bit_eq_getD]
    by_cases h1 : j / 8 < a
    · rw [List.append_assoc, List.getElem?_append_left (by omega), List.getElem?_take_of_lt h1,
        if_neg (by omega)]
    rw [List.append_assoc, List.getElem?_append_right (by omega), htake]
    by_cases h2 : j / 8 ≤ b
    · rw [List.getElem?_append_left (by rw [List.length_replicate]; omega),
        List.getElem?_replicate, if_pos (show j / 8 - a < b + 1 - a by omega), Option.getD_some,
        if_pos (show a ≤ j / 8 ∧ j / 8 ≤ b by omega)]
      cases val with
      | true =>
        rw [← byteBit_mod]
        exact (by decide : ∀ i < 8, byteBit 255 i = true) _ (by omega)
      | false => exact byteBit_zero j
    · rw [List.getElem?_append_right (by rw [List.length_replicate]; omega), List.length_replicate,
        List.getElem?_drop, if_neg (by omega),
        show b + 1 + (j / 8 - a - (b + 1 - a)) = j / 8 by omega]
  · refine ⟨⟨bytes⟩, by rw [fillRest, if_neg hab], rfl, fun j => ?_⟩
    rw [if_neg (by omega)]

/-- `fill` of a range inside the bitfield assigns every index of the range and no other. -/
theorem fill_ok {count start : Nat} (val : Bool) (h : start + count ≤ bf.size)
    (hlt : start + count < 2 ^ 64) :
    ∃ bf', bf.fill count val start = .ok bf' ∧ bf'.size = bf.size ∧
      ∀ j, bf'.bit j = if start ≤ j ∧ j < start + count then val else bf.bit j := by
  by_cases hc : count = 0
  · subst hc
    exact ⟨bf, by rw [fill, if_pos rfl], rfl, fun j => by rw [if_neg (by omega)]⟩
  have hend : (start + count) % 2 ^ 64 = start + count := Nat.mod_eq_of_lt (by omega)
  have hbyte : (start + count + (2 ^ 64 - 1)) % 2 ^ 64 = start + count - 1 := by omega
  have hlen : (start + count - 1) / 8 < bf.bytes.length := by unfold size at h; omega
  unfold fill
  simp only [if_neg hc, hend, hbyte,
    if_neg (show ¬(start + count - 1) / 8 ≥ bf.bytes.length by omega)]
  by_cases hsame : start / 8 = (start + count - 1) / 8
  · rw [if_pos hsame, Nat.add_sub_cancel_left]
    exact ⟨_, rfl, foldl_set bf val count start h⟩
  rw [if_neg hsame]
  obtain ⟨bytes1, hok1, hl1, hb1⟩ := fillFirst_ok bf.bytes start val (by omega)
  obtain ⟨bytes2, e, hok2, hl2, he, hb2⟩ := fillLast_ok bytes1 (start + count) val
    (by omega) (by omega) (by omega)
  obtain ⟨bf', hok3, hl3, hb3⟩ := fillRest_ok bytes2 (a := scanOffset start) (b := e) val (by omega)
  refine ⟨bf', by rw [hok1]; simp only [bind, Except.bind, hok2, hok3], ?_, fun j => ?_⟩
  · rw [size, size, hl3, hl2, hl1]
  rw [hb3, hb2, hb1]
  have hoff : start ≤ scanOffset start * 8 ∧ scanOffset start * 8 < start + 8 := by
    unfold scanOffset
    split <;> omega
  by_cases hj : start ≤ j ∧ j < start + count
  · rw [if_pos hj]
    split
    · rfl
    · split
      · rfl
      · rw [if_pos (by omega)]
  · rw [if_neg hj, if_neg (by omega), if_neg (by omega), if_neg (by omega)]

/-! ## Failing -/

/-- `byte_end`, the one thing `fill` checks. -/
def byteEnd (count start : Nat) : Nat := ((start + count) % 2 ^ 64 + (2 ^ 64 - 1)) % 2 ^ 64 / 8

theorem fillByte_error {bytes : Bytes} {index : Nat} {mask : UInt8} {val : Bool} {e : Exn}
    (h : fillByte bytes index mask val = .error e) : e.isStd = false := by
  unfold fillByte at h
  split at h
  · cases h
    rfl
  · cases h

theorem fillFirst_error {bytes : Bytes} {start : Nat} {val : Bool} {e : Exn}
    (h : fillFirst bytes start val = .error e) : e.isStd = false := by
  unfold fillFirst at h
  split at h
  · exact fillByte_error (Lib.map_eq_error.1 h)
  · cases h

theorem fillLast_error {bytes : Bytes} {bitEnd byteEnd : Nat} {val : Bool} {e : Exn}
    (h : fillLast bytes bitEnd byteEnd val = .error e) : e.isStd = false := by
  unfold fillLast at h
  split at h
  · exact fillByte_error (Lib.map_eq_error.1 h)
  · cases h

theorem fillRest_error {bytes : Bytes} {byteStart byteEnd : Nat} {val : Bool} {e : Exn}
    (h : fillRest bytes byteStart byteEnd val = .error e) : e.isStd = false := by
  unfold fillRest at h
  split at h
  · split at h
    · cases h
    · cases h
      rfl
  · cases h

/-- A standard exception comes from the range check. -/
theorem fill_error {count start : Nat} {val : Bool} {e : Exn}
    (h : bf.fill count val start = .error e) (he : e.isStd = true) :
    bf.bytes.length ≤ byteEnd count start := by
  unfold fill at h
  split at h
  · cases h
  · dsimp only at h
    split at h
    · rename_i hout
      exact hout
    · split at h
      · cases h
      · have hstd : e.isStd = false := by
          rcases Lib.bind_eq_error.1 h with hfirst | ⟨first, -, h⟩
          · exact fillFirst_error hfirst
          · rcases Lib.bind_eq_error.1 h with hlast | ⟨last, -, h⟩
            · exact fillLast_error hlast
            · exact fillRest_error h
        rw [hstd] at he
        cases he

theorem fillInPlace_out {count start : Nat} (val : Bool) (hc : count ≠ 0)
    (hout : bf.bytes.length ≤ byteEnd count start) :
    fillInPlace count val start bf =
      .error (.invalidArgument "Bitfield::fill: Out of range") bf := by
  unfold fillInPlace
  rw [if_neg hc]
  dsimp only
  rw [Lib.run_bind (Lib.get_run bf)]
  exact congrFun (if_pos hout) bf

/-- In place, `fill` ends as it does on a copy. -/
theorem fillInPlace_fill (count start : Nat) (val : Bool) :
    Lib.wp (fillInPlace count val start) bf (fun _ bf' => bf.fill count val start = .ok bf')
      fun e _ => bf.fill count val start = .error e := by
  unfold fillInPlace fill
  refine Lib.wp_ite (fun hc => ?_) fun hc => ?_
  · rw [if_pos hc]
    rfl
  rw [if_neg hc]
  simp only [Lib.wp_bind, Lib.wp_get]
  refine Lib.wp_ite (fun hout => ?_) fun hout => ?_
  · rw [if_pos hout]
    rfl
  rw [if_neg hout]
  refine Lib.wp_ite (fun hsame => ?_) fun hsame => ?_
  · rw [if_pos hsame]
    exact Lib.wp_intro (Lib.run_forM_modify _ _ bf) rfl
  rw [if_neg hsame]
  simp only [Lib.wp_bind, Lib.wp_lift]
  refine ⟨fun first h1 => ⟨fun last h2 => ⟨fun bf' h3 => ?_, fun e h3 => ?_⟩, fun e h2 => ?_⟩,
    fun e h1 => ?_⟩
  · rw [h1]
    simp only [bind, Except.bind, h2, h3]
    rfl
  · rw [h1]
    simp only [bind, Except.bind, h2, h3]
  · rw [h1]
    simp only [bind, Except.bind, h2]
  · rw [h1]
    rfl

/-- Nothing but the range check rejects. -/
theorem fillInPlace_rejects {count start : Nat} (val : Bool) (hc : count ≠ 0) :
    (∃ what, fillInPlace count val start bf = .error (.invalidArgument what) bf) ↔
      bf.bytes.length ≤ byteEnd count start := by
  constructor
  · intro h
    obtain ⟨what, h⟩ := h
    have hfill := Lib.wp_error (bf.fillInPlace_fill count start val) h
    exact bf.fill_error hfill rfl
  · intro hout
    exact ⟨_, bf.fillInPlace_out val hc hout⟩

/-- A last index outside the bitfield is found, unless the sum has wrapped to one inside. -/
theorem length_le_byteEnd {count start : Nat} (hcount : count < 2 ^ 64) (hstart : start < 2 ^ 64)
    (hout : bf.size % 2 ^ 64 < start + count) :
    bf.bytes.length ≤ byteEnd count start ↔
      bf.size < 2 ^ 64 ∧ (start + count ≤ 2 ^ 64 ∨ 2 ^ 64 + bf.size < start + count) := by
  unfold size byteEnd at *
  rcases Nat.lt_or_ge (start + count) (2 ^ 64) with hlt | hge
  · rw [Nat.mod_eq_of_lt hlt]
    omega
  · rw [Nat.mod_eq_sub_mod hge, Nat.mod_eq_of_lt (show start + count - 2 ^ 64 < 2 ^ 64 by omega)]
    omega

end Zit.Bitfield
