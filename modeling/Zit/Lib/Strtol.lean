import Zit.Lib.IStream

/-!
# Numbers at the front of a text

`strtol base s` is the integer at the start of `s` as the C function reads it: white space, a sign,
in base 16 a prefix, and then as many digits as there are. It has none when there is no digit.
-/

set_option autoImplicit false

namespace Lib.Strtol

open IStream (isSpace)

def digit (c : UInt8) : Option Nat :=
  if 48 ≤ c.toNat ∧ c.toNat ≤ 57 then some (c.toNat - 48)
  else if 97 ≤ c.toNat ∧ c.toNat ≤ 122 then some (c.toNat - 87)
  else if 65 ≤ c.toNat ∧ c.toNat ≤ 90 then some (c.toNat - 55)
  else none

def isDigitOf (base : Nat) (c : UInt8) : Bool := (digit c).any (· < base)

/-- The number that digits denote. -/
def magnitude (base : Nat) (ds : List UInt8) : Nat :=
  ds.foldl (fun a c => base * a + (digit c).getD 0) 0

/-- `0x` in front of a digit is skipped in base 16. -/
def unprefixed (base : Nat) : List UInt8 → List UInt8
  | 48 :: x :: c :: s =>
    if base = 16 ∧ (x = 120 ∨ x = 88) ∧ isDigitOf 16 c = true then c :: s else 48 :: x :: c :: s
  | s => s

def strtol (base : Nat) (s : List UInt8) : Option Int :=
  let s := s.dropWhile isSpace
  let negative := s.head? = some 45
  let ds := (unprefixed base (if s.head? = some 45 ∨ s.head? = some 43 then s.tail else s)).takeWhile
    (isDigitOf base)
  if ds = [] then none
  else if negative then some (-(magnitude base ds : Int)) else some (magnitude base ds)

variable {base : Nat} {c : UInt8} {ds s : List UInt8}

theorem digit_ge (h : isDigitOf base c = true) : 48 ≤ c.toNat := by
  by_contra hlt
  rw [isDigitOf, digit, if_neg (by omega), if_neg (by omega), if_neg (by omega)] at h
  cases h

theorem isSpace_of_digit (h : isDigitOf base c = true) : isSpace c = false := by
  have hge := digit_ge h
  simp only [isSpace, Bool.or_eq_false_iff, beq_eq_false_iff_ne, Bool.and_eq_false_iff,
    decide_eq_false_iff_not]
  exact ⟨fun hc => by subst hc; simp at hge, .inr (by omega)⟩

theorem unprefixed_digits (hds : ∀ c ∈ ds, isDigitOf base c = true)
    (hs : s.head? ≠ some 120 ∧ s.head? ≠ some 88) (hne : ds ≠ []) :
    unprefixed base (ds ++ s) = ds ++ s := by
  obtain ⟨d, ds, rfl⟩ := List.exists_cons_of_ne_nil hne
  unfold unprefixed
  split
  case h_2 => rfl
  case h_1 x c t heq =>
    rw [List.cons_append] at heq ⊢
    rw [if_neg, heq]
    intro h
    obtain ⟨rfl, hx, -⟩ := h
    obtain ⟨-, heq⟩ := List.cons.inj heq
    cases ds with
    | nil =>
      subst heq
      rcases hx with rfl | rfl
      · exact hs.1 rfl
      · exact hs.2 rfl
    | cons d' ds =>
      obtain ⟨rfl, -⟩ := List.cons.inj heq
      have hd := hds d' (by simp)
      rcases hx with rfl | rfl
      · cases hd
      · cases hd

/-- Digits and what is behind them. -/
theorem strtol_digits (hne : ds ≠ []) (hds : ∀ c ∈ ds, isDigitOf base c = true)
    (hs : ∀ c ∈ s.head?, isDigitOf base c = false)
    (hx : s.head? ≠ some 120 ∧ s.head? ≠ some 88) :
    strtol base (ds ++ s) = some (magnitude base ds : Int) := by
  have hspace : (ds ++ s).dropWhile isSpace = ds ++ s := by
    obtain ⟨d, ds, rfl⟩ := List.exists_cons_of_ne_nil hne
    exact List.dropWhile_cons_of_neg (by simp [isSpace_of_digit (hds d (by simp))])
  have hhead : ∀ c, c.toNat < 48 → (ds ++ s).head? ≠ some c := by
    intro c hc
    obtain ⟨d, ds, rfl⟩ := List.exists_cons_of_ne_nil hne
    intro he
    cases he
    have := digit_ge (hds c (by simp))
    omega
  have htake : (ds ++ s).takeWhile (isDigitOf base) = ds := by
    rw [List.takeWhile_append_of_pos hds]
    cases s with
    | nil => simp
    | cons c s => simp [hs c rfl]
  have h45 := hhead 45 (by decide)
  have h43 := hhead 43 (by decide)
  have hsign : ¬((ds ++ s).head? = some 45 ∨ (ds ++ s).head? = some 43) := by
    rintro (h | h) <;> contradiction
  simp only [strtol, hspace]
  rw [if_neg h45, if_neg hsign, unprefixed_digits hds hx hne, htake, if_neg hne]

/-- More digits denote no smaller number. -/
theorem magnitude_le (hbase : 1 ≤ base) (ds es : List UInt8) :
    magnitude base ds ≤ magnitude base (ds ++ es) := by
  induction es using List.reverseRecOn with
  | nil => rw [List.append_nil]
  | append_singleton es e ih =>
    have hsnoc : magnitude base (ds ++ es ++ [e]) =
        base * magnitude base (ds ++ es) + (digit e).getD 0 := by
      rw [magnitude, List.foldl_append]
      rfl
    rw [← List.append_assoc, hsnoc]
    exact ih.trans (Nat.le_add_right_of_le (Nat.le_mul_of_pos_left _ hbase))

/-- In base 10 the digits are the decimal ones. -/
theorem isDigitOf_ten : isDigitOf 10 c = Decimal.isDigit c := by
  have hc := c.toNat_lt
  rw [Bool.eq_iff_iff]
  simp only [isDigitOf, digit, Decimal.isDigit, Bool.and_eq_true, decide_eq_true_eq]
  split
  · simp
    omega
  · split
    · simp
      omega
    · split
      · simp
        omega
      · simpa using by omega

theorem magnitude_ten (h : ∀ c ∈ ds, Decimal.isDigit c = true) :
    magnitude 10 ds = Decimal.value ds := by
  refine List.foldl_ext _ _ _ fun a c hc => ?_
  have hd := h c hc
  simp only [Decimal.isDigit, Bool.and_eq_true, decide_eq_true_eq] at hd
  rw [digit, if_pos hd]
  rfl

theorem strtol_decimal (hne : ds ≠ []) (hds : ∀ c ∈ ds, Decimal.isDigit c = true) :
    strtol 10 ds = some (Decimal.value ds : Int) := by
  have hds' : ∀ c ∈ ds, isDigitOf 10 c = true := fun c hc => by rw [isDigitOf_ten, hds c hc]
  have h := strtol_digits (s := []) hne hds' (by simp) (by simp)
  rwa [List.append_nil, magnitude_ten hds] at h

end Lib.Strtol
