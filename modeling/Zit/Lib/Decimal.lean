import Mathlib.Data.UInt
import Mathlib.Data.List.Basic

/-!
# Decimal numerals as bytes

`digits n` is the shortest decimal spelling of `n`, `value` reads digits back. A spelling is
`NatText` when it is the shortest one: a single zero, or digits without a leading zero
(`digits_value`, `natText_digits`: exactly the spellings `digits` writes). `IntText` adds a minus
sign, never in front of zero.
-/

set_option autoImplicit false

namespace Lib.Decimal

def isDigit (c : UInt8) : Bool := 48 ≤ c.toNat && c.toNat ≤ 57

/-- The number a list of digits denotes. -/
def value (ds : List UInt8) : Nat := ds.foldl (fun a d => 10 * a + (d.toNat - 48)) 0

/-- The shortest decimal spelling. -/
def digits (n : Nat) : List UInt8 := (Nat.toDigits 10 n).map (·.toUInt8)

/-- The shortest decimal spelling of an integer. -/
def intDigits (i : Int) : List UInt8 := if i < 0 then 45 :: digits i.natAbs else digits i.natAbs

def NatText (t : List UInt8) : Prop :=
  t = [48] ∨ (t ≠ [] ∧ (∀ c ∈ t, isDigit c = true) ∧ t.head? ≠ some 48)

def IntText (t : List UInt8) (i : Int) : Prop :=
  (NatText t ∧ i = value t) ∨ ∃ t', t = 45 :: t' ∧ NatText t' ∧ t' ≠ [48] ∧ i = -(value t' : Int)

@[simp] theorem value_nil : value [] = 0 := rfl

theorem value_append (ds : List UInt8) (d : UInt8) :
    value (ds ++ [d]) = 10 * value ds + (d.toNat - 48) := by
  simp [value, List.foldl_append]

theorem digits_of_lt {n : Nat} (h : n < 10) : digits n = [UInt8.ofNat (48 + n)] := by
  rw [digits, Nat.toDigits_of_lt_base h]
  exact (by decide : ∀ n < 10, [n.digitChar].map (·.toUInt8) = [UInt8.ofNat (48 + n)]) n h

theorem digits_of_le {n : Nat} (h : 10 ≤ n) :
    digits n = digits (n / 10) ++ [UInt8.ofNat (48 + n % 10)] := by
  rw [digits, Nat.toDigits_of_base_le (by omega) h, List.map_append]
  congr 1
  exact (by decide : ∀ n < 10, [n.digitChar].map (·.toUInt8) = [UInt8.ofNat (48 + n)]) (n % 10)
    (Nat.mod_lt _ (by omega))

theorem digits_ne_nil (n : Nat) : digits n ≠ [] := by simp [digits]

theorem digitByte_toNat {k : Nat} (h : k < 10) : (UInt8.ofNat (48 + k)).toNat = 48 + k := by
  rw [UInt8.toNat_ofNat', Nat.mod_eq_of_lt (by omega)]

theorem value_digits (n : Nat) : value (digits n) = n := by
  induction n using Nat.strongRecOn with
  | ind n ih =>
    by_cases h : n < 10
    · rw [digits_of_lt h, show [UInt8.ofNat (48 + n)] = [] ++ [UInt8.ofNat (48 + n)] from rfl,
        value_append, digitByte_toNat h, value_nil]
      omega
    · rw [digits_of_le (by omega), value_append, ih _ (by omega), digitByte_toNat (by omega)]
      omega

theorem isDigit_digits (n : Nat) : ∀ c ∈ digits n, isDigit c = true := by
  induction n using Nat.strongRecOn with
  | ind n ih =>
    have hd : ∀ k < 10, isDigit (UInt8.ofNat (48 + k)) = true := by decide
    by_cases h : n < 10
    · rw [digits_of_lt h]
      intro c hc
      rw [List.mem_singleton.1 hc]
      exact hd n h
    · rw [digits_of_le (by omega)]
      intro c hc
      rcases List.mem_append.1 hc with hc | hc
      · exact ih _ (by omega) c hc
      · rw [List.mem_singleton.1 hc]
        exact hd _ (by omega)

theorem head_digits {n : Nat} (h : n ≠ 0) : (digits n).head? ≠ some 48 := by
  induction n using Nat.strongRecOn with
  | ind n ih =>
    by_cases hn : n < 10
    · rw [digits_of_lt hn]
      exact (by decide : ∀ n < 10, n ≠ 0 → [UInt8.ofNat (48 + n)].head? ≠ some 48) n hn h
    · rw [digits_of_le (by omega), List.head?_append_of_ne_nil _ (digits_ne_nil _)]
      exact ih _ (by omega) (by omega)

theorem natText_digits (n : Nat) : NatText (digits n) := by
  by_cases h : n = 0
  · subst h
    exact .inl (digits_of_lt (by omega))
  · exact .inr ⟨digits_ne_nil n, isDigit_digits n, head_digits h⟩

/-- A shortest spelling is the one `digits` writes. -/
theorem digits_value {t : List UInt8} (h : NatText t) : digits (value t) = t := by
  rcases h with rfl | ⟨hne, hd, hh⟩
  · decide
  induction t using List.reverseRecOn with
  | nil => exact absurd rfl hne
  | append_singleton ds d ih =>
    have hdig : 48 ≤ d.toNat ∧ d.toNat ≤ 57 := by
      simpa [isDigit] using hd d (by simp)
    have hback : UInt8.ofNat (48 + (d.toNat - 48)) = d := by
      rw [Nat.add_sub_cancel' hdig.1]
      exact UInt8.ofNat_toNat
    by_cases hds : ds = []
    · subst hds
      rw [value_append, value_nil, digits_of_lt (by omega)]
      simp [hback]
    · have hh' : ds.head? ≠ some 48 := by rwa [List.head?_append_of_ne_nil _ hds] at hh
      have ih' := ih hds (fun c hc => hd c (by simp [hc])) hh'
      have hpos : value ds ≠ 0 := by
        intro h0
        rw [h0] at ih'
        rw [← ih'] at hh'
        exact hh' (by decide)
      rw [value_append, digits_of_le (by omega),
        show (10 * value ds + (d.toNat - 48)) / 10 = value ds by omega, ih',
        show (10 * value ds + (d.toNat - 48)) % 10 = d.toNat - 48 by omega, hback]

theorem intText_intDigits (i : Int) : IntText (intDigits i) i := by
  unfold intDigits
  by_cases h : i < 0
  · refine .inr ⟨digits i.natAbs, by rw [if_pos h], natText_digits _, ?_, ?_⟩
    · intro h0
      have := value_digits i.natAbs
      rw [h0, show value [48] = 0 from rfl] at this
      omega
    · rw [value_digits]
      omega
  · rw [if_neg h]
    refine .inl ⟨natText_digits _, ?_⟩
    rw [value_digits]
    omega

theorem intDigits_of_intText {t : List UInt8} {i : Int} (h : IntText t i) : intDigits i = t := by
  rcases h with ⟨ht, rfl⟩ | ⟨t', rfl, ht, hz, rfl⟩
  · rw [intDigits, if_neg (by omega), Int.natAbs_natCast, digits_value ht]
  · have hpos : value t' ≠ 0 := by
      intro h0
      have := digits_value ht
      rw [h0] at this
      exact hz this.symm
    rw [intDigits, if_pos (by omega), Int.natAbs_neg, Int.natAbs_natCast, digits_value ht]

end Lib.Decimal
