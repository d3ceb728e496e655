import Mathlib.Data.UInt
import Mathlib.Data.List.Basic

/-!
# Big-endian numbers

`toBytes n v` are the last `n` bytes of `v`, the most significant one first, and `ofBytes` is the
number that bytes denote. They are inverse on numbers of `n` bytes (`ofBytes_toBytes`,
`toBytes_ofBytes`).
-/

set_option autoImplicit false

namespace Lib.BigEndian

def toBytes : Nat → Nat → List UInt8
  | 0, _ => []
  | n + 1, v => toBytes n (v / 256) ++ [UInt8.ofNat v]

def ofBytes (bs : List UInt8) : Nat := bs.foldl (fun a b => a * 256 + b.toNat) 0

@[simp] theorem length_toBytes (n v : Nat) : (toBytes n v).length = n := by
  induction n generalizing v with
  | zero => rfl
  | succ n ih => simp [toBytes, ih]

theorem toBytes_eq (n v : Nat) :
    toBytes n v = (List.range n).map fun i => UInt8.ofNat (v / 256 ^ (n - 1 - i)) := by
  induction n generalizing v with
  | zero => rfl
  | succ n ih =>
    rw [toBytes, ih, List.range_succ, List.map_append, List.map_singleton]
    congr 1
    · refine List.map_congr_left fun i hi => ?_
      have hexp : n + 1 - 1 - i = n - 1 - i + 1 := by
        have := List.mem_range.1 hi
        omega
      rw [hexp, Nat.pow_succ', Nat.div_div_eq_div_mul]
    · simp

@[simp] theorem ofBytes_nil : ofBytes [] = 0 := rfl

theorem ofBytes_snoc (bs : List UInt8) (b : UInt8) :
    ofBytes (bs ++ [b]) = ofBytes bs * 256 + b.toNat := by
  simp [ofBytes]

theorem ofBytes_lt (bs : List UInt8) : ofBytes bs < 256 ^ bs.length := by
  induction bs using List.reverseRecOn with
  | nil => decide
  | append_singleton bs b ih =>
    have hb := b.toNat_lt
    rw [ofBytes_snoc, List.length_append, List.length_singleton, Nat.pow_succ]
    omega

theorem ofBytes_toBytes (n v : Nat) : ofBytes (toBytes n v) = v % 256 ^ n := by
  induction n generalizing v with
  | zero => simp [toBytes, Nat.mod_one]
  | succ n ih =>
    have hpow : 256 ^ (n + 1) = 256 * 256 ^ n := Nat.pow_succ'
    rw [toBytes, ofBytes_snoc, ih, UInt8.toNat_ofNat', hpow, Nat.mod_mul]
    omega

theorem toBytes_ofBytes (bs : List UInt8) : toBytes bs.length (ofBytes bs) = bs := by
  induction bs using List.reverseRecOn with
  | nil => rfl
  | append_singleton bs b ih =>
    have hb := b.toNat_lt
    have hdiv : (ofBytes bs * 256 + b.toNat) / 256 = ofBytes bs := by omega
    have hbyte : UInt8.ofNat (ofBytes bs * 256 + b.toNat) = b := by
      apply UInt8.toNat.inj
      rw [UInt8.toNat_ofNat']
      omega
    rw [ofBytes_snoc, List.length_append, List.length_singleton, toBytes, hdiv, ih, hbyte]

end Lib.BigEndian
