import Mathlib.Data.UInt

/-!
# Types of the program

Bytes, exceptions and the conversions of `types.hpp`: `numeric_cast` and the big-endian codec of
32-bit wire fields.
-/

set_option autoImplicit false

namespace Zit

/-- `zit::bytes`; also the characters of a `std::string`. -/
abbrev Bytes := List UInt8

/-- The characters of an ASCII string literal. -/
def ascii (cs : List Char) : Bytes := cs.map (·.toUInt8)

/-- What leaves a function that does not return: a C++ exception with its `what()` text, a step the
standard leaves undefined or that aborts the program (`undefined`), or a loop that never ends
(`diverged`). -/
inductive Exn
  | runtimeError (what : String)
  | invalidArgument (what : String)
  | outOfRange (what : String)
  | lengthError (what : String)
  | bencodeConversion (what : String)
  | fileSystem (what : String)
  | undefined (what : String)
  | diverged
  deriving DecidableEq, Repr

/-- Derived from `std::exception`, so a `catch (const exception&)` handles it. -/
def Exn.isStd : Exn → Bool
  | .undefined _ | .diverged => false
  | _ => true

/-- `zit::Sha1`: the 20 bytes of a digest. -/
@[ext] structure Sha1 where
  bytes : Bytes
  size : bytes.length = 20
  deriving DecidableEq, Repr

/-- The hash of all zeros, for examples. -/
def Sha1.zero : Sha1 := ⟨List.replicate 20 0, rfl⟩

/-- `Sha1::fromBuffer`; `offset` is a 64-bit size. -/
def Sha1.fromBuffer (buffer : Bytes) (offset : Nat) : Except Exn Sha1 :=
  if (offset + 20) % 2 ^ 64 > buffer.length then
    .error (.invalidArgument "Buffer too small for extracting sha1")
  else if h : ((buffer.drop offset).take 20).length = 20 then .ok ⟨(buffer.drop offset).take 20, h⟩
  else .error (.undefined "copy_n range")

/-! ## `numeric_cast` -/

/-- An integer type. -/
structure IntTy where
  bits : Nat
  signed : Bool
  deriving DecidableEq, Repr

namespace IntTy

def u16 : IntTy := ⟨16, false⟩
def u32 : IntTy := ⟨32, false⟩
def u64 : IntTy := ⟨64, false⟩
def i32 : IntTy := ⟨32, true⟩
def i64 : IntTy := ⟨64, true⟩

/-- `numeric_limits<I>::min()` -/
def min (I : IntTy) : Int := if I.signed then -2 ^ (I.bits - 1) else 0

/-- `numeric_limits<I>::max()` -/
def max (I : IntTy) : Int := if I.signed then 2 ^ (I.bits - 1) - 1 else 2 ^ I.bits - 1

/-- `static_cast<I>` -/
def wrap (I : IntTy) (v : Int) : Int := if I.signed then v.bmod (2 ^ I.bits) else v % 2 ^ I.bits

end IntTy

/-- `numeric_cast<I>(value)` for a `value` of type `J`: one overload for each pair of signs. -/
def numericCast (I J : IntTy) (value : Int) (msg : String := "out of range") : Except Exn Int :=
  match I.signed, J.signed with
  | true, true =>
    if value < J.wrap I.min ∨ value > J.wrap I.max then .error (.outOfRange msg)
    else .ok (I.wrap value)
  | true, false =>
    if value > I.max then .error (.outOfRange msg) else .ok (I.wrap value)
  | false, true =>
    if value < 0 ∨ value > I.max then .error (.outOfRange msg) else .ok (I.wrap value)
  | false, false =>
    if value > I.max then .error (.outOfRange msg) else .ok (I.wrap value)

/-- `numeric_cast<uint32_t>` of a signed 64-bit value. -/
def castU32 (value : Int) : Except Exn UInt32 :=
  (numericCast .u32 .i64 value).map fun v => UInt32.ofNat v.toNat

/-- `numeric_cast<uint32_t>` of an unsigned 64-bit value. -/
def castSizeU32 (value : Nat) : Except Exn UInt32 :=
  (numericCast .u32 .u64 value).map fun v => UInt32.ofNat v.toNat

/-- `numeric_cast<uintmax_t>` of a signed 64-bit value. -/
def castU64 (value : Int) : Except Exn Nat := (numericCast .u64 .i64 value).map (·.toNat)

theorem castU32_of {n : Nat} (h : n < 2 ^ 32) : castU32 n = .ok (UInt32.ofNat n) := by
  have hn : ¬((n : Int) < 0 ∨ (n : Int) > 2 ^ 32 - 1) := by omega
  simp only [castU32, numericCast, IntTy.u32, IntTy.i64, IntTy.max, IntTy.wrap, Bool.false_eq_true,
    if_false]
  rw [if_neg hn]
  simp only [Except.map, Except.ok.injEq]
  congr 1
  omega

theorem castU32_ok {value : Int} {r : UInt32} (h : castU32 value = .ok r) :
    0 ≤ value ∧ value < 2 ^ 32 ∧ (r.toNat : Int) = value := by
  simp only [castU32, numericCast, IntTy.u32, IntTy.i64, IntTy.max, IntTy.wrap, Bool.false_eq_true,
    if_false] at h
  by_cases hv : value < 0 ∨ value > 2 ^ 32 - 1
  · rw [if_pos hv] at h
    cases h
  · rw [if_neg hv] at h
    simp only [Except.map, Except.ok.injEq] at h
    subst h
    refine ⟨by omega, by omega, ?_⟩
    rw [UInt32.toNat_ofNat']
    omega

theorem castSizeU32_of {n : Nat} (h : n < 2 ^ 32) : castSizeU32 n = .ok (UInt32.ofNat n) := by
  have hn : ¬(n : Int) > 2 ^ 32 - 1 := by omega
  simp only [castSizeU32, numericCast, IntTy.u32, IntTy.u64, IntTy.max, IntTy.wrap,
    Bool.false_eq_true, if_false]
  rw [if_neg hn]
  simp only [Except.map, Except.ok.injEq]
  congr 1
  omega

theorem castSizeU32_eq {n : Nat} {v : UInt32} (h : castSizeU32 n = .ok v) :
    n < 2 ^ 32 ∧ v = UInt32.ofNat n := by
  simp only [castSizeU32, numericCast, IntTy.u32, IntTy.u64, IntTy.max, IntTy.wrap,
    Bool.false_eq_true, if_false] at h
  by_cases hn : (n : Int) > 2 ^ 32 - 1
  · rw [if_pos hn] at h
    cases h
  · rw [if_neg hn] at h
    simp only [Except.map, Except.ok.injEq] at h
    refine ⟨by omega, ?_⟩
    rw [← h]
    congr 1
    omega

theorem castU64_of {n : Nat} (h : n < 2 ^ 64) : castU64 n = .ok n := by
  have hn : ¬((n : Int) < 0 ∨ (n : Int) > 2 ^ 64 - 1) := by omega
  simp only [castU64, numericCast, IntTy.u64, IntTy.i64, IntTy.max, IntTy.wrap, Bool.false_eq_true,
    if_false]
  rw [if_neg hn]
  simp only [Except.map, Except.ok.injEq]
  omega

/-! ## Big-endian fields -/

/-- `to_big_endian<uint32_t>` -/
def toBigEndian (val : UInt32) : Bytes :=
  [((val >>> 24) &&& 0xFF).toUInt8, ((val >>> 16) &&& 0xFF).toUInt8,
    ((val >>> 8) &&& 0xFF).toUInt8, ((val >>> 0) &&& 0xFF).toUInt8]

/-- `from_big_endian<uint32_t>`; `offset` is a 64-bit size, and so is the sum it is compared by. -/
def fromBigEndian (buf : Bytes) (offset : Nat) : Except Exn UInt32 :=
  if (offset + 4) % 2 ^ 64 > buf.length ∨ offset > 2 ^ 64 - 1 - 4 then
    .error (.outOfRange s!"Target range outside of buffer: ({offset},{buf.length})")
  else
    match buf[offset + 3]?, buf[offset + 2]?, buf[offset + 1]?, buf[offset]? with
    | some b3, some b2, some b1, some b0 =>
      .ok (b3.toUInt32 <<< 0 ||| b2.toUInt32 <<< 8 ||| b1.toUInt32 <<< 16 ||| b0.toUInt32 <<< 24)
    | _, _, _, _ => .error (.undefined "buffer index")

@[simp] theorem toBigEndian_length (val : UInt32) : (toBigEndian val).length = 4 := rfl

theorem or_shiftLeft {a : Nat} (b k : Nat) (h : a < 2 ^ k) : a ||| b <<< k = a + b * 2 ^ k := by
  rw [Nat.or_comm, ← Nat.shiftLeft_add_eq_or_of_lt h, Nat.shiftLeft_eq, Nat.add_comm]

/-- The four bytes of a value, shifted back into place, are the value. -/
theorem bigEndian_join (v : UInt32) :
    ((v >>> 0) &&& 0xFF).toUInt8.toUInt32 <<< 0 ||| ((v >>> 8) &&& 0xFF).toUInt8.toUInt32 <<< 8 |||
      ((v >>> 16) &&& 0xFF).toUInt8.toUInt32 <<< 16 |||
      ((v >>> 24) &&& 0xFF).toUInt8.toUInt32 <<< 24 = v := by
  have hv := v.toNat_lt
  have hff : ∀ n : Nat, n &&& 255 = n % 256 := fun n => Nat.and_two_pow_sub_one_eq_mod n 8
  apply UInt32.toNat.inj
  simp [hff, Nat.shiftRight_eq_div_pow]
  rw [Nat.mod_eq_of_lt (show (v.toNat / 256 % 256) <<< 8 < _ by rw [Nat.shiftLeft_eq]; omega),
    Nat.mod_eq_of_lt (show (v.toNat / 65536 % 256) <<< 16 < _ by rw [Nat.shiftLeft_eq]; omega),
    Nat.mod_eq_of_lt (show (v.toNat / 16777216 % 256) <<< 24 < _ by rw [Nat.shiftLeft_eq]; omega)]
  rw [or_shiftLeft _ 8 (by omega), or_shiftLeft _ 16 (by omega), or_shiftLeft _ 24 (by omega)]
  omega

/-- A field read where it was written. -/
theorem fromBigEndian_toBigEndian (p q : Bytes) (v : UInt32) (hp : p.length < 2 ^ 63) :
    fromBigEndian (p ++ toBigEndian v ++ q) p.length = .ok v := by
  have hlt : ¬((p.length + 4) % 2 ^ 64 > (p ++ toBigEndian v ++ q).length ∨
      p.length > 2 ^ 64 - 1 - 4) := by
    simp only [List.length_append, toBigEndian_length]
    omega
  have hget : ∀ k, k < 4 → (p ++ toBigEndian v ++ q)[p.length + k]? = (toBigEndian v)[k]? := by
    intro k hk
    rw [List.append_assoc, List.getElem?_append_right (by omega), Nat.add_sub_cancel_left,
      List.getElem?_append_left (by simpa using hk)]
  have h0 := hget 0 (by omega)
  rw [Nat.add_zero] at h0
  rw [fromBigEndian, if_neg hlt, hget 3 (by omega), hget 2 (by omega), hget 1 (by omega), h0]
  simp only [toBigEndian, List.getElem?_cons_zero, List.getElem?_cons_succ]
  rw [bigEndian_join]

end Zit
