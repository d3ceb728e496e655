import Mathlib.Tactic.Linarith
import Mathlib.Tactic.Ring
import Zit.Numeric
import Zit.Lib.BigEndian
import Zit.Lib.Fallible
import Zit.Tracker

/-!
# Casts and fields of every type

`numeric_cast` gives the number or throws, except from a signed type into a wider signed type, where
the limits wrap around and it always throws (`numericCast_iff`). The big-endian codec writes the
bytes of a value and reads them back, signed or not (`toBigEndian_eq`, `fromBigEndian_eq`), and its
range check does not wrap around (`outside_iff`). The casts and fields of the other models are these
at their types (`numericCast_eq`, `ofBigEndian_eq`, `fromBigEndian_u32`, `toBigEndian_u32`).
-/

set_option autoImplicit false

namespace Zit

open Lib

namespace IntTy

/-- An integer type of the language. -/
def Standard (I : IntTy) : Prop := I.bits = 8 ∨ I.bits = 16 ∨ I.bits = 32 ∨ I.bits = 64

section
variable {I J : IntTy} {a b v : Int}

theorem wrap_of_holds (hI : I.Standard) (h : I.Holds v) : I.wrap v = v := by
  obtain ⟨bits, signed⟩ := I
  simp only [Holds, min, max, wrap] at h ⊢
  cases signed with
  | true =>
    simp only [if_true] at h ⊢
    rcases hI with rfl | rfl | rfl | rfl <;> (simp at h; rw [Int.bmod_eq_of_le] <;> omega)
  | false =>
    simp only [Bool.false_eq_true, if_false] at h ⊢
    exact Int.emod_eq_of_lt h.1 (by omega)

/-- Of two types with one sign the common type holds the values of both. -/
theorem holds_common (hI : I.Standard) (hJ : J.Standard) (hs : I.signed = J.signed)
    (ha : I.Holds a) (hb : J.Holds b) :
    (I.common J).Standard ∧ (I.common J).Holds a ∧ (I.common J).Holds b := by
  obtain ⟨bits, signed⟩ := I
  obtain ⟨bits', signed'⟩ := J
  obtain rfl : signed = signed' := hs
  simp only [Standard] at hI hJ
  rcases hI with rfl | rfl | rfl | rfl <;> rcases hJ with rfl | rfl | rfl | rfl <;> cases signed <;>
    simp [Standard, Holds, common, promote, int, i32, min, max] at ha hb ⊢ <;> omega

theorem lt_iff (hI : I.Standard) (hJ : J.Standard) (hs : I.signed = J.signed) (ha : I.Holds a)
    (hb : J.Holds b) : I.lt J a b ↔ a < b := by
  obtain ⟨hstd, ha', hb'⟩ := holds_common hI hJ hs ha hb
  rw [lt, wrap_of_holds hstd ha', wrap_of_holds hstd hb']

/-- The limits of a signed type that is not wider are values of the other one. -/
theorem holds_limits (hI : I.Standard) (hs : I.signed = true) (hs' : J.signed = true)
    (hle : I.bits ≤ J.bits) : J.Holds I.min ∧ J.Holds I.max := by
  obtain ⟨bits, signed⟩ := I
  obtain ⟨bits', signed'⟩ := J
  simp only [Standard] at hI hle hs hs'
  subst hs hs'
  have hpow : (2 : Int) ^ (bits - 1) ≤ 2 ^ (bits' - 1) := by
    exact_mod_cast Nat.pow_le_pow_right (by decide : 0 < 2) (by omega : bits - 1 ≤ bits' - 1)
  have hpos : (0 : Int) < 2 ^ (bits - 1) := Int.pow_pos (by decide)
  simp only [Holds, min, max, if_true]
  omega

/-- The limits of a wider signed type wrap around. -/
theorem wrap_limits (hI : I.Standard) (hJ : J.Standard) (hs : I.signed = true)
    (hs' : J.signed = true) (hlt : J.bits < I.bits) : J.wrap I.min = 0 ∧ J.wrap I.max = -1 := by
  obtain ⟨bits, signed⟩ := I
  obtain ⟨bits', signed'⟩ := J
  simp only [Standard] at hI hJ hlt hs hs'
  subst hs hs'
  rcases hI with rfl | rfl | rfl | rfl <;> rcases hJ with rfl | rfl | rfl | rfl <;>
    first | omega | decide

theorem holds_zero (hI : I.Standard) : I.Holds 0 ∧ (I.signed = true → I.Holds (-1)) := by
  obtain ⟨bits, signed⟩ := I
  simp only [Standard] at hI
  rcases hI with rfl | rfl | rfl | rfl <;> cases signed <;> decide

/-- Without its sign bit a type still holds what is not negative. -/
theorem holds_unsigned (hI : I.Standard) (h : I.Holds v) (hv : 0 ≤ v) : I.unsigned.Holds v := by
  obtain ⟨bits, signed⟩ := I
  simp only [Standard] at hI
  rcases hI with rfl | rfl | rfl | rfl <;> cases signed <;>
    simp [Holds, unsigned, min, max] at h ⊢ <;> omega

theorem wrap_holds (hI : I.Standard) (v : Int) : I.Holds (I.wrap v) := by
  obtain ⟨bits, signed⟩ := I
  simp only [Standard] at hI
  rcases hI with rfl | rfl | rfl | rfl <;> cases signed <;>
    simp [Holds, wrap, min, max, Int.bmod] <;> omega

theorem max_holds (hI : I.Standard) : I.Holds I.max ∧ 0 ≤ I.max := by
  obtain ⟨bits, signed⟩ := I
  simp only [Standard] at hI
  rcases hI with rfl | rfl | rfl | rfl <;> cases signed <;> decide

end

end IntTy

namespace Numeric

open IntTy

section
variable {I J : IntTy} {value : Int} (hI : I.Standard) (hJ : J.Standard) (hv : J.Holds value)
  (msg : String)

/-- The exact conversion. -/
def exactCast (I : IntTy) (value : Int) (msg : String) : Except Exn Int :=
  if I.Holds value then .ok value else .error (.outOfRange msg)

include hI in
theorem ite_exactCast {p : Prop} [Decidable p] (hp : p ↔ ¬I.Holds value) :
    (if p then .error (.outOfRange msg) else .ok (I.wrap value)) = exactCast I value msg := by
  unfold exactCast
  by_cases h : I.Holds value
  · rw [if_neg (by simp [hp, h]), if_pos h, wrap_of_holds hI h]
  · rw [if_pos (hp.2 h), if_neg h]

include hI hJ hv

theorem numericCast_signed (hs : I.signed = true) (hs' : J.signed = true)
    (hle : I.bits ≤ J.bits) : numericCast I J value msg = exactCast I value msg := by
  obtain ⟨hmin, hmax⟩ := holds_limits hI hs hs' hle
  simp only [numericCast, hs, hs']
  refine ite_exactCast hI msg ?_
  rw [wrap_of_holds hJ hmin, wrap_of_holds hJ hmax, lt_iff hJ hJ rfl hv hmin,
    lt_iff hJ hJ rfl hmax hv, Holds]
  omega

/-- No value gets into a wider signed type. -/
theorem numericCast_wider (hs : I.signed = true) (hs' : J.signed = true)
    (hlt : J.bits < I.bits) : numericCast I J value msg = .error (.outOfRange msg) := by
  obtain ⟨hmin, hmax⟩ := wrap_limits hI hJ hs hs' hlt
  have hzero := holds_zero hJ
  simp only [numericCast, hs, hs', hmin, hmax, lt_iff hJ hJ rfl hv hzero.1,
    lt_iff hJ hJ rfl (hzero.2 hs') hv]
  rw [if_pos (by omega)]

theorem numericCast_toSigned (hs : I.signed = true) (hs' : J.signed = false) :
    numericCast I J value msg = exactCast I value msg := by
  obtain ⟨hmax, hpos⟩ := max_holds hI
  have hmax' := holds_unsigned hI hmax hpos
  have hI' : I.unsigned.Standard := hI
  have hmin : I.min ≤ 0 := (holds_zero hI).1.1
  have hnonneg : 0 ≤ value := by simpa [IntTy.min, hs'] using hv.1
  simp only [numericCast, hs, hs']
  refine ite_exactCast hI msg ?_
  rw [wrap_of_holds hI' hmax', lt_iff hI' hJ hs'.symm hmax' hv, Holds]
  omega

theorem numericCast_toUnsigned (hs : I.signed = false) (hs' : J.signed = true) :
    numericCast I J value msg = exactCast I value msg := by
  have hmin : I.min = 0 := by simp [IntTy.min, hs]
  simp only [numericCast, hs, hs']
  refine ite_exactCast hI msg ?_
  rw [lt_iff hJ (.inr (.inr (.inl rfl))) hs' hv (by decide), Holds, hmin]
  by_cases hneg : value < 0
  · simp [hneg]
  · have hv' := holds_unsigned hJ hv (Int.not_lt.1 hneg)
    have hJ' : J.unsigned.Standard := hJ
    rw [wrap_of_holds hJ' hv', lt_iff hI hJ' hs (max_holds hI).1 hv']
    omega

theorem numericCast_unsigned (hs : I.signed = false) (hs' : J.signed = false) :
    numericCast I J value msg = exactCast I value msg := by
  have hmin : I.min = 0 := by simp [IntTy.min, hs]
  have hnonneg : 0 ≤ value := by simpa [IntTy.min, hs'] using hv.1
  simp only [numericCast, hs, hs']
  refine ite_exactCast hI msg ?_
  rw [lt_iff hI hJ (hs.trans hs'.symm) (max_holds hI).1 hv, Holds, hmin]
  omega

/-- Without the conversions of the operators the casts are the same. -/
theorem numericCast_eq : Zit.numericCast I J value msg = numericCast I J value msg := by
  unfold Zit.numericCast numericCast
  cases hs : I.signed with
  | false =>
    cases hs' : J.signed with
    | false => simp only [lt_iff hI hJ (hs.trans hs'.symm) (max_holds hI).1 hv]
    | true =>
      dsimp only
      congr 1
      rw [lt_iff hJ (.inr (.inr (.inl rfl))) hs' hv (by decide)]
      by_cases hneg : value < 0
      · simp [hneg]
      · have hv' := holds_unsigned hJ hv (Int.not_lt.1 hneg)
        have hJ' : J.unsigned.Standard := hJ
        rw [wrap_of_holds hJ' hv', lt_iff hI hJ' hs (max_holds hI).1 hv']
  | true =>
    cases hs' : J.signed with
    | false =>
      obtain ⟨hmax, hpos⟩ := max_holds hI
      have hmax' := holds_unsigned hI hmax hpos
      have hI' : I.unsigned.Standard := hI
      simp only [wrap_of_holds hI' hmax', lt_iff hI' hJ hs'.symm hmax' hv]
    | true =>
      simp only [lt_iff hJ hJ rfl hv (wrap_holds hJ I.min),
        lt_iff hJ hJ rfl (wrap_holds hJ I.max) hv]

/-- A cast is exact unless it widens a signed type to a signed type, where it always throws. -/
theorem numericCast_iff :
    numericCast I J value msg =
        (if I.min ≤ value ∧ value ≤ I.max then .ok value else .error (.outOfRange msg)) ↔
      ¬(I.signed = true ∧ J.signed = true ∧ J.bits < I.bits) := by
  show numericCast I J value msg = exactCast I value msg ↔ _
  cases hs : I.signed with
  | false =>
    cases hs' : J.signed with
    | false => simp [numericCast_unsigned hI hJ hv msg hs hs']
    | true => simp [numericCast_toUnsigned hI hJ hv msg hs hs']
  | true =>
    cases hs' : J.signed with
    | false => simp [numericCast_toSigned hI hJ hv msg hs hs']
    | true =>
      by_cases hlt : J.bits < I.bits
      · obtain ⟨hmin, hmax⟩ := holds_limits hJ hs' hs (Nat.le_of_lt hlt)
        have hholds : I.Holds value := ⟨hmin.1.trans hv.1, hv.2.trans hmax.2⟩
        simp [numericCast_wider hI hJ hv msg hs hs' hlt, exactCast, hholds, hlt]
      · simp [numericCast_signed hI hJ hv msg hs hs' (Nat.not_lt.1 hlt), hlt]

end

theorem numericCast_iff_narrow : numericCast ⟨8, true⟩ ⟨32, true⟩ (-129) "out of range" =
      (if IntTy.min ⟨8, true⟩ ≤ -129 ∧ -129 ≤ IntTy.max ⟨8, true⟩ then .ok (-129)
        else .error (.outOfRange "out of range")) ↔
    ¬(true = true ∧ true = true ∧ 32 < 8) :=
  numericCast_iff (I := ⟨8, true⟩) (J := ⟨32, true⟩) (.inl rfl) (.inr (.inr (.inl rfl)))
    (by decide) "out of range"

/-- An `int32_t` one does not get into an `int64_t`. -/
theorem numericCast_widened : ¬∀ I J : IntTy, I.Standard → J.Standard → ∀ value,
    J.min ≤ value → value ≤ J.max →
      numericCast I J value "out of range" =
        if I.min ≤ value ∧ value ≤ I.max then .ok value
        else .error (.outOfRange "out of range") := by
  intro hall
  have h := hall .i64 .i32 (.inr (.inr (.inr rfl))) (.inr (.inr (.inl rfl))) 1 (by decide)
    (by decide)
  exact absurd h (by decide)

/-! ## Fields -/

section
variable {T : WireTy}

/-- The promotion and the shift leave the bits of the byte where they are. -/
theorem getLsbD_shiftRight {I : IntTy} (v : BitVec I.bits) {k i : Nat} (hk : k + 8 ≤ I.bits)
    (hi : i < 8) (hle : I.bits ≤ I.promote.bits) :
    (I.shiftRight v k).getLsbD i = v.getLsbD (k + i) := by
  have h1 : ¬I.promote.bits ≤ i := by omega
  have h2 : k + i < I.promote.bits := by omega
  have h3 : k + i < I.bits := by omega
  have hpromoted : (I.promoted v).getLsbD (k + i) = v.getLsbD (k + i) := by
    unfold IntTy.promoted
    split
    · rw [BitVec.getLsbD_signExtend, if_pos h3]
      simp [h2]
    · simp [h2]
  unfold IntTy.shiftRight
  split
  · rw [BitVec.getLsbD_sshiftRight, if_pos h2, hpromoted]
    simp [h1]
  · rw [BitVec.getLsbD_ushiftRight, hpromoted]

/-- Whatever the type is promoted to, the byte at bit `k` is that of the value. -/
theorem byteAt_eq {I : IntTy} (v : BitVec I.bits) {k : Nat} (hk : k + 8 ≤ I.bits) :
    I.byteAt v k = UInt8.ofNat (v.toNat / 2 ^ k) := by
  have hle : I.bits ≤ I.promote.bits := by
    unfold IntTy.promote
    split
    · simp only [IntTy.int, IntTy.i32]
      omega
    · exact Nat.le_refl _
  apply UInt8.toBitVec_inj.1
  apply BitVec.eq_of_getLsbD_eq
  intro i hi
  have hmask : (0xFF#I.promote.bits).getLsbD i = true := by
    have h255 : ∀ j < 8, Nat.testBit 0xFF j = true := by decide
    rw [BitVec.getLsbD_ofNat, h255 i hi, decide_eq_true (by omega), Bool.and_self]
  rw [IntTy.byteAt, BitVec.getLsbD_setWidth, BitVec.getLsbD_and, hmask,
    getLsbD_shiftRight v hk hi hle, UInt8.toBitVec_ofNat', BitVec.getLsbD_ofNat,
    Nat.testBit_div_two_pow, BitVec.testBit_toNat, Nat.add_comm, Bool.and_true]

theorem WireTy.size_eq (T : WireTy) : T.bits = 8 * T.size ∧ (T.size = 2 ∨ T.size = 4 ∨ T.size = 8) := by
  obtain ⟨⟨bits, signed⟩, hwide⟩ := T
  simp only [WireTy.size] at hwide ⊢
  omega

theorem toBigEndian_eq (val : BitVec T.bits) :
    toBigEndian T val = BigEndian.toBytes T.size val.toNat := by
  obtain ⟨hbits, hsize⟩ := T.size_eq
  unfold toBigEndian
  rcases hsize with h | h | h <;> rw [h] at hbits ⊢
  · simp [byteAt_eq, hbits, BigEndian.toBytes]
  · simp [byteAt_eq, hbits, BigEndian.toBytes, Nat.div_div_eq_div_mul]
  · simp [byteAt_eq, hbits, BigEndian.toBytes, Nat.div_div_eq_div_mul]

/-- The next byte goes above the ones that are there. -/
theorem toNat_or_byte {w k : Nat} {x : BitVec w} (b : UInt8) (hx : x.toNat < 2 ^ k)
    (hk : k + 8 ≤ w) :
    (x ||| (b.toBitVec.setWidth w).shiftLeft k).toNat = x.toNat + b.toNat * 2 ^ k := by
  have hb : b.toNat < 2 ^ 8 := b.toNat_lt
  have hpow : 2 ^ (k + 8) ≤ 2 ^ w := Nat.pow_le_pow_right (by decide) hk
  have hlt : b.toNat * 2 ^ k < 2 ^ w := by
    calc b.toNat * 2 ^ k < 2 ^ 8 * 2 ^ k := Nat.mul_lt_mul_of_pos_right hb (Nat.two_pow_pos k)
      _ = 2 ^ (k + 8) := by rw [← Nat.pow_add, Nat.add_comm]
      _ ≤ 2 ^ w := hpow
  have hwidth : 2 ^ 8 ≤ 2 ^ w := Nat.pow_le_pow_right (by decide) (by omega)
  have hbyte : ((b.toBitVec.setWidth w).shiftLeft k).toNat = b.toNat <<< k := by
    rw [BitVec.shiftLeft_eq, BitVec.toNat_shiftLeft, BitVec.toNat_setWidth,
      UInt8.toNat_toBitVec, Nat.mod_eq_of_lt (Nat.lt_of_lt_of_le hb hwidth), Nat.shiftLeft_eq,
      Nat.mod_eq_of_lt hlt]
  rw [BitVec.toNat_or, hbyte, or_shiftLeft _ _ hx]

/-- The bytes of a field joined, the last one first. -/
def join (w : Nat) : List UInt8 → Nat → BitVec w → BitVec w
  | [], _, x => x
  | b :: bs, k, x => join w bs (k + 8) (x ||| (b.toBitVec.setWidth w).shiftLeft k)

theorem toNat_join {w : Nat} (bs : List UInt8) {k : Nat} {x : BitVec w} (hx : x.toNat < 2 ^ k)
    (hk : k + 8 * bs.length ≤ w) :
    (join w bs k x).toNat = x.toNat + BigEndian.ofBytes bs.reverse * 2 ^ k := by
  induction bs generalizing k x with
  | nil => simp [join]
  | cons b bs ih =>
    rw [List.length_cons] at hk
    have hnext := toNat_or_byte b hx (show k + 8 ≤ w by omega)
    have hpow : 2 ^ (k + 8) = 2 ^ k * 256 := Nat.pow_add 2 k 8
    have hlt : (x ||| (b.toBitVec.setWidth w).shiftLeft k).toNat < 2 ^ (k + 8) := by
      have hb := b.toNat_lt
      rw [hnext, hpow]
      nlinarith
    rw [join, ih hlt (by omega), hnext, List.reverse_cons, BigEndian.ofBytes_snoc, hpow]
    ring

/-- A byte in the range of a field. -/
theorem index_eq {buf bs : Bytes} {offset : UInt64} {n i : Nat}
    (hbs : (buf.drop offset.toNat).take n = bs) (hi : i < n)
    (hlt : offset.toNat + i < 2 ^ 64) {b : UInt8} (hb : bs[i]? = some b) :
    index buf (offset + UInt64.ofNat i) = .ok b := by
  have hsum : (offset + UInt64.ofNat i).toNat = offset.toNat + i := by
    rw [UInt64.toNat_add, UInt64.toNat_ofNat', Nat.add_mod_mod, Nat.mod_eq_of_lt hlt]
  have hget : buf[offset.toNat + i]? = some b := by
    rw [← hb, ← hbs, List.getElem?_take_of_lt hi, List.getElem?_drop]
  obtain ⟨h, hget⟩ := List.getElem?_eq_some_iff.1 hget
  unfold index
  rw [dif_pos (by rw [hsum]; exact h)]
  simp only [hsum, List.get_eq_getElem, hget]

/-- The check does not wrap around. -/
theorem outside_iff {len : Nat} (offset : UInt64) (hlen : len < 2 ^ 64) :
    ((offset + UInt64.ofNat T.size).toNat > len ∨
        offset > 0xFFFFFFFFFFFFFFFF - UInt64.ofNat T.size) ↔ offset.toNat + T.size > len := by
  have hsize : T.size < 2 ^ 64 := by
    have := T.size_eq.2
    omega
  have hoffset := offset.toNat_lt
  have hmax : (0xFFFFFFFFFFFFFFFF - UInt64.ofNat T.size).toNat = 2 ^ 64 - 1 - T.size := by
    rw [UInt64.toNat_sub_of_le, UInt64.toNat_ofNat', Nat.mod_eq_of_lt hsize]
    · rfl
    · rw [UInt64.le_iff_toNat_le, UInt64.toNat_ofNat', Nat.mod_eq_of_lt hsize]
      show T.size ≤ 2 ^ 64 - 1
      omega
  rw [UInt64.toNat_add, UInt64.toNat_ofNat', Nat.mod_eq_of_lt hsize, 
    show offset > _ ↔ _ from UInt64.lt_iff_toNat_lt, hmax]
  omega

theorem fromBigEndian_throws {buf : Bytes} {offset : UInt64} (hbuf : buf.length < 2 ^ 64)
    (h : offset.toNat + T.size > buf.length) :
    ∃ what, fromBigEndian T buf offset = .error (.outOfRange what) := by
  unfold fromBigEndian
  dsimp only
  rw [if_pos ((outside_iff offset hbuf).2 h)]
  exact ⟨_, rfl⟩

theorem fromBigEndian_eq {buf : Bytes} {offset : UInt64} (hbuf : buf.length < 2 ^ 64)
    (h : offset.toNat + T.size ≤ buf.length) :
    fromBigEndian T buf offset =
      .ok (BitVec.ofNat T.bits (BigEndian.ofBytes ((buf.drop offset.toNat).take T.size))) := by
  obtain ⟨hbits, hsize⟩ := T.size_eq
  obtain ⟨bs, hbs⟩ : ∃ bs, (buf.drop offset.toNat).take T.size = bs := ⟨_, rfl⟩
  have hlen : bs.length = T.size := by
    rw [← hbs, List.length_take, List.length_drop]
    omega
  have hindex : ∀ (i : Nat) (b : UInt8), i < T.size → bs[i]? = some b →
      index buf (offset + UInt64.ofNat i) = .ok b := fun i b hi hb =>
    index_eq hbs hi (by omega) hb
  unfold fromBigEndian
  dsimp only
  rw [if_neg (by rw [outside_iff offset hbuf]; omega), hbs]
  have hjoin : ∀ (w : Nat) (x : BitVec w), 8 * T.size ≤ w → join w bs.reverse 0 0#w = x →
      BitVec.ofNat T.bits (BigEndian.ofBytes bs) = x.setWidth T.bits := by
    intro w x hw hx
    have hnat := toNat_join bs.reverse (k := 0) (x := 0#w) (by simp) (by simp [hlen]; omega)
    rw [hx] at hnat
    apply BitVec.eq_of_toNat_eq
    rw [BitVec.toNat_setWidth, hnat, BitVec.toNat_ofNat, List.reverse_reverse]
    simp
  rcases hsize with h2 | h4 | h8
  · rw [h2] at hlen hindex
    rcases bs with _ | ⟨b0, _ | ⟨b1, _ | ⟨b2, bs⟩⟩⟩ <;> simp at hlen
    have h0 : index buf (offset + 0) = .ok b0 := hindex 0 b0 (by decide) rfl
    have h1 : index buf (offset + 1) = .ok b1 := hindex 1 b1 (by decide) rfl
    rw [if_pos h2, hjoin 32 _ (by omega) rfl]
    simp only [fieldInt, h0, h1, Except.map, bind, Except.bind, pure, Except.pure, join,
      List.reverse_cons, List.reverse_nil, List.nil_append, List.singleton_append]
    simp
  · rw [h4] at hbits hlen hindex
    rcases bs with _ | ⟨b0, _ | ⟨b1, _ | ⟨b2, _ | ⟨b3, _ | ⟨b4, bs⟩⟩⟩⟩⟩ <;> simp at hlen
    have h0 : index buf (offset + 0) = .ok b0 := hindex 0 b0 (by decide) rfl
    have h1 : index buf (offset + 1) = .ok b1 := hindex 1 b1 (by decide) rfl
    have h2 : index buf (offset + 2) = .ok b2 := hindex 2 b2 (by decide) rfl
    have h3 : index buf (offset + 3) = .ok b3 := hindex 3 b3 (by decide) rfl
    rw [if_neg (by omega), if_pos h4, hjoin T.bits _ (by omega) rfl]
    simp only [field, h0, h1, h2, h3, Except.map, bind, Except.bind, pure, Except.pure, join,
      List.reverse_cons, List.reverse_nil, List.nil_append, List.cons_append]
    simp
  · rw [h8] at hbits hlen hindex
    obtain _ | ⟨b0, _ | ⟨b1, _ | ⟨b2, _ | ⟨b3, _ | ⟨b4, _ | ⟨b5, _ | ⟨b6, _ | ⟨b7, _ |
      ⟨b8, bs⟩⟩⟩⟩⟩⟩⟩⟩⟩ := bs <;> simp at hlen
    have h0 : index buf (offset + 0) = .ok b0 := hindex 0 b0 (by decide) rfl
    have h1 : index buf (offset + 1) = .ok b1 := hindex 1 b1 (by decide) rfl
    have h2 : index buf (offset + 2) = .ok b2 := hindex 2 b2 (by decide) rfl
    have h3 : index buf (offset + 3) = .ok b3 := hindex 3 b3 (by decide) rfl
    have h4 : index buf (offset + 4) = .ok b4 := hindex 4 b4 (by decide) rfl
    have h5 : index buf (offset + 5) = .ok b5 := hindex 5 b5 (by decide) rfl
    have h6 : index buf (offset + 6) = .ok b6 := hindex 6 b6 (by decide) rfl
    have h7 : index buf (offset + 7) = .ok b7 := hindex 7 b7 (by decide) rfl
    rw [if_neg (by omega), if_neg (by omega), hjoin T.bits _ (by omega) rfl]
    simp only [field, h0, h1, h2, h3, h4, h5, h6, h7, Except.map, bind, Except.bind, pure,
      Except.pure, join, List.reverse_cons, List.reverse_nil, List.nil_append, List.cons_append]
    simp

/-- The codec of a type undoes itself both ways, at exactly the offsets where the field fits. -/
theorem bigEndian_inverse (T : WireTy) :
    (∀ (v : BitVec T.bits) (p q : Bytes), (p ++ toBigEndian T v ++ q).length < 2 ^ 64 →
      fromBigEndian T (p ++ toBigEndian T v ++ q) (UInt64.ofNat p.length) = .ok v) ∧
    ∀ (buf : Bytes) (offset : UInt64), buf.length < 2 ^ 64 →
      (offset.toNat + T.size ≤ buf.length →
        ∃ v, fromBigEndian T buf offset = .ok v ∧
          toBigEndian T v = (buf.drop offset.toNat).take T.size) ∧
      ((∃ what, fromBigEndian T buf offset = .error (.outOfRange what)) ↔
        offset.toNat + T.size > buf.length) := by
  obtain ⟨hbits, -⟩ := T.size_eq
  have hpow : 256 ^ T.size = 2 ^ T.bits := by rw [hbits, Nat.pow_mul]
  refine ⟨fun v p q hlen => ?_, fun buf offset hlen => ⟨fun h => ?_, fun h => ?_, fun h => ?_⟩⟩
  · have hv : (toBigEndian T v).length = T.size := by
      rw [toBigEndian_eq, BigEndian.length_toBytes]
    have hp : (UInt64.ofNat p.length).toNat = p.length := by
      rw [UInt64.toNat_ofNat', Nat.mod_eq_of_lt]
      simp only [List.length_append] at hlen
      omega
    have hslice : ((p ++ toBigEndian T v ++ q).drop p.length).take T.size = toBigEndian T v := by
      rw [List.append_assoc, List.drop_left, ← hv, List.take_left]
    rw [fromBigEndian_eq hlen (by simp only [hp, List.length_append, hv]; omega), hp, hslice,
      toBigEndian_eq, BigEndian.ofBytes_toBytes, hpow, Nat.mod_eq_of_lt v.isLt,
      BitVec.ofNat_toNat, BitVec.setWidth_eq]
  · refine ⟨_, fromBigEndian_eq hlen h, ?_⟩
    have hslice : ((buf.drop offset.toNat).take T.size).length = T.size := by
      rw [List.length_take, List.length_drop]
      omega
    have hlt := BigEndian.ofBytes_lt ((buf.drop offset.toNat).take T.size)
    rw [hslice, hpow] at hlt
    have hback := BigEndian.toBytes_ofBytes ((buf.drop offset.toNat).take T.size)
    rw [hslice] at hback
    rw [toBigEndian_eq, BitVec.toNat_ofNat, Nat.mod_eq_of_lt hlt, hback]
  · obtain ⟨what, hw⟩ := h
    by_contra hle
    rw [fromBigEndian_eq hlen (Nat.not_lt.1 hle)] at hw
    cases hw
  · exact fromBigEndian_throws hlen h

/-- A field between other bytes, and an offset at which its end wraps to zero. -/
theorem bigEndian_inverse_wrapped :
    fromBigEndian .u32 ([9] ++ toBigEndian .u32 0x01020304 ++ [7]) 1 = .ok 0x01020304 ∧
      (∃ v, fromBigEndian .u32 [9, 1, 2, 3, 4, 7] 1 = .ok v ∧
        toBigEndian .u32 v = [1, 2, 3, 4]) ∧
      ∃ what, fromBigEndian .u32 [9, 1, 2, 3, 4, 7] 0xFFFFFFFFFFFFFFFC =
        .error (.outOfRange what) := by
  obtain ⟨hread, hbuf⟩ := bigEndian_inverse .u32
  exact ⟨hread 0x01020304 [9] [7] (by decide), (hbuf [9, 1, 2, 3, 4, 7] 1 (by decide)).1 (by decide),
    (hbuf [9, 1, 2, 3, 4, 7] 0xFFFFFFFFFFFFFFFC (by decide)).2.2 (by decide)⟩

/-! ## The fields of the models -/

theorem bigEndian_eq_toBytes (n : Nat) (val : Int) :
    bigEndian n val = BigEndian.toBytes n (val % 2 ^ (8 * n)).toNat := by
  obtain ⟨v, hv⟩ : ∃ v : Nat, val % 2 ^ (8 * n) = v :=
    Int.eq_ofNat_of_zero_le (Int.emod_nonneg _ (Int.pow_pos (by decide)).ne')
  rw [bigEndian, hv, Int.toNat_natCast, BigEndian.toBytes_eq]
  refine List.map_congr_left fun i _ => ?_
  rw [show (2 : Int) ^ (8 * (n - 1 - i)) = ((2 ^ (8 * (n - 1 - i)) : Nat) : Int) by push_cast; rfl,
    ← Int.natCast_ediv, Int.toNat_natCast, Nat.pow_mul]

theorem ofBytes_bigEndian (n v : Nat) : BigEndian.ofBytes (bigEndian n v) = v % 2 ^ (8 * n) := by
  have hmod : ((v : Int) % 2 ^ (8 * n)).toNat = v % 2 ^ (8 * n) := by
    rw [show (2 : Int) ^ (8 * n) = ((2 ^ (8 * n) : Nat) : Int) by push_cast; rfl,
      ← Int.natCast_emod, Int.toNat_natCast]
  rw [bigEndian_eq_toBytes, hmod, BigEndian.ofBytes_toBytes,
    show 256 ^ n = 2 ^ (8 * n) from (Nat.pow_mul 2 8 n).symm, Nat.mod_mod]

/-- The writer of the tracker requests. -/
theorem bigEndian_eq (T : WireTy) (val : Int) :
    bigEndian T.size val = toBigEndian T (BitVec.ofInt T.bits val) := by
  rw [toBigEndian_eq, bigEndian_eq_toBytes, BitVec.toNat_ofInt, T.size_eq.1]
  push_cast
  rfl

theorem ofBigEndian_eq (T : WireTy) {buf : Bytes} (offset : UInt64) (hbuf : buf.length < 2 ^ 64) :
    ofBigEndian T.size buf offset.toNat = (fromBigEndian T buf offset).map (·.toNat) := by
  unfold ofBigEndian
  by_cases h : offset.toNat + T.size ≤ buf.length
  · have hslice : ((buf.drop offset.toNat).take T.size).length = T.size := by
      rw [List.length_take, List.length_drop]
      omega
    have hlt := BigEndian.ofBytes_lt ((buf.drop offset.toNat).take T.size)
    rw [hslice, show 256 ^ T.size = 2 ^ T.bits by rw [T.size_eq.1, Nat.pow_mul]] at hlt
    rw [if_neg (by omega), fromBigEndian_eq hbuf h]
    simp only [Except.map, BitVec.toNat_ofNat, Nat.mod_eq_of_lt hlt]
    rfl
  · unfold fromBigEndian
    dsimp only
    rw [if_pos (by omega), if_pos ((outside_iff offset hbuf).2 (by omega))]
    rfl

theorem fromBigEndian_u32 {buf : Bytes} (offset : UInt64) (hbuf : buf.length < 2 ^ 64) :
    Zit.fromBigEndian buf offset.toNat = (fromBigEndian .u32 buf offset).map UInt32.ofBitVec := by
  have houtside : ((offset.toNat + 4) % 2 ^ 64 > buf.length ∨ offset.toNat > 2 ^ 64 - 1 - 4) ↔
      offset.toNat + 4 > buf.length := by
    have := offset.toNat_lt
    omega
  unfold Zit.fromBigEndian
  by_cases h : offset.toNat + 4 ≤ buf.length
  · obtain ⟨bs, hbs⟩ : ∃ bs, (buf.drop offset.toNat).take 4 = bs := ⟨_, rfl⟩
    have hlen : bs.length = 4 := by
      rw [← hbs, List.length_take, List.length_drop]
      omega
    have hget : ∀ i < 4, buf[offset.toNat + i]? = bs[i]? := fun i hi => by
      rw [← hbs, List.getElem?_take_of_lt hi, List.getElem?_drop]
    rw [if_neg (by rw [houtside]; omega), fromBigEndian_eq hbuf h]
    rcases bs with _ | ⟨b0, _ | ⟨b1, _ | ⟨b2, _ | ⟨b3, _ | ⟨b4, bs⟩⟩⟩⟩⟩ <;> simp at hlen
    have h0 : buf[offset.toNat]? = some b0 := hget 0 (by decide)
    have h1 : buf[offset.toNat + 1]? = some b1 := hget 1 (by decide)
    have h2 : buf[offset.toNat + 2]? = some b2 := hget 2 (by decide)
    have h3 : buf[offset.toNat + 3]? = some b3 := hget 3 (by decide)
    rw [h0, h1, h2, h3, show (WireTy.u32).size = 4 from rfl, hbs]
    have hjoin : (b3.toUInt32 <<< 0 ||| b2.toUInt32 <<< 8 ||| b1.toUInt32 <<< 16 |||
        b0.toUInt32 <<< 24).toBitVec = join 32 [b3, b2, b1, b0] 0 0#32 := by
      simp [join]
    have hnat := toNat_join [b3, b2, b1, b0] (k := 0) (x := 0#32) (by decide) (by simp)
    rw [← hjoin] at hnat
    have hlt : BigEndian.ofBytes [b0, b1, b2, b3] < 2 ^ 32 :=
      Nat.lt_of_lt_of_le (BigEndian.ofBytes_lt _) (by simp)
    simp only [Except.map, Except.ok.injEq]
    apply UInt32.toNat.inj
    rw [← UInt32.toNat_toBitVec, hnat, BitVec.toNat_zero, Nat.zero_add, Nat.pow_zero, Nat.mul_one]
    show _ = (BitVec.ofNat 32 _).toNat
    rw [BitVec.toNat_ofNat, Nat.mod_eq_of_lt hlt]
    rfl
  · unfold fromBigEndian
    dsimp only
    rw [if_pos (houtside.2 (by omega)), if_pos ((outside_iff (T := .u32) offset hbuf).2 (by
      show offset.toNat + 4 > buf.length
      omega))]
    rfl

theorem toBigEndian_u32 (val : UInt32) :
    Zit.toBigEndian val = toBigEndian .u32 val.toBitVec := by
  rfl

end

end Numeric

end Zit
