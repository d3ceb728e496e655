import Zit.Types

/-!
# The templates of `types.hpp`

`numeric_cast` at every pair of integer types and the big-endian codec at every type it can be
instantiated at, with the conversions that the operators and the `static_cast`s make.
-/

set_option autoImplicit false

namespace Zit

namespace IntTy

/-- `int`, the type of an integer literal -/
def int : IntTy := i32

/-- A value of the type. -/
def Holds (I : IntTy) (v : Int) : Prop := I.min ≤ v ∧ v ≤ I.max

instance (I : IntTy) (v : Int) : Decidable (I.Holds v) := inferInstanceAs (Decidable (_ ∧ _))

/-- `make_unsigned_t<I>` -/
def unsigned (I : IntTy) : IntTy := { I with signed := false }

/-- The integral promotion: an `int` holds every value of a narrower type. -/
def promote (I : IntTy) : IntTy := if I.bits < 32 then int else I

/-- The usual arithmetic conversions: the type to which an operator converts both operands. -/
def common (I J : IntTy) : IntTy :=
  let I := I.promote
  let J := J.promote
  if I.signed = J.signed then (if I.bits < J.bits then J else I)
  else if I.signed then (if J.bits < I.bits then I else J)
  else (if I.bits < J.bits then J else I)

/-- `a < b` for an `a` of type `I` and a `b` of type `J` -/
def lt (I J : IntTy) (a b : Int) : Prop := (I.common J).wrap a < (I.common J).wrap b

instance (I J : IntTy) (a b : Int) : Decidable (I.lt J a b) := inferInstanceAs (Decidable (_ < _))

/-! ## Bits -/

/-- A value after its integral promotion, which keeps the sign. -/
def promoted (T : IntTy) (v : BitVec T.bits) : BitVec T.promote.bits :=
  if T.signed then v.signExtend _ else v.setWidth _

/-- `v >> k` -/
def shiftRight (T : IntTy) (v : BitVec T.bits) (k : Nat) : BitVec T.promote.bits :=
  if T.promote.signed then (T.promoted v).sshiftRight k else T.promoted v >>> k

/-- `static_cast<std::byte>((v >> k) & 0xFF)` -/
def byteAt (T : IntTy) (v : BitVec T.bits) (k : Nat) : UInt8 :=
  UInt8.ofBitVec ((T.shiftRight v k &&& 0xFF#_).setWidth 8)

end IntTy

namespace Numeric

/-- `numeric_cast<I>(value, msg)` for a `value` of type `J`: one overload for each pair of signs. -/
def numericCast (I J : IntTy) (value : Int) (msg : String) : Except Exn Int :=
  match I.signed, J.signed with
  | true, true =>
    if J.lt J value (J.wrap I.min) ∨ J.lt J (J.wrap I.max) value then .error (.outOfRange msg)
    else .ok (I.wrap value)
  | true, false =>
    if I.unsigned.lt J (I.unsigned.wrap I.max) value then .error (.outOfRange msg)
    else .ok (I.wrap value)
  | false, true =>
    if J.lt .int value 0 ∨ I.lt J.unsigned I.max (J.unsigned.wrap value) then
      .error (.outOfRange msg)
    else .ok (I.wrap value)
  | false, false =>
    if I.lt J I.max value then .error (.outOfRange msg) else .ok (I.wrap value)

/-- A type that passes the `static_assert` of the big-endian templates. -/
structure WireTy extends IntTy where
  wide : bits = 16 ∨ bits = 32 ∨ bits = 64

namespace WireTy

/-- `sizeof(T)` -/
def size (T : WireTy) : Nat := T.bits / 8

def u16 : WireTy := ⟨.u16, by decide⟩
def u32 : WireTy := ⟨.u32, by decide⟩
def i32 : WireTy := ⟨.i32, by decide⟩
def i64 : WireTy := ⟨.i64, by decide⟩

end WireTy

/-- `to_big_endian<T>(val)` -/
def toBigEndian (T : WireTy) (val : BitVec T.bits) : Bytes :=
  if T.size = 2 then [T.byteAt val 8, T.byteAt val 0]
  else if T.size = 4 then
    [T.byteAt val 24, T.byteAt val 16, T.byteAt val 8, T.byteAt val 0]
  else
    [T.byteAt val 56, T.byteAt val 48, T.byteAt val 40, T.byteAt val 32, T.byteAt val 24,
      T.byteAt val 16, T.byteAt val 8, T.byteAt val 0]

/-- `buf[i]` -/
def index (buf : Bytes) (i : UInt64) : Except Exn UInt8 :=
  if h : i.toNat < buf.length then .ok (buf.get ⟨i.toNat, h⟩)
  else .error (.undefined "buffer index")

/-- `static_cast<T>(static_cast<uint8_t>(buf[i])) << k` -/
def field (T : WireTy) (buf : Bytes) (i : UInt64) (k : Nat) : Except Exn (BitVec T.bits) :=
  (index buf i).map fun b => (b.toBitVec.setWidth T.bits).shiftLeft k

/-- `static_cast<uint8_t>(buf[i]) << k`, where the byte is promoted to `int` -/
def fieldInt (buf : Bytes) (i : UInt64) (k : Nat) : Except Exn (BitVec 32) :=
  (index buf i).map fun b => (b.toBitVec.setWidth 32).shiftLeft k

/-- `from_big_endian<T>(buf, offset)` -/
def fromBigEndian (T : WireTy) (buf : Bytes) (offset : UInt64) : Except Exn (BitVec T.bits) := do
  let size := UInt64.ofNat T.size
  if (offset + size).toNat > buf.length ∨ offset > 0xFFFFFFFFFFFFFFFF - size then
    throw (.outOfRange s!"Target range outside of buffer: ({offset},{buf.length})")
  else if T.size = 2 then
    let v1 ← fieldInt buf (offset + 1) 0
    let v0 ← fieldInt buf (offset + 0) 8
    return (v1 ||| v0).setWidth T.bits
  else if T.size = 4 then
    let v3 ← field T buf (offset + 3) 0
    let v2 ← field T buf (offset + 2) 8
    let v1 ← field T buf (offset + 1) 16
    let v0 ← field T buf (offset + 0) 24
    return v3 ||| v2 ||| v1 ||| v0
  else
    let v7 ← field T buf (offset + 7) 0
    let v6 ← field T buf (offset + 6) 8
    let v5 ← field T buf (offset + 5) 16
    let v4 ← field T buf (offset + 4) 24
    let v3 ← field T buf (offset + 3) 32
    let v2 ← field T buf (offset + 2) 40
    let v1 ← field T buf (offset + 1) 48
    let v0 ← field T buf (offset + 0) 56
    return v7 ||| v6 ||| v5 ||| v4 ||| v3 ||| v2 ||| v1 ||| v0

end Numeric

end Zit
