import Zit.Lib.Effect
import Zit.Types

/-!
# Bitfields

`bitfield.hpp` and `bitfield.cpp`: bools stored as the bits of bytes, most significant bit first.
Sizes and indices are 64-bit in the source; only `fill` computes with sums that can wrap.
-/

set_option autoImplicit false

namespace Zit

structure Bitfield where
  bytes : Bytes
  deriving DecidableEq, Repr

namespace Bitfield

/-- `Bitfield(count)`: as many zero bytes as `count` bits need. -/
def ofCount (count : Nat) : Bitfield :=
  ⟨List.replicate (count / 8 + if count % 8 ≠ 0 then 1 else 0) 0⟩

def empty : Bitfield := ⟨[]⟩

def size (bf : Bitfield) : Nat := bf.bytes.length * 8

def sizeBytes (bf : Bitfield) : Nat := bf.bytes.length

def bitMask (i : Nat) : UInt8 := UInt8.ofNat (1 <<< (7 - i % 8))

/-- `m_bytes.at` throws beyond the stored bytes. -/
def get (bf : Bitfield) (i : Nat) : Except Exn Bool :=
  match bf.bytes[i / 8]? with
  | none => .error (.outOfRange "vector::_M_range_check")
  | some byte => .ok (byte &&& bitMask i != 0)

/-- The bit `get` reads, false beyond the stored bytes. -/
def bit (bf : Bitfield) (i : Nat) : Bool :=
  match bf.bytes[i / 8]? with
  | none => false
  | some byte => byte &&& bitMask i != 0

/-- `bf[i] = b` through `Proxy::operator=`, which grows the vector up to the byte of `i`. -/
def set (bf : Bitfield) (i : Nat) (b : Bool) : Bitfield :=
  let byteIndex := i / 8
  let bytes := if bf.bytes.length ≤ byteIndex then
      bf.bytes ++ List.replicate (byteIndex + 1 - bf.bytes.length) 0
    else bf.bytes
  let byteVal := bytes[byteIndex]?.getD 0
  ⟨bytes.set byteIndex (if b then byteVal ||| bitMask i else byteVal &&& ~~~bitMask i)⟩

/-- One partial byte of `fill`; the vector is indexed without a check. -/
def fillByte (bytes : Bytes) (index : Nat) (mask : UInt8) (val : Bool) : Except Exn Bytes :=
  match bytes[index]? with
  | none => .error (.undefined "m_bytes index")
  | some b => .ok (bytes.set index (if val then b ||| mask else b &&& ~~~mask))

/-- "Fill the first byte with the remaining bits": the bytes and the moved `byte_start`. -/
def fillFirst (bytes : Bytes) (start : Nat) (val : Bool) : Except Exn (Bytes × Nat) :=
  if start % 8 ≠ 0 then
    (fillByte bytes (start / 8) (UInt8.ofNat (0xFF >>> (start % 8))) val).map (·, start / 8 + 1)
  else .ok (bytes, start / 8)

/-- "Fill the last byte with the remaining bits": the bytes and the moved `byte_end`. -/
def fillLast (bytes : Bytes) (bitEnd byteEnd : Nat) (val : Bool) : Except Exn (Bytes × Nat) :=
  if bitEnd % 8 ≠ 0 then
    (fillByte bytes byteEnd (UInt8.ofNat (0xFF <<< (8 - bitEnd % 8))) val).map
      (·, (byteEnd + (2 ^ 64 - 1)) % 2 ^ 64)
  else .ok (bytes, byteEnd)

/-- "Fill the rest of the bytes". -/
def fillRest (bytes : Bytes) (byteStart byteEnd : Nat) (val : Bool) : Except Exn Bitfield :=
  if byteStart ≤ byteEnd then
    if byteEnd < bytes.length then
      .ok ⟨bytes.take byteStart ++
        List.replicate (byteEnd + 1 - byteStart) (if val then (0xFF : UInt8) else 0x00) ++
        bytes.drop (byteEnd + 1)⟩
    else .error (.undefined "std::fill range")
  else .ok ⟨bytes⟩

/-- `start + count`, `bit_end - 1` and the moving byte bounds are 64-bit. -/
def fill (bf : Bitfield) (count : Nat) (val : Bool) (start : Nat := 0) : Except Exn Bitfield :=
  if count = 0 then .ok bf
  else
    let bitEnd := (start + count) % 2 ^ 64
    let byteEnd := (bitEnd + (2 ^ 64 - 1)) % 2 ^ 64 / 8
    if byteEnd ≥ bf.bytes.length then .error (.invalidArgument "Bitfield::fill: Out of range")
    else if start / 8 = byteEnd then
      .ok ((List.range' start (bitEnd - start)).foldl (fun bf i => bf.set i val) bf)
    else do
      let (bytes, byteStart) ← fillFirst bf.bytes start val
      let (bytes, byteEnd) ← fillLast bytes bitEnd byteEnd val
      fillRest bytes byteStart byteEnd val

/-- `fill` with the bitfield as the state: what was written before a failure stays written. -/
def fillInPlace (count : Nat) (val : Bool) (start : Nat := 0) : EStateM Exn Bitfield Unit := do
  if count = 0 then pure ()
  else
    let bitEnd := (start + count) % 2 ^ 64
    let byteEnd := (bitEnd + (2 ^ 64 - 1)) % 2 ^ 64 / 8
    let bytes := (← MonadState.get).bytes
    if byteEnd ≥ bytes.length then throw (.invalidArgument "Bitfield::fill: Out of range")
    else if start / 8 = byteEnd then
      forM (List.range' start (bitEnd - start)) fun i => modify fun bf => bf.set i val
    else
      let (bytes, byteStart) ← Lib.lift (fillFirst bytes start val)
      MonadState.set (Bitfield.mk bytes)
      let (bytes, byteEnd) ← Lib.lift (fillLast bytes bitEnd byteEnd val)
      MonadState.set (Bitfield.mk bytes)
      MonadState.set (← Lib.lift (fillRest bytes byteStart byteEnd val))

/-- `operator-`, over the shorter of the two. -/
def sub (bf other : Bitfield) : Bitfield :=
  ⟨List.zipWith (fun a b => a ^^^ (a &&& b)) bf.bytes other.bytes⟩

/-- `operator+`, over the shorter of the two. -/
def add (bf other : Bitfield) : Bitfield :=
  ⟨List.zipWith (fun a b => a ||| b) bf.bytes other.bytes⟩

/-- The popcount of every byte, filled in order from the entry of `i / 2`. -/
def bitsPerByteTable : List Nat :=
  (List.range 256).foldl (fun table i => table.set i ((table[i / 2]?.getD 0) + i % 2))
    (List.replicate 256 0)

def count (bf : Bitfield) : Nat :=
  bf.bytes.foldl (fun c b => c + (bitsPerByteTable[b.toNat]?.getD 0)) 0

/-- The first of `n` bits from `pos` on that is `val`. No index is out of range: it is only called
on the bits of a stored byte. -/
def findBit (bf : Bitfield) (val : Bool) (pos n : Nat) : Option Nat :=
  (List.range' pos n).find? fun i => bf.bit i == val

/-- The rest of a partial byte, then the first byte that has such a bit, then the bit in it. -/
def next (bf : Bitfield) (val : Bool) (start : Nat := 0) : Option Nat :=
  if start > bf.size then none
  else
    let bitOffset := start % 8
    match if bitOffset ≠ 0 then findBit bf val start (8 - bitOffset) else none with
    | some pos => some pos
    | none =>
      let byteOffset := if bitOffset ≠ 0 then start / 8 + 1 else start / 8
      match (bf.bytes.drop byteOffset).findIdx? fun B => if val then B > 0 else B < 255 with
      | some k => findBit bf val ((byteOffset + k) * 8) 8
      | none => none

end Bitfield

end Zit
