import Zit.Lib.IStream
import Zit.Types

/-!
# Bencode

`bencode.hpp`: the elements, `encode` and the recursive `decode` over an input string stream. The
nested calls of the decoder are bounded by fuel; `decode` gives enough of it for its input.
-/

set_option autoImplicit false

namespace Zit

open Lib Lib.Decimal

/-- `bencode::Element`. A `BeDict` is a `std::map`: its entries in the order of the keys. -/
inductive Element
  | int (i : Int64)
  | str (s : Bytes)
  | list (v : List Element)
  | dict (m : List (Bytes × Element))
  deriving Repr

namespace Element

/-- Each dictionary is the content of a `std::map`: its keys strictly increase. -/
inductive Ordered : Element → Prop
  | int (i : Int64) : Ordered (.int i)
  | str (s : Bytes) : Ordered (.str s)
  | list {v : List Element} (h : ∀ e ∈ v, Ordered e) : Ordered (.list v)
  | dict {m : List (Bytes × Element)} (hk : (m.map (·.1)).Pairwise (· < ·))
      (h : ∀ kv ∈ m, Ordered kv.2) : Ordered (.dict m)

/-! ## Encoding -/

def encodeString (s : Bytes) : Bytes := digits s.length ++ ':'.toUInt8 :: s

mutual
def encode : Element → Bytes
  | .int i => 'i'.toUInt8 :: intDigits i.toInt ++ ['e'.toUInt8]
  | .str s => encodeString s
  | .list v => 'l'.toUInt8 :: encodeList v ++ ['e'.toUInt8]
  | .dict m => 'd'.toUInt8 :: encodeDict m ++ ['e'.toUInt8]

/-- The elements of a list, one after the other. -/
def encodeList : List Element → Bytes
  | [] => []
  | e :: v => encode e ++ encodeList v

/-- The entries of a dictionary, each key before its value. -/
def encodeDict : List (Bytes × Element) → Bytes
  | [] => []
  | (k, e) :: m => encodeString k ++ encode e ++ encodeDict m
end

/-- `m[key] = val` on a `std::map`. -/
def insertKey (k : Bytes) (e : Element) : List (Bytes × Element) → List (Bytes × Element)
  | [] => [(k, e)]
  | (k', e') :: m =>
    if k < k' then (k, e) :: (k', e') :: m
    else if k' < k then (k', e') :: insertKey k e m
    else (k', e) :: m

end Element

/-- An element whose dictionaries are `std::map`s. -/
structure BeValue where
  element : Element
  ordered : element.Ordered

/-! ## Decoding -/

namespace Bencode

def maxStringLength : Nat := 100000000

def maxInvalidStringLength : Nat := 128

def recursionLimit : Nat := 200

/-- The text of raw bytes in a message. -/
def rawText (s : Bytes) : String := String.ofList (s.map fun c => Char.ofNat c.toNat)

/-- Control characters, and those that are negative as a `char`, become `?`. -/
def consoleSafe (s : Bytes) : String :=
  String.ofList (s.map fun c => if 31 < c.toNat ∧ c.toNat < 128 then Char.ofNat c.toNat else '?')

def decodeInt (iss : IStream) : Except Exn (Element × IStream) :=
  let (i64, iss) := iss.extractInt
  if iss.fail then .error (.invalidArgument "Could not convert to integer")
  else
    let (c, iss) := iss.get
    if c ≠ some 'e'.toUInt8 then .error (.invalidArgument "No integer end marker")
    else .ok (.int (Int64.ofInt i64), iss)

def decodeString (iss : IStream) : Except Exn (Bytes × IStream) :=
  let (strlen, iss) := iss.extractNat
  if iss.fail then .error (.invalidArgument "Could not convert string length to integer")
  else
    let (c, iss) := iss.get
    if c ≠ some ':'.toUInt8 then .error (.invalidArgument "No string length end marker")
    else if strlen > maxStringLength then
      .error (.invalidArgument s!"String length {strlen} larger than max size")
    else
      let (str, iss) := iss.read strlen
      if iss.eof then .error (.invalidArgument "String not of expected length")
      else .ok (str, iss)

/-- The exception of `throw_invalid_string`. -/
def invalidString (iss : IStream) : Exn :=
  let text := consoleSafe (iss.str.take maxInvalidStringLength)
  let (pos, iss) := iss.tellg
  let iss := iss.seekEnd
  let text := match iss.tellg.1 with
    | some len => if len > maxInvalidStringLength then text ++ "..." else text
    | none => text
  let posStr := match pos with
    | none => "?"
    | some pos => toString pos
  .invalidArgument s!"Invalid bencode string: '{text}' at position {posStr}\n"

mutual

def decodeInternal : Nat → IStream → Nat → Except Exn (Element × IStream)
  | 0, _, _ => .error .diverged
  | fuel + 1, iss, depth =>
    if depth > recursionLimit then .error (.invalidArgument "Recursion limit reached")
    else
      let (c, iss) := iss.peek
      if c = some 'i'.toUInt8 then decodeInt iss.ignore
      else
        let (c, iss) := iss.peek
        if ∃ d ∈ c, isDigit d = true then (decodeString iss).map fun (s, iss) => (.str s, iss)
        else
          let (c, iss) := iss.peek
          if c = some 'l'.toUInt8 then decodeList fuel iss (depth + 1)
          else
            let (c, iss) := iss.peek
            if c = some 'd'.toUInt8 then decodeDict fuel iss (depth + 1)
            else .error (invalidString iss)

def decodeList : Nat → IStream → Nat → Except Exn (Element × IStream)
  | 0, _, _ => .error .diverged
  | fuel + 1, iss, depth => do
    let iss := iss.ignore
    let (c, iss) := iss.peek
    if c ≠ some 'e'.toUInt8 then
      let (v, iss) ← decodeListLoop fuel iss depth []
      return (.list v, iss.ignore)
    else return (.list [], iss.ignore)

/-- The `while (true)` of `decodeList`; `v` is what the vector holds. -/
def decodeListLoop : Nat → IStream → Nat → List Element → Except Exn (List Element × IStream)
  | 0, _, _, _ => .error .diverged
  | fuel + 1, iss, depth, v => do
    let (e, iss) ← decodeInternal fuel iss depth
    let v := v ++ [e]
    if iss.eof then .error (.invalidArgument s!"Unexpected eof: {rawText iss.str}")
    else
      let (c, iss) := iss.peek
      if c = some 'e'.toUInt8 then return (v, iss)
      else decodeListLoop fuel iss depth v

def decodeDict : Nat → IStream → Nat → Except Exn (Element × IStream)
  | 0, _, _ => .error .diverged
  | fuel + 1, iss, depth => do
    let iss := iss.ignore
    let (c, iss) := iss.peek
    if c ≠ some 'e'.toUInt8 then
      let (m, iss) ← decodeDictLoop fuel iss depth []
      return (.dict m, iss.ignore)
    else return (.dict [], iss.ignore)

/-- The `while (true)` of `decodeDict`; `m` is what the map holds. -/
def decodeDictLoop : Nat → IStream → Nat → List (Bytes × Element) →
    Except Exn (List (Bytes × Element) × IStream)
  | 0, _, _, _ => .error .diverged
  | fuel + 1, iss, depth, m => do
    let (key, iss) ← decodeString iss
    let (val, iss) ← decodeInternal fuel iss depth
    let m := Element.insertKey key val m
    if iss.eof then .error (.invalidArgument s!"Unexpected eof: {rawText iss.str}")
    else
      let (c, iss) := iss.peek
      if c = some 'e'.toUInt8 then return (m, iss)
      else decodeDictLoop fuel iss depth m

end

/-- `decode`, with fuel for every nested call its input can cause. -/
def decode (str : Bytes) : Except Exn Element := do
  let iss := IStream.ofStr str
  let (elm, iss) ← decodeInternal (3 * str.length + 3) iss 0
  if iss.ignore.eof then return elm else .error (invalidString iss.ignore)

end Bencode

end Zit
