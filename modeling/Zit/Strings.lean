import Zit.Lib.Strtol
import Zit.Numeric

/-!
# Strings

The functions of `string_utils.hpp` and of the standard library that the parsers of URLs, arguments
and HTTP responses call.
-/

set_option autoImplicit false

namespace Zit

open Lib Lib.Strtol

/-- `std::stol(s, nullptr, base)` -/
def stol (base : Nat) (s : Bytes) : Except Exn Int :=
  match strtol base s with
  | none => .error (.invalidArgument "stol")
  | some v => if IntTy.i64.Holds v then .ok v else .error (.outOfRange "stol")

/-- `std::stoi(s)` -/
def stoi (s : Bytes) : Except Exn Int :=
  match strtol 10 s with
  | none => .error (.invalidArgument "stoi")
  | some v => if IntTy.i32.Holds v then .ok v else .error (.outOfRange "stoi")

/-- `rtrim` -/
def rtrim (s : Bytes) : Bytes := (s.reverse.dropWhile IStream.isSpace).reverse

/-- `to_lower` -/
def toLower (s : Bytes) : Bytes :=
  s.map fun c => if 65 ≤ c.toNat ∧ c.toNat ≤ 90 then c + 32 else c

end Zit
