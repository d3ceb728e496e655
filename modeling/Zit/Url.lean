import Zit.Lib.Regex
import Zit.Strings
import Zit.Swarm

/-!
# URLs in text form

The class `Url` of `net.hpp` with its parameters: the constructor reads the text with a regular
expression, `str()` writes it.
-/

set_option autoImplicit false

namespace Zit.Net

open Lib Lib.Regex Lib.Decimal

structure Url extends Zit.Url where
  params : List Bytes := []
  deriving DecidableEq, Repr

/-- `(udp|https?)://` -/
def urScheme : Regex UInt8 :=
  .seq
    (.group 1 (.alt (.lit (ascii "udp".toList))
      (.seq (.lit (ascii "http".toList)) (.opt (.one (· == 115))))))
    (.lit (ascii "://".toList))

/-- `[^/\n]*?` -/
def urHost : Regex UInt8 := .star false (.one fun c => c != 47 && c != 10)

/-- `(?::(\d+))?` -/
def urPort : Regex UInt8 :=
  .opt (.seq (.lit (ascii ":".toList)) (.group 3 (.plus (.one isDigit))))

/-- `(/.*)?`, where the dot stands for anything but an end of line. -/
def urPath : Regex UInt8 :=
  .opt (.group 4 (.seq (.lit (ascii "/".toList)) (.star true (.one fun c => c != 10 && c != 13))))

/-- The pattern of the constructor. `regex_match` matches the whole text, at whose ends `^` and `$`
hold. -/
def ur : Regex UInt8 := .seq urScheme (.seq (.group 2 urHost) (.seq urPort urPath))

namespace Url

/-- The port in the text of a group. -/
def readPort (digits : Bytes) : Except Exn (Option UInt16) :=
  if digits ≠ [] then do
    let port ← numericCast .u16 .i32 (← stoi digits)
    return some (UInt16.ofNat port.toNat)
  else return none

/-- The constructor for a text, without `resolve`. -/
def ofString (url : Bytes) : Except Exn Url :=
  match ur.fullMatch url with
  | none => .error (.runtimeError s!"Invalid URL: '{Bencode.rawText url}'")
  | some m => do
    let port ← readPort (str m 3)
    return {
      scheme := str m 1
      host := str m 2
      path := if str m 4 = [] then ascii "/".toList else str m 4
      port }

/-- `str()` -/
def str (u : Url) : Bytes :=
  u.toUrl.str ++ match u.params with
    | [] => []
    | param :: params => 63 :: param ++ params.flatMap (38 :: ·)

end Url

end Zit.Net
