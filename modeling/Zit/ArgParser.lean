import Zit.Bencode
import Zit.Lib.Effect
import Zit.Strings

/-!
# The argument parser

`ArgParser::parse` of `arg_parser.cpp` over a table of options as `add_option` and the functions
behind it set them up. A computation that throws leaves the values that were stored before.
-/

set_option autoImplicit false

namespace Zit

open Lib

namespace ArgParser

/-- `ArgParser::Type` -/
inductive Ty
  | int
  | uint
  | float
  | string
  | bool
  deriving DecidableEq, Repr

/-- The value of an option. `F` are the floating point numbers. -/
inductive Value (F : Type)
  | int (v : Int32)
  | uint (v : UInt32)
  | float (v : F)
  | string (v : Bytes)
  | bool (v : Bool)
  deriving DecidableEq, Repr

/-- `ArgParser::BaseArg`, with the vectors of `ArgParser::Arg`. -/
structure BaseArg (F : Type) where
  option : Bytes
  type : Ty
  aliases : List Bytes := []
  provided : Bool := false
  required : Bool := false
  helpArg : Bool := false
  multi : Bool := false
  collecting : Bool := false
  position : Option UInt32 := none
  dst : List (Value F) := []
  default : List (Value F) := []
  deriving DecidableEq, Repr

/-- What the C library says about floating point numbers: `std::stof`, and whether `errno` is `ERANGE`,
which a conversion that returns leaves as it was. -/
structure Floats (F : Type) where
  stof : Bytes → Except Exn F
  isStd : ∀ s e, stof s = .error e → e.isStd = true
  erange : Bool

end ArgParser

open ArgParser

structure ArgParser (F : Type) where
  options : List (BaseArg F)
  parsed : Bool := false
  deriving DecidableEq, Repr

namespace ArgParser

variable {F : Type}

/-- `Arg::dst()` -/
def BaseArg.values (a : BaseArg F) : List (Value F) := if a.dst.isEmpty then a.default else a.dst

/-- The name is that of the option or an alias. -/
def BaseArg.Named (a : BaseArg F) (name : Bytes) : Prop := a.option = name ∨ name ∈ a.aliases

instance (a : BaseArg F) (name : Bytes) : Decidable (a.Named name) :=
  inferInstanceAs (Decidable (_ ∨ _))

section
variable (p : ArgParser F)

def find (option : Bytes) : Option Nat := p.options.findIdx? fun a => a.Named option

/-- `find` of a position -/
def findPosition (position : UInt32) : Option Nat :=
  p.options.findIdx? fun a => a.position = some position

def findCollecting : Option Nat := p.options.findIdx? (·.collecting)

def verifyNoDuplicatePositionals : Except Exn Unit := do
  let _ ← p.options.foldlM (fun positions option =>
    match option.position with
    | some pos =>
      if pos ∈ positions then .error (.runtimeError
        s!"There cannot be multiple options with the same positional index: {pos}")
      else .ok (pos :: positions)
    | none => .ok positions) ([] : List UInt32)

def verifyNoDuplicateCollecting : Except Exn Unit := do
  let _ ← p.options.foldlM (fun count option =>
    let count := if option.collecting then count + 1 else count
    if count ≥ 2 then
      .error (.runtimeError "There cannot be multiple options marked as collecting")
    else .ok count) 0

end

/-! ## `parse` -/

abbrev ParseM (F : Type) := EStateM Exn (ArgParser F)

/-- `*m` -/
def deref (m : Nat) : ParseM F (BaseArg F) := do
  match (← get).options[m]? with
  | some arg => return arg
  | none => throw (.undefined "end iterator")

/-- A change of `*m`. -/
def change (m : Nat) (f : BaseArg F → BaseArg F) : ParseM F Unit :=
  modify fun p => { p with options := p.options.modify m f }

/-- `Arg::set_dst` -/
def setDst (m : Nat) (t : Value F) : ParseM F Unit := do
  let arg ← deref m
  if !arg.multi && !arg.dst.isEmpty then
    throw (.runtimeError
      s!"Multiple values provided for single value option: {Bencode.rawText arg.option}")
  change m fun a => { a with dst := a.dst ++ [t] }

def rangeText (name : Bytes) : String :=
  s!"Value for argument '{Bencode.rawText name}' is out of range for type"

/-- `catch (const std::out_of_range&)` around a conversion -/
def catchRange {α : Type} (name : Bytes) : Except Exn α → Except Exn α
  | .error (.outOfRange _) => .error (.outOfRange (rangeText name))
  | x => x

/-- What the `switch` over the type makes of a text. -/
def convert (c : Floats F) (type : Ty) (name val : Bytes) : Except Exn (Value F) :=
  match type with
  | .float => do
    let fval ← c.stof val
    if c.erange then .error (.outOfRange (rangeText name)) else .ok (.float fval)
  | .int => catchRange name do
    let v ← numericCast .i32 .i64 (← stol 10 val)
    return .int (Int32.ofInt v)
  | .uint => catchRange name do
    let v ← castU32 (← stol 10 val)
    return .uint v
  | .string => .ok (.string val)
  | .bool => .error (.runtimeError "Invalid option type")

/-- `argv.at(i)` -/
def argAt (argv : List Bytes) (i : Nat) : Except Exn Bytes :=
  match argv[i]? with
  | some arg => .ok arg
  | none => .error (.outOfRange "vector::_M_range_check")

/-- The option that an argument is for, and the number of free arguments behind it. -/
def lookup (name : Bytes) (positional : UInt32) : ParseM F (Nat × UInt32) := do
  let p ← get
  match p.find name with
  | some m => return (m, positional)
  | none =>
    match p.findPosition positional with
    | some m => return (m, positional + 1)
    | none =>
      match p.findCollecting with
      | some m => return (m, positional + 1)
      | none => throw (.runtimeError s!"Unknown argument: {Bencode.rawText name}")

/-- One turn of the loop: the index and the number of free arguments it leaves. -/
def turn (c : Floats F) (argv : List Bytes) (i : Nat) (positional : UInt32) :
    ParseM F (Nat × UInt32) := do
  let name ← lift (argAt argv i)
  let (m, positional) ← lookup name positional
  let arg ← deref m
  if arg.type = .bool then
    setDst m (.bool true)
    change m fun a => { a with provided := true }
    return (i, positional)
  else if arg.position.isSome || arg.collecting then
    setDst m (← lift (convert c arg.type name name))
    change m fun a => { a with provided := true }
    return (i, positional)
  else if i = argv.length - 1 then
    throw (.runtimeError s!"Missing value for {Bencode.rawText name}")
  else
    let val ← lift (argAt argv (i + 1))
    setDst m (← lift (convert c arg.type name val))
    change m fun a => { a with provided := true }
    return (i + 1, positional)

/-- The loop, for at most as many turns as `fuel` says. -/
def parseFrom (c : Floats F) (argv : List Bytes) : Nat → Nat → UInt32 → ParseM F Unit
  | 0, _, _ => throw .diverged
  | fuel + 1, i, positional =>
    if i < argv.length then do
      let (i, positional) ← turn c argv i positional
      parseFrom c argv fuel (i + 1) positional
    else return

/-- The check behind the loop. -/
def checkRequired : ParseM F Unit := do
  let p ← get
  match p.options.find? fun o => !o.provided && o.required with
  | none => return
  | some missing =>
    if p.options.all fun o => !(o.helpArg && o.provided) then
      throw (.runtimeError s!"Required option '{Bencode.rawText missing.option}' not provided")

def parse (c : Floats F) (argv : List Bytes) : ParseM F Unit := do
  if (← get).parsed then throw (.runtimeError "Options already parsed")
  lift (← get).verifyNoDuplicatePositionals
  lift (← get).verifyNoDuplicateCollecting
  modify fun p => { p with parsed := true }
  parseFrom c argv (argv.length + 1) 1 0
  checkRequired

end ArgParser

end Zit
