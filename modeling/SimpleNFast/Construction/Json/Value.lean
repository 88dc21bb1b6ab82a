/-
This file models `json.h` and `json.cpp`: values, their numbers and their text.
-/

import Mathlib.Data.Int.Log
import SimpleNFast.Construction.Json.Escape

namespace SimpleNFast.Json

/-- The numbers without their signs. -/
inductive Magnitude where
  | finite (value : ℚ)
  | infinite
  | notANumber
  deriving DecidableEq, Repr

/-- A floating-point number has a sign and a magnitude. -/
structure Double where
  negative : Bool
  magnitude : Magnitude
  deriving DecidableEq, Repr

namespace Double

/-- The nearest integer, and the even one of two that are equally near. -/
def roundEven (value : ℚ) : Int :=
  let below := ⌊value⌋
  if value - below < 1 / 2 then below
  else if 1 / 2 < value - below then below + 1
  else if below % 2 = 0 then below
  else below + 1

/-- The nearest number with this many bits and an exponent that is not below the given one. -/
def roundBits (bits : Nat) (lowest : Int) (value : ℚ) : ℚ :=
  if value = 0 then 0
  else
    let exponent := max (Int.log 2 value - (bits - 1)) lowest
    roundEven (value / 2 ^ exponent) * 2 ^ exponent

/-- A `long double` of 80 bits, and none where `std::stold` reports a range error. -/
def toLongDouble (value : ℚ) : Option ℚ :=
  let rounded := roundBits 64 (-16445) value
  if 2 ^ (16384 : Nat) ≤ rounded then none
  else if value < 1 / 2 ^ (16382 : Nat) ∧ rounded ≠ value then none
  else some rounded

def ofLongDouble (negative : Bool) (value : ℚ) : Double :=
  let rounded := roundBits 53 (-1074) value
  ⟨negative, if 2 ^ (1024 : Nat) ≤ rounded then .infinite else .finite rounded⟩

/-- A fraction without the zeros at its end, after a point where it is not empty. -/
def fraction (string : Text) : Text :=
  let kept := (string.reverse.dropWhile (· == byte '0')).reverse
  if kept.isEmpty then [] else byte '.' :: kept

/-- The six digits of a magnitude and the exponent of the first one. -/
def significant (value : ℚ) : Nat × Int :=
  let exponent := Int.log 10 value
  let scaled := (roundEven (value / 10 ^ (exponent - 5))).toNat
  if scaled = 10 ^ 6 then (10 ^ 5, exponent + 1) else (scaled, exponent)

/-- A magnitude as an output stream prints it by default. -/
def magnitudeStr (value : ℚ) : Text :=
  if value = 0 then text "0"
  else
    let (scaled, exponent) := significant value
    let all := digits 10 scaled
    if exponent < -4 ∨ 6 ≤ exponent then
      let number := digits 10 exponent.natAbs
      all.take 1 ++ fraction (all.drop 1) ++ [byte 'e', if exponent < 0 then byte '-' else byte '+'] ++
        List.replicate (2 - number.length) (byte '0') ++ number
    else if exponent < 0 then
      text "0" ++ fraction (List.replicate (exponent.natAbs - 1) (byte '0') ++ all)
    else all.take (exponent.toNat + 1) ++ fraction (all.drop (exponent.toNat + 1))

def str (value : Double) : Text :=
  (if value.negative then [byte '-'] else []) ++
    match value.magnitude with
    | .finite magnitude => magnitudeStr magnitude
    | .infinite => text "inf"
    | .notANumber => text "nan"

end Double

/-- An object is a `std::map`, whose members are in the order of their keys. -/
inductive Value where
  | null
  | boolean (value : Bool)
  | integer (value : Int64)
  | real (value : Double)
  | string (value : Text)
  | object (members : List (Text × Value))
  | array (elements : List Value)
  deriving Repr

namespace Value

/-- The order of keys is the one of their bytes. -/
def keyLess (first second : Text) : Bool := first.lex second

/-- A member stays as it is when its key is there already. -/
def insert (members : List (Text × Value)) (key : Text) (value : Value) : List (Text × Value) :=
  match members with
  | [] => [(key, value)]
  | (first, old) :: rest =>
      if keyLess key first then (key, value) :: (first, old) :: rest
      else if keyLess first key then (first, old) :: insert rest key value
      else (first, old) :: rest

/-- This is `object::add`, which unescapes the key. -/
def addMember (members : List (Text × Value)) (key : Text) (value : Value) :
    Except Fault (List (Text × Value)) := do
  let key ← stringUnescape key
  pure (insert members key value)

/-- The construction and the assignment of a string unescape it. -/
def ofString (string : Text) : Except Fault Value := Value.string <$> stringUnescape string

/-- A string of spaces; a negative length becomes one that is too large. -/
def spaces (count : Int) : Except Fault Text :=
  if count < 0 then .error (.lengthError (text "basic_string::_M_create"))
  else .ok (List.replicate count.toNat (byte ' '))

/-- The text before an element or before the closing bracket. -/
def separator (pretty : Bool) (indent : Int) : Except Fault Text :=
  if pretty then (byte '\n' :: ·) <$> spaces indent else .ok [byte ' ']

mutual

def str (pretty : Bool) (indent : Int) : Value → Except Fault Text
  | .null => .ok (text "null")
  | .boolean value => .ok (if value then text "true" else text "false")
  | .integer value => .ok (decimal value.toInt)
  | .real value => .ok value.str
  | .string value => do
      let escaped ← stringEscape value
      pure ([byte '"'] ++ escaped ++ [byte '"'])
  | .object members => do
      let inner ← membersStr pretty (castInt (indent + 2)) true members
      let last ← separator pretty indent
      pure ([byte '\x7b'] ++ inner ++ last ++ [byte '\x7d'])
  | .array elements => do
      let inner ← elementsStr pretty (castInt (indent + 2)) true elements
      let last ← separator pretty indent
      pure ([byte '['] ++ inner ++ last ++ [byte ']'])

def membersStr (pretty : Bool) (indent : Int) (first : Bool) : List (Text × Value) → Except Fault Text
  | [] => .ok []
  | (key, value) :: rest => do
      let before ← separator pretty indent
      let key ← stringEscape key
      let value ← str pretty indent value
      let rest ← membersStr pretty indent false rest
      pure ((if first then [] else [byte ',']) ++ before ++ [byte '"'] ++ key ++ text "\" : " ++ value ++ rest)

def elementsStr (pretty : Bool) (indent : Int) (first : Bool) : List Value → Except Fault Text
  | [] => .ok []
  | value :: rest => do
      let before ← separator pretty indent
      let value ← str pretty indent value
      let rest ← elementsStr pretty indent false rest
      pure ((if first then [] else [byte ',']) ++ before ++ value ++ rest)

end

end Value

end SimpleNFast.Json
