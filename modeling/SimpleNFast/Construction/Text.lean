/-
This file models strings, characters and the character classes of the C locale.
-/

import Mathlib.Tactic

namespace SimpleNFast

/-- A `std::string` is a list of bytes. -/
abbrev Text := List UInt8

/-- Strings are compared byte by byte. -/
instance : LawfulBEq Text := inferInstance

/-- The byte of an ASCII character. -/
def byte (char : Char) : UInt8 := char.toNat.toUInt8

/-- The bytes of an ASCII literal. -/
def text (literal : String) : Text := literal.toList.map byte

/-- The integer of an ASCII character. -/
def code (char : Char) : Int := char.toNat

/-- A `char` is signed, so a byte from 128 on becomes a negative integer. -/
def toInt (value : UInt8) : Int := if value < 128 then value.toNat else (value.toNat : Int) - 256

/-- A conversion to `char` keeps the low eight bits. -/
def toByte (value : Int) : UInt8 := (value % 256).toNat.toUInt8

/-- A conversion to `int` keeps the low thirty-two bits with their sign. -/
def castInt (value : Int) : Int := (BitVec.ofInt 32 value).toInt

def isDigit (value : Int) : Bool := 48 ≤ value && value ≤ 57

def isUpper (value : Int) : Bool := 65 ≤ value && value ≤ 90

def isLower (value : Int) : Bool := 97 ≤ value && value ≤ 122

def isAlpha (value : Int) : Bool := isUpper value || isLower value

def isXdigit (value : Int) : Bool :=
  isDigit value || (65 ≤ value && value ≤ 70) || (97 ≤ value && value ≤ 102)

def toLower (value : Int) : Int := if isUpper value then value + 32 else value

def toUpper (value : Int) : Int := if isLower value then value - 32 else value

/-- The digits of a number in a base up to sixteen, in lower case and without leading zeros. -/
def digits (base number : Nat) : Text :=
  (Nat.toDigits base number).map byte

/-- The value of one hexadecimal digit. -/
def digitValue (value : Int) : Nat :=
  if isDigit value then (value - 48).toNat
  else if 97 ≤ value then (value - 87).toNat
  else (value - 55).toNat

/-- The number that a string of digits denotes in the base. -/
def number (base : Nat) (string : Text) : Nat :=
  string.foldl (fun total next => total * base + digitValue (toInt next)) 0

/-- A signed number as an output stream prints it. -/
def decimal (value : Int) : Text :=
  if value < 0 then byte '-' :: digits 10 value.natAbs else digits 10 value.natAbs

/-- A space is a byte that `std::isspace` accepts in the C locale. -/
def isSpace (value : Int) : Bool := value == 32 || (9 ≤ value && value ≤ 13)

end SimpleNFast
