/-
This file states what the lexer and the parser make of the two layouts of a value, and which values come back from
their text.
-/

import SimpleNFast.Construction.Json.Lexer
import SimpleNFast.Construction.Json.Documents
import SimpleNFast.Library.Utf8

namespace SimpleNFast.Json

/-- What ends a row of tokens; the end `running` is a loop that still runs. -/
inductive TokenEnd where
  | eof
  | refused
  | running
  deriving DecidableEq, Repr

/-- The tokens of repeated calls up to the end of the input or the first exception. -/
def tokensFrom : Nat → Lexer → List Token × TokenEnd
  | 0, _ => ([], .running)
  | fuel + 1, lexer =>
      match Lexer.get lexer with
      | (.ok .eof, _) => ([], .eof)
      | (.ok token, lexer) =>
          let (tokens, last) := tokensFrom fuel lexer
          (token :: tokens, last)
      | (.error _, _) => ([], .refused)

/-- Each token takes a character. -/
def tokens (string : Text) : List Token × TokenEnd := tokensFrom (string.length + 1) (Lexer.init string)

/-- Two texts have the same tokens, and the parser makes the same value of both or none of either. -/
structure SameReading (first second : Text) : Prop where
  tokens : tokens first = tokens second
  value : (fromString first).toOption = (fromString second).toOption

namespace Value

mutual

/-- The containers that are around an innermost value. -/
def depth : Value → Nat
  | .object members => membersDepth members
  | .array elements => elementsDepth elements
  | _ => 0

def membersDepth : List (Text × Value) → Nat
  | [] => 0
  | (_, value) :: rest => max (value.depth + 1) (membersDepth rest)

def elementsDepth : List Value → Nat
  | [] => 0
  | value :: rest => max (value.depth + 1) (elementsDepth rest)

end

/-- Both layouts throw, or both are texts that are read in the same way. -/
def LayoutIndependent (value : Value) (indent : Int) : Prop :=
  match value.str true indent, value.str false 0 with
  | .ok pretty, .ok plain => SameReading pretty plain
  | .error _, .error _ => True
  | _, _ => False

/-- The deepest line of the pretty layout has an indentation that is an `int`. -/
def FitsIndent (value : Value) (indent : Int) : Prop := indent + 2 * value.depth < 2 ^ 31

end Value

namespace Value

mutual

/-- All leaves, keys, lists of members and lists of elements in a value have a property of their own. -/
def All (leaf : Value → Prop) (key : Text → Prop) (object : List (Text × Value) → Prop) (array : List Value → Prop) :
    Value → Prop
  | .object members => object members ∧ membersAll leaf key object array members
  | .array elements => array elements ∧ elementsAll leaf key object array elements
  | value => leaf value

def membersAll (leaf : Value → Prop) (key : Text → Prop) (object : List (Text × Value) → Prop)
    (array : List Value → Prop) : List (Text × Value) → Prop
  | [] => True
  | (name, value) :: rest => (key name ∧ value.All leaf key object array) ∧ membersAll leaf key object array rest

def elementsAll (leaf : Value → Prop) (key : Text → Prop) (object : List (Text × Value) → Prop)
    (array : List Value → Prop) : List Value → Prop
  | [] => True
  | value :: rest => value.All leaf key object array ∧ elementsAll leaf key object array rest

end

/-- The members of a `std::map` are in the order of their keys, and each key is there once. -/
def IsMap (members : List (Text × Value)) : Prop :=
  members.Pairwise fun first second => keyLess first.1 second.1 = true

/-- The leaves are null, booleans, integers of 64 bits and strings of valid UTF-8. -/
def PlainLeaf : Value → Prop
  | .real _ => False
  | .string content => Utf8.IsValid content
  | _ => True

def IsPlain (value : Value) : Prop := value.All PlainLeaf Utf8.IsValid IsMap fun _ => True

def isContainer : Value → Bool
  | .object _ => true
  | .array _ => true
  | _ => false

def Unescaped (string : Text) : Prop := byte '\\' ∉ string

/-- A zero is not read, and a string with a backslash is unescaped again. -/
def LeafReturns : Value → Prop
  | .integer value => value ≠ 0
  | .string content => Unescaped content
  | _ => True

/-- There is no empty container, no zero and no backslash. -/
def Returns (value : Value) : Prop := value.All LeafReturns Unescaped (· ≠ []) (· ≠ [])

/-- The text of the value is read as the value itself. -/
def RoundTrips (value : Value) (pretty : Bool) (indent : Int) : Prop :=
  ∃ string, value.str pretty indent = .ok string ∧ fromString string = .ok value

end Value

/-- A value with a container as its root and with plain leaves. -/
structure PlainRoot where
  value : Value
  container : value.isContainer = true
  plain : value.IsPlain

end SimpleNFast.Json
