/-
This file models the lexer and the parser of JSON texts.
-/

import SimpleNFast.Construction.Json.Value

namespace SimpleNFast.Json

/-- The row and the columns that a parsing error reports. -/
structure Position where
  row : Int
  col : Int
  lastrowcol : Int
  deriving DecidableEq, Repr

def Position.forward (position : Position) (char : UInt8) : Position :=
  if char = byte '\n' then ⟨position.row + 1, 0, position.col⟩ else { position with col := position.col + 1 }

def Position.backward (position : Position) (char : UInt8) : Position :=
  if char = byte '\n' then ⟨position.row - 1, position.lastrowcol, 0⟩ else { position with col := position.col - 1 }

/-- What is left of the input stream and the current position. -/
structure Lexer where
  rest : Text
  position : Position
  deriving DecidableEq, Repr

def Lexer.init (string : Text) : Lexer := ⟨string, ⟨1, 0, 0⟩⟩

/-- A member function of the lexer changes it and can throw. -/
abbrev Lex := ExceptT Fault (StateM Lexer)

/-- The lexical tokens with their values. -/
inductive Token where
  | lcb
  | rcb
  | lb
  | rb
  | colon
  | comma
  | null
  | true
  | false
  | integer (value : Int64)
  | real (value : Double)
  | string (value : Text)
  | eof
  deriving DecidableEq, Repr

/-- The value of a token that is a value on its own. -/
def Token.value : Token → Option Value
  | .null => some .null
  | .true => some (.boolean Bool.true)
  | .false => some (.boolean Bool.false)
  | .integer value => some (.integer value)
  | .real value => some (.real value)
  | .string value => some (.string value)
  | _ => none

namespace Lexer

/-- This is `std::istream::get` with the update of the position. -/
def getc : Lex UInt8 := fun lexer =>
  match lexer.rest with
  | [] => (.error .failure, lexer)
  | char :: rest => (.ok char, ⟨rest, lexer.position.forward char⟩)

def ungetc (char : UInt8) : Lex Unit := fun lexer =>
  (.ok (), ⟨char :: lexer.rest, lexer.position.backward char⟩)

/-- An error at the current position. -/
def parsingError {value : Type} (what : Text) : Lex value := fun lexer =>
  (.error (.parsingError what lexer.position.row lexer.position.col), lexer)

/-- Reading from the stream of the lexer leaves its position. -/
def ofRead {value : Type} (action : Read value) : Lex value := fun lexer =>
  let (result, rest) := action lexer.rest
  (result, { lexer with rest })

/-- This is `std::istream::get` of a line of limited length, which throws when it comes to the end. -/
def getBuffer (count : Nat) : Read Text := fun stream =>
  let buffer := (stream.takeWhile (· != byte '\n')).take count
  if stream.length = buffer.length then (.error .failure, [])
  else (.ok buffer, stream.drop buffer.length)

/-- The functions for `null`, `true` and `false` differ in the word and in the token. -/
def getWord (word : String) (token : Token) : Lex Token := do
  let buffer ← ofRead (getBuffer word.length)
  if buffer ≠ text word then
    parsingError (text "expected " ++ text word ++ text ", found " ++ buffer.takeWhile (· != 0))
  else pure token

def getNull : Lex Token := getWord "null" .null

def getTrue : Lex Token := getWord "true" .true

def getFalse : Lex Token := getWord "false" .false

/-- The loop over accepted characters also reads the first one that is not accepted. -/
def getWhile (accepts : UInt8 → Bool) : Nat → Lex (Text × UInt8)
  | 0 => throw .running
  | fuel + 1 => do
      let char ← getc
      if accepts char then
        let (rest, last) ← getWhile accepts fuel
        pure (char :: rest, last)
      else pure ([], char)

/-- Each pass of a loop takes a character. -/
def fuel : Lex Nat := fun lexer => (.ok (lexer.rest.length + 1), lexer)

def getDigits : Lex (Text × UInt8) := do
  getWhile digit (← fuel)

/-- The first digit of a number; a zero needs a decimal point after it. -/
def getFirst (char : UInt8) : Lex Text := do
  if char = byte '0' then
    let next ← getc
    if next ≠ byte '.' then parsingError (text "expected decimal point not found")
    else
      ungetc next
      pure [char]
  else if digit1_9 char then pure [char]
  else parsingError (text "unexpected character found")

/-- The decimal point and the digits after it, and the character after them. -/
def getFraction (char : UInt8) : Lex (Text × UInt8) := do
  if char = byte '.' then
    let first ← getc
    if digit first then
      let (rest, last) ← getDigits
      pure (char :: first :: rest, last)
    else parsingError (text "no digit after decimal point found")
  else pure ([], char)

/-- The zeros at the beginning of an exponent are skipped, and one digit has to follow them. -/
def getExponentDigits (char : UInt8) : Lex (Text × UInt8) := do
  let first ←
    if char = byte '0' then
      let (_, last) ← getWhile (· == byte '0') (← fuel)
      ungetc last
      pure []
    else if digit1_9 char then pure [char]
    else parsingError (text "unexpected character found")
  let (rest, last) ← getDigits
  if (first ++ rest).isEmpty then parsingError (text "no exponent value found")
  else pure (first ++ rest, last)

def getExponent (char : UInt8) : Lex (Text × UInt8) := do
  if char = byte 'e' ∨ char = byte 'E' then
    let next ← getc
    if next = byte '+' ∨ next = byte '-' then
      let (exponent, last) ← getExponentDigits (← getc)
      pure (char :: next :: exponent, last)
    else
      let (exponent, last) ← getExponentDigits next
      pure (char :: exponent, last)
  else pure ([], char)

end Lexer

/-- A signed number in base ten. -/
def signedNumber (string : Text) : Int :=
  match string with
  | [] => 0
  | first :: rest => if first = byte '-' then -number 10 rest else number 10 string

/-- This is `std::stoll` for the text of an integer. -/
def stoll (string : Text) : Except Fault Int64 :=
  let value := signedNumber string
  if value < -2 ^ 63 ∨ 2 ^ 63 ≤ value then .error (.outOfRange (text "stoll")) else .ok (.ofInt value)

/-- The number that a decimal fraction with an exponent denotes, without its sign. -/
def decimalValue (string : Text) : ℚ :=
  let unsigned := if string.head? = some (byte '-') then string.drop 1 else string
  let whole := unsigned.takeWhile digit
  let afterWhole := unsigned.drop whole.length
  let part := if afterWhole.head? = some (byte '.') then (afterWhole.drop 1).takeWhile digit else []
  let afterPart := if afterWhole.head? = some (byte '.') then afterWhole.drop (part.length + 1) else afterWhole
  let exponentText := afterPart.drop 1
  let exponent : Int :=
    if exponentText.head? = some (byte '+') then signedNumber (exponentText.drop 1) else signedNumber exponentText
  (number 10 (whole ++ part) : ℚ) * 10 ^ (exponent - part.length)

/-- This is `std::stold` for the text of a real number, with the conversion to `double`. -/
def stold (string : Text) : Except Fault Double :=
  match Double.toLongDouble (decimalValue string) with
  | some value => .ok (.ofLongDouble (string.head? = some (byte '-')) value)
  | none => .error (.outOfRange (text "stold"))

namespace Lexer

def getNumber : Lex Token := do
  let char ← getc
  let (sign, char) ← if char = byte '-' then pure ([char], ← getc) else pure ([], char)
  let first ← getFirst char
  let (whole, char) ← getDigits
  let (part, char) ← getFraction char
  let (exponent, char) ← getExponent char
  ungetc char
  if part.isEmpty && exponent.isEmpty then
    let value ← (stoll (sign ++ first ++ whole) : Except Fault Int64)
    pure (.integer value)
  else
    let value ← (stold (sign ++ first ++ whole ++ part ++ exponent) : Except Fault Double)
    pure (.real value)

/-- The characters of a string up to its closing quote, unescaped once. -/
def getStringLoop : Nat → Lex Text
  | 0 => throw .running
  | fuel + 1 => do
      let char ← getc
      if char = byte '\\' then
        let letter ← getc
        if letter = byte 'u' then
          ungetc (byte 'u')
          ungetc (byte '\\')
          let bytes ← ofRead utf16Decode
          let rest ← getStringLoop fuel
          pure (bytes ++ rest)
        else
          match simpleEscape letter with
          | some escaped =>
              let rest ← getStringLoop fuel
              pure (escaped :: rest)
          | none => parsingError (text "invalid escape sequence")
      else if char = byte '"' then pure []
      else
        let rest ← getStringLoop fuel
        pure (char :: rest)

/-- The assignment to the value of the token unescapes the string again. -/
def getString : Lex Token := do
  let string ← getStringLoop (← fuel)
  let string ← (stringUnescape string : Except Fault Text)
  pure (.string string)

/-- The token that begins with this character. -/
def getToken (char : UInt8) : Lex Token := do
  if char = byte '\x7b' then pure .lcb
  else if char = byte '\x7d' then pure .rcb
  else if char = byte '[' then pure .lb
  else if char = byte ']' then pure .rb
  else if char = byte ':' then pure .colon
  else if char = byte ',' then pure .comma
  else if char = byte 'n' then
    ungetc char
    getNull
  else if char = byte 't' then
    ungetc char
    getTrue
  else if char = byte 'f' then
    ungetc char
    getFalse
  else if char = byte '-' ∨ digit char then
    ungetc char
    getNumber
  else if char = byte '"' then getString
  else parsingError (text "unexpected character found")

/-- The end of the input becomes a token wherever it comes. -/
def get : Lex Token := fun lexer =>
  let skip : Lex Token := do
    let (_, char) ← getWhile space (← fuel)
    getToken char
  match skip lexer with
  | (.error .failure, lexer) => (.ok .eof, lexer)
  | result => result

end Lexer

open Lexer (parsingError)

mutual

/-- The loop of `parse_array` with its current token; the end of the input ends it like a bracket. -/
def parseElements : Nat → Token → List Value → Lex Value
  | 0, _, _ => throw .running
  | fuel + 1, token, elements =>
      if token = .eof then pure (.array elements)
      else do
        let element ← parseValue fuel token "array element expected"
        let elements := elements ++ [element]
        let token ← Lexer.get
        if token = .rb then pure (.array elements)
        else if token ≠ .comma then parsingError (text ", or ] expected")
        else parseElements fuel (← Lexer.get) elements

/-- The loop of `parse_object`, which unescapes a key after its value was read. -/
def parseMembers : Nat → Token → List (Text × Value) → Lex Value
  | 0, _, _ => throw .running
  | fuel + 1, token, members =>
      match token with
      | .eof => pure (.object members)
      | .string key => do
          if (← Lexer.get) ≠ .colon then parsingError (text "colon expected")
          let member ← parseValue fuel (← Lexer.get) "object member value expected"
          let members ← (Value.addMember members key member : Except Fault (List (Text × Value)))
          let token ← Lexer.get
          if token = .rcb then pure (.object members)
          else if token ≠ .comma then parsingError (text ", or \x7d expected")
          else parseMembers fuel (← Lexer.get) members
      | _ => parsingError (text "string expected")

/-- The switch over the first token of a value, which the two loops share. -/
def parseValue : Nat → Token → String → Lex Value
  | 0, _, _ => throw .running
  | fuel + 1, token, what =>
      match token with
      | .lcb => do parseMembers fuel (← Lexer.get) []
      | .lb => do parseElements fuel (← Lexer.get) []
      | _ =>
          match token.value with
          | some value => pure value
          | none => parsingError (text what)

end

/-- This is `parse`, which looks at nothing after the value. -/
def parse (fuel : Nat) : Lex Value := do
  match ← Lexer.get with
  | .lcb => parseMembers fuel (← Lexer.get) []
  | .lb => parseElements fuel (← Lexer.get) []
  | _ => parsingError (text "only object and array are allowed as the top level JSON!")

/-- Each call and each pass of a loop takes a character, so twice the length is enough fuel. -/
def fromString (string : Text) : Except Fault Value := (parse (2 * string.length + 2) (Lexer.init string)).1

end SimpleNFast.Json
