/-
This file models `utf.cpp` and `misc.cpp`: the escapes of JSON strings.
-/

import SimpleNFast.Construction.Text

namespace SimpleNFast.Json

/-- The exceptions of the library; the value `running` is a loop that still runs. -/
inductive Fault where
  | parsingError (what : Text) (row col : Int)
  | invalidArgument (what : Text)
  | outOfRange (what : Text)
  | lengthError (what : Text)
  | failure
  | running
  deriving DecidableEq, Repr

/-- Reading from a stream, where a read at the end throws `std::ios::failure`. -/
abbrev Read := ExceptT Fault (StateM Text)

def Read.get : Read UInt8 := fun stream =>
  match stream with
  | [] => (.error .failure, [])
  | char :: rest => (.ok char, rest)

def Read.throw {value : Type} (fault : Fault) : Read value := fun stream => (.error fault, stream)

def space (char : UInt8) : Bool := char ∈ " \x0c\n\r\t\x0b".toList.map byte

def digit1_9 (char : UInt8) : Bool := byte '1' ≤ char && char ≤ byte '9'

def digit (char : UInt8) : Bool := char == byte '0' || digit1_9 char

def lxdigit (char : UInt8) : Bool := byte 'a' ≤ char && char ≤ byte 'f'

def uxdigit (char : UInt8) : Bool := byte 'A' ≤ char && char ≤ byte 'F'

/-- The value of a hexadecimal digit, or none for another character. -/
def hexValue (char : UInt8) : Option Nat :=
  if digit char then some (char - byte '0').toNat
  else if lxdigit char then some ((char - byte 'a').toNat + 10)
  else if uxdigit char then some ((char - byte 'A').toNat + 10)
  else none

/-- A number as `std::hex` prints it. -/
def hexadecimal (value : Nat) : Text := digits 16 value

def utf8Encode (codepoint : Nat) : Except Fault Text :=
  if 0x10FFFF < codepoint then
    .error (.invalidArgument (text "invalid code point (0x" ++ hexadecimal codepoint ++ text ")"))
  else if codepoint < 0x80 then .ok [codepoint.toUInt8]
  else if codepoint < 0x800 then
    .ok [(0xC0 + ((codepoint &&& 0x7C0) >>> 6)).toUInt8, (0x80 + (codepoint &&& 0x03F)).toUInt8]
  else if codepoint < 0x10000 then
    .ok [(0xE0 + ((codepoint &&& 0xF000) >>> 12)).toUInt8, (0x80 + ((codepoint &&& 0x0FC0) >>> 6)).toUInt8,
      (0x80 + (codepoint &&& 0x003F)).toUInt8]
  else
    .ok [(0xF0 + ((codepoint &&& 0x1C0000) >>> 18)).toUInt8, (0x80 + ((codepoint &&& 0x03F000) >>> 12)).toUInt8,
      (0x80 + ((codepoint &&& 0x000FC0) >>> 6)).toUInt8, (0x80 + (codepoint &&& 0x00003F)).toUInt8]

/-- The loop over four digits stops at the first character that is none. -/
def utf16Digits : Nat → Nat → Read (Option Nat)
  | 0, word => pure (some word)
  | count + 1, word => do
      let char ← Read.get
      match hexValue char with
      | some value => utf16Digits count (word * 16 + value)
      | none => pure none

/-- The value `none` is -1; it takes both wrong characters to refuse the beginning of the sequence. -/
def utf16DecodeSeq : Read (Option Nat) := do
  let first ← Read.get
  let second ← Read.get
  if first != byte '\\' && second != byte 'u' then pure none
  else utf16Digits 4 0

/-- The upper bound of the second word is compared with the first one. -/
def utf16Decode : Read Text := do
  match ← utf16DecodeSeq with
  | none => Read.throw (.invalidArgument (text "invalid UTF-16 main sequence"))
  | some first =>
      let codepoint ←
        if 0xD800 ≤ first ∧ first ≤ 0xDBFF then
          match ← utf16DecodeSeq with
          | none => Read.throw (.invalidArgument (text "invalid UTF-16 surrogate sequence"))
          | some second =>
              if 0xDC00 ≤ second ∧ first ≤ 0xDFFF then
                pure ((first - 0xD800) * 2 ^ 10 + (second - 0xDC00) + 0x10000)
              else
                Read.throw (.invalidArgument (text "invalid UTF-16 surrogate sequence (0x" ++ hexadecimal second ++
                  text ")"))
        else pure first
      match utf8Encode codepoint with
      | .ok bytes => pure bytes
      | .error fault => Read.throw fault

/-- The bytes after the first one of a UTF-8 sequence. -/
def utf8Rest : Nat → Nat → Read Nat
  | 0, word => pure word
  | count + 1, word => do
      let char ← Read.get
      if char &&& 0x80 = 0x80 then utf8Rest count ((word * 2 ^ 6 ||| (char &&& 0x3F).toNat) % 2 ^ 32)
      else Read.throw (.invalidArgument (text "invalid UTF-8 sequence (" ++ [char] ++ text ")"))

/-- Four hexadecimal digits with leading zeros, or more where the number has more. -/
def hexWord (word : Nat) : Text :=
  text "\\u" ++ List.replicate (4 - (hexadecimal word).length) (byte '0') ++ hexadecimal word

/-- The first byte of a sequence decides its length; a byte that begins none is taken with its sign. -/
def utf8Start (char : UInt8) : Nat × Nat :=
  if char &&& 0xF0 = 0xF0 then (3, (char &&& 0x07).toNat)
  else if char &&& 0xE0 = 0xE0 then (2, (char &&& 0x0F).toNat)
  else if char &&& 0xC0 = 0xC0 then (1, (char &&& 0x1F).toNat)
  else (0, (toInt char % 2 ^ 32).toNat)

/-- The escapes of a code point. -/
def hexWords (codepoint : Nat) : Text :=
  if codepoint < 0x10000 then hexWord codepoint
  else
    let rest := codepoint - 0x10000
    hexWord (0xD800 ||| ((rest &&& 0xFFC00) >>> 10)) ++ hexWord (0xDC00 ||| (rest &&& 0x003FF))

def utf16Encode : Read Text := do
  let first ← Read.get
  let (count, start) := utf8Start first
  let codepoint ← utf8Rest count start
  pure (hexWords codepoint)

/-- The character that an escape of one letter stands for. -/
def simpleEscape (char : UInt8) : Option UInt8 :=
  if char = byte '"' then some (byte '"')
  else if char = byte '\\' then some (byte '\\')
  else if char = byte '/' then some (byte '/')
  else if char = byte 'b' then some 8
  else if char = byte 'f' then some 12
  else if char = byte 'n' then some 10
  else if char = byte 'r' then some 13
  else if char = byte 't' then some 9
  else none

/-- The end of the string ends the loop also inside an escape, whose characters are then lost. -/
def unescapeLoop : Nat → Text → Except Fault Text
  | 0, _ => .error .running
  | _ + 1, [] => .ok []
  | fuel + 1, char :: rest =>
      if char = byte '\\' then
        match rest with
        | [] => .ok []
        | letter :: after =>
            if letter = byte 'u' then
              match utf16Decode (char :: letter :: after) with
              | (.ok bytes, after) => (unescapeLoop fuel after).map (bytes ++ ·)
              | (.error .failure, _) => .ok []
              | (.error fault, _) => .error fault
            else
              match simpleEscape letter with
              | some escaped => (unescapeLoop fuel after).map (escaped :: ·)
              | none => .error (.invalidArgument (text "invalid escape sequence"))
      else (unescapeLoop fuel rest).map (char :: ·)

def stringUnescape (string : Text) : Except Fault Text := unescapeLoop (string.length + 1) string

/-- The escape of a character that has one letter. -/
def letterEscape (char : UInt8) : Option Text :=
  if char = byte '\\' then some (text "\\\\")
  else if char = byte '"' then some (text "\\\"")
  else if char = byte '/' then some (text "\\/")
  else if char = 8 then some (text "\\b")
  else if char = 12 then some (text "\\f")
  else if char = 10 then some (text "\\n")
  else if char = 13 then some (text "\\r")
  else if char = 9 then some (text "\\t")
  else none

/-- The end of the string ends the loop also inside a UTF-8 sequence, whose bytes are then lost. -/
def escapeLoop : Nat → Text → Except Fault Text
  | 0, _ => .error .running
  | _ + 1, [] => .ok []
  | fuel + 1, char :: rest =>
      match letterEscape char with
      | some escape => (escapeLoop fuel rest).map (escape ++ ·)
      | none =>
          if char < 0x80 then (escapeLoop fuel rest).map (char :: ·)
          else
            match utf16Encode (char :: rest) with
            | (.ok escape, after) => (escapeLoop fuel after).map (escape ++ ·)
            | (.error .failure, _) => .ok []
            | (.error fault, _) => .error fault

def stringEscape (string : Text) : Except Fault Text := escapeLoop (string.length + 1) string

end SimpleNFast.Json
