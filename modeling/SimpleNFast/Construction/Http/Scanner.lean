/-
This file models `charset.h` and the scanner of HTTP lines, and states what putting back a character promises to its
readers.
-/

import SimpleNFast.Construction.Http.Status

namespace SimpleNFast.Http

def isTchar (value : Int) : Bool :=
  isAlpha value || isDigit value || value ∈ "!#$%&'*+-.^_`|~".toList.map code

def isVchar (value : Int) : Bool := 0x21 ≤ value && value ≤ 0x7E

def isWhitespace (value : Int) : Bool := value == code ' ' || value == code '\t'

/-- The scanner passes a signed character, so no byte of a string is in this range. -/
def isOpaque (value : Int) : Bool := 0x80 ≤ value && value ≤ 0xFF

def isQuoted (value : Int) : Bool :=
  isWhitespace value || isOpaque value || value == 0x21 || (0x23 ≤ value && value ≤ 0x5B) ||
    (0x5D ≤ value && value ≤ 0x7E)

def isCommented (value : Int) : Bool :=
  isWhitespace value || isOpaque value || (0x21 ≤ value && value ≤ 0x27) ||
    (0x2A ≤ value && value ≤ 0x5B) || (0x5D ≤ value && value ≤ 0x7E)

def isEscaped (value : Int) : Bool := isWhitespace value || isVchar value || isOpaque value

/-- This is `snf::trim`. -/
def trim (string : Text) : Text :=
  ((string.dropWhile (isSpace ∘ toInt)).reverse.dropWhile (isSpace ∘ toInt)).reverse

/-- The parameters of a token are pairs of a name and a value. -/
abbrev Params := List (Text × Text)

structure Scanner where
  cur : Nat
  len : Nat
  str : Text
  deriving DecidableEq, Repr

def Scanner.init (string : Text) : Scanner := ⟨0, string.length, string⟩

/-- A member function of the scanner changes its position and can throw. -/
abbrev Scan := StateT Scanner (Except Fault)

namespace Scanner

/-- The value -1 at the end is also the value of the byte 255. -/
def get : Scan Int := fun scanner =>
  if scanner.cur < scanner.len then
    .ok (toInt (scanner.str.getD scanner.cur 0), { scanner with cur := scanner.cur + 1 })
  else .ok (-1, scanner)

/-- The last character cannot be put back, because the position is then the length. -/
def unget : Scan Unit := fun scanner =>
  if scanner.cur < scanner.len then .ok ((), { scanner with cur := scanner.cur - 1 })
  else .ok ((), scanner)

def peek : Scan Int := fun scanner =>
  if scanner.cur < scanner.len then .ok (toInt (scanner.str.getD scanner.cur 0), scanner)
  else .ok (-1, scanner)

/-- The loop reads characters while they are accepted and puts back the one that is not. -/
def readWhile (accepts : Int → Bool) : Nat → Scan Text
  | 0 => pure []
  | fuel + 1 => do
      let next ← get
      if accepts next then
        let rest ← readWhile accepts fuel
        pure (toByte next :: rest)
      else
        unget
        pure []

/-- A loop over one scanner reads at most the characters that are left and the end. -/
def fuel : Scan Nat := fun scanner => .ok (scanner.len - scanner.cur + 1, scanner)

def readAccepted (accepts : Int → Bool) : Scan Text := do
  readWhile accepts (← fuel)

def readSpace : Scan Bool := do
  let spaces ← readAccepted isWhitespace
  pure !spaces.isEmpty

def readOptSpace : Scan Unit := do
  let _ ← readAccepted isWhitespace

def readSpecial (special : Char) : Scan Bool := do
  let next ← get
  if next != code special then
    unget
    pure false
  else pure true

def readCrlf : Scan Bool := do
  let next ← get
  if next == -1 then pure true
  else if next == code '\n' then pure true
  else if next == code '\r' then
    let second ← get
    if second != code '\n' then unget
    pure true
  else
    unget
    pure false

/-- The token is empty where the source returns false. -/
def readToken (lower : Bool) : Scan Text := do
  let token ← readAccepted isTchar
  pure (if lower then token.map (toByte ∘ toLower ∘ toInt) else token)

def readVersion : Scan Text := readAccepted fun next => isTchar next || next == code '/'

/-- The value `none` is a status that has not three digits. -/
def readStatus : Scan (Option Text) := do
  let status ← readAccepted isDigit
  pure (if status.length == 3 then some status else none)

def readReason : Scan Text := do
  let reason ← readAccepted fun next => isWhitespace next || isVchar next || isOpaque next
  pure (trim reason)

/-- The rest of a quoted string or of a comment after its opening character. -/
def readEnclosed (closing : Char) (accepts : Int → Bool) (kind : String) : Nat → Text → Scan Text
  | 0, soFar => pure soFar
  | fuel + 1, soFar => do
      let next ← get
      let invalid (last : Int) (found : Text) : Scan Text :=
        throw (.invalidArgument (text "invalid character '" ++ decimal last ++ text "' found in " ++
          text kind ++ text " " ++ found))
      if next == code closing then pure (soFar ++ [toByte next])
      else if next == code '\\' then
        let escaped ← get
        if isEscaped escaped then
          readEnclosed closing accepts kind fuel (soFar ++ [toByte next, toByte escaped])
        else invalid escaped (soFar ++ [toByte next])
      else if accepts next then readEnclosed closing accepts kind fuel (soFar ++ [toByte next])
      else invalid next soFar

/-- The value `none` is the result false: the opening character is missing. -/
def readBetween (opening closing : Char) (accepts : Int → Bool) (kind : String) :
    Scan (Option Text) := do
  let next ← get
  if next != code opening then
    unget
    pure none
  else
    let found ← readEnclosed closing accepts kind (← fuel) [toByte next]
    pure (some found)

def readQstring : Scan (Option Text) := readBetween '"' '"' isQuoted "quoted-string"

def readComments : Scan (Option Text) := readBetween '(' ')' isCommented "comments"

/-- The value of one parameter is a quoted string or a token. -/
def readParameterValue : Scan (Option Text) := do
  let next ← peek
  if next == code '"' then readQstring
  else if isTchar next then
    let value ← readToken false
    pure (if value.isEmpty then none else some value)
  else pure none

def readParameter : Scan (Text × Text) := do
  let name ← readToken true
  if name.isEmpty then throw (.invalidArgument (text "no parameter name"))
  readOptSpace
  if !(← readSpecial '=') then throw (.invalidArgument (text "no '=' after parameter name"))
  readOptSpace
  match ← readParameterValue with
  | none => throw (.invalidArgument (text "no/invalid parameter value"))
  | some value => pure (name, value)

def readParametersLoop : Nat → Scan Params
  | 0 => pure []
  | fuel + 1 => do
      let parameter ← readParameter
      readOptSpace
      if ← readSpecial ';' then
        let rest ← readParametersLoop fuel
        pure (parameter :: rest)
      else pure [parameter]

/-- The result is never empty, so the source never returns false here. -/
def readParameters : Scan Params := do
  readParametersLoop (← fuel)

/-- The value `none` is the result false, and a size from 2^63 on does not fit `std::stoll`. -/
def readChunkSize : Scan (Option Nat) := do
  let hex ← readAccepted isXdigit
  if hex.isEmpty then pure none
  else if 2 ^ 63 ≤ number 16 hex then throw (.outOfRange (text "stoll"))
  else pure (some (number 16 hex))

/-- The rest of the line up to its terminator. -/
def readAllLoop : Nat → Scan Text
  | 0 => pure []
  | fuel + 1 => do
      let next ← get
      if next == code '\r' || next == code '\n' then
        unget
        pure []
      else if next == -1 then pure []
      else
        let rest ← readAllLoop fuel
        pure (toByte next :: rest)

def readAll : Scan Text := do
  let line ← readAllLoop (← fuel)
  pure (trim line)

end Scanner

/-- The readers of the scanner that put back the first character they do not accept. -/
inductive Reading where
  | space
  | optSpace
  | special (mark : Char)
  | token (lower : Bool)
  | version
  | status
  | chunkSize
  deriving DecidableEq, Repr

namespace Scanner

/-- The characters between the position and the end of the scanner. -/
def left (scanner : Scanner) : Text := (scanner.str.take scanner.len).drop scanner.cur

def advance (scanner : Scanner) (count : Nat) : Scanner := { scanner with cur := scanner.cur + count }

/-- The scanner reads one character and puts it back. -/
def getUnget : Scan Unit := do
  let _ ← get
  unget

/-- The next call of `get` returns this character and moves behind it. -/
def Next (scanner : Scanner) (char : UInt8) : Prop := get scanner = .ok (toInt char, scanner.advance 1)

/-- The next call of `get` returns the value of the end. -/
def ReportsEnd (scanner : Scanner) : Prop := ∃ later, get scanner = .ok (-1, later)

end Scanner

namespace Reading

/-- The call of the reader without its result. -/
def call : Reading → Scan Unit
  | space => do let _ ← Scanner.readSpace
  | optSpace => Scanner.readOptSpace
  | special mark => do let _ ← Scanner.readSpecial mark
  | token lower => do let _ ← Scanner.readToken lower
  | version => do let _ ← Scanner.readVersion
  | status => do let _ ← Scanner.readStatus
  | chunkSize => do let _ ← Scanner.readChunkSize

/-- The characters that the reader accepts one after another. -/
def accepts : Reading → Int → Bool
  | space => isWhitespace
  | optSpace => isWhitespace
  | special mark => (· == code mark)
  | token _ => isTchar
  | version => fun next => isTchar next || next == code '/'
  | status => isDigit
  | chunkSize => isXdigit

/-- A special character is read once, and the other readers go on while they accept. -/
def accepted (reading : Reading) (left : Text) : Text :=
  match reading with
  | special mark => (left.take 1).takeWhile ((special mark).accepts ∘ toInt)
  | _ => left.takeWhile (reading.accepts ∘ toInt)

/-- The text behind the accepted characters. -/
def refused (reading : Reading) (left : Text) : Text := left.drop (reading.accepted left).length

/-- A reader that found its special character reads no further one. -/
def looksFurther (reading : Reading) (left : Text) : Bool :=
  match reading with
  | special _ => (reading.accepted left).isEmpty
  | _ => true

/-- The size of a chunk can be too large for `std::stoll`. -/
def tooLarge (reading : Reading) (left : Text) : Bool :=
  reading == chunkSize && decide (2 ^ 63 ≤ number 16 (reading.accepted left))

/-- Where the reader returns, the scanner stands before the first character that was not accepted. -/
def Advances (reading : Reading) (scanner : Scanner) : Prop :=
  ∀ later, reading.call scanner = .ok ((), later) →
    later = scanner.advance (reading.accepted scanner.left).length ∧
    (∀ char, (reading.refused scanner.left).head? = some char → later.Next char) ∧
    (later.ReportsEnd → reading.refused scanner.left = [])

end Reading

end SimpleNFast.Http
