/-
This file states the readers of header values over the text that is left, without a position in a string.
A reader yields nothing where the function of the scanner throws.
-/

import SimpleNFast.Construction.Http.HeaderValues

namespace SimpleNFast.Http

/-- A reader takes a value from the start of a text and leaves the rest of it, or it refuses the text. -/
abbrev Reader := StateT Text Option

namespace Reader

def refuse {value : Type} : Reader value := fun _ => none

def ofExcept {value : Type} (result : Except Fault value) : Reader value := fun rest =>
  result.toOption.map fun value => (value, rest)

/-- The last character of the string cannot be put back. -/
def kept (rest : Text) : Text := if rest.length = 1 then [] else rest

/-- The characters that are accepted; the first one that is not is put back. -/
def word (accepts : Int → Bool) : Reader Text := fun rest =>
  some (rest.takeWhile (accepts ∘ toInt), kept (rest.dropWhile (accepts ∘ toInt)))

def blanks : Reader Unit := do
  let _ ← word isWhitespace

def spaces : Reader Bool := do
  let found ← word isWhitespace
  pure !found.isEmpty

def special (mark : Char) : Reader Bool
  | [] => some (false, [])
  | char :: rest => if toInt char = code mark then some (true, rest) else some (false, kept (char :: rest))

/-- The rest of a quoted string or of a comment, with the text behind it. -/
def closing (mark : Char) (accepts : Int → Bool) : Text → Option (Text × Text)
  | [] => none
  | char :: rest =>
      if toInt char = code mark then some ([char], rest)
      else if toInt char = code '\\' then
        match rest with
        | [] => none
        | escaped :: rest =>
            if isEscaped (toInt escaped) then
              (closing mark accepts rest).map fun (found, rest) => (char :: escaped :: found, rest)
            else none
      else if accepts (toInt char) then (closing mark accepts rest).map fun (found, rest) => (char :: found, rest)
      else none

/-- The value `none` is a text that does not begin with the opening mark. -/
def enclosed (opening mark : Char) (accepts : Int → Bool) : Reader (Option Text)
  | [] => some (none, [])
  | char :: rest =>
      if toInt char = code opening then
        (closing mark accepts rest).map fun (found, rest) => (some (char :: found), rest)
      else some (none, kept (char :: rest))

def quoted : Reader (Option Text) := enclosed '"' '"' isQuoted

def comment : Reader (Option Text) := enclosed '(' ')' isCommented

def lowerWord : Reader Text := do
  let name ← word isTchar
  pure (name.map (toByte ∘ toLower ∘ toInt))

def filledWord : Reader (Option Text) := do
  let value ← word isTchar
  pure (if value.isEmpty then none else some value)

def parameterValue : Reader (Option Text)
  | [] => some (none, [])
  | char :: rest =>
      if toInt char = code '"' then quoted (char :: rest)
      else if isTchar (toInt char) then filledWord (char :: rest)
      else some (none, char :: rest)

def parameter : Reader (Text × Text) := do
  let name ← lowerWord
  if name.isEmpty then refuse
  else
    blanks
    if ← special '=' then
      blanks
      match ← parameterValue with
      | none => refuse
      | some value => pure (name, value)
    else refuse

def parameters : Nat → Reader Params
  | 0 => pure []
  | fuel + 1 => do
      let first ← parameter
      blanks
      if ← special ';' then
        let rest ← parameters fuel
        pure (first :: rest)
      else pure [first]

/-- Each parameter takes a character at least. -/
def allParameters : Reader Params := fun rest => parameters (rest.length + 1) rest

def list {element : Type} (read : Reader element) : Nat → Reader (List element)
  | 0 => pure []
  | fuel + 1 => do
      let first ← read
      blanks
      if ← special ',' then
        blanks
        let rest ← list read fuel
        pure (first :: rest)
      else pure [first]

def string : Reader Text := do
  let name ← lowerWord
  if name.isEmpty then refuse else pure name

def token : Reader Token := do
  let name ← string
  blanks
  if ← special ';' then
    let parameters ← allParameters
    pure ⟨name, parameters⟩
  else pure ⟨name, []⟩

def mediaType : Reader MediaType := do
  let type ← lowerWord
  if type.isEmpty then refuse
  else if ← special '/' then
    let subtype ← lowerWord
    if subtype.isEmpty then refuse
    else
      blanks
      if ← special ';' then
        blanks
        let parameters ← allParameters
        pure ⟨type, subtype, parameters⟩
      else pure ⟨type, subtype, []⟩
  else refuse

def isUriChar (value : Int) : Bool :=
  uriReservedCharacter value || uriUnreservedCharacter value || value == code '%'

def uri : Reader Text := do
  let found ← word isUriChar
  if found.isEmpty then pure []
  else
    let _ ← ofExcept (Uri.parse found)
    pure found

def isVersionChar (value : Int) : Bool := isTchar value || value == code '/'

/-- The host of a proxy with its comment. -/
def received (ver : Version) : Reader Via := do
  let found ← uri
  if found.isEmpty then refuse
  else
    let url ← ofExcept (Uri.parse (text "http://" ++ found))
    let _ ← spaces
    let comments ← comment
    pure ⟨ver, url, comments.getD []⟩

def via : Reader Via := do
  blanks
  let version ← word isVersionChar
  if version.isEmpty then refuse
  else
    let ver ← ofExcept (Version.ofString version)
    if ← spaces then received ver else refuse

end Reader

end SimpleNFast.Http
