/-
This file states what escaping and unescaping do to valid UTF-8, which malformed texts they let pass, and what one
unescaping of each literal of an accepted text gives.
-/

import SimpleNFast.Construction.Json.Grammar
import SimpleNFast.Library.Utf8
import SimpleNFast.Construction.Json.Layout

namespace SimpleNFast.Json

/-- A quote stands in the text that no backslash escapes. -/
def bareQuote : Text → Bool
  | [] => false
  | [char] => char == byte '"'
  | char :: letter :: rest =>
      if char = byte '\\' then bareQuote rest else char == byte '"' || bareQuote (letter :: rest)

/-- The escaped text fits between quotes on one line of ASCII, and unescaping it gives the string back. -/
structure Escapes (string escaped : Text) : Prop where
  ascii : ∀ char ∈ escaped, char < 0x80
  quoted : bareQuote escaped = false
  line : byte '\n' ∉ escaped
  unescaped : stringUnescape escaped = .ok string

/-- A text that is no UTF-8 is refused. -/
def RefusesMalformed (string : Text) : Prop :=
  ¬ Utf8.IsValid string → ∃ what, stringEscape string = .error (.invalidArgument what)

/-- The bytes after the first one are as many as it announces, and all of them are from 128 on. -/
def IsSequence : Text → Prop
  | [] => False
  | first :: more => more.length = (utf8Start first).1 ∧ ∀ octet ∈ more, 0x80 ≤ octet

/-- After whole sequences there is one with an ASCII character in it. -/
def Interrupted (string : Text) : Prop :=
  ∃ (sequences : List Text) (first : UInt8) (more : Text) (octet : UInt8) (rest : Text),
    (∀ sequence ∈ sequences, IsSequence sequence) ∧
      (more.length < (utf8Start first).1 ∧ ∀ octet ∈ more, 0x80 ≤ octet) ∧ octet < 0x80 ∧
      string = sequences.flatten ++ first :: more ++ octet :: rest

namespace Item

/-- The parts of a well-formed text: each word of an escape is a character, or two of them are a surrogate pair. -/
def IsEscaped : Item → Prop
  | .char octet => octet ≠ byte '\\'
  | .escape letter => (simpleEscape letter).isSome = true
  | .unicode word => ¬ word.isHigh ∧ ¬ word.isLow
  | .pair first before letter second => first.isHigh ∧ before = byte '\\' ∧ letter = byte 'u' ∧ second.isLow

/-- The parts that are decoded: also a low surrogate alone, and a pair whose second word begins or ends in a wrong way. -/
def IsDecoded : Item → Prop
  | .char octet => octet ≠ byte '\\'
  | item => item.IsRead

end Item

/-- The beginning of a word without all its digits. -/
def IsHexStart (digits : Text) : Prop := digits.length < 4 ∧ ∀ digit ∈ digits, (hexValue digit).isSome = true

/-- An escape that the end of the text cuts off, at the backslash, in a word, or before or in the second word. -/
inductive CutEscape : Text → Prop where
  | backslash : CutEscape [byte '\\']
  | word (digits : Text) : IsHexStart digits → CutEscape (byte '\\' :: byte 'u' :: digits)
  | alone (first : HexWord) : first.isHigh → CutEscape (byte '\\' :: byte 'u' :: first.digits)
  | before (first : HexWord) (char : UInt8) : first.isHigh →
      CutEscape (byte '\\' :: byte 'u' :: (first.digits ++ [char]))
  | second (first : HexWord) (before letter : UInt8) (digits : Text) : first.isHigh →
      (before = byte '\\' ∨ letter = byte 'u') → IsHexStart digits →
      CutEscape (byte '\\' :: byte 'u' :: (first.digits ++ before :: letter :: digits))

/-- The text has parts that are decoded, and at its end there may be an escape that is cut off. -/
def IsDecodable (string : Text) : Prop :=
  ∃ (items : List Item) (tail : Text), (∀ item ∈ items, item.IsDecoded) ∧ (tail = [] ∨ CutEscape tail) ∧
    string = items.flatMap Item.text ++ tail

/-- A text with well-formed escapes becomes valid UTF-8, and every other text is refused. -/
def UnescapesExactly (string : Text) : Prop :=
  (bodyOf Item.IsEscaped string → ∃ content, stringUnescape string = .ok content ∧ Utf8.IsValid content) ∧
    (¬ bodyOf Item.IsEscaped string → ∃ what, stringUnescape string = .error (.invalidArgument what))

namespace Value

def LeafUnescaped : Value → Prop
  | .string content => Unescaped content
  | _ => True

/-- No string and no key has a backslash. -/
def IsUnescaped (value : Value) : Prop := value.All LeafUnescaped Unescaped (fun _ => True) fun _ => True

end Value

/-- The string that a literal stands for. -/
def Lexeme.once (body : Text) : Option Text := (stringUnescape body).toOption

mutual

/-- The value of a tree whose literals are unescaped once; a member stays as it is when its key is there already. -/
def Tree.readOnce : Tree → Option Value
  | .scalar (.string body) => (Lexeme.once body).map .string
  | .scalar lexeme => lexeme.token.bind Token.value
  | .emptyArray _ => some (.array [])
  | .array elements => elements.readOnce.map .array
  | .emptyObject _ => some (.object [])
  | .object members => members.readOnce.map fun members =>
      .object (members.foldl (fun members member => Value.insert members member.1 member.2) [])

def Elements.readOnce : Elements → Option (List Value)
  | .last _ value _ => do pure [← value.readOnce]
  | .more _ value _ rest => do pure ((← value.readOnce) :: (← rest.readOnce))

def Members.readOnce : Members → Option (List (Text × Value))
  | .last _ key _ _ value _ => do pure [(← Lexeme.once key, ← value.readOnce)]
  | .more _ key _ _ value _ rest => do pure ((← Lexeme.once key, ← value.readOnce) :: (← rest.readOnce))

end

def CutElements.readOnce : CutElements → Option (List Value)
  | .stop _ => some []
  | .more _ value _ rest => do pure ((← value.readOnce) :: (← rest.readOnce))

def CutMembers.readOnce : CutMembers → Option (List (Text × Value))
  | .stop _ => some []
  | .more _ key _ _ value _ rest => do pure ((← Lexeme.once key, ← value.readOnce) :: (← rest.readOnce))

/-- The value of a text in which each literal is unescaped once. -/
def Reading.readOnce : Reading → Option Value
  | .closed _ root _ => root.readOnce
  | .cutArray _ elements => elements.readOnce.map .array
  | .cutObject _ members => members.readOnce.map fun members =>
      .object (members.foldl (fun members member => Value.insert members member.1 member.2) [])

end SimpleNFast.Json
