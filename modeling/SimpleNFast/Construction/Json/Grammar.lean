/-
This file states the grammar of JSON texts, the wider one that the lexer reads, and what the parser makes of them.
-/

import SimpleNFast.Construction.Json.Lexer

namespace SimpleNFast.Json

/-- The four hexadecimal digits of an escape. -/
structure HexWord where
  digits : Text
  four : digits.length = 4
  valid : ∀ digit ∈ digits, (hexValue digit).isSome = true
  deriving DecidableEq

namespace HexWord

def value (word : HexWord) : Nat := word.digits.foldl (fun total digit => total * 16 + (hexValue digit).getD 0) 0

def isHigh (word : HexWord) : Prop := 0xD800 ≤ word.value ∧ word.value ≤ 0xDBFF

def isLow (word : HexWord) : Prop := 0xDC00 ≤ word.value ∧ word.value ≤ 0xDFFF

end HexWord

/-- A part of a string literal; the two characters of a pair are those before its second word. -/
inductive Item where
  | char (octet : UInt8)
  | escape (letter : UInt8)
  | unicode (word : HexWord)
  | pair (first : HexWord) (before letter : UInt8) (second : HexWord)
  deriving DecidableEq

namespace Item

def text : Item → Text
  | .char octet => [octet]
  | .escape letter => [byte '\\', letter]
  | .unicode word => [byte '\\', byte 'u'] ++ word.digits
  | .pair first before letter second =>
      [byte '\\', byte 'u'] ++ first.digits ++ [before, letter] ++ second.digits

/-- The code point of two words. -/
def pairValue (first second : HexWord) : Nat :=
  (first.value - 0xD800) * 2 ^ 10 + (second.value - 0xDC00) + 0x10000

/-- The bytes that a part stands for. -/
def bytes : Item → Text
  | .char octet => [octet]
  | .escape letter => (simpleEscape letter).toList
  | .unicode word => (utf8Encode word.value).toOption.getD []
  | .pair first _ _ second => (utf8Encode (pairValue first second)).toOption.getD []

/-- The parts that the grammar allows; it does not look at the words of escapes. -/
def IsRfc : Item → Prop
  | .char octet => 0x20 ≤ octet ∧ octet ≠ byte '"' ∧ octet ≠ byte '\\'
  | .escape letter => (simpleEscape letter).isSome = true
  | .unicode _ => True
  | .pair _ _ _ _ => False

/-- The parts whose escapes are valid UTF-16. -/
def IsUtf16 : Item → Prop
  | .char octet => 0x20 ≤ octet ∧ octet ≠ byte '"' ∧ octet ≠ byte '\\'
  | .escape letter => (simpleEscape letter).isSome = true
  | .unicode word => ¬ word.isHigh ∧ ¬ word.isLow
  | .pair first before letter second => first.isHigh ∧ before = byte '\\' ∧ letter = byte 'u' ∧ second.isLow

/-- The parts that the lexer reads: control characters, and a pair whose second word begins in a wrong way. -/
def IsRead : Item → Prop
  | .char octet => octet ≠ byte '"' ∧ octet ≠ byte '\\'
  | .escape letter => (simpleEscape letter).isSome = true
  | .unicode word => ¬ word.isHigh
  | .pair first before letter second =>
      first.isHigh ∧ (before = byte '\\' ∨ letter = byte 'u') ∧ 0xDC00 ≤ second.value ∧
        pairValue first second ≤ 0x10FFFF

end Item

/-- The letter, the sign and the digits of an exponent. -/
structure Exponent where
  letter : UInt8
  sign : Text
  digits : Text
  letterForm : letter = byte 'e' ∨ letter = byte 'E'
  signForm : sign = [] ∨ sign = [byte '+'] ∨ sign = [byte '-']
  digitsForm : digits ≠ [] ∧ ∀ char ∈ digits, digit char = true
  deriving DecidableEq

/-- A number of the grammar; its fraction is empty when it has none. -/
structure Number where
  negative : Bool
  whole : Text
  fraction : Text
  exponent : Option Exponent
  wholeForm : whole = [byte '0'] ∨
    ∃ first rest, whole = first :: rest ∧ digit1_9 first = true ∧ ∀ char ∈ rest, digit char = true
  fractionForm : ∀ char ∈ fraction, digit char = true

namespace Number

def sign (number : Number) : Text := if number.negative then [byte '-'] else []

def point (number : Number) : Text := if number.fraction = [] then [] else byte '.' :: number.fraction

def text (number : Number) : Text :=
  number.sign ++ number.whole ++ number.point ++
    match number.exponent with
    | some exponent => exponent.letter :: exponent.sign ++ exponent.digits
    | none => []

/-- The text that the lexer converts, where the exponent has lost its leading zeros. -/
def kept (number : Number) : Text :=
  number.sign ++ number.whole ++ number.point ++
    match number.exponent with
    | some exponent => exponent.letter :: exponent.sign ++ exponent.digits.dropWhile (· == byte '0')
    | none => []

def isInteger (number : Number) : Bool := number.fraction.isEmpty && number.exponent.isNone

/-- A zero without a point and an exponent of zeros are not read. -/
def IsRead (number : Number) : Prop :=
  (number.whole = [byte '0'] → number.fraction ≠ []) ∧
    ∀ exponent, number.exponent = some exponent → exponent.digits.dropWhile (· == byte '0') ≠ []

instance (number : Number) : Decidable number.IsRead :=
  inferInstanceAs (Decidable (_ ∧ ∀ exponent, number.exponent = some exponent → _))

/-- The token of a number, and none for a number that is not read or is out of range. -/
def token (number : Number) : Option Token :=
  if number.IsRead then
    if number.isInteger then (stoll (number.sign ++ number.whole)).toOption.map .integer
    else (stold number.kept).toOption.map .real
  else none

end Number

/-- A value that is one token. -/
inductive Lexeme where
  | null
  | true
  | false
  | number (numeral : Number)
  | string (body : Text)

namespace Lexeme

def quoted (body : Text) : Text := byte '"' :: body ++ [byte '"']

def text : Lexeme → Text
  | .null => SimpleNFast.text "null"
  | .true => SimpleNFast.text "true"
  | .false => SimpleNFast.text "false"
  | .number numeral => numeral.text
  | .string body => quoted body

/-- The string that the token of a literal has: the literal is unescaped twice. -/
def string? (body : Text) : Option Text := (do stringUnescape (← stringUnescape body)).toOption

def token : Lexeme → Option Token
  | .null => some .null
  | .true => some .true
  | .false => some .false
  | .number numeral => numeral.token
  | .string body => (string? body).map .string

/-- The key of a member: the literal is unescaped three times. -/
def key (body : Text) : Option Text := (string? body).bind fun string => (stringUnescape string).toOption

end Lexeme

mutual

/-- The syntax tree of a value with its white space. -/
inductive Tree where
  | scalar (lexeme : Lexeme)
  | emptyArray (space : Text)
  | array (elements : Elements)
  | emptyObject (space : Text)
  | object (members : Members)

/-- The elements of an array; there is one at least. -/
inductive Elements where
  | last (before : Text) (value : Tree) (after : Text)
  | more (before : Text) (value : Tree) (after : Text) (rest : Elements)

/-- The members of an object; there is one at least. -/
inductive Members where
  | last (before key afterKey beforeValue : Text) (value : Tree) (after : Text)
  | more (before key afterKey beforeValue : Text) (value : Tree) (after : Text) (rest : Members)

end

/-- The text of a member up to its value. -/
def memberHead (before key afterKey beforeValue : Text) : Text :=
  before ++ Lexeme.quoted key ++ afterKey ++ [byte ':'] ++ beforeValue

mutual

def Tree.text : Tree → Text
  | .scalar lexeme => lexeme.text
  | .emptyArray space => byte '[' :: space ++ [byte ']']
  | .array elements => byte '[' :: elements.text ++ [byte ']']
  | .emptyObject space => byte '\x7b' :: space ++ [byte '\x7d']
  | .object members => byte '\x7b' :: members.text ++ [byte '\x7d']

def Elements.text : Elements → Text
  | .last before value after => before ++ value.text ++ after
  | .more before value after rest => before ++ value.text ++ after ++ byte ',' :: rest.text

def Members.text : Members → Text
  | .last before key afterKey beforeValue value after =>
      memberHead before key afterKey beforeValue ++ value.text ++ after
  | .more before key afterKey beforeValue value after rest =>
      memberHead before key afterKey beforeValue ++ value.text ++ after ++ byte ',' :: rest.text

end

/-- A grammar allows some white space and some bodies of string literals. -/
structure Grammar where
  space : Text → Prop
  body : Text → Prop

def Lexeme.Within (grammar : Grammar) : Lexeme → Prop
  | .string body => grammar.body body
  | _ => True

/-- The parts of a member up to its value are those of the grammar. -/
def HeadWithin (grammar : Grammar) (before key afterKey beforeValue : Text) : Prop :=
  grammar.space before ∧ grammar.body key ∧ grammar.space afterKey ∧ grammar.space beforeValue

mutual

def Tree.Within (grammar : Grammar) : Tree → Prop
  | .scalar lexeme => lexeme.Within grammar
  | .emptyArray space => grammar.space space
  | .array elements => elements.Within grammar
  | .emptyObject space => grammar.space space
  | .object members => members.Within grammar

def Elements.Within (grammar : Grammar) : Elements → Prop
  | .last before value after => grammar.space before ∧ value.Within grammar ∧ grammar.space after
  | .more before value after rest =>
      (grammar.space before ∧ value.Within grammar ∧ grammar.space after) ∧ rest.Within grammar

def Members.Within (grammar : Grammar) : Members → Prop
  | .last before key afterKey beforeValue value after =>
      HeadWithin grammar before key afterKey beforeValue ∧ value.Within grammar ∧ grammar.space after
  | .more before key afterKey beforeValue value after rest =>
      (HeadWithin grammar before key afterKey beforeValue ∧ value.Within grammar ∧ grammar.space after) ∧
        rest.Within grammar

end

/-- The body of a literal is a sequence of parts. -/
def bodyOf (part : Item → Prop) (body : Text) : Prop :=
  ∃ items : List Item, (∀ item ∈ items, part item) ∧ body = items.flatMap Item.text

def rfcSpace (space : Text) : Prop := ∀ char ∈ space, char ∈ [0x20, 0x09, 0x0A, 0x0D]

/-- The grammar of RFC 8259 on bytes. -/
def Grammar.rfc : Grammar := ⟨rfcSpace, bodyOf Item.IsRfc⟩

/-- The same grammar for texts whose escapes are valid UTF-16. -/
def Grammar.utf16 : Grammar := ⟨rfcSpace, bodyOf Item.IsUtf16⟩

/-- What the lexer reads. -/
def Grammar.read : Grammar := ⟨fun space => ∀ char ∈ space, Json.space char = true, bodyOf Item.IsRead⟩

/-- The root of a text is an object or an array. -/
def Tree.isContainer : Tree → Bool
  | .scalar _ => false
  | _ => true

mutual

/-- The value that the parser makes of a tree; a container without an element is not read. -/
def Tree.read : Tree → Option Value
  | .scalar lexeme => lexeme.token.bind Token.value
  | .emptyArray _ => none
  | .array elements => elements.read.map .array
  | .emptyObject _ => none
  | .object members => members.read.map fun members =>
      .object (members.foldl (fun members member => Value.insert members member.1 member.2) [])

def Elements.read : Elements → Option (List Value)
  | .last _ value _ => do pure [← value.read]
  | .more _ value _ rest => do pure ((← value.read) :: (← rest.read))

/-- The members in the order of the text. -/
def Members.read : Members → Option (List (Text × Value))
  | .last _ key _ _ value _ => do pure [(← Lexeme.key key, ← value.read)]
  | .more _ key _ _ value _ rest => do pure ((← Lexeme.key key, ← value.read) :: (← rest.read))

end

end SimpleNFast.Json
