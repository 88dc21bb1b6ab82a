/-
This file states what the texts are that the parser accepts, which of them are JSON texts, which exceptions the comment
of `from_string` names, and where the parser meets a number out of range.
-/

import SimpleNFast.Construction.Json.Grammar

namespace SimpleNFast.Json

/-- A JSON text of a grammar has one object or array with white space around it. -/
structure Document (grammar : Grammar) where
  before : Text
  root : Tree
  after : Text
  container : root.isContainer = true
  spaceBefore : grammar.space before
  within : root.Within grammar
  spaceAfter : grammar.space after

namespace Document

variable {grammar : Grammar}

def text (document : Document grammar) : Text := document.before ++ (document.root.text ++ document.after)

/-- The text up to the closing bracket. -/
def untilClosed (document : Document grammar) : Text := document.before ++ document.root.text

end Document

def IsDocument (string : Text) : Prop := ∃ document : Document .rfc, document.text = string

def Accepted (string : Text) : Prop := ∃ value, fromString string = .ok value

/-- The lexer finds no token before the end of the input. -/
def Ends (string : Text) : Prop := ∃ lexer, Lexer.get (Lexer.init string) = (.ok .eof, lexer)

/-- The elements of an array up to the end of the input. -/
inductive CutElements where
  | stop (tail : Text)
  | more (before : Text) (value : Tree) (after : Text) (rest : CutElements)

/-- The members of an object up to the end of the input. -/
inductive CutMembers where
  | stop (tail : Text)
  | more (before key afterKey beforeValue : Text) (value : Tree) (after : Text) (rest : CutMembers)

namespace CutElements

def text : CutElements → Text
  | .stop tail => tail
  | .more before value after rest => before ++ value.text ++ after ++ byte ',' :: rest.text

def IsRead : CutElements → Prop
  | .stop tail => Ends tail
  | .more before value after rest =>
      (Grammar.read.space before ∧ value.Within .read ∧ Grammar.read.space after) ∧ value.read.isSome = true ∧
        rest.IsRead

/-- The elements before the end of the input. -/
def read : CutElements → Option (List Value)
  | .stop _ => some []
  | .more _ value _ rest => do pure ((← value.read) :: (← rest.read))

end CutElements

namespace CutMembers

def text : CutMembers → Text
  | .stop tail => tail
  | .more before key afterKey beforeValue value after rest =>
      memberHead before key afterKey beforeValue ++ value.text ++ after ++ byte ',' :: rest.text

def IsRead : CutMembers → Prop
  | .stop tail => Ends tail
  | .more before key afterKey beforeValue value after rest =>
      (HeadWithin .read before key afterKey beforeValue ∧ value.Within .read ∧ Grammar.read.space after) ∧
        ((Lexeme.key key).isSome = true ∧ value.read.isSome = true) ∧ rest.IsRead

def read : CutMembers → Option (List (Text × Value))
  | .stop _ => some []
  | .more _ key _ _ value _ rest => do pure ((← Lexeme.key key, ← value.read) :: (← rest.read))

end CutMembers

/-- The texts that the parser accepts: anything may stand after the root, and the end may close it. -/
inductive Reading where
  | closed (before : Text) (root : Tree) (after : Text)
  | cutArray (before : Text) (elements : CutElements)
  | cutObject (before : Text) (members : CutMembers)

namespace Reading

def text : Reading → Text
  | .closed before root after => before ++ (root.text ++ after)
  | .cutArray before elements => before ++ byte '[' :: elements.text
  | .cutObject before members => before ++ byte '\x7b' :: members.text

def IsRead : Reading → Prop
  | .closed before root _ =>
      Grammar.read.space before ∧ root.isContainer = true ∧ root.Within .read ∧ root.read.isSome = true
  | .cutArray before elements => Grammar.read.space before ∧ elements.IsRead
  | .cutObject before members => Grammar.read.space before ∧ members.IsRead

/-- The value that the parser makes of a text. -/
def read : Reading → Option Value
  | .closed _ root _ => root.read
  | .cutArray _ elements => elements.read.map .array
  | .cutObject _ members => members.read.map fun members =>
      .object (members.foldl (fun members member => Value.insert members member.1 member.2) [])

/-- The root is closed, only white space is around it, and everything in it is of the grammar. -/
def Flawless : Reading → Prop
  | .closed before root after => Grammar.rfc.space before ∧ root.Within .rfc ∧ Grammar.rfc.space after
  | .cutArray _ _ => False
  | .cutObject _ _ => False

end Reading

/-- The text is a JSON text if it is accepted, and if it is a part of one it is rejected with an exception. -/
def Sound (string : Text) : Prop :=
  (Accepted string → IsDocument string) ∧
    ∀ document : Document .rfc, ∀ rest ≠ [], document.untilClosed = string ++ rest →
      ∃ fault, fault ≠ Fault.running ∧ fromString string = .error fault

mutual

/-- All lexemes and all keys have a property, and a container may be empty if `empty` says so. -/
def Tree.All (lexeme : Lexeme → Prop) (key : Text → Prop) (empty : Prop) : Tree → Prop
  | .scalar token => lexeme token
  | .emptyArray _ => empty
  | .array elements => elements.All lexeme key empty
  | .emptyObject _ => empty
  | .object members => members.All lexeme key empty

def Elements.All (lexeme : Lexeme → Prop) (key : Text → Prop) (empty : Prop) : Elements → Prop
  | .last _ value _ => value.All lexeme key empty
  | .more _ value _ rest => value.All lexeme key empty ∧ rest.All lexeme key empty

def Members.All (lexeme : Lexeme → Prop) (key : Text → Prop) (empty : Prop) : Members → Prop
  | .last _ name _ _ value _ => key name ∧ value.All lexeme key empty
  | .more _ name _ _ value _ rest => (key name ∧ value.All lexeme key empty) ∧ rest.All lexeme key empty

end

def Exponent.value (exponent : Exponent) : Int :=
  if exponent.sign = [byte '-'] then -(number 10 exponent.digits : Int) else number 10 exponent.digits

namespace Number

/-- The integer that the digits before the point denote. -/
def integer (numeral : Number) : Int :=
  if numeral.negative then -(number 10 numeral.whole : Int) else number 10 numeral.whole

/-- The number that a numeral denotes, without its sign. -/
def magnitude (numeral : Number) : ℚ :=
  (number 10 (numeral.whole ++ numeral.fraction) : ℚ) *
    10 ^ ((numeral.exponent.map Exponent.value).getD 0 - numeral.fraction.length)

/-- An integer has 64 bits, and another number is zero or between the least and the greatest `double`. -/
def InRange (numeral : Number) : Prop :=
  if numeral.isInteger then -2 ^ 63 ≤ numeral.integer ∧ numeral.integer < 2 ^ 63
  else numeral.magnitude = 0 ∨ (1 / 2 ^ 1074 ≤ numeral.magnitude ∧ numeral.magnitude < 2 ^ 1024)

end Number

def Lexeme.InRange : Lexeme → Prop
  | .number numeral => numeral.InRange
  | _ => True

/-- A JSON text with valid UTF-16 in its escapes and with numbers that fit. -/
structure FittingText where
  document : Document .utf16
  inRange : document.root.All Lexeme.InRange (fun _ => True) True

/-- The numbers that the lexer reads, and the strings whose content can be unescaped once more. -/
def Lexeme.Readable : Lexeme → Prop
  | .number numeral => numeral.IsRead
  | .string body => Lexeme.string? body ≠ none
  | _ => True

/-- There is no empty container, and the content of a key can be unescaped twice more. -/
def Tree.Readable (tree : Tree) : Prop :=
  tree.All Lexeme.Readable (fun key => Lexeme.key key ≠ none) False

/-- The exceptions that the comment names. -/
def Fault.IsDocumented : Fault → Prop
  | .parsingError _ _ _ => True
  | .invalidArgument _ => True
  | .failure => True
  | _ => False

namespace Number

/-- The lexer converts the number, but its type does not hold it. -/
def Overflows (numeral : Number) : Prop :=
  numeral.IsRead ∧
    if numeral.isInteger then ¬ (-2 ^ 63 ≤ numeral.integer ∧ numeral.integer < 2 ^ 63)
    else Double.toLongDouble numeral.magnitude = none

/-- A character that does not go on with the number before it. -/
def EndsAt (numeral : Number) (char : UInt8) : Prop :=
  digit char = false ∧
    (numeral.exponent = none → char ≠ byte 'e' ∧ char ≠ byte 'E' ∧ (numeral.fraction = [] → char ≠ byte '.'))

end Number

/-- A word or a number ends before another character, and that of a number does not go on with it. -/
def Lexeme.EndsBefore (rest : Text) : Lexeme → Prop
  | .number numeral => ∃ char tail, rest = char :: tail ∧ numeral.EndsAt char
  | .string _ => True
  | _ => rest ≠ []

def Tree.EndsBefore (rest : Text) : Tree → Prop
  | .scalar lexeme => lexeme.EndsBefore rest
  | _ => True

/-- White space and a number out of range come next. -/
def OverNumber (string : Text) : Prop :=
  ∃ before numeral rest, Grammar.read.space before ∧ numeral.Overflows ∧ (Lexeme.number numeral).EndsBefore rest ∧
    string = before ++ (numeral.text ++ rest)

/-- The parser reads this value where the rest of the text comes after it. -/
structure Tree.IsRead (tree : Tree) (rest : Text) : Prop where
  within : tree.Within .read
  isSome : tree.read.isSome = true
  ends : tree.EndsBefore rest

/-- The parser begins to read a value, an element of an array or a member of an object. -/
inductive Place where
  | value
  | element
  | member

/-- The parser meets a number out of range, wherever it asks for a token. -/
inductive MeetsOverflow : Place → Text → Prop where
  | number {string : Text} : OverNumber string → MeetsOverflow .value string
  | array {before string : Text} : Grammar.read.space before → MeetsOverflow .element string →
      MeetsOverflow .value (before ++ byte '[' :: string)
  | object {before string : Text} : Grammar.read.space before → MeetsOverflow .member string →
      MeetsOverflow .value (before ++ byte '\x7b' :: string)
  | element {string : Text} : MeetsOverflow .value string → MeetsOverflow .element string
  | afterElement {before string : Text} {tree : Tree} : Grammar.read.space before → tree.IsRead string →
      OverNumber string → MeetsOverflow .element (before ++ (tree.text ++ string))
  | nextElement {before after string : Text} {tree : Tree} : Grammar.read.space before →
      tree.IsRead (after ++ byte ',' :: string) → Grammar.read.space after → MeetsOverflow .element string →
      MeetsOverflow .element (before ++ (tree.text ++ (after ++ byte ',' :: string)))
  | key {string : Text} : OverNumber string → MeetsOverflow .member string
  | afterKey {before body string : Text} : Grammar.read.space before → bodyOf Item.IsRead body →
      (Lexeme.string? body).isSome = true → OverNumber string →
      MeetsOverflow .member (before ++ (Lexeme.quoted body ++ string))
  | member {before body afterKey string : Text} : Grammar.read.space before → bodyOf Item.IsRead body →
      (Lexeme.string? body).isSome = true → Grammar.read.space afterKey → MeetsOverflow .value string →
      MeetsOverflow .member (before ++ (Lexeme.quoted body ++ (afterKey ++ byte ':' :: string)))
  | afterMember {before key afterKey beforeValue string : Text} {tree : Tree} :
      HeadWithin .read before key afterKey beforeValue → (Lexeme.key key).isSome = true → tree.IsRead string →
      OverNumber string →
      MeetsOverflow .member (memberHead before key afterKey beforeValue ++ (tree.text ++ string))
  | nextMember {before key afterKey beforeValue after string : Text} {tree : Tree} :
      HeadWithin .read before key afterKey beforeValue → (Lexeme.key key).isSome = true →
      tree.IsRead (after ++ byte ',' :: string) → Grammar.read.space after → MeetsOverflow .member string →
      MeetsOverflow .member
        (memberHead before key afterKey beforeValue ++ (tree.text ++ (after ++ byte ',' :: string)))

end SimpleNFast.Json
