/-
This file models the command line parser of `clap.h` and `clap.cpp` without the texts that it prints, over a type of
real numbers and the function `std::stod`, and states the command lines that an option list describes.
-/

import SimpleNFast.Construction.Text

namespace SimpleNFast

/-- These are the exceptions of the standard library that the parser lets through. -/
inductive Thrown where
  | invalidArgument
  | outOfRange
  | logicError
  deriving DecidableEq, Repr

/-- This is `snf::streq` without regard to case. -/
def streq (first second : Text) : Bool :=
  first.length == second.length && first.map (toUpper ∘ toInt) == second.map (toUpper ∘ toInt)

/-- The integer that begins a text in the notation of the literals of C, and the text behind it. -/
def readInteger (string : Text) : Option (Int × Text) :=
  let rest := string.dropWhile (isSpace ∘ toInt)
  let negative := rest.head? == some (byte '-')
  let unsigned := if negative || rest.head? == some (byte '+') then rest.drop 1 else rest
  let isHex := unsigned.head? == some (byte '0') &&
    (unsigned.drop 1).head?.any (fun char => toLower (toInt char) == code 'x') &&
    (unsigned.drop 2).head?.any (isXdigit ∘ toInt)
  let base := if isHex then 16 else if unsigned.head? == some (byte '0') then 8 else 10
  let isDigitOf (char : UInt8) : Bool := isXdigit (toInt char) && decide (digitValue (toInt char) < base)
  let body := if isHex then unsigned.drop 2 else unsigned
  let found := body.takeWhile isDigitOf
  if found.isEmpty then none
  else some (if negative then -number base found else number base found, body.dropWhile isDigitOf)

/-- This is `std::stoll` with the base zero and without a position. -/
def stollAny (string : Text) : Except Thrown Int :=
  match readInteger string with
  | none => .error .invalidArgument
  | some (value, _) => if value < -2 ^ 63 ∨ 2 ^ 63 ≤ value then .error .outOfRange else .ok value

inductive ClOptType where
  | none
  | bool
  | int
  | real
  | string
  | sequence
  deriving DecidableEq, Repr

/-- The variant of the arguments begins with `std::monostate`. -/
inductive ClOptArg (Double : Type) where
  | monostate
  | bool (value : Bool)
  | int (value : Int)
  | real (value : Double)
  | string (value : Text)
  | sequence (value : List Text)
  deriving DecidableEq, Repr

structure ClOpt (Double : Type) where
  name : Text
  longname : Text
  desc : Text
  required : Bool
  type : ClOptType
  arg : ClOptArg Double
  deriving DecidableEq, Repr

structure Command (Double : Type) where
  name : Text
  desc : Text
  options : List (ClOpt Double)
  subcmds : List (Command Double)
  found : Bool

section Parser

variable {Double : Type} (stod : Text → Except Thrown Double) (argv : List Text)

namespace ClOpt

/-- The constructor gives an option no argument. -/
def new (name longname desc : Text) (required : Bool) (type : ClOptType) : ClOpt Double :=
  ⟨name, longname, desc, required, type, .monostate⟩

def found (opt : ClOpt Double) : Bool :=
  match opt.arg with
  | .monostate => false
  | _ => true

def names (opt : ClOpt Double) (token : Text) : Bool := streq opt.name token || streq opt.longname token

end ClOpt

def dashed (token : Text) : Bool := token.head? == some (byte '-')

/-- The loop over the stream of a sequence goes on until the stream has ended. -/
def splitSequence (stream : Text) : List Text :=
  let part := stream.takeWhile (· != byte ',')
  match _behind : stream.dropWhile (· != byte ',') with
  | [] => if part.isEmpty then [] else [part]
  | _ :: rest =>
      let parts := splitSequence rest
      if part.isEmpty then parts else part :: parts
  termination_by stream.length
  decreasing_by
    have shorter := congrArg List.length ‹stream.dropWhile _ = _›
    have part := (List.dropWhile_suffix (l := stream) (· != byte ',')).length_le
    simp only [List.length_cons] at shorter
    omega

/-- The `switch` over the type yields the new index and the option, and `none` for a missing argument; the entry of
`argv` behind the last one is null. -/
def takeArg (opt : ClOpt Double) (idx : Nat) : Except Thrown (Option (Nat × ClOpt Double)) :=
  match opt.type, argv[idx + 1]? with
  | .bool, _ => .ok (some (idx, { opt with arg := .bool true }))
  | .int, some next => do
      let value ← stollAny next
      return some (idx + 1, { opt with arg := .int value })
  | .real, some next => do
      let value ← stod next
      return some (idx + 1, { opt with arg := .real value })
  | .string, some next => .ok (some (idx + 1, { opt with arg := .string next }))
  | .sequence, some next => .ok (some (idx + 1, { opt with arg := .sequence (splitSequence next) }))
  | .none, _ => .ok (some (idx, opt))
  | _, none => .ok none

/-- The loop over the declared options looks at the entry of `argv` where the options before have left the index. -/
def optionPass : List (ClOpt Double) → Nat → Except Thrown (Bool × Nat × List (ClOpt Double))
  | [], idx => .ok (true, idx, [])
  | opt :: options, idx =>
      if opt.names (argv[idx]?.getD []) then do
        match ← takeArg stod argv opt idx with
        | none => return (false, idx, opt :: options)
        | some (next, opt) =>
            let (parsed, idx, options) ← optionPass options next
            return (parsed, idx, opt :: options)
      else .ok (false, idx, opt :: options)

theorem takeArg_le {opt taken : ClOpt Double} {idx next : Nat}
    (takes : takeArg stod argv opt idx = .ok (some (next, taken))) : idx ≤ next := by
  unfold takeArg at takes
  split at takes
  · cases takes
    exact Nat.le_refl _
  · next argument _ _ =>
    cases value : stollAny argument <;> rw [value] at takes <;> cases takes
    omega
  · next argument _ _ =>
    cases value : stod argument <;> rw [value] at takes <;> cases takes
    omega
  · cases takes
    omega
  · cases takes
    omega
  · cases takes
    exact Nat.le_refl _
  · cases takes

theorem optionPass_le {options taken : List (ClOpt Double)} {idx next : Nat} {parsed : Bool}
    (passes : optionPass stod argv options idx = .ok (parsed, next, taken)) : idx ≤ next := by
  induction options generalizing idx next taken parsed with
  | nil =>
    cases passes
    exact Nat.le_refl _
  | cons opt options hypothesis =>
    rw [optionPass] at passes
    split at passes
    · cases takes : takeArg stod argv opt idx with
      | error => rw [takes] at passes; cases passes
      | ok result =>
        rw [takes] at passes
        cases result with
        | none =>
          cases passes
          exact Nat.le_refl _
        | some result =>
          have first := takeArg_le stod argv takes
          cases inner : optionPass stod argv options result.1 with
          | error => simp [bind, Except.bind, inner] at passes
          | ok others =>
            have second := hypothesis inner
            simp only [bind, Except.bind, inner, pure, Except.pure, Except.ok.injEq, Prod.mk.injEq] at passes
            omega
    · cases passes
      exact Nat.le_refl _

/-- The loop over `argv` stops at an entry without a dash. -/
def optionLoop (options : List (ClOpt Double)) (idx : Nat) : Except Thrown (Bool × Nat × List (ClOpt Double)) :=
  if _inside : idx < argv.length then
    if !dashed argv[idx] then .ok (true, idx, options)
    else if options.isEmpty then .ok (false, idx, options)
    else
      match _pass : optionPass stod argv options idx with
      | .error thrown => .error thrown
      | .ok (false, next, options) => .ok (false, next, options)
      | .ok (true, next, options) => optionLoop options (next + 1)
  else .ok (true, idx, options)
  termination_by argv.length - idx
  decreasing_by
    have later := optionPass_le stod argv ‹_›
    omega

def parseArgs (options : List (ClOpt Double)) (idx : Nat) : Except Thrown (Bool × Nat × List (ClOpt Double)) := do
  let (parsed, idx, options) ← optionLoop stod argv options idx
  return (parsed && options.all fun opt => !opt.required || opt.found, idx, options)

mutual

/-- The function `parse` stores what it finds in the command. -/
def Command.parse (idx : Nat) : Command Double → Except Thrown (Bool × Command Double)
  | ⟨name, desc, options, subcmds, found⟩ =>
      if idx + 1 = argv.length then
        .ok (subcmds.isEmpty && options.isEmpty, ⟨name, desc, options, subcmds, found⟩)
      else do
        let (parsed, idx, options) ←
          if dashed (argv[idx + 1]?.getD []) then parseArgs stod argv options (idx + 1)
          else pure (true, idx + 1, options)
        if !parsed then return (false, ⟨name, desc, options, subcmds, true⟩)
        if subcmds.isEmpty then return (true, ⟨name, desc, options, subcmds, true⟩)
        let (parsed, subcmds) ← parseSubcmds idx subcmds
        return (parsed, ⟨name, desc, options, subcmds, true⟩)

/-- The first sub-command with the name is parsed; a string cannot be made of the null pointer behind `argv`. -/
def parseSubcmds (idx : Nat) : List (Command Double) → Except Thrown (Bool × List (Command Double))
  | [] => .ok (false, [])
  | sc :: subcmds =>
      match argv[idx]? with
      | none => .error .logicError
      | some token =>
          if streq sc.name token then do
            let (parsed, sc) ← sc.parse idx
            return (parsed, sc :: subcmds)
          else do
            let (parsed, subcmds) ← parseSubcmds idx subcmds
            return (parsed, sc :: subcmds)

end

def clParse (cmd : Command Double) : Except Thrown (Bool × Command Double) := cmd.parse stod argv 0

end Parser

namespace Clap

variable {Double : Type}

/-- The sub-command that a path of names leads to. -/
def resolve : List Text → Command Double → Option (Command Double)
  | [], cmd => some cmd
  | token :: path, cmd => (cmd.subcmds.find? fun sc => streq sc.name token).bind (resolve path)

/-- The words behind an option that give it an argument of its type. -/
inductive Denotes : ClOptType → List Text → ClOptArg Double → Prop
  | bool : Denotes .bool [] (.bool true)
  | int {word : Text} {value : Int} (reads : readInteger word = some (value, [])) (lower : -2 ^ 63 ≤ value)
      (upper : value < 2 ^ 63) : Denotes .int [word] (.int value)
  | string (word : Text) : Denotes .string [word] (.string word)
  | sequence (word : Text) :
      Denotes .sequence [word] (.sequence ((word.splitOn (byte ',')).filter (· ≠ [])))

/-- An option on a command line has one of its two names and well-formed words behind it. -/
structure Written (Double : Type) where
  opt : ClOpt Double
  token : Text
  words : List Text
  arg : ClOptArg Double
  named : opt.names token = true
  denotes : Denotes opt.type words arg

/-- The words of a list of written options. -/
def line (written : List (Written Double)) : List Text := written.flatMap fun each => each.token :: each.words

/-- The options are declared with one of the four types and with names that differ in more than case. -/
structure Declared (options : List (ClOpt Double)) : Prop where
  fresh : ∀ opt ∈ options, opt.arg = .monostate
  typed : ∀ opt ∈ options, opt.type = .bool ∨ opt.type = .int ∨ opt.type = .string ∨ opt.type = .sequence
  distinct : (options.flatMap fun opt => [opt.name, opt.longname]).Pairwise fun first second => !streq first second

/-- The options of a line are declared, and no one of them is written twice. -/
structure Fits (options : List (ClOpt Double)) (written : List (Written Double)) : Prop where
  declared : ∀ each ∈ written, each.opt ∈ options
  single : (written.map Written.opt).Nodup

def Complete (options : List (ClOpt Double)) (written : List (Written Double)) : Prop :=
  ∀ opt ∈ options, opt.required = true → ∃ each ∈ written, each.opt = opt

/-- A line is faulty if it has an undeclared option, or lacks an argument or a required option. -/
inductive Faulty (options : List (ClOpt Double)) : List Text → Prop
  | undeclared {written : List (Written Double)} (fits : Fits options written) {token : Text}
      (isOption : dashed token = true) (unknown : ∀ opt ∈ options, opt.names token = false) (rest : List Text) :
      Faulty options (line written ++ token :: rest)
  | missing {written : List (Written Double)} (fits : Fits options written) {opt : ClOpt Double}
      (declared : opt ∈ options) (valued : opt.type ≠ .bool) {token : Text} (named : opt.names token = true) :
      Faulty options (line written ++ [token])
  | incomplete {written : List (Written Double)} (fits : Fits options written)
      (lacks : ¬ Complete options written) : Faulty options (line written)

/-- An option has the argument that the line gives it, and none if it is not written. -/
def Assigned (written : List (Written Double)) (opt final : ClOpt Double) : Prop :=
  (∃ each ∈ written, each.opt = opt ∧ final = { opt with arg := each.arg }) ∨
    (∀ each ∈ written, each.opt ≠ opt) ∧ final = opt

/-- The parser accepts every complete line with its assignments in every order, and it rejects every faulty line; the
options belong to the command at the end of the path. -/
def Meets (stod : Text → Except Thrown Double) (program : Text) (path : List Text) (root : Command Double)
    (options : List (ClOpt Double)) : Prop :=
  (∀ written, written ≠ [] → Fits options written → Complete options written →
    ∃ parsed final, clParse stod (program :: path ++ line written) root = .ok (true, parsed) ∧
      resolve path parsed = some final ∧ List.Forall₂ (Assigned written) options final.options) ∧
  ∀ words, Faulty options words → ∃ parsed, clParse stod (program :: path ++ words) root = .ok (false, parsed)

end Clap

end SimpleNFast
