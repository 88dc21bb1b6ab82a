/-
This file models `config` of `config.h` and `config.cpp` over the bytes of its file, and states the map that the format
of the file describes.
-/

import Mathlib.Data.Finmap
import Mathlib.Data.List.DropRight
import SimpleNFast.Construction.Text

namespace SimpleNFast

/-- A `std::map` has distinct keys and forgets the order of the insertions. -/
abbrev KvMap := Finmap fun _ : Text => Text

/-- The function `std::map::insert` keeps the value of a key that it finds. -/
def KvMap.add (map : KvMap) (key value : Text) : KvMap := if key ∈ map then map else map.insert key value

/-- These are the bits of a stream that a reading sets. -/
structure StreamState where
  eof : Bool
  fail : Bool
  deriving DecidableEq, Repr

/-- This is `std::istream::getline` on a stream that throws for every bit; it yields the line and the rest. -/
def getline (size : Nat) (stream : Text) : Except StreamState (Text × Text) :=
  let buf := (stream.takeWhile (· != byte '\n')).take (size - 1)
  match stream.drop buf.length with
  | [] => .error ⟨true, buf.isEmpty⟩
  | char :: rest => if char = byte '\n' then .ok (buf, rest) else .error ⟨false, true⟩

theorem getline_shorter {size : Nat} {stream buf rest : Text} (found : getline size stream = .ok (buf, rest)) :
    rest.length < stream.length := by
  simp only [getline] at found
  split at found
  · cases found
  · next char tail drops =>
    split at found
    · cases found
      have shorter := congrArg List.length drops
      simp only [List.length_drop, List.length_cons] at shorter
      omega
    · cases found

namespace Config

def isBlank (char : UInt8) : Bool := isSpace (toInt char)

/-- A key ends before the first sign or space. -/
def isKey (char : UInt8) : Bool := char != byte '=' && !isBlank char

/-- The loop steps back over the trailing spaces of a buffer. -/
def trimmed (buf : Text) : Nat → Nat
  | 0 => 0
  | i + 1 => if isBlank (buf.getD i 0) then trimmed buf i else i + 1

/-- The body of the loop of `read`; a pointer is the string that it points to. -/
def scanLine (kvmap : KvMap) (buf : Text) : KvMap :=
  let buf := buf.takeWhile (· != 0)
  let buf := buf.take (trimmed buf buf.length)
  let ptr := buf.dropWhile isBlank
  if ptr = [] ∨ ptr.head? = some (byte '#') then kvmap
  else
    let key := ptr.takeWhile isKey
    if key = [] then kvmap
    else
      let ptr := (ptr.dropWhile isKey).dropWhile isBlank
      let ptr := if ptr.head? = some (byte '=') then ptr.tail else ptr
      let ptr := ptr.dropWhile isBlank
      kvmap.add key (if ptr = [] then text "true" else ptr)

/-- The loop of `read` goes on until the stream throws. -/
def readLines (kvmap : KvMap) (stream : Text) : KvMap × StreamState :=
  match _found : getline 8192 stream with
  | .error state => (kvmap, state)
  | .ok (buf, rest) => readLines (scanLine kvmap buf) rest
  termination_by stream.length
  decreasing_by exact getline_shorter ‹_›

/-- The function `read` catches the failure at the end of the file and throws the others again. -/
def read (contents : Text) : Except StreamState KvMap :=
  let (kvmap, state) := readLines ∅ contents
  if state.eof then .ok kvmap else .error state

/-- The value `none` is the null pointer. -/
def get (kvmap : KvMap) (key : Text) : Option Text := kvmap.lookup key

def getOr (kvmap : KvMap) (key default : Text) : Text := (kvmap.lookup key).getD default

/-- The text between its leading and its trailing blanks. -/
def trim (string : Text) : Text := (string.dropWhile isBlank).rdropWhile isBlank

/-- The key and the value that the format gives to a line that is neither blank nor a comment. -/
def entry (line : Text) : Option (Text × Text) :=
  let shown := line.dropWhile isBlank
  if shown = [] ∨ shown.head? = some (byte '#') then none
  else
    let rest := trim (shown.dropWhile isKey)
    let value := trim (if rest.head? = some (byte '=') then rest.tail else rest)
    some (shown.takeWhile isKey, if value = [] then text "true" else value)

/-- The lines of a file; the last one is the text behind the last newline. -/
def lines (file : Text) : List Text := file.splitOn (byte '\n')

/-- The map that the format describes takes the first entry of a key. -/
def described (file : Text) (key : Text) : Option Text := ((lines file).filterMap entry).lookup key

/-- A text file has short lines without a null byte. -/
def Readable (file : Text) : Prop := ∀ line ∈ lines file, line.length < 8191 ∧ 0 ∉ line

instance (file : Text) : Decidable (Readable file) :=
  inferInstanceAs (Decidable (∀ line ∈ lines file, line.length < 8191 ∧ 0 ∉ line))

/-- The text behind the last newline gives a value to a key that no line before it has. -/
def LosesLast (file : Text) : Prop :=
  ∃ last ∈ (lines file).getLast?, ∃ key value, entry last = some (key, value) ∧ key ≠ [] ∧
    ∀ line ∈ (lines file).dropLast, ∀ other, entry line ≠ some (key, other)

/-- Two files show the same lines if they differ in the last newline, in trailing blanks and in blank lines only. -/
def SameLines (first second : Text) : Prop :=
  ((lines first).map (List.rdropWhile isBlank)).filter (· ≠ []) =
    ((lines second).map (List.rdropWhile isBlank)).filter (· ≠ [])

end Config

end SimpleNFast
