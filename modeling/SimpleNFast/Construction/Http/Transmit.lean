/-
This file models the sending side of `transmit.cpp`, and states the chunked transfer coding of RFC 7230.
-/

import SimpleNFast.Construction.Http.Body
import SimpleNFast.Construction.Rdb.DbStruct

namespace SimpleNFast.Http

open Rdb (Code)

/-- A write takes all bytes, only some of them, or fails. -/
inductive WriteOutcome where
  | complete
  | short (count : Nat)
  | failed (error : SysError)
  deriving DecidableEq, Repr

/-- The writing side of a connection; the writes after the listed ones are complete. -/
structure Wire where
  written : Text
  outcomes : List WriteOutcome
  deriving DecidableEq, Repr

/-- This is `nio::write` through `socket::writen`. -/
def Wire.write (wire : Wire) (data : Text) (toWrite : Int) : Except SysError Nat × Wire :=
  if toWrite ≤ 0 then (.error .none, wire)
  else
    match wire.outcomes.headD .complete with
    | .complete =>
        (.ok (data.take toWrite.toNat).length,
          ⟨wire.written ++ data.take toWrite.toNat, wire.outcomes.tail⟩)
    | .short count =>
        (.ok (data.take (min count toWrite.toNat)).length,
          ⟨wire.written ++ data.take (min count toWrite.toNat), wire.outcomes.tail⟩)
    | .failed error => (.error error, { wire with outcomes := wire.outcomes.tail })

/-- Sending can throw and keeps what was written; the value `none` is a loop that still runs. -/
abbrev Send := ExceptT Fault (StateT Wire Option)

/-- A member function of a body throws through the sender. -/
def Send.ofExcept {value : Type} (result : Except Fault value) : Send value := fun wire => some (result, wire)

/-- A loop without fuel has not ended yet. -/
def Send.running {value : Type} : Send value := fun _ => none

def sendData (data : Text) (what : String) : Send Code := fun wire =>
  match wire.write data (castInt data.length) with
  | (.error error, wire) => some (.error (error.fault (text what)), wire)
  | (.ok count, wire) => some (.ok (if castInt data.length ≠ count then .E_write_failed else .E_ok), wire)

/-- The text before a chunk has its size and its extensions. -/
def chunkHeader (size : Nat) (extensions : Params) : Text :=
  digits 16 size ++ extensions.flatMap fun (name, value) => text ";" ++ name ++ text "=" ++ value

/-- The writes of one pass of the loop; the size and the data have nothing between them. -/
def sendPiece (chunked : Bool) (extensions : Params) (data : Text) : Send Code := do
  if chunked then
    let code ← sendData (chunkHeader data.length extensions) "failed to send chunk size"
    if code ≠ .E_ok then return code
  let code ← sendData data (if chunked then "failed to send chunk" else "failed to send body")
  if code ≠ .E_ok then return code
  if chunked then sendData (text "\r\n") "failed to send chunk terminator" else pure .E_ok

/-- The loop over the pieces keeps the number of bytes that are missing. -/
def sendPieces (chunked : Bool) : Nat → Body → Int → Send (Code × Int)
  | 0, _, _ => Send.running
  | fuel + 1, body, missing => do
      let (more, body) ← Send.ofExcept body.hasNext
      if more then
        let extensions := body.chunkExtensions
        let (data, body) ← Send.ofExcept body.next
        let code ← sendPiece chunked extensions data
        if code ≠ .E_ok then return (code, missing)
        sendPieces chunked fuel body (if chunked then missing else missing - data.length)
      else return (.E_ok, missing)

def sendBody (fuel : Nat) (body : Body) : Send Code := do
  let (code, missing) ← sendPieces body.chunked fuel body body.length
  if code ≠ .E_ok then return code
  if body.chunked then sendData (text "0\r\n\r\n") "failed to send last chunk"
  else if missing ≠ 0 then return .E_write_failed
  else return .E_ok

def crlf : Text := text "\r\n"

/-- A sender writes a chunk with its size line, its data and two terminators. -/
def encodeChunk (data : Text) (extensions : Params) : Text :=
  digits 16 data.length ++
    (extensions.flatMap fun (name, value) => text ";" ++ name ++ text "=" ++ value) ++ crlf ++ data ++ crlf

/-- The encoded body ends with the last chunk and an empty trailer. -/
def encodeChunks (chunks : List Produced) : Text :=
  (chunks.flatMap fun chunk => encodeChunk chunk.data chunk.extensions) ++ text "0" ++ crlf ++ crlf

/-- A character of a quoted string stands for itself or follows a backslash. -/
inductive QuotedChar where
  | plain (char : UInt8)
  | pair (char : UInt8)
  deriving DecidableEq, Repr

namespace QuotedChar

/-- The bytes from 128 on are the obsolete text of the grammar. -/
def obsolete (char : UInt8) : Bool := 128 ≤ char

def valid : QuotedChar → Bool
  | .plain char => obsolete char || isQuoted (toInt char)
  | .pair char => obsolete char || isEscaped (toInt char)

def ascii : QuotedChar → Bool
  | .plain char | .pair char => !obsolete char

def spelling : QuotedChar → Text
  | .plain char => [char]
  | .pair char => [byte '\\', char]

end QuotedChar

/-- The value of a chunk extension is a token or a quoted string. -/
inductive ExtensionValue where
  | token (word : Text)
  | quoted (chars : List QuotedChar)
  deriving DecidableEq, Repr

/-- A token is a nonempty word of token characters. -/
def isWord (word : Text) : Bool := !word.isEmpty && word.all fun char => isTchar (toInt char)

namespace ExtensionValue

def valid : ExtensionValue → Bool
  | .token word => isWord word
  | .quoted chars => chars.all QuotedChar.valid

def spelling : ExtensionValue → Text
  | .token word => word
  | .quoted chars => [byte '"'] ++ chars.flatMap QuotedChar.spelling ++ [byte '"']

/-- The value has no byte of obsolete text. -/
def ascii : ExtensionValue → Bool
  | .token _ => true
  | .quoted chars => chars.all QuotedChar.ascii

end ExtensionValue

/-- A chunk extension has a name and, where it is given, a value. -/
structure Extension where
  name : Text
  value : Option ExtensionValue
  word : isWord name = true
  valid : value.all ExtensionValue.valid = true

namespace Extension

def spelling (extension : Extension) : Text :=
  byte ';' :: extension.name ++
    match extension.value with
    | none => []
    | some value => byte '=' :: value.spelling

/-- The extension has a value without obsolete text. -/
def plain (extension : Extension) : Bool := extension.value.any ExtensionValue.ascii

end Extension

/-- The line before a chunk has hexadecimal digits and extensions. -/
structure SizeLine where
  size : Text
  extensions : List Extension
  nonempty : size ≠ []
  hexadecimal : ∀ char ∈ size, isXdigit (toInt char) = true

namespace SizeLine

def count (line : SizeLine) : Nat := number 16 line.size

def spelling (line : SizeLine) : Text :=
  line.size ++ line.extensions.flatMap Extension.spelling ++ crlf

def plain (line : SizeLine) : Bool := line.extensions.all Extension.plain

end SizeLine

/-- The lines of a chunked body: one for each chunk and the one of the last chunk. -/
structure ChunkedLayout where
  lines : List SizeLine
  last : SizeLine
  sized : ∀ line ∈ lines, 0 < line.count ∧ line.count < 2 ^ 63
  zero : last.count = 0

namespace ChunkedLayout

/-- Each chunk has the data that its line announces. -/
def Fits (layout : ChunkedLayout) (data : List Text) : Prop :=
  List.Forall₂ (fun line chunk => line.count = chunk.length) layout.lines data

/-- The chunks as they stand in the message. -/
def chunks : List SizeLine → List Text → Text
  | line :: lines, chunk :: data => line.spelling ++ chunk ++ crlf ++ chunks lines data
  | _, _ => []

/-- The whole body with an empty trailer. -/
def spelling (layout : ChunkedLayout) (data : List Text) : Text :=
  chunks layout.lines data ++ layout.last.spelling ++ crlf

/-- The body from a socket yields the data and leaves the connection after the body. -/
def SocketRecovers (layout : ChunkedLayout) (data : List Text) (rest : Text) (ending : Ending) : Prop :=
  ∃ last : StreamSource Nio,
    Drains (Body.fromSocket ⟨layout.spelling data ++ rest, ending⟩) data.flatten (.socket last) ∧
      last.input = ⟨rest, ending⟩

/-- The body from a stream yields the data and leaves the stream after the body. -/
def IstreamRecovers (layout : ChunkedLayout) (data : List Text) (rest : Text) : Prop :=
  ∃ last : StreamSource IStream,
    Drains (Body.fromIstream ⟨layout.spelling data ++ rest, false⟩) data.flatten (.istream last) ∧
      last.input = ⟨rest, false⟩

end ChunkedLayout

end SimpleNFast.Http
