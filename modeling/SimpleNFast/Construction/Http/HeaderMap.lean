/-
This file models the vector of `headers.h` with its value classes as the public calls change it: any value can be stored
under any name, and each value keeps the text that it was read from.
-/

import SimpleNFast.Construction.Http.Headers

namespace SimpleNFast.Http

/-- The classes of `hval.h` with their values. -/
inductive HeaderValue where
  | number (length : Nat)
  | tokens (codings : List Token)
  | strings (values : List Text)
  | encodings (codings : List Text)
  | connections (options : List Text)
  | vias (values : List Via)
  | hostPort (value : HostPort)
  | mediaType (value : MediaType)
  | uri (value : Uri)
  | date (value : DateTime)
  deriving DecidableEq, Repr

/-- A value with the text that it was read from; a value that was set has no text. -/
structure BaseValue where
  value : HeaderValue
  raw : Text
  deriving DecidableEq, Repr

namespace HeaderValue

def isSeq : HeaderValue → Bool
  | .tokens _ | .strings _ | .encodings _ | .connections _ | .vias _ => true
  | _ => false

def str : HeaderValue → Text
  | .number length => digits 10 length
  | .tokens codings => Field.listed (codings.map Token.str)
  | .strings values | .encodings values | .connections values => Field.listed values
  | .vias values => Field.listed (values.map Via.str)
  | .hostPort value => value.str
  | .mediaType value => value.str
  | .uri value => value.str
  | .date value => value.str

end HeaderValue

/-- The value of a field in its class. -/
def Field.content : Field → HeaderValue
  | .contentLength length => .number length
  | .transferEncoding codings | .te codings => .tokens codings
  | .trailers names => .strings names
  | .host value => .hostPort value
  | .via values => .vias values
  | .connection options => .connections options
  | .contentType value => .mediaType value
  | .contentEncoding codings => .encodings codings
  | .contentLocation value => .uri value
  | .date value => .date value
  | .other _ values _ => .strings values

namespace BaseValue

/-- The text of a second value comes after a comma. -/
def joinRaw (raw more : Text) : Text := (if raw.isEmpty then [] else raw ++ text ", ") ++ more

/-- This is `operator +=` of the sequence classes; a value of another class is not added. -/
def append : BaseValue → BaseValue → BaseValue
  | ⟨.encodings codings, raw⟩, ⟨.encodings more, text⟩ => ⟨.encodings (codings ++ more), joinRaw raw text⟩
  | ⟨.strings values, raw⟩, ⟨.strings more, text⟩ => ⟨.strings (values ++ more), joinRaw raw text⟩
  | ⟨.tokens codings, raw⟩, ⟨.tokens more, text⟩ => ⟨.tokens (codings ++ more), joinRaw raw text⟩
  | ⟨.vias values, raw⟩, ⟨.vias more, text⟩ => ⟨.vias (values ++ more), joinRaw raw text⟩
  | ⟨.connections options, raw⟩, ⟨.connections more, text⟩ => ⟨.connections (options ++ more), joinRaw raw text⟩
  | target, _ => target

/-- The value that the class of a name reads from a text. -/
def validate (name value : Text) : Except Fault BaseValue :=
  (fun field : Field => ⟨field.content, value⟩) <$> Field.validate name value

end BaseValue

/-- The vector of names and values; a value is a pointer, which may be null. -/
structure HeaderMap where
  entries : List (Text × Option BaseValue)
  deriving DecidableEq, Repr

namespace HeaderMap

def empty : HeaderMap := ⟨[]⟩

def find (map : HeaderMap) (name : Text) : Option (Option BaseValue) :=
  (map.entries.find? fun entry => entry.1 == name).map Prod.snd

/-- The first entry with a name gets the value. -/
def assign (name : Text) (value : Option BaseValue) : List (Text × Option BaseValue) → List (Text × Option BaseValue)
  | [] => []
  | (key, old) :: rest => if key == name then (key, value) :: rest else (key, old) :: assign name value rest

/-- The result of a call with the vector that it leaves. -/
abbrev Outcome := Except Fault Unit × HeaderMap

def multiple (name : Text) : Fault := .badMessage (text "header field (" ++ name ++ text ") occurs multiple times")

/-- This is `add` of a name and a value. -/
def add (map : HeaderMap) (name value : Text) : Outcome :=
  if name.isEmpty then (.ok (), map)
  else
    let key := Headers.lower name
    match BaseValue.validate key value with
    | .error fault => (.error fault, map)
    | .ok source =>
        match map.find key with
        | none => (.ok (), ⟨map.entries ++ [(key, some source)]⟩)
        | some target =>
            if source.value.isSeq && target.any fun target => target.value.isSeq then
              (.ok (), ⟨assign key (target.map fun target => target.append source) map.entries⟩)
            else (.error (multiple key), map)

/-- A value takes the place of the one that is found, or a new entry stands at the end. -/
def put (map : HeaderMap) (key name : Text) (value : Option BaseValue) : HeaderMap :=
  if (map.find key).isSome then ⟨assign key value map.entries⟩ else ⟨map.entries ++ [(name, value)]⟩

/-- This is `update` of a name and a value. -/
def update (map : HeaderMap) (name value : Text) : Outcome :=
  if name.isEmpty then (.ok (), map)
  else
    let key := Headers.lower name
    match BaseValue.validate key value with
    | .error fault => (.error fault, map)
    | .ok value => (.ok (), map.put key key (some value))

/-- This is `update` of a name and a pointer to a value; a new entry gets the name as it was given. -/
def updateValue (map : HeaderMap) (name : Text) (value : Option BaseValue) : Outcome :=
  if name.isEmpty then (.ok (), map) else (.ok (), map.put (Headers.lower name) name value)

def remove (map : HeaderMap) (name : Text) : Outcome :=
  if name.isEmpty then (.ok (), map)
  else (.ok (), ⟨map.entries.eraseP fun entry => entry.1 == Headers.lower name⟩)

def isSet (map : HeaderMap) (name : Text) : Bool := !name.isEmpty && (map.find (Headers.lower name)).isSome

def get (map : HeaderMap) (name : Text) : Except Fault (Option BaseValue) :=
  if name.isEmpty then .error (.outOfRange (text "header field name not specified"))
  else
    match map.find (Headers.lower name) with
    | some value => .ok value
    | none => .error (Headers.missing name)

end HeaderMap

/-- The public calls that change the headers. -/
inductive HeaderCall where
  | add (name value : Text)
  | update (name value : Text)
  | updateValue (name : Text) (value : Option BaseValue)
  | remove (name : Text)
  deriving DecidableEq, Repr

namespace HeaderCall

def name : HeaderCall → Text
  | .add name _ | .update name _ | .updateValue name _ | .remove name => name

def run (map : HeaderMap) : HeaderCall → HeaderMap.Outcome
  | .add name value => map.add name value
  | .update name value => map.update name value
  | .updateValue name value => map.updateValue name value
  | .remove name => map.remove name

end HeaderCall

namespace HeaderMap

/-- The names of an entry and of a call are equal when case is ignored. -/
def sameName (name : Text) (entry : Text × Option BaseValue) : Bool := Headers.lower entry.1 == Headers.lower name

/-- No two names are equal when case is ignored, and each entry is found under every casing of its name. -/
structure CaseInsensitive (map : HeaderMap) : Prop where
  distinct : (map.entries.map fun entry => Headers.lower entry.1).Nodup
  found : ∀ entry ∈ map.entries, ∀ name, sameName name entry = true → map.isSet name = true ∧ map.get name = .ok entry.2
  missing : ∀ name, (∀ entry ∈ map.entries, sameName name entry = false) →
    map.isSet name = false ∧ ∃ fault, map.get name = .error fault

/-- A call changes the entry of its name only, and nothing when it throws; an update puts its value there, and a removal
leaves nothing there. -/
structure Exact (map : HeaderMap) (call : HeaderCall) : Prop where
  others : (call.run map).2.entries.filter (!sameName call.name ·) = map.entries.filter (!sameName call.name ·)
  thrown : ∀ fault, (call.run map).1 = .error fault → (call.run map).2 = map
  updated : ∀ name value stored, call = .update name value → name ≠ [] →
    BaseValue.validate (Headers.lower name) value = .ok stored →
      ((call.run map).2.entries.filter (sameName name)).map Prod.snd = [some stored]
  replaced : ∀ name value, call = .updateValue name value → name ≠ [] →
    ((call.run map).2.entries.filter (sameName name)).map Prod.snd = [value]
  removed : ∀ name, call = .remove name → name ≠ [] → (call.run map).2.entries.filter (sameName name) = []

/-- A value is set under a new name only in lower case. -/
def Meant (map : HeaderMap) : HeaderCall → Prop
  | .updateValue name _ => Headers.lower name = name ∨ (map.find (Headers.lower name)).isSome
  | _ => True

/-- The vectors of the runs whose calls meet a condition; a call that throws ends nothing. -/
inductive Run (meant : HeaderMap → HeaderCall → Prop) : HeaderMap → Prop where
  | empty : Run meant empty
  | call {map : HeaderMap} (before : Run meant map) {call : HeaderCall} (fine : meant map call) :
      Run meant (call.run map).2

end HeaderMap

end SimpleNFast.Http
