import SimpleNFast.Proof.Http.ChunkedDecoding
import SimpleNFast.Proof.Http.Framing
import SimpleNFast.Proof.Http.LowerCase
import SimpleNFast.Proof.Http.UriHosts

set_option maxRecDepth 100000

namespace SimpleNFast.Http

open Scanner

theorem IStream.readline_line {line : Text} (rest : Text) (inner : byte '\n' ∉ line) :
    IStream.readline ⟨line ++ byte '\n' :: rest, false⟩ = (some (line ++ [byte '\n']), ⟨rest, false⟩) := by
  have read := IStream.readlineLoop_line rest inner ((line ++ byte '\n' :: rest).length + 1) (by simp)
  rw [IStream.readline, read]
  rfl

namespace Field

theorem append_name {target field joined : Field} (appended : target.append field = some joined) :
    joined.name = target.name := by
  cases target <;> cases field <;> cases appended <;> rfl

/-- A host takes no second one. -/
theorem host_of_name {field : Field} (named : field.name = HOST) : ∃ given, field = .host given := by
  cases field with
  | host given => exact ⟨given, rfl⟩
  | other asked values unknown =>
      have same : asked = HOST := named
      rw [same] at unknown
      exact absurd (by decide : HOST ∈ knownNames) unknown
  | _ =>
      rw [name] at named
      exact absurd named (by decide)

/-- A readable field is read from its text, which a line keeps. -/
theorem validate_readable {field : Field} (valid : field.Kept) (readable : field.isWhole = true) :
    validate field.name field.str = .ok field ∧ Solid field.str := by
  by_cases named : field.name = HOST
  · obtain ⟨given, rfl⟩ := host_of_name named
    refine ⟨?_, solid_plain readable⟩
    show validate HOST given.str = .ok (.host given)
    rw [validate_host, parseHostPort_str readable valid]
    rfl
  · have read := validate_reads valid named
    rw [readable, if_pos rfl] at read
    exact ⟨read, str_solid valid named⟩

end Field

namespace Headers

variable {headers later : Headers} {field : Field}

theorem fields_update (missing : headers.find field.name = none) :
    (headers.update field).fields = headers.fields ++ [field] := by
  show (if (headers.find field.name).isSome then _ else _) = _
  rw [missing]
  rfl

theorem find_none {name : Text} (absent : name ∉ headers.fields.map Field.name) : headers.find name = none := by
  rw [find, List.find?_eq_none]
  intro field member same
  exact absent (List.mem_map.2 ⟨field, member, by simpa using same⟩)

/-- A new field stands at the end. -/
theorem add_new {value : Text} (word : isLowerWord field.name = true) (read : Field.validate field.name value = .ok field)
    (absent : field.name ∉ headers.fields.map Field.name) :
    headers.add field.name value = .ok (headers.update field) := by
  have lower : lower field.name = field.name := isLowerWord_lower word
  have filled : field.name.isEmpty = false := by simpa using isWord_nonempty (isLowerWord_word word)
  have missing := find_none absent
  rw [add, filled, lower, read]
  simp only [Bool.false_eq_true, if_false, bind, Except.bind, missing, pure, Except.pure]

theorem add_refused {value : Text} (word : isLowerWord field.name = true)
    {fault : Fault} (refused : Field.validate field.name value = .error fault) :
    headers.add field.name value = .error fault := by
  have lower : lower field.name = field.name := isLowerWord_lower word
  have filled : field.name.isEmpty = false := by simpa using isWord_nonempty (isLowerWord_word word)
  rw [add, filled, lower, refused]
  rfl

/-- A host stays when a line is added. -/
theorem find_add {name value : Text} {host : Field} (found : headers.find HOST = some host)
    (added : headers.add name value = .ok later) : later.find HOST = some host := by
  rw [add] at added
  split at added
  · cases added
    exact found
  · obtain ⟨field, read, rest⟩ := ok_of_bind added
    have named := (Field.validate_spec read).1
    cases there : headers.find (lower name) with
    | none =>
        rw [there] at rest
        cases rest
        rw [find_update, if_neg, found]
        intro same
        rw [← named, ← same, found] at there
        cases there
    | some target =>
        rw [there] at rest
        have first := find_name _ there
        cases joined : target.append field with
        | none =>
            simp only [joined] at rest
            cases rest
        | some all =>
            simp only [joined] at rest
            cases rest
            rw [find_update, if_neg, found]
            rw [Field.append_name joined, first]
            intro same
            rw [← same] at first
            obtain ⟨given, rfl⟩ := Field.host_of_name first
            cases joined

theorem find_addLine {line : Text} {host : Field} (found : headers.find HOST = some host)
    (added : headers.addLine line = .ok later) : later.find HOST = some host := by
  obtain ⟨⟨⟨name, value⟩, _⟩, _, rest⟩ := ok_of_bind added
  exact find_add found rest

/-- A field as a header line has it. -/
def line (field : Field) : Text := canonicalizeName field.name true ++ text ": " ++ field.str ++ text "\r\n"

theorem addLine_line (valid : field.Kept) (solid : Solid field.str) :
    headers.addLine (line field) = headers.add field.name field.str := by
  obtain ⟨later, read⟩ := readLine_line (Field.name_word valid) solid
  rw [addLine, line, read]
  rfl

end Headers

namespace Request

variable {headers later : Headers} {field : Field} {rest : Text} {fuel : Nat}

/-- One pass of the loop takes a line that is not the empty one. -/
theorem receiveStreamHeaders_step {inner : Text} (single : byte '\n' ∉ inner) (other : inner ≠ [byte '\r']) :
    receiveStreamHeaders (fuel + 1) ⟨inner ++ byte '\n' :: rest, false⟩ headers =
      (headers.addLine (inner ++ [byte '\n'])).bind fun headers => receiveStreamHeaders fuel ⟨rest, false⟩ headers := by
  have filled : (inner ++ [byte '\n']).isEmpty = false := by simp
  have different : (inner ++ [byte '\n'] == text "\r\n") = false := by
    have shape : text "\r\n" = [byte '\r'] ++ [byte '\n'] := rfl
    rw [shape, beq_eq_false_iff_ne]
    intro same
    exact other (List.append_cancel_right same)
  rw [receiveStreamHeaders, IStream.readline_line rest single]
  simp only [filled, different, Bool.or_self, Bool.false_eq_true, if_false]
  rfl

theorem receiveStreamHeaders_end :
    receiveStreamHeaders (fuel + 1) ⟨text "\r\n" ++ rest, false⟩ headers = .ok (headers, ⟨rest, false⟩) := by
  have read : IStream.readline ⟨text "\r\n" ++ rest, false⟩ = (some (text "\r\n"), ⟨rest, false⟩) :=
    IStream.readline_line rest (by decide : byte '\n' ∉ [byte '\r'])
  rw [receiveStreamHeaders, read]
  rfl

theorem canonicalizeName_inLine {name : Text} (word : isLowerWord name = true) :
    ∀ char ∈ Headers.canonicalizeName name true, inLine char = true :=
  fun char member => (tchar_solid char
    (canonicalizeName_tchar (isWord_tchar (isLowerWord_word word)) true char member)).1

theorem canonicalizeName_ne_nil {name : Text} (word : isLowerWord name = true) :
    Headers.canonicalizeName name true ≠ [] := by
  obtain ⟨first, others, rfl⟩ := List.exists_cons_of_ne_nil (isWord_nonempty (isLowerWord_word word))
  exact List.cons_ne_nil _ _

theorem inLine_apart : ∀ char, inLine char = true → char ≠ byte '\n' ∧ char ≠ byte '\r' := by
  apply octet_forall
  decide

/-- The text of a line before its last character, where the line begins with a name. -/
theorem line_begins {name inner : Text} (word : isLowerWord name = true) (single : byte '\n' ∉ inner) :
    byte '\n' ∉ Headers.canonicalizeName name true ++ (text ": " ++ inner) ∧
      Headers.canonicalizeName name true ++ (text ": " ++ inner) ≠ [byte '\r'] := by
  constructor
  · intro member
    rw [List.mem_append, List.mem_append] at member
    obtain early | inside | late := member
    · exact (inLine_apart _ (canonicalizeName_inLine word _ early)).1 rfl
    · exact absurd inside (by decide)
    · exact single late
  · intro same
    obtain ⟨first, others, shape⟩ := List.exists_cons_of_ne_nil (canonicalizeName_ne_nil word)
    rw [shape, List.cons_append, List.cons.injEq] at same
    have accepted := canonicalizeName_inLine word first (by rw [shape]; exact List.mem_cons_self)
    exact (inLine_apart first accepted).2 same.1

/-- One pass of the loop adds the field of a line. -/
theorem receiveStreamHeaders_line (valid : field.Kept) (solid : Solid field.str) :
    receiveStreamHeaders (fuel + 1) ⟨Headers.line field ++ rest, false⟩ headers =
      (headers.add field.name field.str).bind fun headers => receiveStreamHeaders fuel ⟨rest, false⟩ headers := by
  have single : byte '\n' ∉ field.str ++ [byte '\r'] := by
    intro member
    obtain inside | last := List.mem_append.1 member
    · exact (inLine_apart _ (solid.kept _ inside)).1 rfl
    · exact absurd last (by decide)
  obtain ⟨plain, other⟩ := line_begins (Field.name_word valid) single
  have shape : Headers.line field =
      Headers.canonicalizeName field.name true ++ (text ": " ++ (field.str ++ [byte '\r'])) ++ [byte '\n'] := by
    have terminator : text "\r\n" = [byte '\r', byte '\n'] := rfl
    simp [Headers.line, terminator]
  have whole : Headers.line field ++ rest =
      Headers.canonicalizeName field.name true ++ (text ": " ++ (field.str ++ [byte '\r'])) ++ byte '\n' :: rest := by
    rw [shape]
    simp
  rw [whole, receiveStreamHeaders_step plain other, ← shape, Headers.addLine_line valid solid]

/-- Readable fields are added one after the other. -/
theorem receiveStreamHeaders_readable (headers : Headers) {fields : List Field} (valid : ∀ field ∈ fields, field.Kept)
    (readable : ∀ field ∈ fields, field.isWhole = true)
    (distinct : ((headers.fields ++ fields).map Field.name).Nodup)
    (enough : (fields.flatMap Headers.line ++ rest).length < fuel) :
    ∃ later left, later.fields = headers.fields ++ fields ∧ rest.length < left ∧
      receiveStreamHeaders fuel ⟨fields.flatMap Headers.line ++ rest, false⟩ headers =
        receiveStreamHeaders left ⟨rest, false⟩ later := by
  induction fields generalizing headers fuel with
  | nil => exact ⟨headers, fuel, (List.append_nil _).symm, enough, rfl⟩
  | cons field fields inductionHypothesis =>
      obtain ⟨fuel, rfl⟩ : ∃ smaller, fuel = smaller + 1 := ⟨fuel - 1, by omega⟩
      obtain ⟨read, solid⟩ := Field.validate_readable (valid field List.mem_cons_self) (readable field List.mem_cons_self)
      have absent : field.name ∉ headers.fields.map Field.name := by
        rw [List.map_append, List.map_cons] at distinct
        exact fun member => (List.disjoint_of_nodup_append distinct) member List.mem_cons_self
      have added := Headers.add_new (Field.name_word (valid field List.mem_cons_self)) read absent
      have fields_added := Headers.fields_update (Headers.find_none absent)
      have positive : 0 < (Headers.line field).length := by
        rw [Headers.line]
        simp only [List.length_append]
        have : (text "\r\n").length = 2 := rfl
        omega
      rw [List.flatMap_cons, List.append_assoc] at enough ⊢
      rw [List.length_append] at enough
      obtain ⟨later, left, same, more, run⟩ := inductionHypothesis _
        (fun field member => valid field (List.mem_cons_of_mem _ member))
        (fun field member => readable field (List.mem_cons_of_mem _ member))
        (by rwa [fields_added, List.append_assoc, List.singleton_append]) (by omega : _ < fuel)
      refine ⟨later, left, ?_, more, ?_⟩
      · rw [same, fields_added, List.append_assoc, List.singleton_append]
      · rw [receiveStreamHeaders_line (valid field List.mem_cons_self) solid, added]
        exact run

/-- A field that is not readable and has no host ends the loop. -/
theorem receiveStreamHeaders_refused (valid : field.Kept) (unreadable : field.isWhole = false)
    (other : field.name ≠ HOST) :
    ∃ fault, receiveStreamHeaders (fuel + 1) ⟨Headers.line field ++ rest, false⟩ headers = .error fault := by
  have read := Field.validate_reads valid other
  rw [unreadable, if_neg Bool.false_ne_true] at read
  obtain ⟨fault, refused⟩ := read
  rw [receiveStreamHeaders_line valid (Field.str_solid valid other),
    Headers.add_refused (Field.name_word valid) refused]
  exact ⟨fault, rfl⟩

/-- A host stays to the end of the loop. -/
theorem find_receiveStreamHeaders {is last : IStream} {host : Field} (found : headers.find HOST = some host)
    (run : receiveStreamHeaders fuel is headers = .ok (later, last)) : later.find HOST = some host := by
  induction fuel generalizing is headers with
  | zero =>
      cases run
      exact found
  | succ fuel inductionHypothesis =>
      rw [receiveStreamHeaders] at run
      split at run
      · cases run
      · split at run
        · cases run
          exact found
        · obtain ⟨next, added, rest⟩ := ok_of_bind run
          exact inductionHypothesis (Headers.find_addLine found added) rest

end Request

section HostLine

variable {before rest : Text}

/-- The text behind the accepted characters is an end of the text before. -/
theorem readWhile_rest (accepts : Int → Bool) (refused : accepts (-1) = false) (fuel : Nat) (before rest : Text) :
    ∃ word left more, readWhile accepts fuel (between before rest) = .ok (word, between left more) ∧ more <:+ rest := by
  induction fuel generalizing before rest with
  | zero => exact ⟨[], before, rest, rfl, List.suffix_rfl⟩
  | succ fuel inductionHypothesis =>
      cases rest with
      | nil =>
          refine ⟨[], before, [], ?_, List.suffix_rfl⟩
          rw [readWhile, Scan.bind_ok get_nil, refused]
          simp only [Bool.false_eq_true, if_false]
          rw [Scan.bind_ok unget_nil]
          rfl
      | cons char rest =>
          cases accepted : accepts (toInt char) with
          | true =>
              obtain ⟨word, left, more, run, behind⟩ := inductionHypothesis (before ++ [char]) rest
              refine ⟨char :: word, left, more, ?_, behind.trans (List.suffix_cons char rest)⟩
              rw [readWhile, Scan.bind_ok get_cons, accepted, if_pos rfl, Scan.bind_ok run, toByte_toInt]
              rfl
          | false =>
              cases rest with
              | nil =>
                  refine ⟨[], before ++ [char], [], ?_, List.nil_suffix⟩
                  rw [readWhile, Scan.bind_ok get_cons, accepted]
                  simp only [Bool.false_eq_true, if_false]
                  rw [Scan.bind_ok unget_nil]
                  rfl
              | cons next rest =>
                  refine ⟨[], before, char :: next :: rest, ?_, List.suffix_rfl⟩
                  rw [readWhile, Scan.bind_ok get_cons, accepted]
                  simp only [Bool.false_eq_true, if_false]
                  rw [Scan.bind_ok (unget_snoc (List.cons_ne_nil next rest))]
                  rfl

/-- One space at least is taken. -/
theorem readOptSpace_rest (before rest : Text) :
    ∃ left more, readOptSpace (between before (byte ' ' :: rest)) = .ok ((), between left more) ∧ more <:+ rest := by
  obtain ⟨word, left, more, run, behind⟩ :=
    readWhile_rest isWhitespace (by decide) (byte ' ' :: rest).length (before ++ [byte ' ']) rest
  refine ⟨left, more, ?_, behind⟩
  have read : readAccepted isWhitespace (between before (byte ' ' :: rest)) = .ok (byte ' ' :: word, between left more) := by
    rw [readAccepted, Scan.bind_ok fuel_between, readWhile, Scan.bind_ok get_cons,
      if_pos (by decide : isWhitespace (toInt (byte ' ')) = true), Scan.bind_ok run, toByte_toInt]
    rfl
  rw [readOptSpace, Scan.bind_ok read]
  rfl

/-- The characters up to a terminator begin the rest of a line. -/
theorem readAllLoop_begins (fuel : Nat) (before rest : Text) :
    ∃ value scanner, readAllLoop fuel (between before rest) = .ok (value, scanner) ∧ value <+: rest ∧
      byte '\r' ∉ value ∧ byte '\n' ∉ value := by
  induction fuel generalizing before rest with
  | zero => exact ⟨[], _, rfl, List.nil_prefix, by simp, by simp⟩
  | succ fuel inductionHypothesis =>
      cases rest with
      | nil =>
          refine ⟨[], between before [], ?_, List.nil_prefix, by simp, by simp⟩
          rw [readAllLoop, Scan.bind_ok get_nil]
          rfl
      | cons char rest =>
          by_cases stops : toInt char = code '\r' ∨ toInt char = code '\n'
          · obtain ⟨scanner, back⟩ : ∃ scanner, unget (between (before ++ [char]) rest) = .ok ((), scanner) := by
              cases rest with
              | nil => exact ⟨_, unget_nil⟩
              | cons next rest => exact ⟨_, unget_snoc (List.cons_ne_nil next rest)⟩
            refine ⟨[], scanner, ?_, List.nil_prefix, by simp, by simp⟩
            rw [readAllLoop, Scan.bind_ok get_cons]
            simp only [stops, beq_iff_eq, Bool.or_eq_true, if_true]
            rw [Scan.bind_ok back]
            rfl
          · by_cases ends : toInt char = -1
            · refine ⟨[], between (before ++ [char]) rest, ?_, List.nil_prefix, by simp, by simp⟩
              rw [readAllLoop, Scan.bind_ok get_cons, ends]
              rfl
            · obtain ⟨value, scanner, run, begins, notReturn, notFeed⟩ := inductionHypothesis (before ++ [char]) rest
              rw [not_or] at stops
              refine ⟨char :: value, scanner, ?_, ( List.prefix_cons_inj char).2 begins, ?_, ?_⟩
              · rw [readAllLoop, Scan.bind_ok get_cons]
                simp only [stops, ends, beq_iff_eq, Bool.or_eq_true, or_self, if_false]
                rw [Scan.bind_ok run, toByte_toInt]
                rfl
              · rw [List.mem_cons, not_or]
                refine ⟨?_, notReturn⟩
                rintro rfl
                exact stops.1 (by decide)
              · rw [List.mem_cons, not_or]
                refine ⟨?_, notFeed⟩
                rintro rfl
                exact stops.2 (by decide)

theorem trim_infix (string : Text) : trim string <:+: string := by
  have ends : string.dropWhile (isSpace ∘ toInt) <:+: string := (List.dropWhile_suffix _).isInfix
  refine List.IsInfix.trans ?_ ends
  rw [trim, ← List.reverse_infix, List.reverse_reverse]
  exact (List.dropWhile_suffix _).isInfix

theorem readAll_begins (before rest : Text) :
    ∃ value scanner, readAll (between before rest) = .ok (value, scanner) ∧ value <:+: rest ∧
      byte '\r' ∉ value ∧ byte '\n' ∉ value := by
  obtain ⟨value, scanner, run, begins, notReturn, notFeed⟩ := readAllLoop_begins (rest.length + 1) before rest
  have part := trim_infix value
  refine ⟨trim value, scanner, ?_, part.trans begins.isInfix, fun member => notReturn (part.subset member),
    fun member => notFeed (part.subset member)⟩
  rw [readAll, Scan.bind_ok fuel_between, Scan.bind_ok run]
  rfl

/-- The value of a line that is cut in its text is a part of the text. -/
theorem readLine_part {name string inner : Text} (word : isLowerWord name = true)
    (begins : inner <+: string ++ [byte '\r']) {found : Text × Text} {scanner : Scanner}
    (read : Headers.readLine (Scanner.init (Headers.canonicalizeName name true ++ (text ": " ++ inner) ++ [byte '\n'])) =
      .ok (found, scanner)) : found.1 = name ∧ found.2 <:+: string := by
  have accepted := isWord_tchar (isLowerWord_word word)
  have nonempty := isWord_nonempty (isLowerWord_word word)
  have colon : toInt (byte ':') = code ':' := by decide
  have separator : text ": " = [byte ':', byte ' '] := rfl
  have shape : Headers.canonicalizeName name true ++ (text ": " ++ inner) ++ [byte '\n'] =
      Headers.canonicalizeName name true ++ byte ':' :: byte ' ' :: (inner ++ [byte '\n']) := by
    simp [separator]
  have ends : Ends isTchar (byte ':' :: byte ' ' :: (inner ++ [byte '\n'])) := .stop (by decide) (by simp)
  have token := readToken_ends [] ends true _ (canonicalizeName_tchar accepted true)
  rw [if_pos rfl, canonicalizeName_lower, isLowerWord_lower word, List.nil_append] at token
  obtain ⟨left, more, space, behind⟩ := readOptSpace_rest (Headers.canonicalizeName name true ++ [byte ':'])
    (inner ++ [byte '\n'])
  obtain ⟨value, later, all, part, notReturn, notFeed⟩ := readAll_begins left more
  rw [shape, init_eq, Headers.readLine, Scan.bind_ok token] at read
  simp only [List.isEmpty_iff, nonempty, if_false] at read
  rw [Scan.bind_ok (readSpecial_same colon)] at read
  simp only [Bool.not_true, Bool.false_eq_true, if_false] at read
  rw [Scan.bind_ok space, Scan.bind_ok all] at read
  obtain ⟨_, _, _, read⟩ := Scan.eq_ok_of_bind read
  obtain ⟨crlf, _, _, read⟩ := Scan.eq_ok_of_bind read
  have same : found = (name, value) := by
    cases crlf with
    | true =>
        cases read
        rfl
    | false => cases read
  rw [same]
  refine ⟨rfl, ?_⟩
  have inside : value <:+: inner ++ byte '\n' :: [] := part.trans behind.isInfix
  obtain inside | none := infix_of_absent inside notFeed
  · obtain inside | none := infix_of_absent (inside.trans begins.isInfix : value <:+: string ++ byte '\r' :: []) notReturn
    · exact inside
    · rw [List.infix_nil.1 none]
      exact List.nil_infix
  · rw [List.infix_nil.1 none]
    exact List.nil_infix

/-- The first line of a text ends at its first line feed. -/
theorem split_line (left right : Text) :
    ∃ inner more, left ++ byte '\n' :: right = inner ++ byte '\n' :: more ∧ byte '\n' ∉ inner ∧ inner <+: left := by
  induction left with
  | nil => exact ⟨[], right, rfl, by simp, List.nil_prefix⟩
  | cons char left inductionHypothesis =>
      by_cases feed : char = byte '\n'
      · exact ⟨[], left ++ byte '\n' :: right, by rw [feed]; rfl, by simp, List.nil_prefix⟩
      · obtain ⟨inner, more, same, single, begins⟩ := inductionHypothesis
        refine ⟨char :: inner, more, by rw [List.cons_append, same, List.cons_append], ?_,
          ( List.prefix_cons_inj char).2 begins⟩
        rw [List.mem_cons, not_or]
        exact ⟨Ne.symm feed, single⟩

end HostLine

namespace Request

variable {headers later : Headers} {fuel : Nat}

/-- A host with escapes does not come back. -/
theorem receiveStreamHeaders_host {given : HostPort} {rest : Text} {last : IStream}
    (unreadable : UriHost.isPlain given.host = false) (absent : HOST ∉ headers.fields.map Field.name)
    (run : receiveStreamHeaders (fuel + 1) ⟨Headers.line (.host given) ++ rest, false⟩ headers = .ok (later, last)) :
    later.find HOST ≠ some (.host given) := by
  have word : isLowerWord HOST = true := Field.knownNames_word HOST (by decide)
  obtain ⟨inner, more, same, single, begins⟩ := split_line (given.str ++ [byte '\r']) rest
  obtain ⟨plain, other⟩ := line_begins word single
  have shape : Headers.line (.host given) ++ rest =
      Headers.canonicalizeName HOST true ++ (text ": " ++ inner) ++ byte '\n' :: more := by
    have terminator : text "\r\n" = [byte '\r', byte '\n'] := rfl
    have tail : given.str ++ text "\r\n" ++ rest = inner ++ byte '\n' :: more := by
      rw [← same, terminator]
      simp
    show Headers.canonicalizeName HOST true ++ text ": " ++ given.str ++ text "\r\n" ++ rest = _
    rw [List.append_assoc (Headers.canonicalizeName HOST true), List.append_assoc, List.append_assoc, List.append_assoc,
      ← List.append_assoc given.str, tail]
    simp
  rw [shape, receiveStreamHeaders_step plain other] at run
  obtain ⟨next, added, rest⟩ := ok_of_bind run
  obtain ⟨⟨⟨name, value⟩, scanner⟩, read, added⟩ := ok_of_bind added
  obtain ⟨rfl, part⟩ := readLine_part word begins read
  obtain ⟨field, valid, added⟩ := ok_of_bind added
  have lower : Headers.lower HOST = HOST := isLowerWord_lower word
  rw [lower] at valid added
  obtain ⟨found, rfl⟩ := Field.host_of_name ((Field.validate_spec valid).1)
  rw [Headers.find_none absent] at added
  cases added
  have kept := find_receiveStreamHeaders ((Headers.find_update headers (.host found) HOST).trans (if_pos rfl)) rest
  rw [kept]
  intro equal
  cases equal
  rw [Field.validate_host] at valid
  cases parsed : parseHostPort value with
  | error fault =>
      rw [parsed] at valid
      cases valid
  | ok other =>
      rw [parsed] at valid
      cases valid
      rw [isPlain_of_read part parsed rfl] at unreadable
      cases unreadable

/-- The lines of fields in lower case yield the fields when each of them is read whole, and not otherwise. -/
theorem receiveStreamHeaders_whole (request : Headers) (valid : ∀ field ∈ request.fields, field.Kept)
    (enough : (request.str ++ text "\r\n").length < fuel) :
    (∃ later last, receiveStreamHeaders fuel ⟨request.str ++ text "\r\n", false⟩ .empty = .ok (later, last) ∧
      later.fields = request.fields) ↔ request.fields.all Field.isWhole = true := by
  have shape : request.str = request.fields.flatMap Headers.line := rfl
  have distinct := request.distinct
  rw [shape] at enough ⊢
  constructor
  · rintro ⟨later, last, run, same⟩
    by_contra unreadable
    -- The first field that is not readable ends the loop, or its host is another one.
    obtain ⟨bad, found⟩ : ∃ bad, request.fields.find? (fun field => !field.isWhole) = some bad := by
      rw [← Option.isSome_iff_exists, List.find?_isSome]
      simpa using unreadable
    obtain ⟨broken, good, more, split, before⟩ := List.find?_eq_some_iff_append.1 found
    have broken : bad.isWhole = false := by simpa using broken
    rw [split] at valid distinct
    have there : bad.name ∉ good.map Field.name := by
      rw [List.map_append, List.map_cons] at distinct
      exact fun member => (List.disjoint_of_nodup_append distinct) member List.mem_cons_self
    rw [split, List.flatMap_append, List.flatMap_cons, List.append_assoc, List.append_assoc] at run enough
    have readable : ∀ field ∈ good, field.isWhole = true := fun field member => by simpa using before field member
    obtain ⟨middle, left, fields, room, reached⟩ := receiveStreamHeaders_readable .empty
      (fun field member => valid field (List.mem_append_left _ member)) readable
      (by
        rw [List.map_append] at distinct ⊢
        exact distinct.of_append_left)
      enough
    obtain ⟨left, rfl⟩ : ∃ smaller, left = smaller + 1 := ⟨left - 1, by omega⟩
    rw [reached] at run
    have formed : bad.Kept := valid bad (List.mem_append_right _ List.mem_cons_self)
    by_cases named : bad.name = HOST
    · obtain ⟨given, rfl⟩ := Field.host_of_name named
      have absent : HOST ∉ middle.fields.map Field.name := by
        rw [fields]
        exact there
      refine receiveStreamHeaders_host broken absent run ?_
      rw [Headers.find, same, split, List.find?_append, List.find?_eq_none.2, Option.none_or, List.find?_cons]
      · rfl
      · intro field member equal
        exact there (List.mem_map.2 ⟨field, member, eq_of_beq equal⟩)
    · obtain ⟨fault, refused⟩ := receiveStreamHeaders_refused formed broken named
      rw [refused] at run
      cases run
  · intro readable
    obtain ⟨later, left, same, more, run⟩ := receiveStreamHeaders_readable .empty valid
      (List.all_eq_true.1 readable) distinct enough
    obtain ⟨left, rfl⟩ : ∃ smaller, left = smaller + 1 := ⟨left - 1, by omega⟩
    rw [run]
    exact ⟨later, ⟨[], false⟩, receiveStreamHeaders_end, same⟩

/-- The header lines yield their fields when each of them is readable, and not otherwise. -/
theorem receiveStreamHeaders_iff (request : Headers) (valid : ∀ field ∈ request.fields, field.WellFormed)
    (enough : (request.str ++ text "\r\n").length < fuel) :
    (∃ later last, receiveStreamHeaders fuel ⟨request.str ++ text "\r\n", false⟩ .empty = .ok (later, last) ∧
      later.fields = request.fields) ↔ request.fields.all Field.isReadable = true := by
  have readable : request.fields.all Field.isReadable = true ↔
      request.IsLower ∧ request.fields.all Field.isWhole = true := by
    rw [List.all_eq_true, List.all_eq_true, Headers.IsLower, ← forall₂_and]
    refine forall₂_congr fun field _ => ?_
    rw [Field.isReadable, Bool.and_eq_true]
  have kept (lower : request.IsLower) : ∀ field ∈ request.fields, field.Kept :=
    fun field member => (valid field member).kept (lower field member)
  rw [readable]
  constructor
  · intro read
    obtain ⟨later, last, run, same⟩ := read
    have lower : request.IsLower := by
      have cased := isLower_receiveStreamHeaders (by simp [Headers.IsLower, Headers.empty]) run
      rwa [Headers.IsLower, same] at cased
    exact ⟨lower, (receiveStreamHeaders_whole request (kept lower) enough).1 ⟨later, last, run, same⟩⟩
  · rintro ⟨lower, whole⟩
    exact (receiveStreamHeaders_whole request (kept lower) enough).2 whole

end Request

end SimpleNFast.Http
