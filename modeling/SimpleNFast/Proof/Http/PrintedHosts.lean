import SimpleNFast.Proof.Http.ProxyReading
import SimpleNFast.Proof.Http.UriAcceptance

set_option maxRecDepth 100000

namespace SimpleNFast.Http

open Components

namespace Uri

variable {name port : Text} {uri : Uri}

theorem name_spec : ∀ char, isNameChar (toInt char) = true →
    isPathChar (toInt char) = true ∧ inAuthority char = true ∧ char ≠ byte ':' ∧ char ≠ byte '[' := by
  apply octet_forall
  decide

theorem coded_name (chars : ∀ char ∈ name, isNameChar (toInt char) = true) : Coded isPathChar name := by
  induction name with
  | nil => exact .nothing
  | cons char name inductionHypothesis =>
      rw [List.forall_mem_cons] at chars
      exact .plain (name_spec char chars.1).1 (inductionHypothesis chars.2)

/-- A text of name characters is a path of one segment. -/
theorem readHierarchy_name (bare : Bare uri) (chars : ∀ char ∈ name, isNameChar (toInt char) = true) :
    readHierarchy uri name = .ok { uri with path := UriPath.normal name, query := [], fragment := [] } := by
  have coded := coded_name chars
  have flat := Reference.path_apart coded
  have slashless : byte '/' ∉ name := fun member => absurd (name_spec _ (chars _ member)).2.1 (by decide)
  have single : ¬ text "//" <:+: name := fun inside => slashless (inside.subset (List.mem_cons_self : byte '/' ∈ text "//"))
  have taken : name.takeWhile inPath = name := List.takeWhile_eq_self_iff.2 flat
  have dropped : name.dropWhile inPath = [] := List.dropWhile_eq_nil_iff.2 flat
  have shape : ofTail name = ⟨none, none, name, none, none⟩ := by
    rw [ofTail, taken, dropped]
    rfl
  have kept : decodeKeeping UriPath.keeps name = some name :=
    decodeKeeping_all fun char member => isPathChar_keeps char (name_spec char (chars char member)).1
  rw [readHierarchy_single fun begins => single begins.isInfix, shape]
  exact (readTail_ok bare).2
    ⟨name, [], [], ⟨UriPath.isValid_coded coded single, kept, marked_none.2 rfl, marked_none.2 rfl⟩, rfl⟩

theorem parse_name (chars : ∀ char ∈ name, isNameChar (toInt char) = true) :
    Uri.parse name = .ok { Uri.empty with path := UriPath.normal name } := by
  have plain : ¬ (name.head?.any inAuthority && beginsWithScheme name) = true := by
    rw [Bool.and_eq_true]
    rintro ⟨-, begins⟩
    obtain ⟨word, rest, rfl, -⟩ := (beginsWithScheme_iff name).1 begins
    exact (name_spec _ (chars (byte ':') (by simp))).2.2.1 rfl
  rw [parse_read, Uri.read, if_neg plain, readHierarchy_name bare_empty chars]
  rfl

/-- A name before a port is read as a scheme. -/
theorem parse_port (chars : ∀ char ∈ name, isNameChar (toInt char) = true)
    (digits : ∀ char ∈ port, isNameChar (toInt char) = true) :
    (∃ uri, Uri.parse (name ++ byte ':' :: port) = .ok uri) ↔ UriScheme.isValid name = true := by
  have colon : byte ':' ∉ name := fun member => (name_spec _ (chars _ member)).2.2.1 rfl
  have slash : byte '/' ∉ name := fun member => absurd (name_spec _ (chars _ member)).2.1 (by decide)
  have begins : ((name ++ byte ':' :: port).head?.any inAuthority && beginsWithScheme (name ++ byte ':' :: port)) = true := by
    rw [Bool.and_eq_true]
    refine ⟨?_, (beginsWithScheme_iff _).2 ⟨name, port, rfl, colon, slash⟩⟩
    cases name with
    | nil => rfl
    | cons char name => exact (name_spec char (chars char List.mem_cons_self)).2.1
  rw [parse_read, Uri.read, if_pos begins, takeWhile_before colon, dropWhile_before colon, UriScheme.set]
  cases valid : UriScheme.isValid name with
  | false =>
      refine iff_of_false ?_ Bool.false_ne_true
      rintro ⟨uri, read⟩
      cases read
  | true => exact iff_of_true ⟨_, readHierarchy_name (bare_empty.frame name [] [] []) digits⟩ rfl

theorem parse_colon (rest : Text) : ¬ ∃ uri, Uri.parse (byte ':' :: rest) = .ok uri := by
  have begins : ((byte ':' :: rest).head?.any inAuthority && beginsWithScheme (byte ':' :: rest)) = true := by
    rw [Bool.and_eq_true]
    exact ⟨rfl, (beginsWithScheme_iff _).2 ⟨[], rest, rfl, by simp, by simp⟩⟩
  have none : (byte ':' :: rest).takeWhile (· != byte ':') = [] := rfl
  rintro ⟨uri, read⟩
  rw [parse_read, Uri.read, if_pos begins, none] at read
  cases read

theorem parse_bracket (rest : Text) : ¬ ∃ uri, Uri.parse (byte '[' :: rest) = .ok uri := by
  rintro ⟨uri, read⟩
  rw [parse_read, Uri.read] at read
  split at read
  · have taken : (byte '[' :: rest).takeWhile (· != byte ':') = byte '[' :: rest.takeWhile (· != byte ':') := rfl
    obtain ⟨_, set, _⟩ := ok_of_bind read
    rw [taken, UriScheme.set] at set
    cases set
  · rw [readHierarchy_single fun begins => absurd begins (by rintro ⟨more, same⟩; cases same)] at read
    obtain ⟨decoded, _, _, tail, _⟩ := (readTail_ok bare_empty).1 read
    have path : (ofTail (byte '[' :: rest)).path = byte '[' :: rest.takeWhile inPath := rfl
    have found := tail.path
    rw [path] at found
    have refused := decodeKeeping_chars found (byte '[') List.mem_cons_self
    exact absurd refused (by decide)

/-- A host that is read needs no escape, or it comes from a longer part of the string that has one. -/
theorem isPlain_or_longer {string : Text} (parsed : Uri.parse (text "http://" ++ string) = .ok uri) :
    UriHost.isPlain uri.host = true ∨ ∃ part, part <:+: string ∧ byte ':' ∉ part ∧ uri.host.length + 2 ≤ part.length ∧
      ¬ ∀ char ∈ part, UriHost.keeps (toInt char) = true := by
  obtain ⟨_, _, origin⟩ := parsed_of_parse parsed
  obtain empty | ⟨part, inside, set⟩ := origin
  · exact absurd empty (parse_addressed parsed).host
  · obtain ⟨_, plain⟩ | ⟨regular, longer⟩ := UriHost.set_cases set
    · exact .inl plain
    · have found : decodeKeeping UriHost.keeps part = some uri.host := by
        rw [UriHost.set] at set
        split at set
        · exact decodeOrThrow_ok.1 set
        · cases set
      have kept : ¬ ∀ char ∈ part, UriHost.keeps (toInt char) = true := by
        intro all
        rw [decodeKeeping_all all] at found
        cases found
        exact lt_irrefl _ longer
      have gap : uri.host.length + 2 ≤ part.length := by
        obtain same | gap := decodeKeeping_gap found
        · rw [same] at longer
          exact absurd longer (lt_irrefl _)
        · exact gap
      have filled : part ≠ [] := by
        rintro rfl
        exact Nat.not_lt_zero _ longer
      have chars : byte ':' ∉ part ∧ byte '/' ∉ part := by
        rw [validKeeping_eq] at regular
        obtain ⟨decoded, coded⟩ := Option.isSome_iff_exists.1 regular
        have apart := fun char member => UriHost.isRegular_chars char (decodeKeeping_chars coded char member)
        exact ⟨fun member => (apart _ member).1 rfl, fun member => (apart _ member).2 rfl⟩
      have scheme : text "http://" ++ string = text "http" ++ byte ':' :: ([] ++ byte '/' :: ([] ++ byte '/' :: string)) := rfl
      rw [scheme] at inside
      obtain early | inside := infix_of_absent inside chars.1
      · have scheme : (text "http").all (fun char => UriHost.keeps (toInt char)) = true := by decide
        exact absurd (fun char member => List.all_eq_true.1 scheme char (early.subset member)) kept
      obtain none | inside := infix_of_absent inside chars.2
      · exact absurd (List.infix_nil.1 none) filled
      obtain none | inside := infix_of_absent inside chars.2
      · exact absurd (List.infix_nil.1 none) filled
      exact .inr ⟨part, inside, chars.1, gap, kept⟩

end Uri

namespace Via

open Reader

/-- A port with its colon. -/
def portText (port : Text) : Text := if port.isEmpty then [] else byte ':' :: digits 10 (number 10 port)

/-- A host with its port as they are printed. -/
def addressText (uri : Uri) : Text := uri.host ++ portText uri.port

/-- A comment behind a blank. -/
def remarkText (comments : Text) : Text := if comments.isEmpty then [] else byte ' ' :: comments

/-- Behind an entry the text ends, or another entry follows. -/
inductive Follows : Text → Prop where
  | nothing : Follows []
  | next {first : UInt8} {more : Text} (version : isVersionChar (toInt first) = true) (filled : more ≠ []) :
      Follows (byte ',' :: byte ' ' :: first :: more)

variable {value : Via} {tail left : Text}

theorem str_parts (read : value.Read) :
    value.str = value.ver.str ++ byte ' ' :: (addressText value.url ++ remarkText value.comments) := by
  have host : value.url.host.isEmpty = false := List.isEmpty_eq_false_iff.2 read.url.host
  have port : value.url.port.isEmpty = false → number 10 value.url.port % 2 ^ 16 = number 10 value.url.port := by
    intro some
    obtain none | ranged := read.url.port
    · rw [none] at some
      cases some
    · have := ranged.2.2
      omega
  rw [Via.str, host, addressText, portText, remarkText]
  cases given : value.url.port.isEmpty with
  | true => simp
  | false =>
      rw [port given]
      simp

/-- The characters of a URI behind an entry are none, or they are the comma before the next entry. -/
theorem takeWhile_remark (comments : Text) (follows : Follows tail) :
    (remarkText comments ++ tail).takeWhile (isUriChar ∘ toInt) =
      if comments = [] ∧ tail ≠ [] then [byte ','] else [] := by
  cases comments with
  | nil =>
      cases follows with
      | nothing => rfl
      | next => rfl
  | cons char comments => rfl

theorem portText_chars (port : Text) : ∀ char ∈ portText port, isUriChar (toInt char) = true := by
  have digit : ∀ char, isDigit (toInt char) = true → isUriChar (toInt char) = true := by
    apply octet_forall
    decide
  intro char member
  rw [portText] at member
  split at member
  · cases member
  · obtain rfl | inside := List.mem_cons.1 member
    · decide
    · exact digit char (isDigit_digits _ char inside)

theorem blank_apart : ∀ char, isWhitespace (toInt char) = true → isUriChar (toInt char) = false ∧ toInt char ≠ code '\\' := by
  apply octet_forall
  decide

theorem uriChar_apart : ∀ char, isUriChar (toInt char) = true → toInt char ≠ code '\\' ∧ isWhitespace (toInt char) = false := by
  apply octet_forall
  decide

/-- A reader that finds a comment leaves the rest of the text as it is. -/
theorem comment_behind {rest : Text} {body : Text} (found : comment (kept rest) = some (some (byte '(' :: body), left)) :
    rest = byte '(' :: (body ++ left) := by
  obtain none | ⟨other, same, split, closed⟩ := comment_some found
  · cases none
  · cases same
    rw [kept] at split
    split at split
    · cases split
    · exact split

/-- A blank with another character behind it stands among blanks. -/
theorem blank_of_split {solid blank before after : Text} {char : UInt8}
    (uri : ∀ char ∈ solid, isWhitespace (toInt char) = false) (blanks : ∀ char ∈ blank, isWhitespace (toInt char) = true)
    (split : solid ++ blank = before ++ byte ' ' :: char :: after) : isWhitespace (toInt char) = true := by
  obtain ⟨more, rfl, rest⟩ | ⟨more, rfl, rest⟩ := List.append_eq_append_iff.1 split
  · exact blanks char (by simp [rest])
  · cases more with
    | nil =>
        rw [List.nil_append] at rest
        exact blanks char (by simp [← rest])
    | cons first more =>
        obtain ⟨rfl, -⟩ := List.cons.inj rest
        exact absurd (uri (byte ' ') (by simp)) (by decide)

theorem Follows.not_opening {before after : Text} (follows : Follows tail) (split : tail = before ++ byte '(' :: after) :
    ∃ first more, before = byte ',' :: byte ' ' :: first :: more ∧ isWhitespace (toInt first) = false := by
  cases follows with
  | nothing => simp at split
  | @next first more version filled =>
      cases before with
      | nil => exact absurd (List.cons.inj split).1 (by decide)
      | cons comma before =>
          obtain ⟨rfl, second⟩ := List.cons.inj split
          cases before with
          | nil => exact absurd (List.cons.inj second).1 (by decide)
          | cons space before =>
              obtain ⟨rfl, third⟩ := List.cons.inj second
              cases before with
              | nil =>
                  obtain ⟨rfl, -⟩ := List.cons.inj third
                  exact absurd rfl (version_apart _ version).2.2
              | cons char before =>
                  obtain ⟨rfl, -⟩ := List.cons.inj third
                  exact ⟨_, before, rfl, (version_apart _ version).1⟩

/-- Where the comment is read as a target, it is not read again behind it. -/
theorem received_comment {ver : Version} {body : Text} {read : Via} (follows : Follows tail)
    (closed : closing ')' isCommented body = some (body, []))
    (received : Received ver (byte '(' :: (body ++ tail)) read left) : read.comments ≠ byte '(' :: body := by
  obtain ⟨-, -, -, -, found, taken, same⟩ := received
  intro equal
  rw [equal] at same
  have shape : found = some (byte '(' :: body) := by
    cases found with
    | none => cases same
    | some other => rw [same]; rfl
  rw [shape] at taken
  have behind := comment_behind taken
  have whole : (byte '(' :: (body ++ tail)).dropWhile (isUriChar ∘ toInt) = (body ++ tail).dropWhile (isUriChar ∘ toInt) := rfl
  have more : kept ((body ++ tail).dropWhile (isUriChar ∘ toInt)) = (body ++ tail).dropWhile (isUriChar ∘ toInt) := by
    rw [kept]
    split
    · rename_i one
      rw [whole, kept, if_pos one] at behind
      cases behind
    · rfl
  rw [whole, more] at behind
  have first := List.takeWhile_append_dropWhile (p := isUriChar ∘ toInt) (l := body ++ tail)
  have second := List.takeWhile_append_dropWhile (p := isWhitespace ∘ toInt) (l := (body ++ tail).dropWhile (isUriChar ∘ toInt))
  rw [← second, behind, ← List.append_assoc] at first
  have solid : ∀ char ∈ (body ++ tail).takeWhile (isUriChar ∘ toInt), isUriChar (toInt char) = true := fun char member =>
    List.mem_takeWhile_imp (p := isUriChar ∘ toInt) member
  have blank : ∀ char ∈ ((body ++ tail).dropWhile (isUriChar ∘ toInt)).takeWhile (isWhitespace ∘ toInt),
      isWhitespace (toInt char) = true := fun char member => List.mem_takeWhile_imp (p := isWhitespace ∘ toInt) member
  generalize (body ++ tail).takeWhile (isUriChar ∘ toInt) = target at first solid
  generalize ((body ++ tail).dropWhile (isUriChar ∘ toInt)).takeWhile (isWhitespace ∘ toInt) = space at first blank
  -- The body is closed before the next opening mark, which then stands behind the next version.
  have long := closing_refused (by decide) ((closing_split closed).2 tail) first.symm fun char member => by
    obtain inside | inside := List.mem_append.1 member
    · exact (uriChar_apart char (solid char inside)).1
    · exact (blank_apart char (blank char inside)).2
  obtain ⟨beyond, split, rest⟩ : ∃ beyond, target ++ space = body ++ beyond ∧ tail = beyond ++ byte '(' :: (body ++ left) := by
    obtain ⟨beyond, split, rest⟩ | ⟨beyond, split, rest⟩ := List.append_eq_append_iff.1 first
    · obtain rfl : beyond = [] := by
        rw [← List.length_eq_zero_iff]
        have equal := congrArg List.length split
        rw [List.length_append] at equal
        omega
      exact ⟨[], by rw [split]; simp, rest.symm⟩
    · exact ⟨beyond, split, rest⟩
  obtain ⟨char, others, rfl, solidChar⟩ := follows.not_opening rest
  have blankChar := blank_of_split (fun char member => (uriChar_apart char (solid char member)).2) blank
    (split.trans (by simp : body ++ byte ',' :: byte ' ' :: char :: others = (body ++ [byte ',']) ++ byte ' ' :: char :: others))
  rw [solidChar] at blankChar
  cases blankChar

theorem behind_more {accepts : Int → Bool} {rest : Text} {first second : UInt8} {more : Text}
    (dropped : rest.dropWhile (accepts ∘ toInt) = first :: second :: more) :
    behind accepts rest = first :: second :: more := by
  rw [behind, dropped]
  exact kept_more

theorem dropWhile_solid {host : Text} (rest : Text) (solid : host.dropWhile (isWhitespace ∘ toInt) ≠ []) :
    (host ++ rest).dropWhile (isWhitespace ∘ toInt) = host.dropWhile (isWhitespace ∘ toInt) ++ rest := by
  have filled : (host.dropWhile (isWhitespace ∘ toInt)).isEmpty = false := List.isEmpty_eq_false_iff.2 solid
  rw [List.dropWhile_append, filled, if_neg Bool.false_ne_true]

/-- A text of characters of which one is not accepted is not taken as a whole. -/
theorem takeWhile_short {accepts : UInt8 → Bool} {word : Text} (rest : Text) (refused : ¬ ∀ char ∈ word, accepts char = true) :
    ((word ++ rest).takeWhile accepts).length < word.length := by
  have shorter : (word.takeWhile accepts).length < word.length := by
    refine lt_of_le_of_ne ( List.takeWhile_prefix _).length_le fun same => refused ?_
    exact List.takeWhile_eq_self_iff.1 (( List.takeWhile_prefix _).eq_of_length same)
  rw [List.takeWhile_append, if_neg shorter.ne]
  exact shorter

/-- A blank host is skipped, and what is read behind it is not an entry with this comment. -/
theorem blank_refused {ver : Version} (comments : value.comments = [] ∨
      ∃ body, value.comments = byte '(' :: body ∧ closing ')' isCommented body = some (body, [])) (follows : Follows tail)
    (received : Received ver (behind isWhitespace (portText value.url.port ++ (remarkText value.comments ++ tail))) value left) :
    (behind isWhitespace (portText value.url.port ++ (remarkText value.comments ++ tail))).takeWhile (isUriChar ∘ toInt) =
      [byte ','] := by
  cases given : value.url.port.isEmpty with
  | false =>
      obtain ⟨digit, digits, shape⟩ := List.exists_cons_of_ne_nil (digits_ne_nil (number 10 value.url.port))
      have start : behind isWhitespace (portText value.url.port ++ (remarkText value.comments ++ tail)) =
          byte ':' :: digit :: (digits ++ (remarkText value.comments ++ tail)) := by
        rw [portText, given, if_neg Bool.false_ne_true, shape]
        rfl
      have accepted := received.accepted
      rw [start] at accepted
      exact absurd accepted (Uri.parse_colon _)
  | true =>
      rw [portText, given, if_pos rfl, List.nil_append] at received ⊢
      obtain none | ⟨body, some, closed⟩ := comments
      · rw [none] at received ⊢
        cases follows with
        | nothing => exact absurd rfl received.filled
        | next => rfl
      · obtain ⟨first, others, rfl⟩ : ∃ first others, body = first :: others := by
          cases body with
          | nil => cases closed
          | cons first others => exact ⟨first, others, rfl⟩
        rw [some] at received
        exact absurd some (received_comment follows closed received)

/-- Behind its blanks the host is not skipped. -/
theorem behind_solid {uri : Uri} {rest : Text} (solid : uri.host.dropWhile (isWhitespace ∘ toInt) ≠ [])
    (filled : (behind isWhitespace (addressText uri ++ rest)).takeWhile (isUriChar ∘ toInt) ≠ []) :
    behind isWhitespace (addressText uri ++ rest) =
      uri.host.dropWhile (isWhitespace ∘ toInt) ++ (portText uri.port ++ rest) := by
  have dropped : (addressText uri ++ rest).dropWhile (isWhitespace ∘ toInt) =
      uri.host.dropWhile (isWhitespace ∘ toInt) ++ (portText uri.port ++ rest) := by
    rw [addressText, List.append_assoc]
    exact dropWhile_solid _ solid
  rw [behind, dropped, kept] at filled ⊢
  split at filled
  · exact absurd rfl filled
  · rename_i several
    rw [if_neg several]

/-- The characters of a URI behind a host are its port, and the comma before the next entry where there is no comment. -/
theorem takeWhile_address (port : Text) {comments : Text} (follows : Follows tail) :
    (portText port ++ (remarkText comments ++ tail)).takeWhile (isUriChar ∘ toInt) =
      portText port ++ if comments = [] ∧ tail ≠ [] then [byte ','] else [] := by
  have chars : ∀ char ∈ portText port, (isUriChar ∘ toInt) char = true := portText_chars port
  rw [List.takeWhile_append_of_pos chars, takeWhile_remark comments follows]

theorem length_extra (comments tail : Text) : (if comments = [] ∧ tail ≠ [] then [byte ','] else []).length ≤ 1 := by
  split <;> simp

/-- The host of an entry that is read back needs no escape. -/
theorem isPlain_of_received {ver : Version} (read : value.Read) (follows : Follows tail)
    (received : Received ver (behind isWhitespace (addressText value.url ++ (remarkText value.comments ++ tail))) value left) :
    UriHost.isPlain value.url.host = true := by
  obtain plain | ⟨part, inside, colon, long, kept⟩ := Uri.isPlain_or_longer received.url
  · exact plain
  · exfalso
    by_cases solid : value.url.host.dropWhile (isWhitespace ∘ toInt) = []
    · have skipped : behind isWhitespace (addressText value.url ++ (remarkText value.comments ++ tail)) =
          behind isWhitespace (portText value.url.port ++ (remarkText value.comments ++ tail)) := by
        rw [behind, behind, addressText, List.append_assoc, List.dropWhile_append, solid]
        rfl
      rw [skipped] at received inside
      rw [blank_refused read.comments follows received] at inside
      have short := inside.length_le
      rw [List.length_singleton] at short
      omega
    · have shorter := List.length_dropWhile_le (isWhitespace ∘ toInt) value.url.host
      rw [behind_solid solid received.filled] at inside
      by_cases all : ∀ char ∈ value.url.host.dropWhile (isWhitespace ∘ toInt), (isUriChar ∘ toInt) char = true
      · rw [List.takeWhile_append_of_pos all, takeWhile_address _ follows, portText] at inside
        have extra := length_extra value.comments tail
        split at inside
        · have short := inside.length_le
          rw [List.nil_append, List.length_append] at short
          omega
        · rw [List.cons_append] at inside
          obtain early | late := infix_of_absent inside colon
          · have short := early.length_le
            omega
          · refine kept fun char member => ?_
            obtain digit | comma := List.mem_append.1 (late.subset member)
            · exact UriHost.digit_keeps char (isDigit_digits _ char digit)
            · split at comma
              · rw [List.mem_singleton.1 comma]
                decide
              · cases comma
      · have short := inside.length_le
        have refused := takeWhile_short (portText value.url.port ++ (remarkText value.comments ++ tail)) all
        omega

theorem name_visible : ∀ char, isNameChar (toInt char) = true →
    isWhitespace (toInt char) = false ∧ isUriChar (toInt char) = true ∧ char ≠ byte '@' := by
  apply octet_forall
  decide

/-- A host without escapes that a target begins with is a name. -/
theorem name_of_plain {host rest : Text} (plain : UriHost.isPlain host = true) (accepted : ∃ uri, Uri.parse (host ++ rest) = .ok uri) :
    ∀ char ∈ host, isNameChar (toInt char) = true := by
  obtain ⟨inner, rfl, -⟩ | ⟨-, bracket, -⟩ := plain_cases plain
  · exact absurd accepted (Uri.parse_bracket _)
  · cases UriHost.set_iff.1 (set_plain plain) with
    | @address inner shape _ _ =>
        rw [shape] at bracket
        exact absurd List.mem_cons_self bracket
    | regular _ decoded => exact ((decodeKeeping_length decoded).2 le_rfl).2

section Named

variable {uri later : Uri} {host rest : Text}

theorem named_name (filled : host ≠ []) (names : ∀ char ∈ host, isNameChar (toInt char) = true) : UriHost.Named host host :=
  .regular filled (decodeKeeping_all names)

/-- A name before a port or the end is the host of an authority. -/
theorem readAuthority_name (filled : host ≠ []) (names : ∀ char ∈ host, isNameChar (toInt char) = true)
    (ends : rest = [] ∨ rest.head? = some (byte ':')) (user : byte '@' ∉ rest) (uri : Uri) :
    Uri.readAuthority uri (host ++ rest) = Uri.readPort { uri with host } rest := by
  have absent : byte '@' ∉ host ++ rest := by
    rw [List.mem_append, not_or]
    exact ⟨fun member => (name_visible _ (names _ member)).2.2 rfl, user⟩
  have named := named_name filled names
  rw [Uri.readAuthority, if_neg absent, Uri.readAddress, Uri.readHost_named named (.inr ends)]
  change (UriHost.set host).bind _ = _
  rw [UriHost.set_iff.2 named]
  rfl

/-- The characters of a proxy are those of an authority. -/
theorem parse_proxy (names : ∀ char ∈ host, isNameChar (toInt char) = true) (filled : host ≠ []) {port : Text}
    (digits : ∀ char ∈ port, isNameChar (toInt char) = true) :
    Uri.parse (text "http://" ++ (host ++ byte ':' :: port)) =
      Uri.readPort { Uri.empty with scheme := text "http", host } (byte ':' :: port) := by
  have flat : ∀ char ∈ host ++ byte ':' :: port, inAuthority char = true := by
    intro char member
    rw [List.mem_append, List.mem_cons] at member
    obtain inside | rfl | inside := member
    · exact (Uri.name_spec char (names char inside)).2.1
    · rfl
    · exact (Uri.name_spec char (digits char inside)).2.1
  have user : byte '@' ∉ byte ':' :: port := by
    rw [List.mem_cons, not_or]
    exact ⟨by decide, fun member => (name_visible _ (digits _ member)).2.2 rfl⟩
  rw [Uri.parse_flat flat, readAuthority_name filled names (.inr rfl) user]

theorem parse_alone (names : ∀ char ∈ host, isNameChar (toInt char) = true) (filled : host ≠ []) :
    Uri.parse (text "http://" ++ host) = .ok { Uri.empty with scheme := text "http", host } := by
  have read := readAuthority_name filled names (.inl rfl) List.not_mem_nil { Uri.empty with scheme := text "http" }
  rw [List.append_nil] at read
  rw [Uri.parse_flat fun char member => (Uri.name_spec char (names char member)).2.1, read]
  rfl

end Named

theorem digit_name : ∀ char, isDigit (toInt char) = true → isNameChar (toInt char) = true ∧ char ≠ byte ',' := by
  apply octet_forall
  decide

theorem solid_host {host : Text} (filled : host ≠ []) (solid : ∀ char ∈ host, isWhitespace (toInt char) = false) :
    host.dropWhile (isWhitespace ∘ toInt) = host := by
  obtain ⟨first, others, rfl⟩ := List.exists_cons_of_ne_nil filled
  exact List.dropWhile_cons_of_neg (by simp [solid first List.mem_cons_self])

theorem keeps_visible : ∀ char, UriHost.keeps (toInt char) = true →
    isWhitespace (toInt char) = false ∧ isUriChar (toInt char) = true := by
  apply octet_forall
  decide

/-- The target of an entry whose host is a name. -/
def targetText (value : Via) (tail : Text) : Text :=
  value.url.host ++ (portText value.url.port ++ if value.comments = [] ∧ tail ≠ [] then [byte ','] else [])

theorem takeWhile_target (names : ∀ char ∈ value.url.host, isNameChar (toInt char) = true) (follows : Follows tail) :
    (value.url.host ++ (portText value.url.port ++ (remarkText value.comments ++ tail))).takeWhile (isUriChar ∘ toInt) =
      targetText value tail := by
  have chars : ∀ char ∈ value.url.host, (isUriChar ∘ toInt) char = true := fun char member =>
    (name_visible char (names char member)).2.1
  rw [List.takeWhile_append_of_pos chars, takeWhile_address _ follows, targetText]

theorem dropWhile_target (names : ∀ char ∈ value.url.host, isNameChar (toInt char) = true)
    (apart : value.comments = [] → tail = []) :
    (value.url.host ++ (portText value.url.port ++ (remarkText value.comments ++ tail))).dropWhile (isUriChar ∘ toInt) =
      remarkText value.comments ++ tail := by
  have chars : ∀ char ∈ value.url.host, (isUriChar ∘ toInt) char = true := fun char member =>
    (name_visible char (names char member)).2.1
  have digits : ∀ char ∈ portText value.url.port, (isUriChar ∘ toInt) char = true := portText_chars _
  rw [List.dropWhile_append_of_pos chars, List.dropWhile_append_of_pos digits]
  cases comments : value.comments with
  | nil => rw [apart comments]; rfl
  | cons first comments => rfl

/-- The comment of an entry is read behind its target, and the text behind the entry is left. -/
theorem comment_target (read : value.Read) (apart : value.comments = [] → tail = []) :
    ∃ found, comment (kept ((kept (remarkText value.comments ++ tail)).dropWhile (isWhitespace ∘ toInt))) =
      some (found, tail) ∧ value.comments = found.getD [] := by
  obtain none | ⟨body, some, closed⟩ := read.comments
  · rw [apart none, none]
    exact ⟨.none, rfl, rfl⟩
  · obtain ⟨first, others, rfl⟩ : ∃ first others, body = first :: others := by
      cases body with
      | nil => cases closed
      | cons first others => exact ⟨first, others, rfl⟩
    rw [some]
    exact ⟨.some (byte '(' :: first :: others), comment_closed closed tail, rfl⟩

theorem isPlain_iff : value.isPlain = true ↔
    value.url = { Uri.empty with scheme := text "http", host := value.url.host, port := value.url.port } ∧
      UriHost.isName value.url.host = true ∧ (value.url.port = [] ∨ UriScheme.isValid value.url.host = true ∧
        digits 10 (number 10 value.url.port) = value.url.port) := by
  rw [isPlain, Bool.and_eq_true, Bool.and_eq_true, Bool.or_eq_true, Bool.and_eq_true, beq_iff_eq, beq_iff_eq,
    List.isEmpty_iff, and_assoc]

theorem isName_iff {host : Text} : UriHost.isName host = true ↔ host ≠ [] ∧ ∀ char ∈ host, isNameChar (toInt char) = true := by
  rw [UriHost.isName, Bool.and_eq_true, Bool.not_eq_true', List.isEmpty_eq_false_iff, List.all_eq_true]
  rfl

/-- A target without a port is the host of the proxy. -/
theorem target_alone {host extra : Text} {uri : Uri} (names : ∀ char ∈ host, isNameChar (toInt char) = true) (filled : host ≠ [])
    (few : ∀ char ∈ extra, isNameChar (toInt char) = true) (same : uri.host = host) :
    Uri.parse (text "http://" ++ (host ++ extra)) = .ok uri ↔
      uri = { Uri.empty with scheme := text "http", host } ∧ extra = [] := by
  have all : ∀ char ∈ host ++ extra, isNameChar (toInt char) = true := by
    intro char member
    obtain inside | inside := List.mem_append.1 member
    · exact names char inside
    · exact few char inside
  rw [parse_alone all (by simp [filled]), Except.ok.injEq]
  constructor
  · rintro rfl
    have none : extra = [] := by simpa using same
    exact ⟨by rw [none, List.append_nil], none⟩
  · rintro ⟨rfl, rfl⟩
    rw [List.append_nil]

/-- A target with a port has its digits and nothing behind them. -/
theorem target_port {host extra : Text} {uri : Uri} {port : Nat} (names : ∀ char ∈ host, isNameChar (toInt char) = true)
    (filled : host ≠ []) (few : extra = [] ∨ extra = [byte ',']) (ranged : 0 < port ∧ port ≤ 65535) :
    Uri.parse (text "http://" ++ (host ++ byte ':' :: (digits 10 port ++ extra))) = .ok uri ↔
      uri = { Uri.empty with scheme := text "http", host, port := digits 10 port } ∧ extra = [] := by
  have all : ∀ char ∈ digits 10 port ++ extra, isNameChar (toInt char) = true := by
    intro char member
    obtain inside | inside := List.mem_append.1 member
    · exact (digit_name char (isDigit_digits _ char inside)).1
    · obtain rfl | rfl := few
      · cases inside
      · rw [List.mem_singleton.1 inside]
        decide
  rw [parse_proxy names filled all, Uri.readPort_ok]
  constructor
  · rintro (⟨found, same, number, rfl⟩ | ⟨other, -⟩)
    · obtain rfl := List.tail_eq_of_cons_eq same
      have none : extra = [] := by
        obtain none | rfl := few
        · exact none
        · exact absurd rfl (digit_name _ (number.1.2 (byte ',') (by simp))).2
      exact ⟨by rw [none, List.append_nil], none⟩
    · exact absurd rfl other
  · rintro ⟨rfl, rfl⟩
    refine .inl ⟨digits 10 port, by rw [List.append_nil], ⟨⟨digits_ne_nil _, isDigit_digits _⟩, ?_⟩, rfl⟩
    rwa [number_digits]

/-- The target is parsed to the proxy exactly when it is plain and no comma follows it. -/
theorem target_iff (read : value.Read) (names : ∀ char ∈ value.url.host, isNameChar (toInt char) = true) :
    (∃ uri, Uri.parse (targetText value tail) = .ok uri) ∧
        Uri.parse (text "http://" ++ targetText value tail) = .ok value.url ↔
      value.isPlain = true ∧ (value.comments = [] → tail = []) := by
  have filled := read.url.host
  have named : UriHost.isName value.url.host = true := isName_iff.2 ⟨filled, names⟩
  have extra : (if value.comments = [] ∧ tail ≠ [] then [byte ','] else []) = [] ∨
      (if value.comments = [] ∧ tail ≠ [] then [byte ','] else []) = [byte ','] := by
    split <;> simp
  have apart : (if value.comments = [] ∧ tail ≠ [] then [byte ','] else []) = [] ↔ (value.comments = [] → tail = []) := by
    simp
  rw [isPlain_iff, targetText, ← apart]
  simp only [named, true_and]
  generalize (if value.comments = [] ∧ tail ≠ [] then [byte ','] else []) = comma at extra
  have few : ∀ char ∈ comma, isNameChar (toInt char) = true := by
    obtain rfl | rfl := extra
    · simp
    · rw [List.forall_mem_singleton]
      decide
  obtain none | ranged := read.url.port
  · have all : ∀ char ∈ value.url.host ++ comma, isNameChar (toInt char) = true := by
      intro char member
      obtain inside | inside := List.mem_append.1 member
      · exact names char inside
      · exact few char inside
    have empty : portText value.url.port = [] := by rw [none]; rfl
    rw [empty, List.nil_append, target_alone names filled few rfl, none]
    have accepted : ∃ uri, Uri.parse (value.url.host ++ comma) = .ok uri := ⟨_, Uri.parse_name all⟩
    simp only [accepted, true_and, true_or, and_true]
    rfl
  · have some : portText value.url.port = byte ':' :: digits 10 (number 10 value.url.port) := by
      rw [portText, if_neg (by simpa using ranged.1.1)]
    have coded : ∀ char ∈ digits 10 (number 10 value.url.port) ++ comma, isNameChar (toInt char) = true := by
      intro char member
      obtain inside | inside := List.mem_append.1 member
      · exact (digit_name char (isDigit_digits _ char inside)).1
      · exact few char inside
    rw [some, List.cons_append, Uri.parse_port names coded, target_port names filled extra ranged.2]
    simp only [ranged.1.1, false_or]
    constructor
    · rintro ⟨valid, same, none⟩
      have port : digits 10 (number 10 value.url.port) = value.url.port := (congrArg Uri.port same).symm
      rw [port] at same
      exact ⟨⟨same, valid, port⟩, none⟩
    · rintro ⟨⟨same, valid, port⟩, none⟩
      rw [port]
      exact ⟨valid, same, none⟩

/-- An entry that is not too short is longer than one character behind its version. -/
theorem length_entry (filled : value.url.host ≠ []) (apart : value.comments = [] → value.isShort = false) :
    (value.url.host ++ (portText value.url.port ++ (remarkText value.comments ++ tail))).length ≠ 1 := by
  have positive := List.length_pos_iff.2 filled
  simp only [List.length_append]
  intro one
  have comments : value.comments = [] := by
    rw [remarkText] at one
    split at one
    · exact List.isEmpty_iff.1 (by assumption)
    · rw [List.length_cons] at one
      omega
  have port : value.url.port.isEmpty = true := by
    rw [portText] at one
    split at one
    · assumption
    · rw [List.length_cons] at one
      omega
  have short := apart comments
  have single : value.url.host.length = 1 := by omega
  rw [isShort, port, comments, single] at short
  cases short

/-- An entry is read back exactly when it is plain, and without a comment it is the last one and not too short. -/
theorem received_printed (read : value.Read) (follows : Follows tail) :
    Received value.ver (behind isWhitespace (addressText value.url ++ (remarkText value.comments ++ tail))) value left ↔
      value.isPlain = true ∧ (value.comments = [] → tail = [] ∧ value.isShort = false) ∧ left = tail := by
  have filled := read.url.host
  constructor
  · intro received
    have plain := isPlain_of_received read follows received
    have visible := fun char member => keeps_visible char ((UriHost.isPlain_spec plain).2 char member)
    have same := solid_host filled fun char member => (visible char member).1
    have shape := behind_solid (by rw [same]; exact filled) received.filled
    rw [same] at shape
    rw [shape] at received
    have names : ∀ char ∈ value.url.host, isNameChar (toInt char) = true := by
      have accepted := received.accepted
      have chars : ∀ char ∈ value.url.host, (isUriChar ∘ toInt) char = true := fun char member => (visible char member).2
      rw [List.takeWhile_append_of_pos chars] at accepted
      exact name_of_plain plain accepted
    have accepted := received.accepted
    have url := received.url
    rw [takeWhile_target names follows] at accepted url
    obtain ⟨plain, apart⟩ := (target_iff read names).1 ⟨accepted, url⟩
    refine ⟨plain, fun none => ⟨apart none, ?_⟩, ?_⟩
    · by_contra short
      rw [Bool.not_eq_false, isShort, Bool.and_eq_true, Bool.and_eq_true, beq_iff_eq] at short
      obtain ⟨⟨single, port⟩, -⟩ := short
      have alone : behind isWhitespace (addressText value.url ++ (remarkText value.comments ++ tail)) = [] := by
        rw [addressText, portText, if_pos port, none, apart none, behind, List.append_nil]
        change kept ((value.url.host ++ []).dropWhile _) = []
        rw [List.append_nil, same, kept, if_pos single]
      rw [alone] at shape
      exact filled (List.append_eq_nil_iff.1 shape.symm).1
    · obtain ⟨found, closed, -⟩ := received.comments
      obtain ⟨other, behind, -⟩ := comment_target read apart
      rw [dropWhile_target names apart, behind] at closed
      cases closed
      rfl
  · rintro ⟨plain, apart, rfl⟩
    have names := (isName_iff.1 (isPlain_iff.1 plain).2.1).2
    have last := fun none => (apart none).1
    have same := solid_host filled fun char member => (name_visible char (names char member)).1
    have shape : behind isWhitespace (addressText value.url ++ (remarkText value.comments ++ left)) =
        value.url.host ++ (portText value.url.port ++ (remarkText value.comments ++ left)) := by
      rw [behind, addressText, List.append_assoc, dropWhile_solid _ (by rw [same]; exact filled), same, kept,
        if_neg (length_entry filled fun none => (apart none).2)]
    obtain ⟨accepted, url⟩ := (target_iff read names).2 ⟨plain, last⟩
    obtain ⟨found, closed, comments⟩ := comment_target read last
    rw [shape]
    refine ⟨rfl, ?_, ?_, ?_, found, ?_, comments⟩
    · rw [takeWhile_target names follows, targetText]
      simp [filled]
    · rwa [takeWhile_target names follows]
    · rwa [takeWhile_target names follows]
    · rwa [dropWhile_target names last]

/-- The printed entry is read as itself exactly under these conditions, and the text behind it is left. -/
theorem via_printed (read : value.Read) (follows : Follows tail) :
    via (value.str ++ tail) = some (value, left) ↔
      value.isPlain = true ∧ (value.comments = [] → tail = [] ∧ value.isShort = false) ∧ left = tail := by
  obtain ⟨version, chars⟩ := read.ver.chars
  have more : addressText value.url ++ (remarkText value.comments ++ tail) ≠ [] := by
    rw [addressText, List.append_assoc]
    exact fun none => read.url.host (List.append_eq_nil_iff.1 none).1
  rw [str_parts read, List.append_assoc, List.cons_append, List.append_assoc,
    via_version chars version read.ver.ofString more, received_iff, received_printed read follows]

/-- The printed list begins with its first entry. -/
theorem listed_cons (value next : Via) (rest : List Via) :
    Field.listed ((value :: next :: rest).map Via.str) =
      value.str ++ byte ',' :: byte ' ' :: Field.listed ((next :: rest).map Via.str) := by
  rw [Field.listed, List.map_cons, List.map_cons, List.intercalate_cons_cons, List.append_assoc]
  rfl

/-- The printed list of entries begins with a version, and it is longer than one character. -/
theorem listed_begins (value : Via) (rest : List Via) (read : value.Read) :
    ∃ first more, Field.listed ((value :: rest).map Via.str) = first :: more ∧ more ≠ [] ∧
      isVersionChar (toInt first) = true := by
  obtain ⟨version, chars⟩ := read.ver.chars
  obtain ⟨first, others, shape⟩ := List.exists_cons_of_ne_nil version
  rw [shape, List.forall_mem_cons] at chars
  have begins : ∃ more, Field.listed ((value :: rest).map Via.str) =
      value.ver.str ++ byte ' ' :: (addressText value.url ++ (remarkText value.comments ++ more)) := by
    cases rest with
    | nil => exact ⟨[], by simp [Field.listed, str_parts read]⟩
    | cons next rest =>
        refine ⟨byte ',' :: byte ' ' :: Field.listed ((next :: rest).map Via.str), ?_⟩
        rw [listed_cons, str_parts read]
        simp
  obtain ⟨more, begins⟩ := begins
  exact ⟨first, _, by rw [begins, shape, List.cons_append], by simp, chars.1⟩

/-- A list of entries is read back exactly when each of them is. -/
theorem list_printed (values : List Via) (filled : values ≠ []) (read : ∀ value ∈ values, value.Read) (fuel : Nat)
    (enough : values.length ≤ fuel) :
    (∃ left, list via fuel (Field.listed (values.map Via.str)) = some (values, left)) ↔ readsBack values = true := by
  induction values generalizing fuel with
  | nil => exact absurd rfl filled
  | cons value rest inductionHypothesis =>
      obtain ⟨fuel, rfl⟩ : ∃ smaller, fuel = smaller + 1 := ⟨fuel - 1, by simp at enough; omega⟩
      have here := read value List.mem_cons_self
      cases rest with
      | nil =>
          have alone : Field.listed ([value].map Via.str) = value.str ++ [] := by simp [Field.listed]
          rw [readsBack, Bool.and_eq_true, Bool.not_eq_true', alone]
          constructor
          · rintro ⟨finish, taken⟩
            obtain ⟨first, left, start, ⟨-, same⟩ | ⟨middle, others, comma, -, same⟩⟩ := list_succ.1 taken
            · cases same
              obtain ⟨plain, last, -⟩ := (via_printed here .nothing).1 start
              refine ⟨plain, ?_⟩
              by_cases none : value.comments = []
              · exact (last none).2
              · rw [isShort, List.isEmpty_eq_false_iff.2 none, Bool.and_false]
            · cases same
              obtain ⟨-, -, rfl⟩ := (via_printed here .nothing).1 start
              cases comma
          · rintro ⟨plain, long⟩
            have start := (via_printed here .nothing).2 ⟨plain, fun _ => ⟨rfl, long⟩, rfl⟩
            exact ⟨[], list_succ.2 ⟨value, [], start, .inl ⟨rfl, rfl⟩⟩⟩
      | cons next rest =>
          obtain ⟨first, more, shape, long, version⟩ := listed_begins next rest (read next (by simp))
          have follows : Follows (byte ',' :: byte ' ' :: first :: more) := .next version long
          have comma : special ',' (behind isWhitespace (byte ',' :: byte ' ' :: first :: more)) =
              some (true, byte ' ' :: first :: more) := rfl
          have skipped : behind isWhitespace (byte ' ' :: first :: more) = first :: more := by
            have solid := (version_apart first version).1
            obtain ⟨second, others, rfl⟩ := List.exists_cons_of_ne_nil long
            refine behind_more ?_
            change (first :: second :: others).dropWhile (isWhitespace ∘ toInt) = _
            exact List.dropWhile_cons_of_neg (by simp [solid])
          have again := inductionHypothesis (List.cons_ne_nil _ _) (fun other member => read other (List.mem_cons_of_mem _ member))
            fuel (by simpa using enough)
          rw [shape] at again
          rw [listed_cons, shape, readsBack, Bool.and_eq_true, Bool.and_eq_true, Bool.not_eq_true', ← again]
          constructor
          · rintro ⟨finish, taken⟩
            obtain ⟨start, left, begins, ⟨-, same⟩ | ⟨middle, others, stop, behind, same⟩⟩ := list_succ.1 taken
            · cases same
            · cases same
              obtain ⟨plain, last, rfl⟩ := (via_printed here follows).1 begins
              rw [comma] at stop
              cases stop
              rw [skipped] at behind
              refine ⟨⟨plain, List.isEmpty_eq_false_iff.2 fun none => ?_⟩, finish, behind⟩
              exact absurd (last none).1 (List.cons_ne_nil _ _)
          · rintro ⟨⟨plain, comments⟩, finish, behind⟩
            have begins := (via_printed here follows).2
              ⟨plain, fun none => absurd none (List.isEmpty_eq_false_iff.1 comments), rfl⟩
            rw [← skipped] at behind
            exact ⟨finish, list_succ.2 ⟨value, _, begins, .inr ⟨_, _, comma, behind, rfl⟩⟩⟩

end Via

/-- A list that is not empty is printed to a text that is longer than the list. -/
theorem listed_length (values : List Via) (read : ∀ value ∈ values, value.Read) :
    values.length ≤ (Field.listed (values.map Via.str)).length := by
  induction values with
  | nil => exact Nat.zero_le _
  | cons value rest inductionHypothesis =>
      cases rest with
      | nil =>
          obtain ⟨first, more, shape, -, -⟩ := Via.listed_begins value [] (read value List.mem_cons_self)
          rw [shape]
          simp
      | cons next rest =>
          have shorter := inductionHypothesis fun other member => read other (List.mem_cons_of_mem _ member)
          rw [Via.listed_cons]
          simp only [List.length_append, List.length_cons] at shorter ⊢
          omega

/-- A host is read back from its printed form exactly when it needs no escape. -/
theorem parseHostPort_printed {string : Text} {given : HostPort} (parsed : parseHostPort string = .ok given) :
    parseHostPort given.str = .ok given ↔ UriHost.isPlain given.host = true := by
  refine ⟨fun again => isPlain_of_read List.infix_rfl again rfl, fun plain => parseHostPort_str plain ?_⟩
  obtain ⟨uri, _, rest⟩ := ok_of_bind (catchBadUri_ok parsed)
  dsimp only at rest
  split at rest
  · cases rest
  · split at rest
    · cases rest
      exact Nat.two_pow_pos 16
    · obtain ⟨port, number, built⟩ := ok_of_bind rest
      cases built
      obtain ⟨value, _, same⟩ := ok_of_bind number
      cases same
      dsimp only
      omega

/-- A list of proxies is read back from its printed form exactly when its entries are kept apart. -/
theorem parseVias_printed {string : Text} {values : List Via} (parsed : parseVias string = .ok values) :
    parseVias (Field.listed (values.map Via.str)) = .ok values ↔ Via.readsBack values = true := by
  have read := parseVias_read parsed
  rw [parseVias, Reader.parseAll_iff Reader.mirrors_readVia]
  cases values with
  | nil => exact iff_of_true (.inl ⟨rfl, rfl⟩) rfl
  | cons value rest =>
      obtain ⟨first, more, shape, -, -⟩ := Via.listed_begins value rest (read value List.mem_cons_self)
      have filled : Field.listed ((value :: rest).map Via.str) ≠ [] := by
        rw [shape]
        exact List.cons_ne_nil _ _
      have enough := listed_length (value :: rest) read
      rw [← Via.list_printed (value :: rest) (List.cons_ne_nil _ _) read _ (Nat.le_succ_of_le enough)]
      constructor
      · rintro (⟨-, none⟩ | ⟨-, taken⟩)
        · cases none
        · exact taken
      · exact fun taken => .inr ⟨filled, taken⟩

/-- A host and a list of proxies that are accepted are read back exactly under these conditions. -/
theorem host_via_printed_iff (string : Text) :
    (∀ value, parseHostPort string = .ok value →
      (parseHostPort value.str = .ok value ↔ UriHost.isPlain value.host = true)) ∧
    (∀ values, parseVias string = .ok values →
      (parseVias (Field.listed (values.map Via.str)) = .ok values ↔ Via.readsBack values = true)) :=
  ⟨fun _ => parseHostPort_printed, fun _ => parseVias_printed⟩

theorem ok_of_toOption {value : Type} {result : Except Fault value} {found : value} (some : result.toOption = some found) :
    result = .ok found := by
  cases result with
  | error fault => cases some
  | ok other => exact congrArg Except.ok (Option.some.inj some)

/-- A proxy with the version 1.1. -/
def proxy (host port comments : Text) : Via :=
  ⟨⟨[], 1, 1⟩, { Uri.empty with scheme := text "http", host, port }, comments⟩

def plainHost : HostPort := ⟨text "localhost", 0⟩

/-- A proxy with a comment before a proxy with a port. -/
def keptProxies : List Via := [proxy (text "ab") [] (text "(c)"), proxy (text "cd") (text "80") []]

/-- Two proxies of a host each. -/
def bareProxies : List Via := [proxy (text "ab") [] [], proxy (text "cd") [] []]

instance plainHost_accepted : Fact ((parseHostPort (text "localhost")).toOption = some plainHost) := ⟨by decide +kernel⟩

instance keptProxies_accepted : Fact ((parseVias (text "1.1 ab (c), 1.1 cd:80")).toOption = some keptProxies ∧
    Via.readsBack keptProxies = true) := ⟨by decide +kernel⟩

theorem host_via_printed_iff_kept : (parseHostPort plainHost.str = .ok plainHost ↔ UriHost.isPlain plainHost.host = true) ∧
    parseVias (Field.listed (keptProxies.map Via.str)) = .ok keptProxies :=
  ⟨(host_via_printed_iff (text "localhost")).1 plainHost (ok_of_toOption plainHost_accepted.out),
    ((host_via_printed_iff (text "1.1 ab (c), 1.1 cd:80")).2 keptProxies (ok_of_toOption keptProxies_accepted.out.1)).2
      keptProxies_accepted.out.2⟩

instance bareProxies_accepted : Fact ((parseVias (text "1.1 ab , 1.1 cd")).toOption = some bareProxies ∧
    ((parseVias (Field.listed (bareProxies.map Via.str))).toOption.map List.length) = some 1) := ⟨by decide +kernel⟩

/-- The host of the first proxy takes the comma behind it, and the second proxy is lost. -/
theorem bareProxies_merged : ¬ ∀ string values, parseVias string = .ok values →
    parseVias (Field.listed (values.map Via.str)) = .ok values := by
  intro claimed
  have single := bareProxies_accepted.out.2
  rw [claimed _ bareProxies (ok_of_toOption bareProxies_accepted.out.1)] at single
  cases single

end SimpleNFast.Http
