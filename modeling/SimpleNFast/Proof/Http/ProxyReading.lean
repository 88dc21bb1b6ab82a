import SimpleNFast.Construction.Http.ListGrammar
import SimpleNFast.Proof.Http.TextReaders
import SimpleNFast.Proof.Http.UriSplitting

set_option maxRecDepth 100000

namespace SimpleNFast.Http

section Version

/-- A version of one digit on each side of its dot; the protocol may be absent. -/
structure Version.Shaped (version : Version) : Prop where
  protocol : ∀ char ∈ version.protocol, isTchar (toInt char) = true ∧ char ≠ byte '/'
  numbers : ∃ major minor, isDigit (toInt major) = true ∧ isDigit (toInt minor) = true ∧
    version.major = toInt major - code '0' ∧ version.minor = toInt minor - code '0'

theorem decimal_digit : ∀ char, isDigit (toInt char) = true → decimal (toInt char - code '0') = [char] := by
  apply octet_forall
  decide

theorem digit_version : ∀ char, isDigit (toInt char) = true → char ≠ byte '/' ∧ Reader.isVersionChar (toInt char) = true := by
  apply octet_forall
  decide

theorem version_apart : ∀ char, Reader.isVersionChar (toInt char) = true →
    isWhitespace (toInt char) = false ∧ char ≠ byte ',' ∧ char ≠ byte '(' := by
  apply octet_forall
  decide

theorem tchar_version : ∀ char, Reader.isVersionChar (toInt char) = true ↔ isTchar (toInt char) = true ∨ char = byte '/' := by
  apply octet_forall
  decide

namespace Version

variable {found : Text} {version : Version}

/-- The two digits behind the protocol are read. -/
theorem ofString_numbers {protocol : Text} {index : Nat} {fault : Fault}
    (chars : ∀ char ∈ protocol, isTchar (toInt char) = true ∧ char ≠ byte '/')
    (parsed : (do
      let major := toInt (found.getD index 0)
      if !isDigit major then throw fault
      if found.getD (index + 1) 0 != byte '.' then throw fault
      let minor := toInt (found.getD (index + 2) 0)
      if !isDigit minor then throw fault
      pure ⟨protocol, major - code '0', minor - code '0'⟩ : Except Fault Version) = .ok version) : version.Shaped := by
  dsimp only at parsed
  split at parsed
  · cases parsed
  · rename_i major
    split at parsed
    · cases parsed
    · split at parsed
      · cases parsed
      · rename_i minor
        cases parsed
        exact ⟨chars, _, _, by simpa using major, by simpa using minor, rfl, rfl⟩

/-- A version that is accepted is a protocol and two digits. -/
theorem shaped_of_ofString (chars : ∀ char ∈ found, Reader.isVersionChar (toInt char) = true)
    (parsed : Version.ofString found = .ok version) : version.Shaped := by
  rw [Version.ofString] at parsed
  by_cases slash : byte '/' ∈ found
  · simp only [if_pos slash] at parsed
    refine ofString_numbers (fun char member => ?_) parsed
    have other : char ≠ byte '/' := by
      simpa using List.mem_takeWhile_imp member
    exact ⟨((tchar_version char).1 (chars char ( List.takeWhile_subset _ member))).resolve_right other, other⟩
  · simp only [if_neg slash] at parsed
    exact ofString_numbers (by simp) parsed

theorem str_numbers {major minor : UInt8} (high : isDigit (toInt major) = true) (low : isDigit (toInt minor) = true)
    (protocol : Text) : Version.str ⟨protocol, toInt major - code '0', toInt minor - code '0'⟩ =
      (if protocol.isEmpty then [] else protocol ++ [byte '/']) ++ [major, byte '.', minor] := by
  rw [Version.str, decimal_digit major high, decimal_digit minor low]
  simp

/-- The printed version is read back. -/
theorem Shaped.ofString (shaped : version.Shaped) : Version.ofString version.str = .ok version := by
  obtain ⟨protocol, left, right⟩ := version
  obtain ⟨chars, major, minor, high, low, rfl, rfl⟩ := shaped
  have first := (digit_version major high).1
  have last := (digit_version minor low).1
  rw [str_numbers high low]
  cases protocol with
  | nil =>
      have absent : byte '/' ∉ [major, byte '.', minor] := by
        simp [first.symm, last.symm]
        decide
      rw [List.isEmpty_nil, if_pos rfl, List.nil_append, Version.ofString]
      simp only [if_neg absent]
      simp [high, low]
      rfl
  | cons char protocol =>
      have taken : (char :: protocol ++ [byte '/'] ++ [major, byte '.', minor]).takeWhile (· != byte '/') = char :: protocol := by
        rw [List.append_assoc]
        exact takeWhile_stop (fun other member => by simpa using (chars other member).2) (by decide) _
      have present : byte '/' ∈ char :: protocol ++ [byte '/'] ++ [major, byte '.', minor] := by simp
      have behind (index : Nat) : (char :: protocol ++ [byte '/'] ++ [major, byte '.', minor]).getD
          ((char :: protocol).length + 1 + index) 0 = [major, byte '.', minor].getD index 0 := by
        have long : (char :: protocol).length + 1 = (char :: protocol ++ [byte '/']).length := by simp
        rw [long, List.getD_eq_getElem?_getD, List.getElem?_append_right (Nat.le_add_right _ _), Nat.add_sub_cancel_left,
          ← List.getD_eq_getElem?_getD]
      have start := behind 0
      have dot := behind 1
      have stop := behind 2
      rw [List.isEmpty_cons, if_neg Bool.false_ne_true, Version.ofString]
      simp only [if_pos present, taken]
      rw [Nat.add_zero] at start
      rw [start, dot, stop]
      simp [high, low]
      rfl

theorem Shaped.chars (shaped : version.Shaped) :
    version.str ≠ [] ∧ ∀ char ∈ version.str, Reader.isVersionChar (toInt char) = true := by
  obtain ⟨protocol, left, right⟩ := version
  obtain ⟨chars, major, minor, high, low, rfl, rfl⟩ := shaped
  rw [str_numbers high low]
  refine ⟨by simp, fun char member => ?_⟩
  rw [List.mem_append] at member
  obtain word | number := member
  · split at word
    · cases word
    · rw [List.mem_append, List.mem_singleton] at word
      obtain inside | rfl := word
      · exact (tchar_version char).2 (.inl (chars char inside).1)
      · decide
  · simp only [List.mem_cons, List.not_mem_nil, or_false] at number
    obtain rfl | rfl | rfl := number
    · exact (digit_version _ high).2
    · decide
    · exact (digit_version _ low).2

end Version

end Version

namespace Reader

section Closing

variable {mark : Char} {accepts : Int → Bool} {rest found left : Text}

theorem closing_mark {char : UInt8} (same : toInt char = code mark) (tail : Text) :
    closing mark accepts (char :: tail) = some ([char], tail) := by
  rw [closing.eq_def]
  simp only [same, if_true]

theorem closing_escape {char escaped : UInt8} (other : toInt char ≠ code mark) (slash : toInt char = code '\\')
    (valid : isEscaped (toInt escaped) = true) (tail : Text) :
    closing mark accepts (char :: escaped :: tail) =
      (closing mark accepts tail).map fun (found, rest) => (char :: escaped :: found, rest) := by
  rw [closing.eq_def]
  dsimp only
  rw [if_neg other, if_pos slash, if_pos valid]

theorem closing_plain {char : UInt8} (other : toInt char ≠ code mark) (plain : toInt char ≠ code '\\')
    (accepted : accepts (toInt char) = true) (tail : Text) :
    closing mark accepts (char :: tail) = (closing mark accepts tail).map fun (found, rest) => (char :: found, rest) := by
  rw [closing.eq_def]
  dsimp only
  rw [if_neg other, if_neg plain, if_pos accepted]

/-- What is closed is the start of the text, and the text behind it does not matter. -/
theorem closing_split (closed : closing mark accepts rest = some (found, left)) :
    rest = found ++ left ∧ ∀ tail, closing mark accepts (found ++ tail) = some (found, tail) := by
  fun_induction closing mark accepts rest generalizing found with
  | case1 => cases closed
  | case2 char rest same =>
      cases closed
      exact ⟨rfl, closing_mark same⟩
  | case3 => cases closed
  | case4 char other slash escaped rest accepted inductionHypothesis =>
      obtain ⟨⟨inner, behind⟩, more, same⟩ := Option.map_eq_some_iff.1 closed
      cases same
      obtain ⟨rfl, again⟩ := inductionHypothesis more
      refine ⟨rfl, fun tail => ?_⟩
      rw [List.cons_append, List.cons_append, closing_escape other slash accepted, again tail]
      rfl
  | case5 => cases closed
  | case6 char rest other plain accepted inductionHypothesis =>
      obtain ⟨⟨inner, behind⟩, more, same⟩ := Option.map_eq_some_iff.1 closed
      cases same
      obtain ⟨rfl, again⟩ := inductionHypothesis more
      refine ⟨rfl, fun tail => ?_⟩
      rw [List.cons_append, closing_plain other plain accepted, again tail]
      rfl
  | case7 => cases closed

/-- A refused character without a backslash before it stands behind what is closed. -/
theorem closing_refused {stop : UInt8} {after : Text}
    (refused : toInt stop ≠ code mark ∧ toInt stop ≠ code '\\' ∧ accepts (toInt stop) = false) {before : Text}
    (closed : closing mark accepts rest = some (found, left)) (split : rest = before ++ stop :: after)
    (unescaped : ∀ char ∈ before, toInt char ≠ code '\\') : found.length ≤ before.length := by
  fun_induction closing mark accepts rest generalizing found before with
  | case1 => cases closed
  | case2 char rest same =>
      cases closed
      cases before with
      | nil =>
          cases split
          exact absurd same refused.1
      | cons first before => simp
  | case3 => cases closed
  | case4 char other slash escaped rest accepted inductionHypothesis =>
      cases before with
      | nil =>
          cases split
          exact absurd slash refused.2.1
      | cons first before =>
          obtain ⟨rfl, -⟩ := List.cons.inj split
          exact absurd slash (unescaped char List.mem_cons_self)
  | case5 => cases closed
  | case6 char rest other plain accepted inductionHypothesis =>
      obtain ⟨⟨inner, behind⟩, more, same⟩ := Option.map_eq_some_iff.1 closed
      cases same
      cases before with
      | nil =>
          cases split
          rw [refused.2.2] at accepted
          cases accepted
      | cons first before =>
          cases split
          have shorter := inductionHypothesis more rfl fun other member => unescaped other (List.mem_cons_of_mem _ member)
          simpa using shorter
  | case7 => cases closed

end Closing

end Reader

section Entry

variable {ver : Version} {rest left : Text} {read : Via}

/-- The characters of a URI at the start of the text are parsed, and a comment may follow them behind blanks. -/
structure Reader.Received (ver : Version) (rest : Text) (read : Via) (left : Text) : Prop where
  ver : read.ver = ver
  filled : rest.takeWhile (Reader.isUriChar ∘ toInt) ≠ []
  accepted : ∃ uri, Uri.parse (rest.takeWhile (Reader.isUriChar ∘ toInt)) = .ok uri
  url : Uri.parse (text "http://" ++ rest.takeWhile (Reader.isUriChar ∘ toInt)) = .ok read.url
  comments : ∃ found, Reader.comment (Reader.kept
      ((Reader.kept (rest.dropWhile (Reader.isUriChar ∘ toInt))).dropWhile (isWhitespace ∘ toInt))) = some (found, left) ∧
    read.comments = found.getD []

namespace Reader

/-- The text behind the characters that are accepted. -/
def behind (accepts : Int → Bool) (rest : Text) : Text := kept (rest.dropWhile (accepts ∘ toInt))

theorem word_eq (accepts : Int → Bool) : word accepts rest = some (rest.takeWhile (accepts ∘ toInt), behind accepts rest) := rfl

theorem spaces_eq : spaces rest = some (!(rest.takeWhile (isWhitespace ∘ toInt)).isEmpty, behind isWhitespace rest) := rfl

/-- A target that is not empty is parsed. -/
theorem uri_some {found : Text} (filled : found ≠ []) :
    uri rest = some (found, left) ↔
      (∃ url, Uri.parse found = .ok url) ∧ found = rest.takeWhile (isUriChar ∘ toInt) ∧ left = behind isUriChar rest := by
  rw [uri, bind_some (word_eq isUriChar)]
  cases empty : (rest.takeWhile (isUriChar ∘ toInt)).isEmpty with
  | true =>
      rw [if_pos rfl]
      refine iff_of_false (fun taken => ?_) fun taken => filled (taken.2.1.trans (List.isEmpty_iff.1 empty))
      cases taken
      exact filled rfl
  | false =>
      rw [if_neg Bool.false_ne_true]
      constructor
      · intro taken
        obtain ⟨url, middle, parsed, taken⟩ := some_of_bind taken
        obtain ⟨accepted, rfl⟩ := ofExcept_some.1 parsed
        cases taken
        exact ⟨⟨url, accepted⟩, rfl, rfl⟩
      · rintro ⟨⟨url, parsed⟩, rfl, rfl⟩
        exact bind_some (ofExcept_some.2 ⟨parsed, rfl⟩)

theorem received_iff : received ver rest = some (read, left) ↔ Received ver rest read left := by
  constructor
  · intro taken
    obtain ⟨found, middle, first, taken⟩ := some_of_bind taken
    cases empty : found.isEmpty with
    | true =>
        rw [empty, if_pos rfl] at taken
        cases taken
    | false =>
        rw [empty, if_neg Bool.false_ne_true] at taken
        have filled : found ≠ [] := List.isEmpty_eq_false_iff.1 empty
        obtain ⟨accepted, rfl, rfl⟩ := (uri_some filled).1 first
        obtain ⟨url, later, parsed, taken⟩ := some_of_bind taken
        obtain ⟨address, rfl⟩ := ofExcept_some.1 parsed
        rw [bind_some spaces_eq] at taken
        obtain ⟨comments, last, closed, taken⟩ := some_of_bind taken
        cases taken
        exact ⟨rfl, filled, accepted, address, comments, closed, rfl⟩
  · rintro ⟨rfl, filled, accepted, parsed, comments, closed, same⟩
    have empty : (rest.takeWhile (isUriChar ∘ toInt)).isEmpty = false := List.isEmpty_eq_false_iff.2 filled
    rw [received, bind_some ((uri_some filled).2 ⟨accepted, rfl, rfl⟩), empty, if_neg Bool.false_ne_true,
      bind_some (ofExcept_some.2 ⟨parsed, rfl⟩), bind_some spaces_eq]
    refine (bind_some closed).trans ?_
    rw [← same]
    rfl

theorem blanks_eq : blanks rest = some ((), behind isWhitespace rest) := rfl

/-- An entry begins with a version, and blanks follow it. -/
theorem via_some (taken : via rest = some (read, left)) :
    ∃ version later, (∀ char ∈ version, isVersionChar (toInt char) = true) ∧ Version.ofString version = .ok read.ver ∧
      Received read.ver later read left := by
  rw [via, bind_some blanks_eq, bind_some (word_eq isVersionChar)] at taken
  have chars : ∀ char ∈ (behind isWhitespace rest).takeWhile (isVersionChar ∘ toInt), isVersionChar (toInt char) = true :=
    fun char member => List.mem_takeWhile_imp (p := isVersionChar ∘ toInt) member
  split at taken
  · cases taken
  · obtain ⟨ver, middle, parsed, taken⟩ := some_of_bind taken
    obtain ⟨same, rfl⟩ := ofExcept_some.1 parsed
    rw [bind_some spaces_eq] at taken
    split at taken
    · have received := received_iff.1 taken
      obtain rfl := received.ver
      exact ⟨_, _, chars, same, received⟩
    · cases taken

/-- The version of an entry is read before one blank and what follows it. -/
theorem via_version {version : Text} (chars : ∀ char ∈ version, isVersionChar (toInt char) = true) (filled : version ≠ [])
    (parsed : Version.ofString version = .ok ver) (follows : rest ≠ []) :
    via (version ++ byte ' ' :: rest) = received ver (behind isWhitespace rest) := by
  obtain ⟨first, others, rfl⟩ := List.exists_cons_of_ne_nil filled
  obtain ⟨second, more, rfl⟩ := List.exists_cons_of_ne_nil follows
  have solid : isWhitespace (toInt first) = false := (version_apart first (chars first List.mem_cons_self)).1
  have start : behind isWhitespace (first :: others ++ byte ' ' :: second :: more) =
      first :: others ++ byte ' ' :: second :: more := by
    rw [behind, List.cons_append, List.dropWhile_cons_of_neg (by simp [solid])]
    cases others <;> exact kept_more
  have stop : (isVersionChar ∘ toInt) (byte ' ') = false := by decide
  have taken : (first :: others ++ byte ' ' :: second :: more).takeWhile (isVersionChar ∘ toInt) = first :: others :=
    takeWhile_stop chars stop _
  have dropped : behind isVersionChar (first :: others ++ byte ' ' :: second :: more) = byte ' ' :: second :: more := by
    have all : ∀ char ∈ first :: others, (isVersionChar ∘ toInt) char = true := chars
    rw [behind, List.dropWhile_append_of_pos all, List.dropWhile_cons_of_neg (by rw [stop]; exact Bool.false_ne_true)]
    exact kept_more
  have space : (byte ' ' :: second :: more).takeWhile (isWhitespace ∘ toInt) =
      byte ' ' :: (second :: more).takeWhile (isWhitespace ∘ toInt) := rfl
  have blank : behind isWhitespace (byte ' ' :: second :: more) = behind isWhitespace (second :: more) := rfl
  rw [via, bind_some blanks_eq, start, bind_some (word_eq isVersionChar), taken, dropped, List.isEmpty_cons,
    if_neg Bool.false_ne_true, bind_some (ofExcept_some.2 ⟨parsed, rfl⟩), bind_some spaces_eq, space, blank]
  rfl

end Reader

end Entry

/-- A text that changes when it is decoded loses two characters at least. -/
theorem decodeKeeping_gap {keeps : Int → Bool} {string decoded : Text} (read : decodeKeeping keeps string = some decoded) :
    decoded = string ∨ decoded.length + 2 ≤ string.length := by
  fun_induction decodeKeeping keeps string generalizing decoded with
  | case1 =>
      cases read
      exact .inl rfl
  | case2 char rest kept inductionHypothesis =>
      obtain ⟨tail, found, rfl⟩ := Option.map_eq_some_iff.1 read
      obtain rfl | shorter := inductionHypothesis found
      · exact .inl rfl
      · exact .inr (by simpa using shorter)
  | case3 char other first second rest escaped inductionHypothesis =>
      obtain ⟨tail, found, rfl⟩ := Option.map_eq_some_iff.1 read
      have shorter := (decodeKeeping_length found).1
      refine .inr ?_
      simp only [List.length_cons]
      omega
  | case4 => cases read
  | case5 => cases read

namespace Uri

open Components

variable {uri later : Uri}

/-- A host is present, and a port is a number in its range. -/
structure Addressed (uri : Uri) : Prop where
  host : uri.host ≠ []
  port : uri.port = [] ∨ UriPort.Ranged uri.port

theorem decoded_filled {part host : Text} (named : UriHost.Named part host) : host ≠ [] := by
  cases named with
  | address shape _ same => simp [same, shape]
  | regular filled decoded =>
      rintro rfl
      cases part with
      | nil => exact filled rfl
      | cons char rest =>
          rw [decodeKeeping.eq_def] at decoded
          dsimp only at decoded
          split at decoded
          · simp at decoded
          · split at decoded
            · split at decoded
              · simp at decoded
              · cases decoded
            · cases decoded

theorem readAddress_addressed {authority rest : Text} (port : uri.port = [] ∨ UriPort.Ranged uri.port)
    (read : readAddress uri authority rest = .ok later) : later.Addressed := by
  obtain ⟨⟨host, after⟩, _, read⟩ := ok_of_bind read
  obtain ⟨decoded, set, read⟩ := ok_of_bind read
  have filled := decoded_filled (UriHost.set_iff.1 set)
  obtain ⟨digits, _, ranged, rfl⟩ | ⟨_, rfl⟩ := readPort_ok.1 read
  · exact ⟨filled, .inr ranged⟩
  · exact ⟨filled, port⟩

theorem readAuthority_addressed {authority : Text} (port : uri.port = [] ∨ UriPort.Ranged uri.port)
    (read : readAuthority uri authority = .ok later) : later.Addressed := by
  rw [readAuthority] at read
  split at read
  · obtain ⟨named, user, read⟩ := ok_of_bind read
    obtain ⟨userinfo, _, _, rfl⟩ := readUserinfo_ok.1 user
    have same : ({ uri with userinfo } : Uri).port = [] ∨ UriPort.Ranged ({ uri with userinfo } : Uri).port := port
    exact readAddress_addressed same read
  · exact readAddress_addressed port read

theorem readAuthorities_addressed {fuel : Nat} {rest : Text} (bare : Bare uri) (addressed : uri.Addressed)
    (read : readAuthorities fuel uri rest = .ok later) : later.Addressed := by
  induction fuel generalizing uri rest with
  | zero =>
      cases read
      exact addressed
  | succ fuel inductionHypothesis =>
      rw [readAuthorities] at read
      split at read
      · obtain ⟨next, authority, read⟩ := ok_of_bind read
        obtain ⟨userinfo, host, port, rfl⟩ := readAuthority_frame authority
        exact inductionHypothesis (bare.frame _ _ _ _) (readAuthority_addressed addressed.port authority) read
      · obtain ⟨_, _, _, _, rfl⟩ := (readTail_ok bare).1 read
        exact ⟨addressed.host, addressed.port⟩

/-- The string behind the scheme `http` is read as an authority with what follows it. -/
theorem parse_http (string : Text) :
    Uri.parse (text "http://" ++ string) = readHierarchy { Uri.empty with scheme := text "http" } (text "//" ++ string) := by
  have shape : text "http://" ++ string = text "http" ++ byte ':' :: (text "//" ++ string) := rfl
  have colon : byte ':' ∉ text "http" := by decide
  have begins : ((text "http://" ++ string).head?.any inAuthority && beginsWithScheme (text "http://" ++ string)) = true := rfl
  rw [parse_read, Uri.read, if_pos begins, shape, takeWhile_before colon, dropWhile_before colon]
  rfl

/-- A URI behind the scheme `http` has a host. -/
theorem parse_addressed {string : Text} (parsed : Uri.parse (text "http://" ++ string) = .ok uri) : uri.Addressed := by
  rw [parse_http, readHierarchy_double] at parsed
  obtain ⟨next, authority, read⟩ := ok_of_bind parsed
  obtain ⟨userinfo, host, port, rfl⟩ := readAuthority_frame authority
  exact readAuthorities_addressed (bare_empty.frame _ _ _ _) (readAuthority_addressed (.inl rfl) authority) read

/-- An authority without a slash, a question mark or a hash is all that is read. -/
theorem parse_flat {string : Text} (flat : ∀ char ∈ string, inAuthority char = true) :
    Uri.parse (text "http://" ++ string) = readAuthority { Uri.empty with scheme := text "http" } string := by
  have all : string.takeWhile inAuthority = string := List.takeWhile_eq_self_iff.2 flat
  have none : string.dropWhile inAuthority = [] := List.dropWhile_eq_nil_iff.2 flat
  rw [parse_http, readHierarchy_double, all, none]
  cases readAuthority { Uri.empty with scheme := text "http" } string <;> rfl

end Uri

/-- What holds of an entry that was read from some text. -/
structure Via.Read (value : Via) : Prop where
  ver : value.ver.Shaped
  url : value.url.Addressed
  comments : value.comments = [] ∨
    ∃ body, value.comments = byte '(' :: body ∧ Reader.closing ')' isCommented body = some (body, [])

namespace Reader

theorem comment_some {rest left : Text} {found : Option Text} (taken : comment rest = some (found, left)) :
    found = none ∨ ∃ body, found = some (byte '(' :: body) ∧ rest = byte '(' :: (body ++ left) ∧
      closing ')' isCommented body = some (body, []) := by
  cases rest with
  | nil =>
      cases taken
      exact .inl rfl
  | cons char rest =>
      rw [comment, enclosed] at taken
      split at taken
      · rename_i opening
        have exact : ∀ char, toInt char = code '(' → char = byte '(' := by
          apply octet_forall
          decide
        obtain ⟨⟨body, behind⟩, closed, same⟩ := Option.map_eq_some_iff.1 taken
        cases same
        obtain ⟨rfl, again⟩ := closing_split closed
        have alone := again []
        rw [List.append_nil] at alone
        exact .inr ⟨body, by rw [exact char opening], by rw [exact char opening], alone⟩
      · cases taken
        exact .inl rfl

theorem comment_closed {body : Text} (closed : closing ')' isCommented body = some (body, [])) (left : Text) :
    comment (byte '(' :: (body ++ left)) = some (some (byte '(' :: body), left) := by
  have opening : toInt (byte '(') = code '(' := by decide
  rw [comment, enclosed, if_pos opening, (closing_split closed).2 left]
  rfl

theorem via_read {rest left : Text} {read : Via} (taken : via rest = some (read, left)) : read.Read := by
  obtain ⟨version, later, chars, parsed, received⟩ := via_some taken
  obtain ⟨found, closed, same⟩ := received.comments
  refine ⟨Version.shaped_of_ofString chars parsed, Uri.parse_addressed received.url, ?_⟩
  obtain rfl | ⟨body, rfl, _, alone⟩ := comment_some closed
  · exact .inl same
  · exact .inr ⟨body, same, alone⟩

/-- Behind the first element of a list there is a comma and more elements, or nothing more is read. -/
theorem list_succ {element : Type} {reader : Reader element} {fuel : Nat} {rest finish : Text} {values : List element} :
    list reader (fuel + 1) rest = some (values, finish) ↔
      ∃ first left, reader rest = some (first, left) ∧
        (special ',' (behind isWhitespace left) = some (false, finish) ∧ values = [first] ∨
          ∃ middle others, special ',' (behind isWhitespace left) = some (true, middle) ∧
            list reader fuel (behind isWhitespace middle) = some (others, finish) ∧ values = first :: others) := by
  constructor
  · intro taken
    obtain ⟨first, left, start, taken⟩ := some_of_bind taken
    rw [bind_some blanks_eq] at taken
    obtain ⟨more, middle, comma, taken⟩ := some_of_bind taken
    refine ⟨first, left, start, ?_⟩
    cases more with
    | false =>
        cases taken
        exact .inl ⟨comma, rfl⟩
    | true =>
        rw [if_pos rfl, bind_some blanks_eq] at taken
        obtain ⟨others, last, behind, taken⟩ := some_of_bind taken
        cases taken
        exact .inr ⟨middle, others, comma, behind, rfl⟩
  · rintro ⟨first, left, start, ⟨comma, rfl⟩ | ⟨middle, others, comma, behind, rfl⟩⟩
    · rw [list, bind_some start, bind_some blanks_eq, bind_some comma]
      rfl
    · rw [list, bind_some start, bind_some blanks_eq, bind_some comma, if_pos rfl, bind_some blanks_eq, bind_some behind]
      rfl

/-- The elements of a list are read from texts. -/
theorem list_all {element : Type} {reader : Reader element} {fine : element → Prop}
    (each : ∀ rest value left, reader rest = some (value, left) → fine value) {fuel : Nat} {rest left : Text}
    {values : List element} (taken : list reader fuel rest = some (values, left)) : ∀ value ∈ values, fine value := by
  induction fuel generalizing rest values with
  | zero =>
      cases taken
      simp
  | succ fuel inductionHypothesis =>
      obtain ⟨first, left, start, ⟨-, rfl⟩ | ⟨middle, others, -, more, rfl⟩⟩ := list_succ.1 taken
      · simpa using each _ _ _ start
      · exact List.forall_mem_cons.2 ⟨each _ _ _ start, inductionHypothesis more⟩

end Reader

/-- The entries of a list that is accepted were read from texts. -/
theorem parseVias_read {string : Text} {values : List Via} (parsed : parseVias string = .ok values) :
    ∀ value ∈ values, value.Read := by
  obtain ⟨_, rfl⟩ | ⟨_, left, taken⟩ := (Reader.parseAll_iff Reader.mirrors_readVia).1 parsed
  · simp
  · exact Reader.list_all (fun _ _ _ => Reader.via_read) taken

end SimpleNFast.Http
