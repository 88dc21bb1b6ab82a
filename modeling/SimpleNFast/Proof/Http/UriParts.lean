import SimpleNFast.Proof.Http.UriHosts
import SimpleNFast.Proof.Http.UriReading
import SimpleNFast.Proof.Http.UriSegments

set_option maxRecDepth 100000

namespace SimpleNFast.Http

theorem decodeOrThrow_ok {keeps : Int → Bool} {what : String} {string decoded : Text} :
    decodeOrThrow keeps what string = .ok decoded ↔ decodeKeeping keeps string = some decoded := by
  rw [decodeOrThrow]
  cases decodeKeeping keeps string <;> simp

namespace UriHost

variable {part host : Text}

/-- A host is an address in brackets, or a name without any bracket. -/
inductive Named (part host : Text) : Prop where
  | address {inner : Text} (shape : part = byte '[' :: (inner ++ [byte ']'])) (accepted : inetPton6 inner = true)
      (same : host = part)
  | regular (filled : part ≠ []) (decoded : decodeKeeping isRegular part = some host)

theorem isRegular_keeps : ∀ char, isRegular (toInt char) = true → keeps (toInt char) = true := by
  apply octet_forall
  decide

theorem isRegular_digit : ∀ char, isDigit (toInt char) = true ∨ char = byte '.' → isRegular (toInt char) = true := by
  apply octet_forall
  decide

theorem inAddress_visible : ∀ char, inAddress char = true → char ≠ 0 := by
  apply octet_forall
  decide

theorem regular_begins {decoded : Text} (found : decodeKeeping isRegular part = some decoded) : part.head? ≠ some (byte '[') := by
  intro begins
  have refused : ∀ char, isRegular (toInt char) = true ∨ char = byte '%' ∨ isXdigit (toInt char) = true →
      char ≠ byte '[' := by
    apply octet_forall
    decide
  exact refused _ (decodeKeeping_chars found _ (List.mem_of_mem_head? begins)) rfl

/-- A host is set exactly when it is named. -/
theorem set_iff : UriHost.set part = .ok host ↔ Named part host := by
  rw [UriHost.set]
  constructor
  · intro set
    split at set
    case isFalse => cases set
    case isTrue valid =>
      have found := decodeOrThrow_ok.1 set
      have visible := fun char member => visible_of_decoded char (decodeKeeping_chars found char member)
      rw [isValid] at valid
      split at valid
      · cases valid
      · rename_i filled
        rw [List.isEmpty_iff] at filled
        split at valid
        · rename_i bracket
          have shape := bracket_parts bracket.1 bracket.2
          rw [cString_of_visible fun char member => visible char (List.mem_of_mem_drop (List.mem_of_mem_take member))]
            at valid
          refine .address shape valid ?_
          have kept : ∀ char ∈ part, keeps (toInt char) = true := by
            intro char member
            rw [shape] at member
            simp only [List.mem_cons, List.mem_append, List.not_mem_nil, or_false] at member
            obtain rfl | inside | rfl := member
            · decide
            · exact keeps_of_inAddress char (inetPton6_chars valid char inside)
            · decide
          rw [decodeKeeping_all kept] at found
          exact (Option.some.inj found).symm
        · refine .regular filled ?_
          rw [Bool.or_eq_true] at valid
          have some : (decodeKeeping isRegular part).isSome = true := by
            obtain address | regular := valid
            · rw [cString_of_visible visible] at address
              rw [decodeKeeping_all fun char member => isRegular_digit char (inetPton4Loop_chars address char member)]
              rfl
            · rw [isRegularHostname, Bool.and_eq_true] at regular
              rw [← validKeeping_eq]
              exact regular.2
          obtain ⟨decoded, regular⟩ := Option.isSome_iff_exists.1 some
          rw [decodeKeeping_mono isRegular_keeps (by decide) regular] at found
          rwa [Option.some.inj found] at regular
  · rintro (⟨shape, accepted, rfl⟩ | ⟨filled, decoded⟩)
    · rename_i inner
      have chars := inetPton6_chars accepted
      have kept : ∀ char ∈ host, keeps (toInt char) = true := by
        intro char member
        rw [shape] at member
        simp only [List.mem_cons, List.mem_append, List.not_mem_nil, or_false] at member
        obtain rfl | inside | rfl := member
        · decide
        · exact keeps_of_inAddress char (chars char inside)
        · decide
      have valid : isValid host = true := by
        have trimmed : (host.drop 1).take (host.length - 2) = inner := by
          rw [shape]
          simp
        have ends : host.head? = some (byte '[') ∧ host.getLast? = some (byte ']') := by
          rw [shape]
          simp [List.getLast?_cons_of_ne_nil]
        rw [isValid, if_neg (by simp [shape]), if_pos ends, trimmed,
          cString_of_visible fun char member => inAddress_visible char (chars char member), accepted]
      rw [if_pos valid, decodeOrThrow_ok, decodeKeeping_all kept]
    · have valid : isValid part = true := by
        have regular : isRegularHostname part = true := by
          rw [isRegularHostname, Bool.and_eq_true, Bool.not_eq_true', List.isEmpty_eq_false_iff]
          refine ⟨filled, ?_⟩
          change validKeeping isRegular part = true
          rw [validKeeping_eq, decoded]
          rfl
        rw [isValid, if_neg (by simpa using filled), if_neg fun ends => regular_begins decoded ends.1, regular,
          Bool.or_true]
      rw [if_pos valid, decodeOrThrow_ok]
      exact decodeKeeping_mono isRegular_keeps (by decide) decoded

end UriHost

namespace UriPort

/-- Only digits, of which there is one. -/
def Digits (port : Text) : Prop := port ≠ [] ∧ ∀ char ∈ port, isDigit (toInt char) = true

/-- A number from 1 to 65535 in digits. -/
def Ranged (port : Text) : Prop := Digits port ∧ 0 < number 10 port ∧ number 10 port ≤ 65535

variable {port later : Text}

theorem digits_iff : Digits port ↔ port.isEmpty = false ∧ port.all (isDigit ∘ toInt) = true := by
  rw [Digits, List.isEmpty_eq_false_iff, List.all_eq_true]
  rfl

theorem set_digits (some : Digits port) :
    UriPort.set port =
      if number 10 port < 2 ^ 31 then
        if 0 < number 10 port ∧ number 10 port ≤ 65535 then .ok port
        else .error (.badUri (text "invalid port: " ++ port))
      else .error (.outOfRange (text "stoi")) := by
  obtain ⟨filled, all⟩ := digits_iff.1 some
  rw [UriPort.set, UriPort.isValid, filled, all, stoi_all some.1 some.2]
  by_cases small : number 10 port < 2 ^ 31
  · rw [if_pos small, if_pos small]
    by_cases inside : 0 < number 10 port ∧ number 10 port ≤ 65535
    · have checked : (decide ((0 : Int) < number 10 port) && decide ((number 10 port : Int) ≤ 0xFFFF)) = true := by
        rw [Bool.and_eq_true, decide_eq_true_eq, decide_eq_true_eq]
        omega
      rw [if_pos inside]
      change (if (decide ((0 : Int) < number 10 port) && decide ((number 10 port : Int) ≤ 0xFFFF)) = true then _ else _) = _
      rw [checked, if_pos rfl]
      rfl
    · have checked : (decide ((0 : Int) < number 10 port) && decide ((number 10 port : Int) ≤ 0xFFFF)) = false := by
        rw [Bool.and_eq_false_iff, decide_eq_false_iff_not, decide_eq_false_iff_not]
        omega
      rw [if_neg inside]
      change (if (decide ((0 : Int) < number 10 port) && decide ((number 10 port : Int) ≤ 0xFFFF)) = true then _ else _) = _
      rw [checked, if_neg Bool.false_ne_true]
      rfl
  · rw [if_neg small, if_neg small]
    rfl

theorem set_other (other : ¬ Digits port) : UriPort.set port = .error (.badUri (text "invalid port: " ++ port)) := by
  have valid : UriPort.isValid port = .ok false := by
    rw [UriPort.isValid]
    cases empty : port.isEmpty with
    | true => rfl
    | false =>
        cases all : port.all (isDigit ∘ toInt) with
        | true => exact absurd (digits_iff.2 ⟨empty, all⟩) other
        | false => rfl
  rw [UriPort.set, valid]
  rfl

theorem set_ok : UriPort.set port = .ok later ↔ Ranged port ∧ later = port := by
  by_cases some : Digits port
  · rw [set_digits some]
    split
    · split
      · rename_i inside
        rw [Except.ok.injEq]
        exact ⟨fun same => ⟨⟨some, inside⟩, same.symm⟩, fun ranged => ranged.2.symm⟩
      · rename_i outside
        exact iff_of_false (by simp) fun ranged => outside ranged.1.2
    · rename_i large
      exact iff_of_false (by simp) fun ranged => by have := ranged.1.2.2; omega
  · rw [set_other some]
    exact iff_of_false (by simp) fun ranged => some ranged.1.1

end UriPort

namespace Uri

open Components

variable {uri later : Uri}

theorem readUserinfo_ok {userinfo : Text} :
    readUserinfo uri userinfo = .ok later ↔ ∃ decoded, UriUserinfo.isValid userinfo = true ∧
      UriUserinfo.set userinfo = .ok decoded ∧ later = { uri with userinfo := decoded } := by
  rw [readUserinfo]
  cases valid : UriUserinfo.isValid userinfo with
  | false =>
      refine iff_of_false (by simp [throw, throwThe, MonadExceptOf.throw, bind, Except.bind]) ?_
      rintro ⟨_, accepted, _⟩
      cases accepted
  | true =>
      cases UriUserinfo.set userinfo with
      | error fault => simp [bind, Except.bind]
      | ok decoded => simp [bind, Except.bind, pure, Except.pure, eq_comm]

theorem readPort_ok {after : Text} :
    readPort uri after = .ok later ↔
      (∃ port, after = byte ':' :: port ∧ UriPort.Ranged port ∧ later = { uri with port }) ∨
        after.head? ≠ some (byte ':') ∧ later = uri := by
  rw [readPort]
  by_cases colon : after.head? = some (byte ':')
  · obtain ⟨port, rfl⟩ : ∃ port, after = byte ':' :: port := by
      cases after with
      | nil => cases colon
      | cons first port => exact ⟨port, by simpa using colon⟩
    rw [if_pos colon, List.drop_one, List.tail_cons]
    constructor
    · intro read
      obtain ⟨given, set, same⟩ := ok_of_bind read
      cases same
      obtain ⟨ranged, rfl⟩ := UriPort.set_ok.1 set
      exact .inl ⟨given, rfl, ranged, rfl⟩
    · rintro (⟨given, same, ranged, rfl⟩ | ⟨other, -⟩)
      · cases same
        rw [UriPort.set_ok.2 ⟨ranged, rfl⟩]
        rfl
      · exact absurd colon other
  · rw [if_neg colon]
    constructor
    · intro read
      cases read
      exact .inr ⟨colon, rfl⟩
    · rintro (⟨given, rfl, -⟩ | ⟨-, rfl⟩)
      · exact absurd rfl colon
      · rfl

/-- A valid path is decoded. -/
theorem readPath_ok (fresh : uri.path = .empty) {path : Text} :
    readPath uri path = .ok later ↔ ∃ decoded, UriPath.isValid path = true ∧
      decodeKeeping UriPath.keeps path = some decoded ∧ later = { uri with path := UriPath.normal decoded } := by
  rw [readPath]
  cases path with
  | nil =>
      have same : uri = { uri with path := UriPath.normal [] } := by
        cases uri
        cases fresh
        rfl
      rw [List.isEmpty_nil, if_pos rfl]
      constructor
      · intro read
        cases read
        exact ⟨[], rfl, rfl, same⟩
      · rintro ⟨decoded, -, found, rfl⟩
        cases found
        rw [← same]
        rfl
  | cons first path =>
      rw [List.isEmpty_cons, if_neg Bool.false_ne_true, fresh]
      cases valid : UriPath.isValid (first :: path) with
      | false =>
          refine iff_of_false (fun read => by cases read) ?_
          rintro ⟨_, accepted, _⟩
          cases accepted
      | true =>
          obtain ⟨decoded, found⟩ := UriPath.isValid_decoded valid
          rw [UriPath.set_decoded found, found]
          constructor
          · intro read
            cases read
            exact ⟨decoded, rfl, rfl, rfl⟩
          · rintro ⟨other, -, same, rfl⟩
            cases same
            rfl

/-- A component behind its mark is not empty, and it is decoded. -/
theorem readMarked_ok {what : String} {component decoded : Text} :
    readMarked what component = .ok decoded ↔
      component ≠ [] ∧ decodeKeeping componentKeeps component = some decoded := by
  rw [readMarked, validKeeping_eq]
  cases component with
  | nil => exact iff_of_false (fun read => by cases read) fun found => found.1 rfl
  | cons first component =>
      rw [decodeOrThrow]
      cases decodeKeeping componentKeeps (first :: component) with
      | none => exact iff_of_false (fun read => by cases read) fun found => by cases found.2
      | some other =>
          constructor
          · intro read
            cases read
            exact ⟨List.cons_ne_nil _ _, rfl⟩
          · rintro ⟨-, same⟩
            cases same
            rfl

/-- A query or a fragment that is absent is the empty text. -/
def Marked (component : Option Text) (decoded : Text) : Prop :=
  component ≠ some [] ∧ decodeKeeping componentKeeps (component.getD []) = some decoded

theorem marked_none {decoded : Text} : Marked none decoded ↔ decoded = [] := by
  constructor
  · rintro ⟨-, found⟩
    cases found
    rfl
  · rintro rfl
    exact ⟨by simp, rfl⟩

theorem marked_some {component decoded : Text} :
    Marked (some component) decoded ↔ component ≠ [] ∧ decodeKeeping componentKeeps component = some decoded := by
  rw [Marked, Option.getD_some, Ne, Option.some.injEq]

theorem readQuery_ok (fresh : uri.query = []) {query : Option Text} :
    readQuery uri query = .ok later ↔ ∃ decoded, Marked query decoded ∧ later = { uri with query := decoded } := by
  cases query with
  | none =>
      have same : uri = { uri with query := [] } := by rw [← fresh]
      simp only [marked_none, exists_eq_left, ← same]
      exact ⟨fun read => (Except.ok.inj read).symm, fun equal => congrArg _ equal.symm⟩
  | some query =>
      simp only [marked_some, ← @readMarked_ok "invalid query: "]
      rw [readQuery]
      cases readMarked "invalid query: " query with
      | error fault => simp [bind, Except.bind]
      | ok decoded => simp [bind, Except.bind, pure, Except.pure, eq_comm]

theorem readFragment_ok (fresh : uri.fragment = []) {fragment : Option Text} :
    readFragment uri fragment = .ok later ↔
      ∃ decoded, Marked fragment decoded ∧ later = { uri with fragment := decoded } := by
  cases fragment with
  | none =>
      have same : uri = { uri with fragment := [] } := by rw [← fresh]
      simp only [marked_none, exists_eq_left, ← same]
      exact ⟨fun read => (Except.ok.inj read).symm, fun equal => congrArg _ equal.symm⟩
  | some fragment =>
      simp only [marked_some, ← @readMarked_ok "invalid fragment: "]
      rw [readFragment]
      cases readMarked "invalid fragment: " fragment with
      | error fault => simp [bind, Except.bind]
      | ok decoded => simp [bind, Except.bind, pure, Except.pure, eq_comm]

/-- The path, the query and the fragment of a string, with what they are decoded to. -/
structure TailRead (tail : Components) (decoded query fragment : Text) : Prop where
  valid : UriPath.isValid tail.path = true
  path : decodeKeeping UriPath.keeps tail.path = some decoded
  query : Marked tail.query query
  fragment : Marked tail.fragment fragment

/-- A URI that has neither a path nor a query nor a fragment. -/
structure Bare (uri : Uri) : Prop where
  path : uri.path = .empty
  query : uri.query = []
  fragment : uri.fragment = []

theorem Bare.frame (bare : Bare uri) (scheme userinfo host port : Text) :
    Bare { uri with scheme, userinfo, host, port } := ⟨bare.path, bare.query, bare.fragment⟩

theorem bare_empty : Bare .empty := ⟨rfl, rfl, rfl⟩

theorem readTail_ok (bare : Bare uri) {tail : Components} :
    readTail uri tail = .ok later ↔ ∃ decoded query fragment, TailRead tail decoded query fragment ∧
      later = { uri with path := UriPath.normal decoded, query, fragment } := by
  rw [readTail]
  constructor
  · intro read
    obtain ⟨first, path, read⟩ := ok_of_bind read
    obtain ⟨second, query, fragment⟩ := ok_of_bind read
    obtain ⟨decoded, valid, found, rfl⟩ := (readPath_ok bare.path).1 path
    have unset : ({ uri with path := UriPath.normal decoded } : Uri).query = [] := bare.query
    obtain ⟨question, marked, rfl⟩ := (readQuery_ok unset).1 query
    have unset : ({ uri with path := UriPath.normal decoded, query := question } : Uri).fragment = [] := bare.fragment
    obtain ⟨hash, last, rfl⟩ := (readFragment_ok unset).1 fragment
    exact ⟨decoded, question, hash, ⟨valid, found, marked, last⟩, rfl⟩
  · rintro ⟨decoded, query, fragment, ⟨valid, found, marked, last⟩, rfl⟩
    have unset : ({ uri with path := UriPath.normal decoded } : Uri).query = [] := bare.query
    have second := (readQuery_ok unset).2 ⟨query, marked, rfl⟩
    have unset : ({ uri with path := UriPath.normal decoded, query } : Uri).fragment = [] := bare.fragment
    have third := (readFragment_ok unset).2 ⟨fragment, last, rfl⟩
    rw [(readPath_ok bare.path).2 ⟨decoded, valid, found, rfl⟩]
    change (readQuery _ _).bind _ = _
    rw [second]
    exact third

/-- The host and the text behind it are the rest of the authority, and a host in brackets may have any text behind it. -/
theorem readHost_parts {authority rest host after : Text} (read : readHost authority rest = .ok (host, after)) :
    rest = host ++ after ∧ (rest.head? = some (byte '[') ∨ after = [] ∨ after.head? = some (byte ':')) := by
  rw [readHost] at read
  split at read
  · rename_i opening
    split at read
    · rename_i closing
      cases read
      refine ⟨?_, .inl opening⟩
      rw [List.append_assoc, List.singleton_append, takeWhile_mark closing]
    · cases read
  · cases read
    refine ⟨List.takeWhile_append_dropWhile.symm, ?_⟩
    obtain none | ⟨first, more, shape, refused⟩ := dropWhile_cases (· != byte ':') rest
    · exact .inr (.inl none)
    · rw [shape]
      exact .inr (.inr (congrArg some (by simpa using refused)))

theorem regular_apart : ∀ char, UriHost.isRegular (toInt char) = true ∨ char = byte '%' ∨ isXdigit (toInt char) = true →
    char ≠ byte ':' ∧ char ≠ byte '@' ∧ char ≠ byte ']' ∧ inAuthority char = true := by
  apply octet_forall
  decide

theorem address_apart : ∀ char, inAddress char = true → char ≠ byte '@' ∧ char ≠ byte ']' ∧ inAuthority char = true := by
  apply octet_forall
  decide

/-- A host that is set is read up to its end. -/
theorem readHost_named {authority host after decoded : Text} (named : UriHost.Named host decoded)
    (ends : host.head? = some (byte '[') ∨ after = [] ∨ after.head? = some (byte ':')) :
    readHost authority (host ++ after) = .ok (host, after) := by
  rw [readHost]
  cases named with
  | @address inner shape accepted same =>
      subst shape
      have whole : byte '[' :: (inner ++ [byte ']']) ++ after = (byte '[' :: inner) ++ byte ']' :: after := by simp
      have inside : byte ']' ∉ byte '[' :: inner := by
        rw [List.mem_cons, not_or]
        exact ⟨by decide, fun member => (address_apart _ (inetPton6_chars accepted _ member)).2.1 rfl⟩
      rw [whole, takeWhile_before inside, dropWhile_before inside]
      simp
  | regular filled decoded =>
      have chars := decodeKeeping_chars decoded
      have colon : byte ':' ∉ host := fun member => (regular_apart _ (chars _ member)).1 rfl
      have begins := UriHost.regular_begins decoded
      have other : (host ++ after).head? ≠ some (byte '[') := by
        obtain ⟨first, more, rfl⟩ := List.exists_cons_of_ne_nil filled
        exact begins
      rw [if_neg other]
      obtain bracket | rfl | mark := ends
      · exact absurd bracket begins
      · rw [List.append_nil, takeWhile_other colon]
        conv_lhs => rw [← drop_takeWhile, takeWhile_other colon, List.drop_length]
      · obtain ⟨port, rfl⟩ : ∃ port, after = byte ':' :: port := by
          cases after with
          | nil => cases mark
          | cons first port => exact ⟨port, by simpa using mark⟩
        rw [takeWhile_before colon, dropWhile_before colon]

/-- The authority of a URI sets its user, its host and its port only. -/
theorem readAddress_frame {authority rest : Text} (read : readAddress uri authority rest = .ok later) :
    ∃ host port, later = { uri with host, port } := by
  obtain ⟨⟨host, after⟩, -, read⟩ := ok_of_bind read
  obtain ⟨decoded, -, read⟩ := ok_of_bind read
  obtain ⟨port, -, -, rfl⟩ | ⟨-, rfl⟩ := readPort_ok.1 read
  · exact ⟨decoded, port, rfl⟩
  · exact ⟨decoded, uri.port, rfl⟩

theorem readAuthority_frame {authority : Text} (read : readAuthority uri authority = .ok later) :
    ∃ userinfo host port, later = { uri with userinfo, host, port } := by
  rw [readAuthority] at read
  split at read
  · obtain ⟨named, user, read⟩ := ok_of_bind read
    obtain ⟨userinfo, -, -, rfl⟩ := readUserinfo_ok.1 user
    obtain ⟨host, port, rfl⟩ := readAddress_frame read
    exact ⟨userinfo, host, port, rfl⟩
  · obtain ⟨host, port, rfl⟩ := readAddress_frame read
    exact ⟨uri.userinfo, host, port, rfl⟩

/-- The port of an authority with its colon. -/
def portText : Option Text → Text
  | none => []
  | some port => byte ':' :: port

/-- The user of an authority with its mark. -/
def userText : Option Text → Text
  | none => []
  | some userinfo => userinfo ++ [byte '@']

theorem parts_text (parts : AuthorityParts) :
    parts.text = userText parts.userinfo ++ (parts.host ++ portText parts.port) := by
  rw [AuthorityParts.text, List.append_assoc]
  rfl

theorem portText_ends (port : Option Text) : portText port = [] ∨ (portText port).head? = some (byte ':') := by
  cases port with
  | none => exact .inl rfl
  | some port => exact .inr rfl

theorem readPort_text (unset : uri.port = []) {port : Option Text} {given : Text}
    (set : port = none ∧ given = [] ∨ ∃ digits, port = some digits ∧ UriPort.set digits = .ok given) :
    readPort uri (portText port) = .ok { uri with port := given } := by
  obtain ⟨rfl, rfl⟩ | ⟨digits, rfl, set⟩ := set
  · exact readPort_ok.2 (.inr ⟨by decide, by rw [← unset]⟩)
  · obtain ⟨ranged, rfl⟩ := UriPort.set_ok.1 set
    exact readPort_ok.2 (.inl ⟨given, rfl, ranged, rfl⟩)

/-- An authority that consists of its parts is read. -/
theorem readAuthority_text (unset : uri.userinfo = [] ∧ uri.port = []) {parts : AuthorityParts}
    (gives : parts.Gives later) :
    readAuthority uri parts.text =
      .ok { uri with userinfo := later.userinfo, host := later.host, port := later.port } := by
  have named := UriHost.set_iff.1 gives.host
  have digits : byte '@' ∉ portText parts.port := by
    obtain ⟨none, -⟩ | ⟨port, some, set⟩ := gives.port
    · rw [none]
      exact List.not_mem_nil
    · have other : ∀ char, isDigit (toInt char) = true → char ≠ byte '@' := by
        apply octet_forall
        decide
      rw [some, portText, List.mem_cons, not_or]
      exact ⟨by decide, fun member => other _ ((UriPort.set_ok.1 set).1.1.2 _ member) rfl⟩
  have host : byte '@' ∉ parts.host := by
    cases named with
    | @address inner shape accepted same =>
        rw [shape, List.mem_cons, List.mem_append, List.mem_singleton, not_or, not_or]
        exact ⟨by decide, fun member => (address_apart _ (inetPton6_chars accepted _ member)).1 rfl, by decide⟩
    | regular filled decoded =>
        exact fun member => (regular_apart _ (decodeKeeping_chars decoded _ member)).2.1 rfl
  have address (named : Uri) (same : named.port = []) (authority : Text) :
      readAddress named authority (parts.host ++ portText parts.port) =
        .ok { named with host := later.host, port := later.port } := by
    have fresh : ({ named with host := later.host } : Uri).port = [] := same
    rw [readAddress, readHost_named (UriHost.set_iff.1 gives.host) (.inr (portText_ends parts.port))]
    change (UriHost.set parts.host).bind _ = _
    rw [gives.host]
    exact readPort_text fresh gives.port
  rw [parts_text, readAuthority]
  obtain ⟨none, same⟩ | ⟨userinfo, some, valid, set⟩ := gives.userinfo
  · have absent : byte '@' ∉ userText parts.userinfo ++ (parts.host ++ portText parts.port) := by
      rw [none, userText, List.nil_append, List.mem_append, not_or]
      exact ⟨host, digits⟩
    rw [if_neg absent, none, userText, List.nil_append, address uri unset.2, same, ← unset.1]
  · have apart : ∀ char, UriUserinfo.keeps (toInt char) = true ∨ char = byte '%' ∨ isXdigit (toInt char) = true →
        char ≠ byte '@' := by
      apply octet_forall
      decide
    have plain : byte '@' ∉ userinfo := fun member =>
      apart _ (decodeKeeping_chars (decodeOrThrow_ok.1 set) _ member) rfl
    have whole : userText parts.userinfo ++ (parts.host ++ portText parts.port) =
        userinfo ++ byte '@' :: (parts.host ++ portText parts.port) := by
      rw [some, userText, List.append_assoc, List.singleton_append]
    have present : byte '@' ∈ userinfo ++ byte '@' :: (parts.host ++ portText parts.port) := by simp
    have first : readUserinfo uri userinfo = .ok { uri with userinfo := later.userinfo } :=
      readUserinfo_ok.2 ⟨later.userinfo, valid, set, rfl⟩
    rw [whole, if_pos present, takeWhile_before plain, dropWhile_before plain, first]
    exact address { uri with userinfo := later.userinfo } unset.2 _

/-- An authority that is read consists of its parts, and behind a bracket there may be other text. -/
theorem readAuthority_parts (unset : uri.userinfo = [] ∧ uri.port = []) {authority : Text}
    (read : readAuthority uri authority = .ok later) :
    ∃ (parts : AuthorityParts) (extra : Text), authority = parts.text ++ extra ∧ parts.Gives later ∧
      (extra = [] ∨ parts.host.head? = some (byte '[') ∧ parts.port = none ∧ extra.head? ≠ some (byte ':')) := by
  have address {named : Uri} (same : named.port = []) {rest : Text}
      (read : readAddress named authority rest = .ok later) :
      ∃ host port extra, rest = host ++ portText port ++ extra ∧ UriHost.set host = .ok later.host ∧
        (port = none ∧ later.port = [] ∨ ∃ digits, port = some digits ∧ UriPort.set digits = .ok later.port) ∧
        (extra = [] ∨ host.head? = some (byte '[') ∧ port = none ∧ extra.head? ≠ some (byte ':')) := by
    obtain ⟨⟨host, after⟩, found, read⟩ := ok_of_bind read
    obtain ⟨decoded, set, read⟩ := ok_of_bind read
    obtain ⟨shape, ends⟩ := readHost_parts found
    obtain ⟨port, rfl, ranged, rfl⟩ | ⟨other, rfl⟩ := readPort_ok.1 read
    · exact ⟨host, some port, [], by rw [shape, portText, List.append_nil], set,
        .inr ⟨port, rfl, UriPort.set_ok.2 ⟨ranged, rfl⟩⟩, .inl rfl⟩
    · refine ⟨host, none, after, by rw [shape, portText, List.append_nil], set, .inl ⟨rfl, same⟩, ?_⟩
      obtain bracket | none | colon := ends
      · refine .inr ⟨?_, rfl, other⟩
        rw [shape] at bracket
        cases host with
        | nil => cases set
        | cons first host => exact bracket
      · exact .inl none
      · exact absurd colon other
  rw [readAuthority] at read
  split at read
  · rename_i user
    obtain ⟨named, first, read⟩ := ok_of_bind read
    obtain ⟨userinfo, valid, set, rfl⟩ := readUserinfo_ok.1 first
    have unset : ({ uri with userinfo } : Uri).port = [] := unset.2
    obtain ⟨host, port, extra, shape, given, digits, ends⟩ := address unset read
    obtain ⟨_, _, frame⟩ := readAddress_frame read
    refine ⟨⟨some (authority.takeWhile (· != byte '@')), host, port⟩, extra, ?_, ⟨?_, given, digits⟩, ends⟩
    · have whole := takeWhile_mark user
      rw [shape] at whole
      rw [parts_text, userText]
      simpa using whole.symm
    · rw [frame]
      exact .inr ⟨_, rfl, valid, set⟩
  · obtain ⟨host, port, extra, shape, given, digits, ends⟩ := address unset.2 read
    obtain ⟨_, _, frame⟩ := readAddress_frame read
    refine ⟨⟨none, host, port⟩, extra, ?_, ⟨?_, given, digits⟩, ends⟩
    · rw [parts_text, userText, List.nil_append]
      exact shape
    · rw [frame]
      exact .inl ⟨rfl, unset.1⟩

end Uri

end SimpleNFast.Http
