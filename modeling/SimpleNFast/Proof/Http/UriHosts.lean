import Mathlib.Data.List.TakeWhile
import SimpleNFast.Proof.Http.FieldLines
import SimpleNFast.Proof.Http.UriRuns

set_option maxRecDepth 100000

namespace SimpleNFast.Http

theorem inetPton4Loop_chars {rest : Text} {octet octets : Nat} {sawDigit : Bool}
    (accepted : inetPton4Loop rest octet sawDigit octets = true) :
    ∀ char ∈ rest, isDigit (toInt char) = true ∨ char = byte '.' := by
  induction rest generalizing octet sawDigit octets with
  | nil => simp
  | cons char rest inductionHypothesis =>
      rw [inetPton4Loop] at accepted
      dsimp only at accepted
      have step {octet octets : Nat} {sawDigit : Bool} (here : isDigit (toInt char) = true ∨ char = byte '.')
          (later : inetPton4Loop rest octet sawDigit octets = true) :
          ∀ other ∈ char :: rest, isDigit (toInt other) = true ∨ other = byte '.' := by
        intro other member
        obtain rfl | behind := List.mem_cons.1 member
        · exact here
        · exact inductionHypothesis later other behind
      split at accepted
      · rename_i digit
        split at accepted
        · cases accepted
        · split at accepted
          · exact step (Or.inl digit) accepted
          · split at accepted
            · cases accepted
            · exact step (Or.inl digit) accepted
      · split at accepted
        · rename_i dot
          simp only [Bool.and_eq_true, beq_iff_eq] at dot
          exact step (Or.inr dot.1.1) accepted
        · cases accepted

/-- A character of an address. -/
def inAddress (char : UInt8) : Bool := isXdigit (toInt char) || char == byte ':' || char == byte '.'

theorem inAddress_of_inetPton4 {char : UInt8} (part : isDigit (toInt char) = true ∨ char = byte '.') :
    inAddress char = true := by
  obtain digit | rfl := part
  · simp [inAddress, isXdigit, digit]
  · decide

/-- The address of four octets is checked from the start of its group, which the rest is a part of. -/
theorem inetPton6Loop_chars {rest group : Text} {bytes groupDigits : Nat} {double : Bool} (part : rest <:+ group)
    (accepted : inetPton6Loop rest bytes double groupDigits group = true) :
    ∀ char ∈ rest, inAddress char = true := by
  induction rest generalizing group bytes groupDigits double with
  | nil => simp
  | cons char rest inductionHypothesis =>
      have behind : rest <:+ group := (List.suffix_cons char rest).trans part
      have step {group : Text} {bytes groupDigits : Nat} {double : Bool} (here : inAddress char = true)
          (part : rest <:+ group) (later : inetPton6Loop rest bytes double groupDigits group = true) :
          ∀ other ∈ char :: rest, inAddress other = true := by
        intro other member
        obtain rfl | behind := List.mem_cons.1 member
        · exact here
        · exact inductionHypothesis part later other behind
      rw [inetPton6Loop] at accepted
      split at accepted
      · rename_i digit
        rw [Bool.and_eq_true] at accepted
        exact step (by simp [inAddress, digit]) behind accepted.2
      · split at accepted
        · rename_i colon
          have here : inAddress char = true := by simp [inAddress, colon]
          split at accepted
          · rw [Bool.and_eq_true] at accepted
            exact step here List.suffix_rfl accepted.2
          · split at accepted
            · cases accepted
            · rw [Bool.and_eq_true] at accepted
              exact step here List.suffix_rfl accepted.2
        · split at accepted
          · simp only [Bool.and_eq_true] at accepted
            exact fun other member => inAddress_of_inetPton4 (inetPton4Loop_chars accepted.1.2 other (part.subset member))
          · cases accepted

theorem inetPton6_chars {string : Text} (accepted : inetPton6 string = true) :
    ∀ char ∈ string, inAddress char = true := by
  cases string with
  | nil => cases accepted
  | cons first rest =>
      cases rest with
      | nil =>
          by_cases colon : first == byte ':'
          · simp [inetPton6, colon] at accepted
          · simp only [inetPton6, colon] at accepted
            exact inetPton6Loop_chars List.suffix_rfl accepted
      | cons second rest =>
          rw [inetPton6.eq_def] at accepted
          dsimp only at accepted
          split at accepted
          · rename_i colon
            rw [Bool.and_eq_true] at accepted
            intro char member
            obtain rfl | behind := List.mem_cons.1 member
            · simp [inAddress, colon]
            · exact inetPton6Loop_chars List.suffix_rfl accepted.2 char behind
          · exact inetPton6Loop_chars List.suffix_rfl accepted

theorem keeps_of_inAddress : ∀ char, inAddress char = true → UriHost.keeps (toInt char) = true := by
  apply octet_forall
  decide

namespace UriHost

variable {part host : Text}

/-- The parts of a host in brackets. -/
theorem bracket_parts (opening : part.head? = some (byte '[')) (closing : part.getLast? = some (byte ']')) :
    part = byte '[' :: ((part.drop 1).take (part.length - 2) ++ [byte ']']) := by
  obtain ⟨rest, rfl⟩ : ∃ rest, part = byte '[' :: rest := by
    cases part with
    | nil => cases opening
    | cons first rest => exact ⟨rest, by simpa using opening⟩
  have filled : rest ≠ [] := by
    rintro rfl
    exact absurd closing (by decide)
  rw [List.getLast?_cons_of_ne_nil filled] at closing
  obtain ⟨inner, rfl⟩ := List.getLast?_eq_some_iff.1 closing
  simp

theorem cString_of_visible {string : Text} (visible : ∀ char ∈ string, char ≠ 0) : cString string = string := by
  rw [cString, List.takeWhile_eq_self_iff]
  simpa using visible

theorem visible_of_decoded : ∀ char, keeps (toInt char) = true ∨ char = byte '%' ∨ isXdigit (toInt char) = true →
    char ≠ 0 := by
  apply octet_forall
  decide

def isRegular (value : Int) : Bool := uriUnreservedCharacter value || uriSubcomponentDelimiter value

/-- An address is decoded to itself, and another host is shorter when it has escapes. -/
theorem set_cases (set : UriHost.set part = .ok host) :
    (part = host ∧ isPlain host = true) ∨ validKeeping isRegular part = true ∧ host.length < part.length := by
  rw [UriHost.set] at set
  split at set
  case isFalse => cases set
  case isTrue valid =>
    rw [decodeOrThrow] at set
    split at set
    case h_2 => cases set
    case h_1 decoded found =>
      cases set
      have plain (all : ∀ char ∈ part, keeps (toInt char) = true) : part = host ∧ isPlain host = true := by
        rw [decodeKeeping_all all] at found
        cases found
        exact ⟨rfl, by rw [isPlain, valid]; exact List.all_eq_true.2 all⟩
      have visible := fun char member => visible_of_decoded char (decodeKeeping_chars found char member)
      obtain ⟨shorter, same⟩ := decodeKeeping_length found
      by_cases long : part.length ≤ host.length
      · exact Or.inl (plain (same long).2)
      · rw [isValid] at valid
        split at valid
        · cases valid
        · split at valid
          · rename_i bracket
            left
            apply plain
            have inner := bracket_parts bracket.1 bracket.2
            rw [cString_of_visible fun char member => visible char (List.mem_of_mem_drop (List.mem_of_mem_take member))]
              at valid
            intro char member
            rw [inner] at member
            simp only [List.mem_cons, List.mem_append, List.not_mem_nil, or_false] at member
            obtain rfl | inside | rfl := member
            · decide
            · exact keeps_of_inAddress char (inetPton6_chars valid char inside)
            · decide
          · rw [Bool.or_eq_true] at valid
            obtain address | regular := valid
            · left
              apply plain
              rw [cString_of_visible visible] at address
              exact fun char member => keeps_of_inAddress char (inAddress_of_inetPton4 (inetPton4Loop_chars address char member))
            · rw [isRegularHostname, Bool.and_eq_true] at regular
              exact Or.inr ⟨regular.2, by omega⟩

theorem isRegular_chars : ∀ char, isRegular (toInt char) = true ∨ char = byte '%' ∨ isXdigit (toInt char) = true →
    char ≠ byte ':' ∧ char ≠ byte '/' := by
  apply octet_forall
  decide

theorem digit_keeps : ∀ char, isDigit (toInt char) = true → keeps (toInt char) = true := by
  apply octet_forall
  decide

end UriHost

/-- A part of a text without one of its characters lies on one side of it. -/
theorem infix_of_absent {char : UInt8} {part left right : Text} (inside : part <:+: left ++ char :: right)
    (absent : char ∉ part) : part <:+: left ∨ part <:+: right := by
  obtain early | late | ⟨first, second, rfl, ends, begins⟩ := List.infix_append_iff.1 inside
  · exact Or.inl early
  · obtain here | behind := List.infix_cons_iff.1 late
    · obtain rfl | ⟨more, rfl, _⟩ := List.prefix_cons_iff.1 here
      · exact Or.inr List.nil_infix
      · exact absurd List.mem_cons_self absent
    · exact Or.inr behind
  · obtain rfl | ⟨more, rfl, _⟩ := List.prefix_cons_iff.1 begins
    · rw [List.append_nil]
      exact Or.inl ends.isInfix
    · exact absurd (List.mem_append_right _ List.mem_cons_self) absent

theorem catchBadUri_ok {value : Type} {program : Except Fault value} {result : value}
    (run : catchBadUri program = .ok result) : program = .ok result := by
  cases program with
  | ok other => exact run
  | error fault => cases fault <;> cases run

/-- The host of a host string comes from a part of it. -/
theorem parseHostPort_from {string : Text} {given : HostPort} (read : parseHostPort string = .ok given) :
    ∃ part, part <:+: text "http://" ++ string ∧ UriHost.set part = .ok given.host := by
  obtain ⟨uri, parsed, rest⟩ := ok_of_bind (catchBadUri_ok read)
  obtain ⟨_, _, origin⟩ := Uri.parsed_of_parse parsed
  dsimp only at rest
  split at rest
  · cases rest
  · rename_i filled
    have same : given.host = uri.host := by
      split at rest
      · cases rest
        rfl
      · obtain ⟨_, _, built⟩ := ok_of_bind rest
        cases built
        rfl
    obtain empty | ⟨part, inside, set⟩ := origin
    · exact absurd (List.isEmpty_iff.2 empty) filled
    · exact ⟨part, inside, same ▸ set⟩

/-- A host that comes back from a part of its text needs no escape. -/
theorem isPlain_of_read {string : Text} {given read : HostPort} (inside : string <:+: given.str)
    (parsed : parseHostPort string = .ok read) (same : read.host = given.host) : UriHost.isPlain given.host = true := by
  obtain ⟨part, origin, set⟩ := parseHostPort_from parsed
  rw [same] at set
  obtain ⟨_, plain⟩ | ⟨regular, longer⟩ := UriHost.set_cases set
  · exact plain
  · have kept (all : ∀ char ∈ part, UriHost.keeps (toInt char) = true) : False := by
      obtain ⟨equal, _⟩ | ⟨_, _⟩ := UriHost.set_cases set
      · rw [equal] at longer
        exact lt_irrefl _ longer
      · rw [UriHost.set] at set
        split at set
        · rw [decodeOrThrow, decodeKeeping_all all] at set
          cases set
          exact lt_irrefl _ longer
        · cases set
    exfalso
    have filled : part ≠ [] := by
      rintro rfl
      exact Nat.not_lt_zero _ longer
    have chars : byte ':' ∉ part ∧ byte '/' ∉ part := by
      rw [validKeeping_eq] at regular
      obtain ⟨decoded, found⟩ := Option.isSome_iff_exists.1 regular
      have apart := fun char member => UriHost.isRegular_chars char (decodeKeeping_chars found char member)
      exact ⟨fun member => (apart _ member).1 rfl, fun member => (apart _ member).2 rfl⟩
    have scheme : text "http://" ++ string = text "http" ++ byte ':' :: ([] ++ byte '/' :: ([] ++ byte '/' :: string)) := rfl
    rw [scheme] at origin
    obtain early | origin := infix_of_absent origin chars.1
    · have scheme : (text "http").all (fun char => UriHost.keeps (toInt char)) = true := by decide
      exact kept fun char member => List.all_eq_true.1 scheme char (early.subset member)
    obtain none | origin := infix_of_absent origin chars.2
    · exact filled (List.infix_nil.1 none)
    obtain none | origin := infix_of_absent origin chars.2
    · exact filled (List.infix_nil.1 none)
    have origin := origin.trans inside
    rw [HostPort.str] at origin
    split at origin
    · rw [List.append_nil] at origin
      exact absurd origin.length_le (by omega)
    · obtain host | port := infix_of_absent origin chars.1
      · exact absurd host.length_le (by omega)
      · exact kept fun char member => UriHost.digit_keeps char (isDigit_digits _ char (port.subset member))

section Plain

variable {host tail : Text}

theorem UriHost.isPlain_spec (plain : UriHost.isPlain host = true) :
    UriHost.isValid host = true ∧ ∀ char ∈ host, UriHost.keeps (toInt char) = true := by
  rw [UriHost.isPlain, Bool.and_eq_true] at plain
  exact ⟨plain.1, List.all_eq_true.1 plain.2⟩

theorem keeps_spec : ∀ char, UriHost.keeps (toInt char) = true →
    (char ≠ 0 ∧ inLine char = true ∧ isSpace (toInt char) = false) ∧
      char ≠ byte '/' ∧ char ≠ byte '?' ∧ char ≠ byte '#' ∧ char ≠ byte '@' := by
  apply octet_forall
  decide

theorem inAddress_closing : ∀ char, inAddress char = true → char ≠ byte '[' ∧ char ≠ byte ']' := by
  apply octet_forall
  decide

theorem digit_apart : ∀ char, isDigit (toInt char) = true ∨ char = byte '.' → char ≠ byte '[' ∧ char ≠ byte ':' := by
  apply octet_forall
  decide

/-- A plain host is an address in brackets, or it has neither an opening bracket nor a colon. -/
theorem plain_cases (plain : UriHost.isPlain host = true) :
    (∃ inner, host = byte '[' :: (inner ++ [byte ']']) ∧ byte ']' ∉ inner) ∨
      host ≠ [] ∧ byte '[' ∉ host ∧ byte ':' ∉ host := by
  obtain ⟨valid, kept⟩ := UriHost.isPlain_spec plain
  have visible := fun char member => (keeps_spec char (kept char member)).1.1
  rw [UriHost.isValid] at valid
  split at valid
  · cases valid
  · rename_i filled
    rw [List.isEmpty_iff] at filled
    split at valid
    · rename_i bracket
      left
      have parts := UriHost.bracket_parts bracket.1 bracket.2
      rw [UriHost.cString_of_visible fun char member => visible char (List.mem_of_mem_drop (List.mem_of_mem_take member))]
        at valid
      exact ⟨_, parts, fun member => (inAddress_closing _ (inetPton6_chars valid _ member)).2 rfl⟩
    · right
      have apart (chars : ∀ char ∈ host, char ≠ byte '[' ∧ char ≠ byte ':') :
          host ≠ [] ∧ byte '[' ∉ host ∧ byte ':' ∉ host :=
        ⟨filled, fun member => (chars _ member).1 rfl, fun member => (chars _ member).2 rfl⟩
      apply apart
      rw [Bool.or_eq_true] at valid
      obtain address | regular := valid
      · rw [UriHost.cString_of_visible visible] at address
        exact fun char member => digit_apart char (inetPton4Loop_chars address char member)
      · rw [UriHost.isRegularHostname, Bool.and_eq_true, validKeeping_eq] at regular
        obtain ⟨decoded, found⟩ := Option.isSome_iff_exists.1 regular.2
        have same : ∀ char, UriHost.keeps (toInt char) = true →
            UriHost.isRegular (toInt char) = true ∨ char = byte '%' ∨ isXdigit (toInt char) = true →
            char ≠ byte '[' ∧ char ≠ byte ':' := by
          apply octet_forall
          decide
        exact fun char member => same char (kept char member) (decodeKeeping_chars found char member)

/-- The text behind a host is empty or begins with a colon. -/
inductive HostEnds : Text → Prop where
  | nothing : HostEnds []
  | colon (rest : Text) : HostEnds (byte ':' :: rest)

theorem authorityHost_plain (plain : UriHost.isPlain host = true) (ends : HostEnds tail) :
    Uri.authorityHost (host ++ tail) 0 = .ok (host, host.length) := by
  obtain ⟨inner, rfl, absent⟩ | ⟨filled, notBracket, notColon⟩ := plain_cases plain
  · have shape : byte '[' :: (inner ++ [byte ']']) ++ tail = byte '[' :: inner ++ byte ']' :: tail := by simp
    have all : ∀ char ∈ byte '[' :: inner, (char != byte ']') = true := by
      intro char member
      rw [bne_iff_ne]
      obtain rfl | inside := List.mem_cons.1 member
      · decide
      · rintro rfl
        exact absent inside
    have first : (Uri.charAt (byte '[' :: inner ++ byte ']' :: tail) 0 == byte '[') = true := rfl
    have taken := takeWhile_stop all (by decide : (byte ']' != byte ']') = false) tail
    have closing := Uri.charAt_append (byte '[' :: inner) (byte ']') tail
    rw [shape, Uri.authorityHost, first]
    simp only [List.drop_zero, taken, if_true, Nat.zero_add, closing, bne_self_eq_false, Bool.false_eq_true, if_false]
    show Except.ok _ = _
    simp
  · obtain ⟨first, others, rfl⟩ := List.exists_cons_of_ne_nil filled
    have other : (Uri.charAt (first :: others ++ tail) 0 == byte '[') = false := by
      rw [beq_eq_false_iff_ne]
      rintro rfl
      exact notBracket List.mem_cons_self
    have kept := (UriHost.isPlain_spec plain).2
    have all : ∀ char ∈ first :: others, (char != byte ':' && char != byte '/') = true := by
      intro char member
      rw [Bool.and_eq_true, bne_iff_ne, bne_iff_ne]
      exact ⟨fun same => notColon (same ▸ member), (keeps_spec char (kept char member)).2.1⟩
    have taken : (first :: others ++ tail).takeWhile (fun char => char != byte ':' && char != byte '/') = first :: others := by
      cases ends with
      | nothing => rw [List.takeWhile_append_of_pos all, List.takeWhile_nil, List.append_nil]
      | colon rest => exact takeWhile_stop all (by decide) rest
    rw [Uri.authorityHost, other]
    simp only [List.drop_zero, taken, Bool.false_eq_true, if_false, Nat.zero_add]
    rfl

theorem set_plain (plain : UriHost.isPlain host = true) : UriHost.set host = .ok host := by
  obtain ⟨valid, kept⟩ := UriHost.isPlain_spec plain
  rw [UriHost.set, if_pos valid, decodeOrThrow, decodeKeeping_all kept]

/-- The conversion of digits fails only where the number does not fit an `int`. -/
theorem stoi_all {port : Text} (filled : port ≠ []) (all : ∀ char ∈ port, isDigit (toInt char) = true) :
    stoi port = if number 10 port < 2 ^ 31 then .ok (number 10 port : Int) else .error (.outOfRange (text "stoi")) := by
  have visible : ∀ char, isDigit (toInt char) = true →
      isSpace (toInt char) = false ∧ char ≠ byte '-' ∧ char ≠ byte '+' := by
    apply octet_forall
    decide
  have taken : port.takeWhile (isDigit ∘ toInt) = port := List.takeWhile_eq_self_iff.2 all
  obtain ⟨first, others, rfl⟩ := List.exists_cons_of_ne_nil filled
  have begins := visible first (all first List.mem_cons_self)
  have started : (first :: others).dropWhile (isSpace ∘ toInt) = first :: others := by simp [begins.1]
  have minus : ((first :: others).head? == some (byte '-')) = false := by simpa using begins.2.1
  have plus : ((first :: others).head? == some (byte '+')) = false := by simpa using begins.2.2
  rw [stoi, started, minus, plus]
  simp only [Bool.or_false, Bool.false_eq_true, if_false, taken, List.isEmpty_cons]
  by_cases small : number 10 (first :: others) < 2 ^ 31
  · rw [if_neg (by omega), if_pos small]
  · rw [if_pos (by omega), if_neg small]

theorem stoi_digits {port : Nat} (small : port < 2 ^ 16) : stoi (digits 10 port) = .ok port := by
  rw [stoi_all (digits_ne_nil port) (isDigit_digits port), number_digits, if_pos (by omega)]

/-- The port of a host is printed and read with the same number. -/
theorem port_digits {port : Nat} (some : port ≠ 0) (small : port < 2 ^ 16) :
    UriPort.set (digits 10 port) = .ok (digits 10 port) ∧ UriPort.numericPort (digits 10 port) = .ok port := by
  have filled : (digits 10 port).isEmpty = false := by simpa using digits_ne_nil port
  have all : (digits 10 port).all (isDigit ∘ toInt) = true := List.all_eq_true.2 (isDigit_digits port)
  have inside : (decide ((0 : Int) < port) && decide ((port : Int) ≤ 0xFFFF)) = true := by
    rw [Bool.and_eq_true, decide_eq_true_eq, decide_eq_true_eq]
    omega
  have valid : UriPort.isValid (digits 10 port) = .ok true := by
    rw [UriPort.isValid, filled, all, stoi_digits small]
    exact congrArg Except.ok inside
  constructor
  · rw [UriPort.set, valid]
    rfl
  · rw [UriPort.numericPort, stoi_digits small]
    show Except.ok ((port : Int) % 2 ^ 16).toNat = _
    congr 1
    omega

/-- A text before a colon and a port has the ends of its parts. -/
theorem hostEnds_port (port : Nat) : HostEnds (if port = 0 then [] else byte ':' :: digits 10 port) := by
  split
  · exact .nothing
  · exact .colon _

theorem parseComponent_http (rest : Text) :
    Uri.parseComponent .empty (text "http://" ++ rest) 0 false =
      .ok (5, { Uri.empty with scheme := text "http" }, true) := rfl

/-- The authority of a plain host has no user, and its port follows a colon. -/
theorem parseAuthority_plain {given : HostPort} (plain : UriHost.isPlain given.host = true)
    (small : given.port < 2 ^ 16) (uri : Uri) :
    Uri.parseAuthority uri (text "http://" ++ given.str) 5 =
      .ok ((text "http://" ++ given.str).length,
        { uri with
          host := given.host
          port := if given.port = 0 then uri.port else digits 10 given.port }) := by
  have kept : ∀ char ∈ given.str, (char != byte '/' && char != byte '?' && char != byte '#') = true ∧ char ≠ byte '@' := by
    have digit : ∀ char, isDigit (toInt char) = true →
        char ≠ byte '/' ∧ char ≠ byte '?' ∧ char ≠ byte '#' ∧ char ≠ byte '@' := by
      apply octet_forall
      decide
    have apart : ∀ char ∈ given.str, char ≠ byte '/' ∧ char ≠ byte '?' ∧ char ≠ byte '#' ∧ char ≠ byte '@' := by
      intro char member
      rw [HostPort.str, List.mem_append] at member
      obtain host | port := member
      · exact (keeps_spec char ((UriHost.isPlain_spec plain).2 char host)).2
      · split at port
        · cases port
        · obtain rfl | inside := List.mem_cons.1 port
          · decide
          · exact digit char (isDigit_digits _ char inside)
    intro char member
    obtain ⟨slash, question, hash, user⟩ := apart char member
    exact ⟨by simp [slash, question, hash], user⟩
  have slashes : (Uri.charAt (text "http://" ++ given.str) 5 != byte '/' ||
      Uri.charAt (text "http://" ++ given.str) (5 + 1) != byte '/') = false := rfl
  have dropped : (text "http://" ++ given.str).drop (5 + 2) = given.str := rfl
  have taken : given.str.takeWhile (fun char => char != byte '/' && char != byte '?' && char != byte '#') = given.str :=
    List.takeWhile_eq_self_iff.2 fun char member => (kept char member).1
  have named : byte '@' ∉ given.str := fun member => (kept _ member).2 rfl
  have stop : 5 + 2 + given.str.length = (text "http://" ++ given.str).length := by
    rw [List.length_append]
    rfl
  have host := authorityHost_plain plain (hostEnds_port given.port)
  rw [Uri.parseAuthority]
  simp only [slashes, dropped, taken, stop, Bool.false_eq_true, if_false, named]
  rw [HostPort.str]
  show (Uri.authorityHost _ 0).bind _ = _
  rw [host]
  show (UriHost.set given.host).bind _ = _
  rw [set_plain plain]
  by_cases none : given.port = 0
  · have ended : (Uri.charAt (given.host ++ []) given.host.length == byte ':') = false := by
      rw [List.append_nil, Uri.charAt_length]
      decide
    simp only [none, if_true]
    show (if (Uri.charAt (given.host ++ []) given.host.length == byte ':') = true then _ else _) = _
    rw [ended, if_neg Bool.false_ne_true]
    rfl
  · have colon : (Uri.charAt (given.host ++ byte ':' :: digits 10 given.port) given.host.length == byte ':') = true := by
      rw [Uri.charAt_append, beq_self_eq_true]
    simp only [none, if_false]
    show (if (Uri.charAt (given.host ++ byte ':' :: digits 10 given.port) given.host.length == byte ':') = true
      then _ else _) = _
    rw [colon, if_pos rfl, drop_behind, (port_digits none small).1]
    rfl

/-- A plain host comes back with its port. -/
theorem parseHostPort_str {given : HostPort} (plain : UriHost.isPlain given.host = true)
    (small : given.port < 2 ^ 16) : parseHostPort given.str = .ok given := by
  have parsed : Uri.parse (text "http://" ++ given.str) = .ok { Uri.empty with
      scheme := text "http"
      host := given.host
      port := if given.port = 0 then [] else digits 10 given.port } := by
    have long : (text "http://" ++ given.str).length = given.str.length + 5 + 1 + 1 := by
      rw [List.length_append, Nat.add_comm]
      rfl
    have second : Uri.parseComponent { Uri.empty with scheme := text "http" } (text "http://" ++ given.str) 5 true =
        (Uri.parseAuthority { Uri.empty with scheme := text "http" } (text "http://" ++ given.str) 5).map
          fun next => (next.1, next.2, true) := rfl
    rw [Uri.parse, long, Uri.parseLoop_step (by omega), parseComponent_http]
    show Uri.parseLoop _ _ _ 5 true = _
    rw [Uri.parseLoop_step (by omega), second, parseAuthority_plain plain small]
    exact Uri.parseLoop_length _ _ _ _
  have filled : given.host.isEmpty = false := by
    rw [List.isEmpty_eq_false_iff]
    obtain ⟨inner, shape, _⟩ | ⟨some, _⟩ := plain_cases plain
    · rw [shape]
      exact List.cons_ne_nil _ _
    · exact some
  rw [parseHostPort]
  show catchBadUri ((Uri.parse _).bind _) = _
  rw [parsed]
  obtain ⟨host, port⟩ := given
  by_cases none : port = 0
  · subst none
    simp only [Except.bind, filled, Bool.false_eq_true, if_false, if_true]
    rfl
  · have some : (digits 10 port).isEmpty = false := by simpa using digits_ne_nil port
    simp only [Except.bind, filled, none, some, Bool.false_eq_true, if_false]
    show catchBadUri ((UriPort.numericPort _).bind _) = _
    rw [(port_digits none small).2]
    rfl

/-- The text of a plain host is solid. -/
theorem solid_plain {given : HostPort} (plain : UriHost.isPlain given.host = true) : Solid given.str := by
  refine .of_all fun char member => ?_
  rw [HostPort.str, List.mem_append] at member
  obtain host | port := member
  · exact (keeps_spec char ((UriHost.isPlain_spec plain).2 char host)).1.2
  · split at port
    · cases port
    · obtain rfl | inside := List.mem_cons.1 port
      · decide
      · exact digit_solid char (isDigit_digits _ char inside)

end Plain

end SimpleNFast.Http
