import SimpleNFast.Construction.Http.UriSetters
import SimpleNFast.Proof.Http.UriAcceptance

set_option maxRecDepth 100000

namespace SimpleNFast.Http

section Lower

theorem lower_class : ∀ char, isXdigit (toInt (lowerByte char)) = isXdigit (toInt char) ∧
    isDigit (toInt (lowerByte char)) = isDigit (toInt char) ∧
    (lowerByte char == byte ':') = (char == byte ':') ∧ (lowerByte char == byte '.') = (char == byte '.') := by
  apply octet_forall
  decide

theorem lower_digit : ∀ char, isDigit (toInt char) = true → lowerByte char = char := by
  apply octet_forall
  decide

theorem lower_marks : ∀ char, (lowerByte char = byte '[' ↔ char = byte '[') ∧ (lowerByte char = byte ']' ↔ char = byte ']') := by
  apply octet_forall
  decide

theorem inetPton4Loop_lower (rest : Text) (octet : Nat) (sawDigit : Bool) (octets : Nat) :
    inetPton4Loop (rest.map lowerByte) octet sawDigit octets = inetPton4Loop rest octet sawDigit octets := by
  induction rest generalizing octet sawDigit octets with
  | nil => rfl
  | cons char rest inductionHypothesis =>
      obtain ⟨-, digit, -, dot⟩ := lower_class char
      rw [List.map_cons, inetPton4Loop, inetPton4Loop, digit, dot]
      simp only [inductionHypothesis]
      cases accepted : isDigit (toInt char) with
      | true => rw [lower_digit char accepted]
      | false => rfl

theorem inetPton6Loop_lower (rest : Text) (bytes : Nat) (double : Bool) (groupDigits : Nat) (group : Text) :
    inetPton6Loop (rest.map lowerByte) bytes double groupDigits (group.map lowerByte) =
      inetPton6Loop rest bytes double groupDigits group := by
  induction rest generalizing bytes double groupDigits group with
  | nil => rfl
  | cons char rest inductionHypothesis =>
      obtain ⟨digit, -, colon, dot⟩ := lower_class char
      have address : inetPton4 (group.map lowerByte) = inetPton4 group := inetPton4Loop_lower group 0 false 0
      rw [List.map_cons, inetPton6Loop, inetPton6Loop, digit, colon, dot, address]
      simp only [inductionHypothesis, List.isEmpty_map]

/-- The case of letters does not matter in an address. -/
theorem inetPton6_lower (string : Text) : inetPton6 (string.map lowerByte) = inetPton6 string := by
  cases string with
  | nil => rfl
  | cons first rest =>
      have loop := inetPton6Loop_lower rest 0 false 0 rest
      have whole := inetPton6Loop_lower (first :: rest) 0 false 0 (first :: rest)
      rw [List.map_cons] at whole
      rw [List.map_cons, inetPton6.eq_def, inetPton6.eq_def]
      dsimp only
      rw [(lower_class first).2.2.1, whole]
      cases rest with
      | nil => rfl
      | cons second rest =>
          rw [List.map_cons] at loop ⊢
          dsimp only
          rw [(lower_class second).2.2.1, loop]

theorem lowerByte_lowerByte (char : UInt8) : lowerByte (lowerByte char) = lowerByte char := by
  revert char
  apply octet_forall
  decide

theorem map_lower_lower (string : Text) : (string.map lowerByte).map lowerByte = string.map lowerByte := by
  rw [List.map_map]
  exact List.map_congr_left fun char _ => lowerByte_lowerByte char

/-- A host is encoded in lower case. -/
theorem UriHost.encode_lower (host : Text) : UriHost.encode host = encodeKeeping UriHost.keeps (host.map lowerByte) := by
  have step : ∀ char, (if uriUnreservedCharacter (toInt char) then [toByte (toLower (toInt char))]
      else if UriHost.keeps (toInt char) then [char] else percentEncode char) =
      if UriHost.keeps (toInt (lowerByte char)) then [lowerByte char] else percentEncode (lowerByte char) := by
    apply octet_forall
    decide
  rw [UriHost.encode, encodeKeeping, List.flatMap_map]
  exact congrArg (fun encode => host.flatMap encode) (funext step)

end Lower

section Encoded

variable {keeps : Int → Bool} {string : Text}

theorem percentEncode_ten : ∀ char : UInt8, char < 10 →
    percentEncode char = [byte '%', byte '0', char + 48] ∧ isXdigit (toInt (char + 48)) = true := by
  apply octet_forall
  decide

theorem encode_kept {char : UInt8} (kept : keeps (toInt char) = true) (rest : Text) :
    encodeKeeping keeps (char :: rest) = char :: encodeKeeping keeps rest := by
  rw [encodeKeeping, List.flatMap_cons, if_pos kept, List.singleton_append]
  rfl

theorem encode_ten {char : UInt8} (other : keeps (toInt char) = false) (ten : char < 10) (rest : Text) :
    encodeKeeping keeps (char :: rest) = byte '%' :: byte '0' :: (char + 48) :: encodeKeeping keeps rest := by
  rw [encodeKeeping, List.flatMap_cons, if_neg (by simp [other]), (percentEncode_ten char ten).1]
  rfl

/-- The encoded form of a readable text has literal characters and escapes. -/
theorem coded_encode (readable : ∀ char ∈ string, keeps (toInt char) = true ∨ char < 10) :
    Coded keeps (encodeKeeping keeps string) := by
  induction string with
  | nil => exact .nothing
  | cons char string inductionHypothesis =>
      rw [List.forall_mem_cons] at readable
      have rest := inductionHypothesis readable.2
      cases kept : keeps (toInt char) with
      | true =>
          rw [encode_kept kept]
          exact .plain kept rest
      | false =>
          have ten : char < 10 := readable.1.resolve_left (by rw [kept]; exact Bool.false_ne_true)
          rw [encode_ten kept ten]
          exact .escape (by decide) (percentEncode_ten char ten).2 rest

theorem Coded.mono {few many : Int → Bool} (less : ∀ char, few (toInt char) = true → many (toInt char) = true)
    {string : Text} (coded : Coded few string) : Coded many string := by
  induction coded with
  | nothing => exact .nothing
  | plain accepted _ inductionHypothesis => exact .plain (less _ accepted) inductionHypothesis
  | escape high low _ inductionHypothesis => exact .escape high low inductionHypothesis

theorem decodeKeeping_coded {literal : Int → Bool} (percent : literal (toInt (byte '%')) = false)
    (coded : Coded literal string) : (decodeKeeping literal string).isSome = true := by
  obtain ⟨decoded, found⟩ := coded.decoded (fun _ accepted => accepted) percent
  rw [found]
  rfl

end Encoded

namespace UriPath

theorem slashes_cons {char : UInt8} {rest : Text} :
    text "//" <:+: char :: rest ↔ char = byte '/' ∧ rest.head? = some (byte '/') ∨ text "//" <:+: rest := by
  have shape : text "//" = [byte '/', byte '/'] := rfl
  rw [List.infix_cons_iff, shape]
  refine or_congr_left ?_
  cases rest with
  | nil => simp [List.cons_prefix_cons]
  | cons second rest => simp [List.cons_prefix_cons, eq_comm]

/-- Two slashes in a row come from two slashes in a row. -/
theorem slashes_encode {string : Text} (readable : ∀ char ∈ string, keeps (toInt char) = true ∨ char < 10)
    (inside : text "//" <:+: encodeKeeping keeps string) : text "//" <:+: string := by
  induction string with
  | nil => exact absurd inside (by decide)
  | cons char string inductionHypothesis =>
      rw [List.forall_mem_cons] at readable
      rw [slashes_cons]
      cases kept : keeps (toInt char) with
      | true =>
          rw [encode_kept kept, slashes_cons] at inside
          refine inside.imp (fun ⟨first, second⟩ => ⟨first, ?_⟩) (inductionHypothesis readable.2)
          cases string with
          | nil => cases second
          | cons other string =>
              cases same : keeps (toInt other) with
              | true =>
                  rw [encode_kept same] at second
                  exact second
              | false =>
                  have ten : other < 10 := (readable.2 other List.mem_cons_self).resolve_left (by simp [same])
                  rw [encode_ten same ten, List.head?_cons] at second
                  exact absurd second (by decide)
      | false =>
          have ten : char < 10 := readable.1.resolve_left (by rw [kept]; exact Bool.false_ne_true)
          have digit : char + 48 ≠ byte '/' := by
            intro same
            have accepted := (percentEncode_ten char ten).2
            rw [same] at accepted
            exact absurd accepted (by decide)
          rw [encode_ten kept ten, slashes_cons, slashes_cons, slashes_cons] at inside
          obtain ⟨percent, -⟩ | ⟨zero, -⟩ | ⟨slash, -⟩ | later := inside
          · exact absurd percent (by decide)
          · exact absurd zero (by decide)
          · exact absurd slash digit
          · exact .inr (inductionHypothesis readable.2 later)

/-- The encoded form of a path without two slashes in a row is valid. -/
theorem isValid_encode {string : Text} (readable : ∀ char ∈ string, keeps (toInt char) = true ∨ char < 10)
    (single : ¬ text "//" <:+: string) : isValid (encodeKeeping keeps string) = true := by
  have literal : ∀ char, keeps (toInt char) = true → isPathChar (toInt char) = true := by
    apply octet_forall
    decide
  exact isValid_coded (Coded.mono literal (coded_encode readable)) fun inside => single (slashes_encode readable inside)

end UriPath

namespace ComponentKind

theorem user_literals : Literals UriUserinfo.keeps where
  percent := by decide
  digits := by
    apply octet_forall
    decide
  ascii := by
    apply octet_forall
    decide

theorem host_literals : Literals UriHost.keeps where
  percent := by decide
  digits := by
    apply octet_forall
    decide
  ascii := by
    apply octet_forall
    decide

theorem path_literals : Literals UriPath.keeps where
  percent := by decide
  digits := by
    apply octet_forall
    decide
  ascii := by
    apply octet_forall
    decide

theorem lower_telling : Telling lowerByte where
  tells := by
    apply octet_forall
    decide

/-- A text comes back exactly from its encoded form when it is readable. -/
theorem decodes_iff {keeps : Int → Bool} (literals : Literals keeps) (what : String) (string : Text) :
    (∃ decoded, decodeOrThrow keeps what (encodeKeeping keeps string) = .ok decoded ∧ decoded = string) ↔
      ∀ char ∈ string, keeps (toInt char) = true ∨ char < 10 := by
  simp only [decodeOrThrow_ok]
  have seen := decode_encode_view literals id_telling string
  simp only [List.map_id] at seen
  exact seen

/-- A component that is encoded with its literal characters comes back exactly when it is readable. -/
theorem roundTrip_keeping {keeps : Int → Bool} (literals : Literals keeps) (kind : ComponentKind) {what : String}
    (keeping : kind.keeps = keeps) (encoding : kind.encode = encodeKeeping keeps)
    (decoding : kind.decode = decodeOrThrow keeps what) (equality : kind.same = fun first second => first = second)
    (valid : ∀ string, (∀ char ∈ string, keeps (toInt char) = true ∨ char < 10) → kind.Wanted string →
      kind.isValid (encodeKeeping keeps string) = true) (string : Text) :
    kind.RoundTrip string ↔ ∀ char ∈ string, keeps (toInt char) = true ∨ char < 10 := by
  rw [← decodes_iff literals what]
  constructor
  · intro trip
    have decodes := trip.decodes
    rwa [encoding, decoding, equality] at decodes
  · intro decodes
    have readable := (decodes_iff literals what string).1 decodes
    refine ⟨?_, fun wanted => ?_, ?_⟩
    · rw [encoding, decoding, equality]
      exact decodes
    · rw [encoding]
      exact valid string readable wanted
    · rw [keeping, encoding]
      exact coded_encode readable

theorem validKeeping_encode {keeps : Int → Bool} (literals : Literals keeps) {string : Text}
    (readable : ∀ char ∈ string, keeps (toInt char) = true ∨ char < 10) (filled : string ≠ []) :
    (!(encodeKeeping keeps string).isEmpty && validKeeping keeps (encodeKeeping keeps string)) = true := by
  rw [Bool.and_eq_true, Bool.not_eq_true', List.isEmpty_eq_false_iff, validKeeping_eq]
  exact ⟨Uri.encode_ne_nil filled, decodeKeeping_coded literals.percent (coded_encode readable)⟩

theorem set_isValid {part host : Text} (set : UriHost.set part = .ok host) : UriHost.isValid part = true := by
  rw [UriHost.set] at set
  split at set
  · rename_i valid
    exact valid
  · cases set

theorem isRegular_lower : ∀ char, isNameChar (toInt (lowerByte char)) = isNameChar (toInt char) ∧
    (lowerByte char < 10 ↔ char < 10) := by
  apply octet_forall
  decide

theorem isNameChar_keeps : ∀ char, isNameChar (toInt char) = true → UriHost.keeps (toInt char) = true := by
  apply octet_forall
  decide

theorem small_keeps : ∀ char : UInt8, char < 10 → UriHost.keeps (toInt char) = false ∧ isNameChar (toInt char) = false := by
  apply octet_forall
  decide

/-- A host of name characters is encoded to a name. -/
theorem encode_name {string : Text} (plain : ∀ char ∈ string, isNameChar (toInt char) = true ∨ char < 10) :
    encodeKeeping UriHost.keeps string = encodeKeeping isNameChar string := by
  induction string with
  | nil => rfl
  | cons char string inductionHypothesis =>
      rw [List.forall_mem_cons] at plain
      have rest := inductionHypothesis plain.2
      obtain name | ten := plain.1
      · rw [encode_kept (isNameChar_keeps char name), encode_kept name, rest]
      · rw [encode_ten (small_keeps char ten).1 ten, encode_ten (small_keeps char ten).2 ten, rest]

/-- An address in brackets is encoded in lower case only. -/
theorem encode_address {inner : Text} (accepted : inetPton6 inner = true) :
    (∀ char ∈ byte '[' :: (inner ++ [byte ']']), UriHost.keeps (toInt (lowerByte char)) = true) ∧
      UriHost.encode (byte '[' :: (inner ++ [byte ']'])) = byte '[' :: (inner.map lowerByte ++ [byte ']']) := by
  have lower : inetPton6 (inner.map lowerByte) = true := by
    rw [inetPton6_lower]
    exact accepted
  have kept : ∀ char ∈ byte '[' :: (inner ++ [byte ']']), UriHost.keeps (toInt (lowerByte char)) = true := by
    intro char member
    rw [List.mem_cons, List.mem_append, List.mem_singleton] at member
    obtain rfl | inside | rfl := member
    · decide
    · exact keeps_of_inAddress _ (inetPton6_chars lower _ (List.mem_map_of_mem inside))
    · decide
  have shape : (byte '[' :: (inner ++ [byte ']'])).map lowerByte = byte '[' :: (inner.map lowerByte ++ [byte ']']) := by
    rw [List.map_cons, List.map_append]
    rfl
  refine ⟨kept, ?_⟩
  rw [UriHost.encode_lower, ← shape]
  exact encodeKeeping_all (List.forall_mem_map.2 kept)

/-- A host whose encoded form is an address in brackets is one. -/
theorem address_of_lower {string inner : Text} (shape : string.map lowerByte = byte '[' :: (inner ++ [byte ']'])) :
    ∃ before, string = byte '[' :: (before ++ [byte ']']) ∧ before.map lowerByte = inner := by
  obtain ⟨first, rest, rfl, opening, behind⟩ := List.map_eq_cons_iff.1 shape
  obtain ⟨before, last, rfl, same, closing⟩ := List.map_eq_append_iff.1 behind
  obtain ⟨end_, none, rfl, mark, nothing⟩ := List.map_eq_cons_iff.1 closing
  rw [List.map_eq_nil_iff] at nothing
  subst nothing
  rw [(lower_marks first).1.1 opening, (lower_marks end_).2.1 mark]
  exact ⟨before, rfl, same⟩

/-- A host comes back up to the case of its letters, and its encoded form is valid, when it is an address or readable. -/
theorem roundTrip_host (string : Text) : RoundTrip .host string ↔ Plain .host string := by
  have view := decode_encode_view host_literals lower_telling (string.map lowerByte)
  simp only [map_lower_lower] at view
  constructor
  · rintro ⟨⟨decoded, read, same⟩, valid, -⟩
    change decodeOrThrow UriHost.keeps "invalid host: " (UriHost.encode string) = .ok decoded at read
    rw [UriHost.encode_lower] at read
    have readable := view.1 ⟨decoded, decodeOrThrow_ok.1 read, same⟩
    by_cases none : string = []
    · rw [none]
      exact .inr (by simp)
    have accepted : UriHost.isValid (encodeKeeping UriHost.keeps (string.map lowerByte)) = true := by
      rw [← UriHost.encode_lower]
      exact valid none
    have set : UriHost.set (encodeKeeping UriHost.keeps (string.map lowerByte)) = .ok decoded := by
      rw [UriHost.set, if_pos accepted]
      exact read
    obtain ⟨shape, address, -⟩ | ⟨-, regular⟩ := UriHost.set_iff.1 set
    · rename_i inner
      -- An address has no percent sign, so no character of the host is escaped.
      have percent : byte '%' ∉ encodeKeeping UriHost.keeps (string.map lowerByte) := by
        have other : ∀ char, inAddress char = true → char ≠ byte '%' := by
          apply octet_forall
          decide
        rw [shape, List.mem_cons, List.mem_append, List.mem_singleton, not_or, not_or]
        exact ⟨by decide, fun member => other _ (inetPton6_chars address _ member) rfl, by decide⟩
      have kept : ∀ char ∈ string.map lowerByte, UriHost.keeps (toInt char) = true := by
        intro char member
        by_contra other
        rw [Bool.not_eq_true] at other
        refine percent (List.mem_flatMap.2 ⟨char, member, ?_⟩)
        rw [if_neg (by simp [other]), percentEncode]
        exact List.mem_cons_self
      rw [encodeKeeping_all kept] at shape
      obtain ⟨before, rfl, lowered⟩ := address_of_lower shape
      exact .inl ⟨before, rfl, by rw [← inetPton6_lower, lowered, address]⟩
    · right
      intro char member
      have lowered := List.mem_map_of_mem member (f := lowerByte)
      obtain kept | ten := readable _ lowered
      · left
        have there : lowerByte char ∈ encodeKeeping UriHost.keeps (string.map lowerByte) := by
          refine List.mem_flatMap.2 ⟨_, lowered, ?_⟩
          rw [if_pos kept]
          exact List.mem_cons_self
        have name : ∀ char, UriHost.keeps (toInt char) = true →
            (UriHost.isRegular (toInt char) = true ∨ char = byte '%' ∨ isXdigit (toInt char) = true) →
            isNameChar (toInt char) = true := by
          apply octet_forall
          decide
        rw [← (isRegular_lower char).1]
        exact name _ kept (decodeKeeping_chars regular _ there)
      · exact .inr ((isRegular_lower char).2.1 ten)
  · rintro (⟨inner, rfl, accepted⟩ | plain)
    · obtain ⟨kept, encoded⟩ := encode_address accepted
      have lower : inetPton6 (inner.map lowerByte) = true := by
        rw [inetPton6_lower]
        exact accepted
      have set := UriHost.set_iff.2 (.address rfl lower rfl)
      have readable : ∀ char ∈ (byte '[' :: (inner ++ [byte ']'])).map lowerByte,
          UriHost.keeps (toInt char) = true ∨ char < 10 :=
        List.forall_mem_map.2 fun char member => .inl (kept char member)
      obtain ⟨decoded, read, same⟩ := view.2 readable
      rw [← UriHost.encode_lower] at read
      refine ⟨⟨decoded, decodeOrThrow_ok.2 read, same⟩, fun _ => ?_, ?_⟩
      · change UriHost.isValid (UriHost.encode _) = true
        rw [encoded]
        exact set_isValid set
      · change Coded UriHost.keeps (UriHost.encode _)
        rw [UriHost.encode_lower]
        exact coded_encode readable
    · have name : ∀ char ∈ string.map lowerByte, isNameChar (toInt char) = true ∨ char < 10 :=
        List.forall_mem_map.2 fun char member => by
          rw [(isRegular_lower char).1, (isRegular_lower char).2]
          exact plain char member
      have readable : ∀ char ∈ string.map lowerByte, UriHost.keeps (toInt char) = true ∨ char < 10 :=
        fun char member => (name char member).imp (isNameChar_keeps char) id
      obtain ⟨decoded, read, same⟩ := view.2 readable
      rw [← UriHost.encode_lower] at read
      refine ⟨⟨decoded, decodeOrThrow_ok.2 read, same⟩, fun filled => ?_, ?_⟩
      · have coded : Coded isNameChar (UriHost.encode string) := by
          rw [UriHost.encode_lower, encode_name name]
          exact coded_encode name
        obtain ⟨given, regular⟩ := coded.decoded (fun _ accepted => accepted) (by decide)
        have some : UriHost.encode string ≠ [] := by
          rw [UriHost.encode_lower]
          have some : string ≠ [] := filled
          exact Uri.encode_ne_nil (by simpa using some)
        exact set_isValid (UriHost.set_iff.2 (.regular some regular))
      · change Coded UriHost.keeps (UriHost.encode _)
        rw [UriHost.encode_lower]
        exact coded_encode readable

/-- A value comes back from its encoded form exactly when no character from ten on is escaped. -/
theorem roundTrip_iff (kind : ComponentKind) (string : Text) : kind.RoundTrip string ↔ kind.Plain string := by
  cases kind with
  | userinfo =>
      exact roundTrip_keeping user_literals .userinfo rfl rfl rfl rfl
        (fun _ readable filled => validKeeping_encode user_literals readable filled) string
  | host => exact roundTrip_host string
  | path =>
      exact roundTrip_keeping path_literals .path rfl rfl rfl rfl
        (fun _ readable wanted => UriPath.isValid_encode readable wanted.2) string
  | query =>
      exact roundTrip_keeping component_literals .query rfl rfl rfl rfl
        (fun _ readable filled => validKeeping_encode component_literals readable filled) string
  | fragment =>
      exact roundTrip_keeping component_literals .fragment rfl rfl rfl rfl
        (fun _ readable filled => validKeeping_encode component_literals readable filled) string

/-- A space comes back as the digit two. -/
theorem roundTrip_space : ¬ ∀ kind string, RoundTrip kind string := by
  intro holds
  obtain ⟨decoded, read, same⟩ := (holds .query (text " ")).decodes
  change decodeOrThrow componentKeeps "invalid component: " (encodeKeeping componentKeeps (text " ")) = _ at read
  have other : decodeKeeping componentKeeps (encodeKeeping componentKeeps (text " ")) = some (text "2") := by decide
  rw [decodeOrThrow_ok, other, Option.some.injEq] at read
  change decoded = text " " at same
  rw [← read] at same
  exact absurd same (by decide)

end ComponentKind

end SimpleNFast.Http
