import SimpleNFast.Construction.Http.UriSetters
import SimpleNFast.Proof.Http.UriAcceptance
import SimpleNFast.Proof.Http.UriBounds

set_option maxRecDepth 100000

namespace SimpleNFast.Http

open Components

section Mild

variable {first second : Type}

/-- A program that fails throws a `bad_uri`. -/
def Mild (program : Except Fault first) : Prop :=
  ∀ fault, program = .error fault → ∃ message, fault = .badUri message

theorem mild_ok (value : first) : Mild (.ok value) := fun _ same => by cases same

theorem mild_badUri (message : Text) : Mild (.error (.badUri message) : Except Fault first) := by
  rintro _ ⟨⟩
  exact ⟨message, rfl⟩

theorem mild_bind {program : Except Fault first} {next : first → Except Fault second} :
    ¬ Mild (program >>= next) ↔ ¬ Mild program ∨ ∃ value, program = .ok value ∧ ¬ Mild (next value) := by
  cases program with
  | ok value =>
      rw [ok_bind, or_iff_right (not_not.2 (mild_ok value))]
      simp
  | error fault =>
      have same : (∀ reason, (Except.error fault : Except Fault second) = .error reason → ∃ message, reason = .badUri message) ↔
          ∀ reason, (Except.error fault : Except Fault first) = .error reason → ∃ message, reason = .badUri message := by
        simp
      rw [or_iff_left (by simp)]
      exact not_congr same

theorem Mild.bind {program : Except Fault first} (mild : Mild program) {next : first → Except Fault second} :
    ¬ Mild (program >>= next) ↔ ∃ value, program = .ok value ∧ ¬ Mild (next value) := by
  rw [mild_bind, or_iff_right (not_not.2 mild)]

theorem decodeOrThrow_mild (keeps : Int → Bool) (what : String) (string : Text) :
    Mild (decodeOrThrow keeps what string) := by
  rw [decodeOrThrow]
  split
  · exact mild_ok _
  · exact mild_badUri _

theorem mild_map {program : Except Fault first} {view : first → second} (mild : Mild program) :
    Mild (program.map view) := by
  cases program with
  | ok value => exact mild_ok _
  | error fault =>
      obtain ⟨message, rfl⟩ := mild fault rfl
      exact mild_badUri message

end Mild

namespace Uri

variable {uri : Uri}

theorem scheme_mild (scheme : Text) : Mild (UriScheme.set scheme) := by
  rw [UriScheme.set]
  split
  · exact mild_ok _
  · exact mild_badUri _

theorem host_mild (host : Text) : Mild (UriHost.set host) := by
  rw [UriHost.set]
  split
  · exact decodeOrThrow_mild _ _ _
  · exact mild_badUri _

/-- The conversion of a port is the only one that fails. -/
theorem port_mild (port : Text) : ¬ Mild (UriPort.set port) ↔ OverlongPort port := by
  by_cases digits : UriPort.Digits port
  · rw [UriPort.set_digits digits]
    split
    · rename_i small
      refine iff_of_false (not_not.2 ?_) fun overlong => absurd overlong.large (not_le.2 small)
      split
      · exact mild_ok _
      · exact mild_badUri _
    · rename_i large
      refine iff_of_true (fun mild => ?_) ⟨digits.1, digits.2, not_lt.1 large⟩
      obtain ⟨message, same⟩ := mild _ rfl
      cases same
  · rw [UriPort.set_other digits]
    exact iff_of_false (not_not.2 (mild_badUri _)) fun overlong => digits ⟨overlong.filled, overlong.digits⟩

theorem readPath_mild (path : Text) : Mild (readPath uri path) := by
  by_contra failed
  rw [readPath] at failed
  split at failed
  · exact failed (mild_ok _)
  · split at failed
    · exact failed (mild_badUri _)
    · rw [UriPath.set_pieces] at failed
      obtain ⟨value, -, other⟩ := (mild_map (decodeOrThrow_mild _ _ _)).bind.1 failed
      exact other (mild_ok _)

theorem readMarked_mild (what : String) (component : Text) : Mild (readMarked what component) := by
  rw [readMarked]
  split
  · exact mild_badUri _
  · exact decodeOrThrow_mild _ _ _

theorem readQuery_mild (query : Option Text) : Mild (readQuery uri query) := by
  cases query with
  | none => exact mild_ok _
  | some query => exact mild_map (readMarked_mild "invalid query: " query)

theorem readFragment_mild (fragment : Option Text) : Mild (readFragment uri fragment) := by
  cases fragment with
  | none => exact mild_ok _
  | some fragment => exact mild_map (readMarked_mild "invalid fragment: " fragment)

theorem readTail_mild (tail : Components) : Mild (readTail uri tail) := by
  by_contra failed
  obtain ⟨first, -, failed⟩ := (readPath_mild tail.path).bind.1 failed
  obtain ⟨second, -, failed⟩ := (readQuery_mild tail.query).bind.1 failed
  exact failed (readFragment_mild tail.fragment)

theorem readUserinfo_mild (userinfo : Text) : Mild (readUserinfo uri userinfo) := by
  rw [readUserinfo]
  split
  · exact mild_badUri _
  · exact mild_map (decodeOrThrow_mild _ _ userinfo)

theorem readHost_mild (authority rest : Text) : Mild (readHost authority rest) := by
  rw [readHost]
  split
  · split
    · exact mild_ok _
    · exact mild_badUri _
  · exact mild_ok _

end Uri

/-- A text that is decoded is coded. -/
theorem coded_of_decoded {literal : Int → Bool} {string decoded : Text}
    (found : decodeKeeping literal string = some decoded) : Coded literal string := by
  fun_induction decodeKeeping literal string generalizing decoded with
  | case1 => exact .nothing
  | case2 char rest kept inductionHypothesis =>
      obtain ⟨tail, read, -⟩ := Option.map_eq_some_iff.1 found
      exact .plain kept (inductionHypothesis read)
  | case3 char other first second rest escaped inductionHypothesis =>
      obtain ⟨tail, read, -⟩ := Option.map_eq_some_iff.1 found
      simp only [uriPercentEncoded, Bool.and_eq_true, beq_iff_eq] at escaped
      obtain ⟨⟨rfl, high⟩, low⟩ := escaped
      exact .escape high low (inductionHypothesis read)
  | case4 => cases found
  | case5 => cases found

theorem hostText_iff {host : Text} : HostText host ↔ ∃ decoded, UriHost.Named host decoded := by
  refine ⟨HostText.named, ?_⟩
  rintro ⟨decoded, named⟩
  cases named with
  | address shape accepted same =>
      rw [shape]
      exact .address accepted
  | regular filled found => exact .name filled (coded_of_decoded found)

/-- The user of an authority is accepted exactly when it is coded text. -/
theorem userinfo_iff {uri : Uri} {userinfo : Text} :
    (∃ later, Uri.readUserinfo uri userinfo = .ok later) ↔ userinfo ≠ [] ∧ Coded isUserChar userinfo := by
  have valid : UriUserinfo.isValid userinfo = true ↔
      userinfo ≠ [] ∧ (decodeKeeping UriUserinfo.keeps userinfo).isSome = true := by
    rw [UriUserinfo.isValid, Bool.and_eq_true, Bool.not_eq_true', List.isEmpty_eq_false_iff, validKeeping_eq]
  constructor
  · rintro ⟨later, read⟩
    obtain ⟨decoded, accepted, set, -⟩ := Uri.readUserinfo_ok.1 read
    exact ⟨(valid.1 accepted).1, coded_of_decoded (decodeOrThrow_ok.1 set)⟩
  · rintro ⟨filled, coded⟩
    obtain ⟨decoded, found⟩ := coded.decoded isUserChar_keeps (by decide)
    refine ⟨_, Uri.readUserinfo_ok.2 ⟨decoded, valid.2 ⟨filled, ?_⟩, decodeOrThrow_ok.2 found, rfl⟩⟩
    rw [found]
    rfl

namespace Uri

/-- The outcome of a program is decided by its last part unless an earlier part throws a `bad_uri`. -/
structure Follows (outcome : Except Fault Uri → Prop) : Prop where
  bind {value : Type} {program : Except Fault value} (mild : Mild program) {next : value → Except Fault Uri} :
    outcome (program >>= next) ↔ ∃ result, program = .ok result ∧ outcome (next result)

theorem fails_follows : Follows (¬ Mild ·) := ⟨fun mild => mild.bind⟩

theorem accepts_follows : Follows (fun program => ∃ later, program = .ok later) := by
  refine ⟨fun _ => ⟨?_, ?_⟩⟩
  · rintro ⟨later, run⟩
    obtain ⟨result, found, rest⟩ := ok_of_bind run
    exact ⟨result, found, later, rest⟩
  · rintro ⟨result, rfl, later, rest⟩
    exact ⟨later, rest⟩

section Outcomes

variable {uri : Uri} {outcome : Except Fault Uri → Prop} (follows : Follows outcome)
include follows

/-- An address is read up to its port. -/
theorem outcome_address (authority rest : Text) :
    outcome (readAddress uri authority rest) ↔ ∃ host after decoded, rest = host ++ after ∧
      UriHost.Named host decoded ∧ (host.head? = some (byte '[') ∨ after = [] ∨ after.head? = some (byte ':')) ∧
      outcome (readPort { uri with host := decoded } after) := by
  rw [readAddress]
  constructor
  · intro read
    obtain ⟨⟨host, after⟩, found, behind⟩ := (follows.bind (readHost_mild authority rest)).1 read
    obtain ⟨decoded, set, last⟩ := (follows.bind (host_mild host)).1 behind
    obtain ⟨rfl, ends⟩ := readHost_parts found
    refine ⟨host, after, decoded, rfl, UriHost.set_iff.1 set, ends.imp_left fun bracket => ?_, last⟩
    cases host with
    | nil => cases set
    | cons first host => exact bracket
  · rintro ⟨host, after, decoded, rfl, named, ends, holds⟩
    exact (follows.bind (readHost_mild authority _)).2 ⟨(host, after), readHost_named named ends,
      (follows.bind (host_mild host)).2 ⟨decoded, UriHost.set_iff.2 named, holds⟩⟩

/-- An authority is read up to its address. -/
theorem outcome_authority {address : Text → Prop}
    (each : ∀ uri authority rest, outcome (readAddress uri authority rest) ↔ address rest) (authority : Text) :
    outcome (readAuthority uri authority) ↔ BehindUser address authority := by
  rw [readAuthority]
  split
  · rename_i user
    constructor
    · intro read
      obtain ⟨named, found, behind⟩ := (follows.bind (readUserinfo_mild _)).1 read
      obtain ⟨filled, coded⟩ := userinfo_iff.1 ⟨named, found⟩
      rw [← takeWhile_mark user]
      exact .user filled coded ((each _ _ _).1 behind)
    · intro divided
      cases divided with
      | bare plain behind => exact absurd user plain
      | @user userinfo rest filled coded behind =>
          have apart : ∀ char, isUserChar (toInt char) = true ∨ char = byte '%' ∨ isXdigit (toInt char) = true →
              char ≠ byte '@' := by
            apply octet_forall
            decide
          have plain : byte '@' ∉ userinfo := fun member => apart _ (coded.chars _ member) rfl
          rw [takeWhile_before plain, dropWhile_before plain]
          obtain ⟨named, found⟩ := userinfo_iff.2 ⟨filled, coded⟩
          exact (follows.bind (readUserinfo_mild _)).2 ⟨named, found, (each _ _ _).2 behind⟩
  · rename_i plain
    rw [each]
    constructor
    · exact .bare plain
    · intro divided
      cases divided with
      | bare _ behind => exact behind
      | user => exact absurd (by simp) plain

end Outcomes

section Addresses

variable {uri : Uri} {rest : Text}

theorem readPort_fails {after : Text} :
    ¬ Mild (readPort uri after) ↔ ∃ port, after = byte ':' :: port ∧ OverlongPort port := by
  rw [readPort]
  split
  · rename_i colon
    obtain ⟨port, rfl⟩ : ∃ port, after = byte ':' :: port := List.head?_eq_some_iff.1 colon
    rw [List.drop_one, List.tail_cons]
    have same : ¬ Mild (UriPort.set port >>= fun port => .ok { uri with port }) ↔ ¬ Mild (UriPort.set port) := by
      rw [mild_bind, or_iff_left]
      rintro ⟨value, -, other⟩
      exact other (mild_ok _)
    refine same.trans ((port_mild port).trans ⟨fun overlong => ⟨port, rfl, overlong⟩, ?_⟩)
    rintro ⟨other, shape, overlong⟩
    cases shape
    exact overlong
  · rename_i other
    refine iff_of_false (not_not.2 (mild_ok _)) ?_
    rintro ⟨port, rfl, -⟩
    exact other rfl

theorem readAddress_fails (authority : Text) : ¬ Mild (readAddress uri authority rest) ↔ OverlongAddress rest := by
  refine (outcome_address fails_follows authority rest).trans ?_
  constructor
  · rintro ⟨host, after, decoded, rfl, named, -, failed⟩
    obtain ⟨port, rfl, overlong⟩ := readPort_fails.1 failed
    exact .port (hostText_iff.2 ⟨decoded, named⟩) overlong
  · intro divided
    cases divided with
    | @port host port named overlong =>
        obtain ⟨decoded, named⟩ := named.named
        exact ⟨host, _, decoded, rfl, named, .inr (.inr rfl), readPort_fails.2 ⟨port, rfl, overlong⟩⟩

theorem readAddress_accepts (authority : Text) :
    (∃ later, readAddress uri authority rest = .ok later) ↔ AcceptedAddress rest := by
  refine (outcome_address accepts_follows authority rest).trans ?_
  constructor
  · rintro ⟨host, after, decoded, rfl, named, ends, later, read⟩
    have valid := hostText_iff.2 ⟨decoded, named⟩
    obtain ⟨port, rfl, ranged, -⟩ | ⟨other, -⟩ := readPort_ok.1 read
    · exact .port valid ranged.1.1 ranged.1.2 ranged.2.1 ranged.2.2
    · obtain bracket | rfl | colon := ends
      · cases named with
        | address shape accepted same =>
            rw [shape]
            exact .ignored accepted other
        | regular filled found => exact absurd bracket (UriHost.regular_begins found)
      · rw [List.append_nil]
        exact .host valid
      · exact absurd colon other
  · intro divided
    cases divided with
    | host named =>
        obtain ⟨decoded, named⟩ := named.named
        exact ⟨rest, [], decoded, (List.append_nil rest).symm, named, .inr (.inl rfl), _,
          readPort_ok.2 (.inr ⟨by decide, rfl⟩)⟩
    | @port host port named filled digits lower upper =>
        obtain ⟨decoded, named⟩ := named.named
        exact ⟨host, _, decoded, rfl, named, .inr (.inr rfl), _,
          readPort_ok.2 (.inl ⟨port, rfl, ⟨⟨filled, digits⟩, lower, upper⟩, rfl⟩)⟩
    | @ignored inner extra accepted other =>
        exact ⟨_, extra, _, rfl, .address rfl accepted rfl, .inl rfl, _, readPort_ok.2 (.inr ⟨other, rfl⟩)⟩

theorem readAuthority_fails (authority : Text) :
    ¬ Mild (readAuthority uri authority) ↔ BehindUser OverlongAddress authority :=
  outcome_authority fails_follows (fun _ _ _ => readAddress_fails _) authority

theorem readAuthority_accepts (authority : Text) :
    (∃ later, readAuthority uri authority = .ok later) ↔ BehindUser AcceptedAddress authority :=
  outcome_authority accepts_follows (fun _ _ _ => readAddress_accepts _) authority

/-- An authority stands behind two slashes. -/
theorem slashes_of_cut {authority behind : Text} (divided : cut (text "//") inAuthority rest = (some authority, behind)) :
    ∃ more, rest = byte '/' :: byte '/' :: more ∧ behind = more.dropWhile inAuthority := by
  by_cases begins : text "//" <+: rest
  · obtain ⟨more, rfl⟩ := begins
    rw [cut_some, Prod.mk.injEq] at divided
    exact ⟨more, rfl, divided.2.symm⟩
  · have single : (text "//").isPrefixOf rest = false := by
      rw [Bool.eq_false_iff, Ne, List.isPrefixOf_iff_prefix]
      exact begins
    rw [cut_none single] at divided
    cases divided

/-- The authorities fail at the first port that is too large. -/
theorem readAuthorities_fails {count : Nat} (enough : rest.length < count) :
    ¬ Mild (readAuthorities count uri rest) ↔ OverlongAuthority rest := by
  induction count generalizing uri rest with
  | zero => exact absurd enough (Nat.not_lt_zero _)
  | succ count inductionHypothesis =>
      rw [readAuthorities]
      cases divided : cut (text "//") inAuthority rest with
      | mk authority behind =>
          cases authority with
          | none =>
              refine iff_of_false (not_not.2 (readTail_mild _)) fun overlong => ?_
              cases overlong with
              | here other => rw [divided] at other; cases other
              | behind other => rw [divided] at other; cases other
          | some authority =>
              have shorter : behind.length < count := by
                obtain ⟨more, rfl, rfl⟩ := slashes_of_cut divided
                have left := List.length_dropWhile_le inAuthority more
                simp only [List.length_cons] at enough
                omega
              dsimp only
              rw [mild_bind, readAuthority_fails]
              constructor
              · rintro (overlong | ⟨named, accepted, failed⟩)
                · exact .here divided overlong
                · exact .behind divided ((readAuthority_accepts authority).1 ⟨named, accepted⟩)
                    ((inductionHypothesis shorter).1 failed)
              · intro overlong
                cases overlong with
                | here other overlong =>
                    rw [divided] at other
                    cases other
                    exact .inl overlong
                | behind other accepted later =>
                    rw [divided] at other
                    cases other
                    obtain ⟨named, read⟩ := (readAuthority_accepts authority).2 accepted
                    exact .inr ⟨named, read, (inductionHypothesis shorter).2 later⟩

end Addresses

theorem noScheme_of_overlong {string : Text} (overlong : OverlongAuthority string) : NoScheme string := by
  obtain ⟨more, rfl⟩ : ∃ more, string = byte '/' :: more := by
    cases overlong with
    | here divided =>
        obtain ⟨more, shape, -⟩ := slashes_of_cut divided
        exact ⟨_, shape⟩
    | behind divided =>
        obtain ⟨more, shape, -⟩ := slashes_of_cut divided
        exact ⟨_, shape⟩
  rfl

theorem word_of_set {word scheme : Text} (set : UriScheme.set word = .ok scheme) : SchemeWord word := by
  rw [UriScheme.set] at set
  split at set
  · rename_i valid
    cases word with
    | nil => cases valid
    | cons first rest =>
        simp only [UriScheme.isValid, Bool.and_eq_true, List.all_eq_true, Bool.or_eq_true, decide_eq_true_eq,
          or_assoc] at valid
        exact .word valid.1 valid.2
  · cases set

/-- The parser fails otherwise than with a `bad_uri` exactly at a port that is too large. -/
theorem read_fails (string : Text) : ¬ Mild (read string) ↔ OverlongUri string := by
  constructor
  · intro failed
    rw [read] at failed
    split at failed
    · rename_i begins
      rw [Bool.and_eq_true] at begins
      obtain ⟨word, rest, shape, -, -⟩ := (beginsWithScheme_iff string).1 begins.2
      have colon : byte ':' ∈ string := by
        rw [shape]
        simp
      obtain ⟨scheme, set, failed⟩ := (scheme_mild _).bind.1 failed
      rw [← takeWhile_mark colon]
      exact .absolute (word_of_set set) ((readAuthorities_fails (Nat.lt_succ_self _)).1 failed)
    · exact .relative ((readAuthorities_fails (Nat.lt_succ_self _)).1 failed)
  · intro overlong
    cases overlong with
    | relative overlong =>
        rw [read_plain (noScheme_of_overlong overlong)]
        exact (readAuthorities_fails (Nat.lt_succ_self _)).2 overlong
    | @absolute scheme rest word overlong =>
        rw [read_scheme (Reference.word_set word)]
        exact (readAuthorities_fails (Nat.lt_succ_self _)).2 overlong

end Uri

namespace Checked

/-- The parser ends, and it reads no index after the terminator of its string. -/
theorem parse_inside (string : Text) : parse string ≠ .error .outside ∧ parse string ≠ .error .running := by
  rw [parse_eq]
  cases Uri.parse string <;> simp

theorem parse_mild {string : Text} :
    ((∃ uri, parse string = .ok uri) ∨ ∃ message, parse string = .error (.fault (.badUri message))) ↔
      Mild (Uri.read string) := by
  rw [parse_eq, Uri.parse_read]
  cases Uri.read string with
  | ok uri => exact iff_of_true (.inl ⟨uri, rfl⟩) (mild_ok uri)
  | error fault =>
      constructor
      · rintro (⟨uri, same⟩ | ⟨message, same⟩)
        · cases same
        · cases same
          exact mild_badUri message
      · intro mild
        obtain ⟨message, rfl⟩ := mild fault rfl
        exact .inr ⟨message, rfl⟩

/-- A port that does not fit into an `int` is the only reason for another exception than `bad_uri`. -/
theorem parse_returns_or_throws_iff (string : Text) :
    ((∃ uri, parse string = .ok uri) ∨ ∃ message, parse string = .error (.fault (.badUri message))) ↔
      ¬ OverlongUri string := by
  rw [parse_mild, ← Uri.read_fails, not_not]

/-- The number of this port is two to the power of thirty-one. -/
theorem parse_overlong_port :
    ¬ ((∃ uri, parse (text "//a:2147483648") = .ok uri) ∨
      ∃ message, parse (text "//a:2147483648") = .error (.fault (.badUri message))) := by
  rw [parse_mild, Uri.read_fails]
  have host : HostText (text "a") := .name (by decide) (.plain (by decide) .nothing)
  have port : OverlongPort (text "2147483648") := ⟨by decide, by decide, by decide⟩
  have address : OverlongAddress (text "a:2147483648") := .port host port
  exact .relative (.here rfl (.bare (by decide) address))

end Checked

end SimpleNFast.Http
