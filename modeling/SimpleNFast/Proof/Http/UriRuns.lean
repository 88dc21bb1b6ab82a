import SimpleNFast.Proof.Http.UriTarget

namespace SimpleNFast.Http

theorem ok_of_bind {first second : Type} {program : Except Fault first} {next : first → Except Fault second}
    {result : second} (run : (program >>= next) = .ok result) :
    ∃ value, program = .ok value ∧ next value = .ok result := by
  cases program with
  | error fault => cases run
  | ok value => exact ⟨value, rfl, run⟩

namespace Uri

variable {string : Text} {uri later : Uri} {index next : Nat} {seen after : Bool}

/-- A component other than the path follows, or the string ends. -/
def Settled (string : Text) (index : Nat) : Prop :=
  index < string.length → charAt string index = byte '?' ∨ charAt string index = byte '#'

/-- The reader of one pass, with the character that it begins at. -/
inductive Pass (string : Text) (uri : Uri) (index : Nat) : Nat × Uri → Prop where
  | scheme {next : Nat × Uri} (apart : charAt string index ≠ byte '?' ∧ charAt string index ≠ byte '#')
      (parsed : parseScheme uri string index = .ok next) : Pass string uri index next
  | authority {next : Nat × Uri} (apart : charAt string index ≠ byte '?' ∧ charAt string index ≠ byte '#')
      (parsed : parseAuthority uri string index = .ok next) : Pass string uri index next
  | path {next : Nat × Uri} (apart : charAt string index ≠ byte '?' ∧ charAt string index ≠ byte '#')
      (parsed : parsePath uri string index = .ok next) : Pass string uri index next
  | query {next : Nat × Uri} (parsed : parseQuery uri string index = .ok next) : Pass string uri index next
  | fragment {next : Nat × Uri} (parsed : parseFragment uri string index = .ok next) : Pass string uri index next

theorem pass_of_parseComponent (parsed : parseComponent uri string index seen = .ok (next, later, after)) :
    Pass string uri index (next, later) := by
  rw [parseComponent] at parsed
  dsimp only at parsed
  split at parsed
  · rename_i slash
    have apart : charAt string index ≠ byte '?' ∧ charAt string index ≠ byte '#' := by
      rw [eq_of_beq slash]
      decide
    split at parsed
    · obtain ⟨_, read, same⟩ := ok_of_bind parsed
      cases same
      exact .authority apart read
    · obtain ⟨_, read, same⟩ := ok_of_bind parsed
      cases same
      exact .path apart read
  · split at parsed
    · obtain ⟨_, read, same⟩ := ok_of_bind parsed
      cases same
      exact .query read
    · rename_i notQuestion
      split at parsed
      · obtain ⟨_, read, same⟩ := ok_of_bind parsed
        cases same
        exact .fragment read
      · rename_i notHash
        have apart : charAt string index ≠ byte '?' ∧ charAt string index ≠ byte '#' :=
          ⟨by simpa using notQuestion, by simpa using notHash⟩
        split at parsed
        · obtain ⟨_, read, same⟩ := ok_of_bind parsed
          cases same
          exact .path apart read
        · split at parsed
          · obtain ⟨_, read, same⟩ := ok_of_bind parsed
            cases same
            exact .scheme apart read
          · obtain ⟨_, read, same⟩ := ok_of_bind parsed
            cases same
            exact .path apart read

theorem parseScheme_same (parsed : parseScheme uri string index = .ok (next, later)) :
    later.path = uri.path ∧ later.host = uri.host ∧ index < next := by
  rw [parseScheme] at parsed
  dsimp only at parsed
  split at parsed
  · cases parsed
  · obtain ⟨_, _, same⟩ := ok_of_bind parsed
    cases same
    exact ⟨rfl, rfl, by omega⟩

theorem getD_takeWhile (accepts : UInt8 → Bool) (rest : Text) (inside : (rest.takeWhile accepts).length < rest.length) :
    accepts (rest.getD (rest.takeWhile accepts).length 0) = false := by
  induction rest with
  | nil => cases inside
  | cons char rest inductionHypothesis =>
      rw [List.takeWhile_cons] at inside ⊢
      cases accepted : accepts char with
      | true =>
          simp only [accepted, if_true, List.length_cons, Nat.add_lt_add_iff_right] at inside
          exact inductionHypothesis inside
      | false => exact accepted

/-- Behind the characters that are taken the string ends, or a character follows that is not taken. -/
theorem charAt_takeWhile (accepts : UInt8 → Bool) (start : Nat)
    (inside : start + ((string.drop start).takeWhile accepts).length < string.length) :
    accepts (charAt string (start + ((string.drop start).takeWhile accepts).length)) = false := by
  have stopped := getD_takeWhile accepts (string.drop start) (by rw [List.length_drop]; omega)
  rwa [List.getD_eq_getElem?_getD, List.getElem?_drop, ← List.getD_eq_getElem?_getD] at stopped

theorem parseQuery_same (parsed : parseQuery uri string index = .ok (next, later)) :
    later.path = uri.path ∧ later.host = uri.host ∧ Settled string next ∧ index < next := by
  rw [parseQuery] at parsed
  dsimp only at parsed
  split at parsed
  · cases parsed
  · split at parsed
    · cases parsed
    · obtain ⟨_, _, same⟩ := ok_of_bind parsed
      cases same
      refine ⟨rfl, rfl, fun inside => Or.inr ?_, by omega⟩
      simpa using charAt_takeWhile (· != byte '#') (index + 1) inside

theorem parseFragment_same (parsed : parseFragment uri string index = .ok (next, later)) :
    later.path = uri.path ∧ later.host = uri.host ∧ Settled string next ∧ next = string.length := by
  rw [parseFragment] at parsed
  dsimp only at parsed
  split at parsed
  · cases parsed
  · split at parsed
    · cases parsed
    · obtain ⟨_, _, same⟩ := ok_of_bind parsed
      cases same
      exact ⟨rfl, rfl, fun inside => absurd inside (lt_irrefl _), rfl⟩

/-- The path is set once, and the host stays. -/
theorem parsePath_set (parsed : parsePath uri string index = .ok (next, later)) :
    (∃ path, uri.path.set path = .ok later.path) ∧ later.host = uri.host ∧ Settled string next ∧
      next = index + ((string.drop index).takeWhile fun char => char != byte '?' && char != byte '#').length := by
  rw [parsePath] at parsed
  dsimp only at parsed
  split at parsed
  · cases parsed
  · obtain ⟨_, set, same⟩ := ok_of_bind parsed
    cases same
    refine ⟨⟨_, set⟩, rfl, fun inside => ?_, rfl⟩
    have stopped := charAt_takeWhile (fun char => char != byte '?' && char != byte '#') index inside
    rw [Bool.and_eq_false_iff] at stopped
    simpa using stopped

/-- The characters that are taken and the one behind them begin the text. -/
theorem takeWhile_snoc {accepts : UInt8 → Bool} {rest : Text} {stop : UInt8} (visible : stop ≠ 0)
    (follows : rest.getD (rest.takeWhile accepts).length 0 = stop) :
    ∃ more, rest = rest.takeWhile accepts ++ stop :: more := by
  induction rest with
  | nil => exact absurd follows.symm visible
  | cons char rest inductionHypothesis =>
      rw [List.takeWhile_cons] at follows ⊢
      cases accepted : accepts char with
      | true =>
          simp only [accepted, if_true, List.length_cons, List.getD_cons_succ] at follows
          obtain ⟨more, split⟩ := inductionHypothesis follows
          refine ⟨more, ?_⟩
          rw [if_pos rfl, List.cons_append, ← split]
      | false =>
          simp only [accepted, Bool.false_eq_true, if_false, List.length_nil, List.getD_cons_zero] at follows
          exact ⟨rest, by simp [follows]⟩

/-- The host of an authority is a part of it. -/
theorem authorityHost_part {authority host : Text} {start ends : Nat}
    (found : authorityHost authority start = .ok (host, ends)) : host <:+: authority := by
  rw [authorityHost] at found
  dsimp only at found
  have inside : authority.drop start <:+: authority := (List.drop_suffix _ _).isInfix
  split at found
  · split at found
    · cases found
    · rename_i closing
      cases found
      have follows : (authority.drop start).getD ((authority.drop start).takeWhile (· != byte ']')).length 0 = byte ']' := by
        rw [List.getD_eq_getElem?_getD, List.getElem?_drop, ← List.getD_eq_getElem?_getD]
        simpa [charAt] using closing
      obtain ⟨more, split⟩ := takeWhile_snoc (by decide) follows
      refine List.IsInfix.trans ⟨[], more, ?_⟩ inside
      rw [List.nil_append, List.append_assoc, List.singleton_append, ← split]
  · cases found
    exact List.IsInfix.trans ( List.takeWhile_prefix _).isInfix inside

/-- A host comes from a part of the string. -/
def HostFrom (string host : Text) : Prop := host = [] ∨ ∃ part, part <:+: string ∧ UriHost.set part = .ok host

/-- The host and the port behind the user of an authority. -/
theorem parseAuthority_rest (named : Uri) {authority : Text} (inside : authority <:+: string) {begins stop : Nat}
    (parsed : (do
      let found ← authorityHost authority begins
      let host ← UriHost.set found.1
      if charAt authority found.2 == byte ':' then
        let port ← UriPort.set (authority.drop (found.2 + 1))
        pure (stop, { named with host, port })
      else pure (stop, { named with host })) = Except.ok (next, later)) :
    later.path = named.path ∧ HostFrom string later.host ∧ next = stop := by
  obtain ⟨⟨host, ends⟩, found, rest⟩ := ok_of_bind parsed
  obtain ⟨decoded, set, rest⟩ := ok_of_bind rest
  have part : host <:+: string := (authorityHost_part found).trans inside
  split at rest
  · obtain ⟨_, _, same⟩ := ok_of_bind rest
    cases same
    exact ⟨rfl, Or.inr ⟨host, part, set⟩, rfl⟩
  · cases rest
    exact ⟨rfl, Or.inr ⟨host, part, set⟩, rfl⟩

theorem parseAuthority_host (parsed : parseAuthority uri string index = .ok (next, later)) :
    later.path = uri.path ∧ HostFrom string later.host ∧ index < next := by
  rw [parseAuthority] at parsed
  dsimp only at parsed
  have inside : ((string.drop (index + 2)).takeWhile fun char =>
      char != byte '/' && char != byte '?' && char != byte '#') <:+: string :=
    ( List.takeWhile_prefix _).isInfix.trans (List.drop_suffix _ _).isInfix
  split at parsed
  · cases parsed
  · split at parsed
    · split at parsed
      · cases parsed
      · obtain ⟨decoded, _, rest⟩ := ok_of_bind parsed
        obtain ⟨_, same, rest⟩ := ok_of_bind rest
        cases same
        obtain ⟨path, host, rfl⟩ := parseAuthority_rest { uri with userinfo := decoded } inside rest
        exact ⟨path, host, by omega⟩
    · obtain ⟨path, host, rfl⟩ := parseAuthority_rest uri inside parsed
      exact ⟨path, host, by omega⟩

/-- The path is set once at most, and then only a query or a fragment follows. -/
structure Parsed (string : Text) (uri : Uri) (index : Nat) : Prop where
  path : uri.path = .empty ∨ (∃ path, UriPath.set .empty path = .ok uri.path) ∧ Settled string index
  host : HostFrom string uri.host

theorem Parsed.pass (parsed : Parsed string uri index) (inside : index < string.length)
    (pass : Pass string uri index (next, later)) : Parsed string later next := by
  -- A settled index stands before a question mark or a hash, so no other path begins there.
  have unset (apart : charAt string index ≠ byte '?' ∧ charAt string index ≠ byte '#') : uri.path = .empty := by
    obtain empty | ⟨_, settled⟩ := parsed.path
    · exact empty
    · exact ((settled inside).elim apart.1 apart.2).elim
  cases pass with
  | scheme apart read =>
      obtain ⟨path, host, -⟩ := parseScheme_same read
      exact ⟨Or.inl (path.trans (unset apart)), host ▸ parsed.host⟩
  | authority apart read =>
      obtain ⟨path, host, -⟩ := parseAuthority_host read
      exact ⟨Or.inl (path.trans (unset apart)), host⟩
  | path apart read =>
      obtain ⟨set, host, settled, -⟩ := parsePath_set read
      rw [unset apart] at set
      exact ⟨Or.inr ⟨set, settled⟩, host ▸ parsed.host⟩
  | query read =>
      obtain ⟨path, host, settled, -⟩ := parseQuery_same read
      exact ⟨parsed.path.imp path.trans fun ⟨set, _⟩ => ⟨path ▸ set, settled⟩, host ▸ parsed.host⟩
  | fragment read =>
      obtain ⟨path, host, settled, -⟩ := parseFragment_same read
      exact ⟨parsed.path.imp path.trans fun ⟨set, _⟩ => ⟨path ▸ set, settled⟩, host ▸ parsed.host⟩

theorem Parsed.loop (fuel : Nat) (parsed : Parsed string uri index)
    (ended : parseLoop string fuel uri index seen = .ok later) : ∃ last, Parsed string later last := by
  induction fuel generalizing uri index seen with
  | zero =>
      cases ended
      exact ⟨index, parsed⟩
  | succ fuel inductionHypothesis =>
      by_cases inside : index < string.length
      · rw [parseLoop_step inside] at ended
        obtain ⟨⟨next, middle, after⟩, read, rest⟩ := ok_of_bind ended
        exact inductionHypothesis (parsed.pass inside (pass_of_parseComponent read)) rest
      · rw [parseLoop, if_neg inside] at ended
        cases ended
        exact ⟨index, parsed⟩

/-- A parsed URI has an empty path or one that was set, and a host from a part of its text. -/
theorem parsed_of_parse (read : Uri.parse string = .ok uri) : ∃ last, Parsed string uri last :=
  Parsed.loop _ ⟨Or.inl rfl, Or.inl rfl⟩ read

end Uri

/-- The target of a well-formed request can be read from its parts. -/
theorem Request.WellFormed.target {request : Request} (valid : request.WellFormed) : Uri.Target request.uri := by
  obtain ⟨string, read⟩ := valid.parsed
  obtain ⟨last, parsed⟩ := Uri.parsed_of_parse read
  obtain empty | ⟨⟨path, set⟩, _⟩ := parsed.path
  · have absolute := valid.absolute
    rw [empty] at absolute
    cases absolute
  · obtain ⟨proper, component⟩ := UriPath.set_spec set valid.absolute valid.unescaped
    exact ⟨proper, component⟩

end SimpleNFast.Http
