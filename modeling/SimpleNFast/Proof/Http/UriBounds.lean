import SimpleNFast.Proof.Http.UriAccess

set_option maxRecDepth 100000

namespace SimpleNFast.Http

namespace Checked

open Components
open Turn (Passes)

variable {string : Text} {uri : Uri} {index : Nat}

/-- A scan ends behind the characters that do not stop it. -/
theorem scan_until {stops : UInt8 → Bool} (accepts : UInt8 → Bool) (apart : ∀ char, accepts char = !stops char)
    (start : Nat) :
    scan stops string start = .ok (start + ((string.drop start).takeWhile accepts).length) := by
  rw [scan_eq, ← funext apart]

theorem not_colon (char : UInt8) : (char != byte ':') = !(char == byte ':') := rfl

theorem inQuery_stops (char : UInt8) : inQuery char = !(char == byte '#') := rfl

theorem inPath_stops (char : UInt8) : inPath char = !(char == byte '?' || char == byte '#') := by
  rw [Bool.not_or]
  rfl

theorem inAuthority_stops (char : UInt8) :
    inAuthority char = !(char == byte '/' || char == byte '?' || char == byte '#') := by
  rw [Bool.not_or, Bool.not_or]
  rfl

theorem parseScheme_eq (inside : index < string.length) :
    parseScheme uri string index = ofFault (Uri.parseScheme uri string index) := by
  have short := (List.takeWhile_sublist (· != byte ':') (l := string.drop index)).length_le
  rw [List.length_drop] at short
  rw [parseScheme, scan_until _ not_colon, ok_bind, charAt_inside (by omega), ok_bind, substr_scan (Nat.le_of_lt inside),
    ok_bind, UriScheme.set_eq, Uri.parseScheme]
  dsimp only
  split
  · rfl
  · cases Http.UriScheme.set ((string.drop index).takeWhile (· != byte ':')) <;> rfl

theorem takeWhile_filled {accepts : UInt8 → Bool} (inside : index < string.length)
    (begins : accepts (Uri.charAt string index) = true) : (string.drop index).takeWhile accepts ≠ [] := by
  rw [drop_inside inside, List.takeWhile_cons, if_pos begins]
  exact List.cons_ne_nil _ _

/-- A path that is parsed has a character. -/
theorem parsePath_eq (inside : index < string.length) (begins : inPath (Uri.charAt string index) = true) :
    parsePath uri string index = ofFault (Uri.parsePath uri string index) := by
  have accepts : (fun char => char != byte '?' && char != byte '#') = inPath := rfl
  have filled := takeWhile_filled inside begins
  rw [parsePath, scan_until _ inPath_stops, ok_bind, substr_scan (Nat.le_of_lt inside), ok_bind, UriPath.isValid_eq,
    ok_bind, UriPath.set_eq _ filled, Uri.parsePath, accepts]
  dsimp only
  generalize (string.drop index).takeWhile inPath = path
  cases Http.UriPath.isValid path with
  | false => rfl
  | true => cases uri.path.set path <;> rfl

theorem parseQuery_eq (inside : index < string.length) :
    parseQuery uri string index = ofFault (Uri.parseQuery uri string index) := by
  have accepts : (fun char => char != byte '#') = inQuery := rfl
  have next : index + 1 ≤ string.length := inside
  rw [parseQuery, charAt_inside (Nat.le_of_lt inside), ok_bind, scan_until _ inQuery_stops, ok_bind,
    substr_scan next, ok_bind, valid_eq, ok_bind, decode_eq, Uri.parseQuery, accepts]
  dsimp only
  generalize (string.drop (index + 1)).takeWhile inQuery = query
  cases Uri.charAt string index != byte '?' with
  | true => rfl
  | false =>
      cases query.isEmpty with
      | true => rfl
      | false =>
          cases validKeeping componentKeeps query with
          | false => rfl
          | true => cases decodeOrThrow componentKeeps "invalid component: " query <;> rfl

theorem parseFragment_eq (inside : index < string.length) :
    parseFragment uri string index = ofFault (Uri.parseFragment uri string index) := by
  have next : index + 1 ≤ string.length := inside
  rw [parseFragment, charAt_inside (Nat.le_of_lt inside), ok_bind, substrFrom_inside next, ok_bind, valid_eq, ok_bind,
    decode_eq, Uri.parseFragment]
  dsimp only
  generalize string.drop (index + 1) = fragment
  cases Uri.charAt string index != byte '#' with
  | true => rfl
  | false =>
      cases fragment.isEmpty with
      | true => rfl
      | false =>
          cases validKeeping componentKeeps fragment with
          | false => rfl
          | true => cases decodeOrThrow componentKeeps "invalid component: " fragment <;> rfl

section Authority

variable {auth : Text}

/-- A character that is not the terminator is inside of the string. -/
theorem inside_of_char {char : UInt8} (visible : char ≠ 0) (read : Uri.charAt auth index = char) :
    index < auth.length := by
  by_contra outside
  rw [Uri.charAt, List.getD_eq_getElem?_getD, List.getElem?_eq_none (not_lt.1 outside)] at read
  exact visible read.symm

theorem bracketPass_eq (start : Nat) :
    loop auth (bracketPass auth) (start, []) =
      let inner := (auth.drop start).takeWhile (· != byte ']')
      .ok (start + inner.length,
        inner ++ if Uri.charAt auth (start + inner.length) == byte ']' then [byte ']'] else []) := by
  let answer (now : Nat × Text) : Checked (Nat × Text) :=
    let inner := (auth.drop now.1).takeWhile (· != byte ']')
    .ok (now.1 + inner.length,
      now.2 ++ (inner ++ if Uri.charAt auth (now.1 + inner.length) == byte ']' then [byte ']'] else []))
  change _ = answer (start, [])
  refine loop_eq Prod.fst answer fun now => ?_
  obtain ⟨i, host⟩ := now
  rw [bracketPass]
  by_cases inside : i < auth.length
  · rw [if_pos inside, charAt_inside (Nat.le_of_lt inside), ok_bind]
    cases closing : Uri.charAt auth i == byte ']' with
    | true =>
        refine .ends ?_
        have read : Uri.charAt auth i = byte ']' := eq_of_beq closing
        simp [answer, drop_inside inside, read]
    | false =>
        refine .goes trivial (Nat.sub_succ_lt_self _ _ inside) ?_
        have other : (Uri.charAt auth i != byte ']') = true := by rw [bne, closing, Bool.not_false]
        simp only [answer, drop_inside inside, List.takeWhile_cons, other, if_true, List.length_cons]
        generalize (auth.drop (i + 1)).takeWhile (· != byte ']') = inner
        have far : i + (inner.length + 1) = i + 1 + inner.length := by omega
        rw [far]
        simp
  · rw [if_neg inside]
    refine .ends ?_
    have none : Uri.charAt auth i ≠ byte ']' := fun read => inside (inside_of_char (by decide) read)
    simp [answer, List.drop_eq_nil_of_le (not_lt.1 inside), none]

theorem namePass_eq (start : Nat) :
    loop auth (namePass auth) (start, []) =
      let host := (auth.drop start).takeWhile fun char => char != byte ':' && char != byte '/'
      .ok (start + host.length, host) := by
  let answer (now : Nat × Text) : Checked (Nat × Text) :=
    let host := (auth.drop now.1).takeWhile fun char => char != byte ':' && char != byte '/'
    .ok (now.1 + host.length, now.2 ++ host)
  change _ = answer (start, [])
  refine loop_eq Prod.fst answer fun now => ?_
  obtain ⟨i, host⟩ := now
  rw [namePass]
  by_cases inside : i < auth.length
  · rw [if_pos inside, charAt_inside (Nat.le_of_lt inside), ok_bind]
    cases stopped : Uri.charAt auth i != byte ':' && Uri.charAt auth i != byte '/' with
    | true =>
        obtain ⟨colon, slash⟩ := Bool.and_eq_true_iff.1 stopped
        rw [if_neg (mt beq_iff_eq.1 (bne_iff_ne.1 colon)), if_neg (mt beq_iff_eq.1 (bne_iff_ne.1 slash))]
        refine .goes trivial (Nat.sub_succ_lt_self _ _ inside) ?_
        simp only [answer, drop_inside inside, List.takeWhile_cons, stopped, if_true, List.length_cons]
        simp [Nat.add_assoc, Nat.add_comm 1]
    | false =>
        have same : answer (i, host) = .ok (i, host) := by
          simp [answer, drop_inside inside, stopped]
        split
        · exact .ends same
        · rename_i colon
          rw [if_pos]
          · exact .ends same
          · have other : (Uri.charAt auth i != byte ':') = true := bne_iff_ne.2 (mt beq_iff_eq.2 colon)
            rw [other, Bool.true_and] at stopped
            exact beq_iff_eq.2 (by simpa using stopped)
  · rw [if_neg inside]
    refine .ends ?_
    simp [answer, List.drop_eq_nil_of_le (not_lt.1 inside)]

theorem takeWhile_inside {accepts : UInt8 → Bool} {start : Nat} (inside : start ≤ auth.length) :
    start + ((auth.drop start).takeWhile accepts).length ≤ auth.length := by
  have short := (List.takeWhile_sublist accepts (l := auth.drop start)).length_le
  rw [List.length_drop] at short
  omega

theorem authorityHost_eq {start : Nat} (inside : start ≤ auth.length) :
    authorityHost auth start = ofFault (Uri.authorityHost auth start) := by
  rw [authorityHost, charAt_inside inside, ok_bind, Uri.authorityHost]
  dsimp only
  split
  · rw [bracketPass_eq, ok_bind]
    dsimp only
    rw [charAt_inside (takeWhile_inside inside), ok_bind]
    generalize (auth.drop start).takeWhile (· != byte ']') = inner
    by_cases closing : Uri.charAt auth (start + inner.length) = byte ']'
    · simp only [closing, bne_self_eq_false, beq_self_eq_true, Bool.false_eq_true, if_false, if_true]
      rfl
    · simp only [bne_iff_ne.2 closing, if_true]
      rfl
  · rw [namePass_eq, ok_bind]
    rfl

theorem authorityHost_inside {start : Nat} (inside : start ≤ auth.length) {host : Text} {ends : Nat}
    (read : Uri.authorityHost auth start = .ok (host, ends)) : ends ≤ auth.length := by
  rw [Uri.authorityHost] at read
  dsimp only at read
  split at read
  · split at read
    · cases read
    · rename_i closing
      cases read
      have found : Uri.charAt auth (start + ((auth.drop start).takeWhile (· != byte ']')).length) = byte ']' := by
        simpa using closing
      exact inside_of_char (by decide) found
  · cases read
    exact takeWhile_inside inside

/-- The host and the port behind the user are read inside of the authority. -/
theorem parseAddress_eq {start : Nat} (inside : start ≤ auth.length) (named : Uri) (stop : Nat) :
    (parseAddress named auth start >>= fun uri => .ok (stop, uri)) =
      ofFault (do
        let (host, ends) ← Uri.authorityHost auth start
        let host ← Http.UriHost.set host
        let uri := { named with host }
        if Uri.charAt auth ends == byte ':' then
          let port ← Http.UriPort.set (auth.drop (ends + 1))
          pure (stop, { uri with port })
        else pure (stop, uri)) := by
  rw [parseAddress, authorityHost_eq inside]
  cases read : Uri.authorityHost auth start with
  | error fault => rfl
  | ok found =>
      obtain ⟨host, ends⟩ := found
      rw [ofFault_ok, ok_bind, ok_bind]
      dsimp only
      rw [UriHost.set_eq, charAt_inside (authorityHost_inside inside read)]
      cases Http.UriHost.set host with
      | error fault => rfl
      | ok host =>
          rw [ofFault_ok, ok_bind, ok_bind, ok_bind]
          cases colon : Uri.charAt auth ends == byte ':' with
          | false => rfl
          | true =>
              have next : ends + 1 ≤ auth.length := inside_of_char (by decide) (eq_of_beq colon)
              rw [if_pos rfl, if_pos rfl, substrFrom_inside next, ok_bind, UriPort.set_eq]
              cases Http.UriPort.set (auth.drop (ends + 1)) <;> rfl

/-- The user of an authority is read up to the first mark. -/
theorem parseUserinfo_eq (uri : Uri) :
    parseUserinfo uri auth =
      if byte '@' ∈ auth then
        ofFault ((Uri.readUserinfo uri (auth.takeWhile (· != byte '@'))).map fun uri =>
          (uri, (auth.takeWhile (· != byte '@')).length + 1))
      else .ok (uri, 0) := by
  rw [parseUserinfo, findFirstOf_eq, List.drop_zero]
  by_cases user : byte '@' ∈ auth
  · have taken : substr auth 0 (0 + (auth.takeWhile (· != byte '@')).length) = .ok (auth.takeWhile (· != byte '@')) :=
      substr_scan (Nat.zero_le _) _
    rw [if_pos user, if_pos user]
    dsimp only
    rw [taken, ok_bind, valid_eq, ok_bind, decode_eq, Nat.zero_add, Uri.readUserinfo, UriUserinfo.isValid]
    generalize auth.takeWhile (· != byte '@') = userinfo
    rw [UriUserinfo.set]
    cases !userinfo.isEmpty && validKeeping UriUserinfo.keeps userinfo with
    | false => rfl
    | true => cases decodeOrThrow UriUserinfo.keeps "invalid userinfo: " userinfo <;> rfl
  · rw [if_neg user, if_neg user]
    rfl

theorem parseAuthority_eq (inside : index < string.length) :
    parseAuthority uri string index = ofFault (Uri.parseAuthority uri string index) := by
  have accepts : (fun char => char != byte '/' && char != byte '?' && char != byte '#') = inAuthority := rfl
  have second : index + 1 ≤ string.length := inside
  rw [parseAuthority, charAt_inside (Nat.le_of_lt inside), ok_bind, charAt_inside second, ok_bind, Uri.parseAuthority,
    accepts]
  dsimp only
  cases slash : Uri.charAt string index != byte '/' with
  | true => rfl
  | false =>
      cases again : Uri.charAt string (index + 1) != byte '/' with
      | true => rfl
      | false =>
          have read : Uri.charAt string (index + 1) = byte '/' := by simpa using again
          have third : index + 2 ≤ string.length := inside_of_char (by decide) read
          simp only [Bool.false_eq_true, if_false, Bool.or_self]
          rw [scan_until _ inAuthority_stops, ok_bind, substr_scan third, ok_bind, parseUserinfo_eq]
          generalize (string.drop (index + 2)).takeWhile inAuthority = auth
          by_cases user : byte '@' ∈ auth
          · rw [if_pos user, if_pos user, Uri.readUserinfo]
            cases UriUserinfo.isValid (auth.takeWhile (· != byte '@')) with
            | false => rfl
            | true =>
                cases UriUserinfo.set (auth.takeWhile (· != byte '@')) with
                | error fault => rfl
                | ok decoded => exact parseAddress_eq (Uri.takeWhile_length_lt user) _ _
          · rw [if_neg user, if_neg user, ok_bind]
            exact parseAddress_eq (Nat.zero_le _) _ _

end Authority

/-- The look ahead finds the first colon or slash. -/
theorem aheadPass_eq (start : Nat) :
    loop string (aheadPass string) start =
      .ok (((string.drop start).find? fun char => char == byte ':' || char == byte '/').getD 0) := by
  refine loop_eq id (fun j =>
    .ok (((string.drop j).find? fun char => char == byte ':' || char == byte '/').getD 0)) fun j => ?_
  rw [aheadPass]
  by_cases inside : j < string.length
  · rw [if_pos inside, charAt_inside (Nat.le_of_lt inside), ok_bind]
    cases colon : Uri.charAt string j == byte ':' with
    | true =>
        refine .ends ?_
        rw [drop_inside inside, List.find?_cons, colon]
        rfl
    | false =>
        cases slash : Uri.charAt string j == byte '/' with
        | true =>
            refine .ends ?_
            rw [drop_inside inside, List.find?_cons, colon, slash]
            rfl
        | false =>
            refine .goes trivial (Nat.sub_succ_lt_self _ _ inside) ?_
            rw [drop_inside inside, List.find?_cons, colon, slash]
            rfl
  · rw [if_neg inside]
    refine .ends ?_
    rw [List.drop_eq_nil_of_le (not_lt.1 inside)]
    rfl

theorem ahead_colon (rest : Text) :
    ((rest.find? fun char => char == byte ':' || char == byte '/').getD 0 == byte ':') = Uri.beginsWithScheme rest := by
  rw [Uri.beginsWithScheme]
  cases rest.find? fun char => char == byte ':' || char == byte '/' <;> rfl

theorem parseComponent_eq (inside : index < string.length) (seen : Bool) :
    parseComponent uri string index seen = ofFault (Uri.parseComponent uri string index seen) := by
  have next : index + 1 ≤ string.length := inside
  rw [parseComponent, charAt_inside (Nat.le_of_lt inside), ok_bind, charAt_inside next, ok_bind, aheadPass_eq, ok_bind,
    ahead_colon, parseAuthority_eq inside, parseQuery_eq inside, parseFragment_eq inside, parseScheme_eq inside,
    Uri.parseComponent]
  dsimp only
  cases slash : Uri.charAt string index == byte '/' with
  | true =>
      have begins : inPath (Uri.charAt string index) = true := by
        rw [eq_of_beq slash]
        decide
      rw [parsePath_eq inside begins]
      cases Uri.charAt string (index + 1) == byte '/' with
      | true => cases Uri.parseAuthority uri string index <;> rfl
      | false => cases Uri.parsePath uri string index <;> rfl
  | false =>
      cases question : Uri.charAt string index == byte '?' with
      | true => cases Uri.parseQuery uri string index <;> rfl
      | false =>
          cases hash : Uri.charAt string index == byte '#' with
          | true => cases Uri.parseFragment uri string index <;> rfl
          | false =>
              have begins : inPath (Uri.charAt string index) = true := by
                rw [inPath_stops, question, hash]
                rfl
              rw [parsePath_eq inside begins]
              cases seen with
              | true => cases Uri.parsePath uri string index <;> rfl
              | false =>
                  cases Uri.beginsWithScheme (string.drop index) with
                  | true => cases Uri.parseScheme uri string index <;> rfl
                  | false => cases Uri.parsePath uri string index <;> rfl

/-- Each pass of the parser moves its index on. -/
theorem parseComponent_moves (inside : index < string.length) {seen after : Bool} {next : Nat} {later : Uri}
    (parsed : Uri.parseComponent uri string index seen = .ok (next, later, after)) : index < next := by
  cases Uri.pass_of_parseComponent parsed with
  | scheme apart read => exact (Uri.parseScheme_same read).2.2
  | authority apart read => exact (Uri.parseAuthority_host read).2.2
  | path apart read =>
      obtain ⟨-, -, -, rfl⟩ := Uri.parsePath_set read
      have begins : inPath (Uri.charAt string index) = true := by
        rw [inPath_stops, beq_eq_false_iff_ne.2 apart.1, beq_eq_false_iff_ne.2 apart.2]
        rfl
      exact Nat.lt_add_of_pos_right (List.length_pos_of_ne_nil (takeWhile_filled inside begins))
  | query read => exact (Uri.parseQuery_same read).2.2.2
  | fragment read => exact (Uri.parseFragment_same read).2.2.2 ▸ inside

/-- Fuel for the characters that are left is enough. -/
theorem parseLoop_fuel {fuel count : Nat} {seen : Bool} (enough : string.length - index ≤ fuel)
    (more : string.length - index ≤ count) :
    Uri.parseLoop string fuel uri index seen = Uri.parseLoop string count uri index seen := by
  induction fuel generalizing count uri index seen with
  | zero =>
      have outside : ¬ index < string.length := by omega
      cases count with
      | zero => rfl
      | succ count =>
          rw [Uri.parseLoop.eq_2, if_neg outside]
          rfl
  | succ fuel inductionHypothesis =>
      by_cases inside : index < string.length
      · obtain ⟨count, rfl⟩ : ∃ smaller, count = smaller + 1 := ⟨count - 1, by omega⟩
        rw [Uri.parseLoop_step inside, Uri.parseLoop_step inside]
        cases parsed : Uri.parseComponent uri string index seen with
        | error fault => rfl
        | ok found =>
            obtain ⟨next, later, after⟩ := found
            have moves := parseComponent_moves inside parsed
            exact inductionHypothesis (by omega) (by omega)
      · cases count with
        | zero =>
            rw [Uri.parseLoop.eq_2, if_neg inside]
            rfl
        | succ count => rw [Uri.parseLoop.eq_2, Uri.parseLoop.eq_2, if_neg inside, if_neg inside]

/-- The parser with checked reads is the parser: it does not read outside of the string, and it ends. -/
theorem parse_eq (string : Text) : parse string = ofFault (Uri.parse string) := by
  refine loop_eq Prod.fst (fun now : Nat × Uri × Bool =>
    ofFault (Uri.parseLoop string (string.length - now.1) now.2.1 now.1 now.2.2)) fun now => ?_
  obtain ⟨i, uri, seen⟩ := now
  rw [parsePass]
  by_cases inside : i < string.length
  · obtain ⟨left, long⟩ : ∃ left, string.length - i = left + 1 := ⟨string.length - i - 1, by omega⟩
    rw [if_pos inside, parseComponent_eq inside]
    cases parsed : Uri.parseComponent uri string i seen with
    | error fault =>
        refine .fails ?_
        dsimp only
        rw [long, Uri.parseLoop_step inside, parsed]
        rfl
    | ok found =>
        obtain ⟨next, later, after⟩ := found
        have moves := parseComponent_moves inside parsed
        refine .goes trivial (by dsimp only; omega) ?_
        dsimp only
        rw [long, Uri.parseLoop_step inside, parsed]
        exact congrArg ofFault (parseLoop_fuel (by omega) le_rfl)
  · rw [if_neg inside]
    refine .ends ?_
    have ended : string.length - i = 0 := by omega
    dsimp only
    rw [ended]
    rfl

end Checked

end SimpleNFast.Http
